import ShaderInline.Yaml.Token

/-! # Reading YAML

A text holds at most one document. Its root is a scalar, a list or a map.
-/

namespace ShaderInline

inductive Yaml where
  | scalar (style : Yaml.Style) (tag : Option Text) (text : Text)
  | seq (items : List Yaml)
  | map (members : List (Yaml × Yaml))
  /-- A node that aliases with this number stand for. -/
  | anchored (number : Nat) (node : Yaml)
  | alias (number : Nat)
  deriving Repr

namespace Yaml

/-- What stands where a node is missing. -/
def empty : Yaml := .scalar .plain none []

/-- Tokens still to be read, and the names of anchors with their numbers. -/
structure Feed where
  tokens : List Token
  anchors : List (Text × Nat)
  deriving Repr

/-- Give a name the next number, which counts the names known before. -/
def Feed.declare (f : Feed) (name : Text) : Nat × Feed :=
  let number := f.anchors.length
  (number, { f with anchors := (name, number) :: f.anchors.filter fun a => a.1 != name })

/-- The tags that handles stand for. -/
abbrev Handles := List (Text × Text)

/-- The anchor and the tag in front of a node, in either order. -/
def properties : List Token → Option Text × Option (Text × Text) × List Token
  | .anchor name :: .tag handle suffix :: ts => (some name, some (handle, suffix), ts)
  | .anchor name :: ts => (some name, none, ts)
  | .tag handle suffix :: .anchor name :: ts => (some name, some (handle, suffix), ts)
  | .tag handle suffix :: ts => (none, some (handle, suffix), ts)
  | ts => (none, none, ts)

def fullTag? (handles : Handles) : Text × Text → Option Text
  | ([], suffix) => some suffix
  | (handle, suffix) => (handles.find? fun h => h.1 == handle).map fun h => h.2 ++ suffix

/-- Whether an item of a list is missing, given what follows its dash. -/
def lacksItem (inMap : Bool) : List Token → Bool
  | .dash :: _ => true
  | .blockEnd :: _ => true
  | .key :: _ => inMap
  | .value :: _ => inMap
  | _ => false

/-- Whether a key or value of a map is missing, given what follows its mark. -/
def lacksMember : List Token → Bool
  | .key :: _ => true
  | .value :: _ => true
  | .blockEnd :: _ => true
  | _ => false

/-- Whether a key or value in a flow collection with a closing mark is missing. -/
def lacksFlow (close : Token) (afterKey : Bool) : List Token → Bool
  | t :: _ => t == .comma || t == close || (afterKey && t == .value)
  | [] => false

def pushed (y : Yaml) : Option (Yaml × Feed) → Option (Yaml × Feed)
  | some (.seq ys, f) => some (.seq (y :: ys), f)
  | _ => none

def joined (k v : Yaml) : Option (Yaml × Feed) → Option (Yaml × Feed)
  | some (.map ms, f) => some (.map ((k, v) :: ms), f)
  | _ => none

mutual

/-- A node. The flags tell whether it may be a block and whether it may be a list at the
indentation of the map around it. -/
def node? (hs : Handles) : Nat → (block indentless : Bool) → Feed → Option (Yaml × Feed)
  | 0, _, _, _ => none
  | fuel + 1, block, indentless, f =>
    match f.tokens with
    | .alias name :: ts =>
      (f.anchors.find? fun a => a.1 == name).map fun a => (.alias a.2, { f with tokens := ts })
    | tokens =>
      let (anchor, tag, ts) := properties tokens
      let (wrap, f) : (Yaml → Yaml) × Feed :=
        match anchor with
        | some name =>
          let (number, f) := f.declare name
          (.anchored number, { f with tokens := ts })
        | none => (id, { f with tokens := ts })
      let known := tag.all fun t => (fullTag? hs t).isSome
      let tag := tag.bind (fullTag? hs)
      let from? (ts : List Token) (read : Feed → Option (Yaml × Feed)) : Option (Yaml × Feed) :=
        (read { f with tokens := ts }).map fun (y, f) => (wrap y, f)
      let missing? : Option (Yaml × Feed) :=
        if anchor.isSome || tag.isSome then some (wrap (.scalar .plain tag []), f) else none
      if !known then none
      else
        match ts with
        | .scalar style text :: ts =>
          let tag := if tag == some ['!'] then none else tag
          some (wrap (.scalar style tag text), { f with tokens := ts })
        | .openSeq :: ts => from? ts (flowItems? hs fuel true)
        | .openMap :: ts => from? ts (flowMembers? hs fuel true)
        | .blockSeq :: ts => if block then from? ts (items? hs fuel) else missing?
        | .blockMap :: ts => if block then from? ts (members? hs fuel) else missing?
        | .dash :: _ => if indentless then from? ts (innerItems? hs fuel) else missing?
        | _ => missing?

def items? (hs : Handles) : Nat → Feed → Option (Yaml × Feed)
  | 0, _ => none
  | fuel + 1, f =>
    match f.tokens with
    | .dash :: ts =>
      match item? hs fuel (lacksItem false ts) { f with tokens := ts } with
      | none => none
      | some (y, f) => pushed y (items? hs fuel f)
    | .blockEnd :: ts => some (.seq [], { f with tokens := ts })
    | _ => none

/-- The items of a list at the indentation of the map around it. -/
def innerItems? (hs : Handles) : Nat → Feed → Option (Yaml × Feed)
  | 0, _ => none
  | fuel + 1, f =>
    match f.tokens with
    | .dash :: ts =>
      match item? hs fuel (lacksItem true ts) { f with tokens := ts } with
      | none => none
      | some (y, f) => pushed y (innerItems? hs fuel f)
    | _ => some (.seq [], f)

def item? (hs : Handles) : Nat → (lacks : Bool) → Feed → Option (Yaml × Feed)
  | 0, _, _ => none
  | fuel + 1, lacks, f => if lacks then some (empty, f) else node? hs fuel true false f

def members? (hs : Handles) : Nat → Feed → Option (Yaml × Feed)
  | 0, _ => none
  | fuel + 1, f =>
    match f.tokens with
    | .key :: ts =>
      match member? hs fuel { f with tokens := ts } with
      | none => none
      | some (k, f) =>
        let value? : Option (Yaml × Feed) :=
          match f.tokens with
          | .value :: ts => member? hs fuel { f with tokens := ts }
          | _ => some (empty, f)
        match value? with
        | none => none
        | some (v, f) => joined k v (members? hs fuel f)
    | .blockEnd :: ts => some (.map [], { f with tokens := ts })
    | _ => none

def member? (hs : Handles) : Nat → Feed → Option (Yaml × Feed)
  | 0, _ => none
  | fuel + 1, f =>
    if lacksMember f.tokens then some (empty, f) else node? hs fuel true true f

/-- The items of a flow list up to its end. Between two items stands a comma. -/
def flowItems? (hs : Handles) : Nat → (first : Bool) → Feed → Option (Yaml × Feed)
  | 0, _, _ => none
  | fuel + 1, first, f =>
    let ts? : Option (List Token) :=
      match f.tokens with
      | .closeSeq :: _ => some f.tokens
      | .comma :: ts => if first then some f.tokens else some ts
      | ts => if first then some ts else none
    match ts? with
    | none => none
    | some (.closeSeq :: ts) => some (.seq [], { f with tokens := ts })
    | some (.key :: ts) =>
      match pair? hs fuel { f with tokens := ts } with
      | none => none
      | some (y, f) => pushed y (flowItems? hs fuel false f)
    | some ts =>
      match node? hs fuel false false { f with tokens := ts } with
      | none => none
      | some (y, f) => pushed y (flowItems? hs fuel false f)

/-- A map of one member that stands for an item of a flow list. If its key is missing, what
follows the mark of the key is passed over. -/
def pair? (hs : Handles) : Nat → Feed → Option (Yaml × Feed)
  | 0, _ => none
  | fuel + 1, f =>
    let key? : Option (Yaml × Feed) :=
      if lacksFlow .closeSeq true f.tokens then some (empty, { f with tokens := f.tokens.drop 1 })
      else node? hs fuel false false f
    match key? with
    | none => none
    | some (k, f) =>
      (flowValue? hs fuel .closeSeq f).map fun (v, f) => (.map [(k, v)], f)

/-- The value of a member in a flow collection, which may be missing. -/
def flowValue? (hs : Handles) : Nat → (close : Token) → Feed → Option (Yaml × Feed)
  | 0, _, _ => none
  | fuel + 1, close, f =>
    match f.tokens with
    | .value :: ts =>
      let f := { f with tokens := ts }
      if lacksFlow close false ts then some (empty, f) else node? hs fuel false false f
    | _ => some (empty, f)

/-- The members of a flow map up to its end. Between two members stands a comma. -/
def flowMembers? (hs : Handles) : Nat → (first : Bool) → Feed → Option (Yaml × Feed)
  | 0, _, _ => none
  | fuel + 1, first, f =>
    let ts? : Option (List Token) :=
      match f.tokens with
      | .closeMap :: _ => some f.tokens
      | .comma :: ts => if first then some f.tokens else some ts
      | ts => if first then some ts else none
    match ts? with
    | none => none
    | some (.closeMap :: ts) => some (.map [], { f with tokens := ts })
    | some (.key :: ts) =>
      let f := { f with tokens := ts }
      let key? : Option (Yaml × Feed) :=
        if lacksFlow .closeMap true ts then some (empty, f) else node? hs fuel false false f
      match key? with
      | none => none
      | some (k, f) =>
        match flowValue? hs fuel .closeMap f with
        | none => none
        | some (v, f) => joined k v (flowMembers? hs fuel false f)
    | some ts =>
      match node? hs fuel false false { f with tokens := ts } with
      | none => none
      | some (k, f) => joined k empty (flowMembers? hs fuel false f)

end

/-! ### Documents -/

def directives : List Token → List Directive × List Token
  | .directive d :: ts =>
    let (ds, ts) := directives ts
    (d :: ds, ts)
  | ts => ([], ts)

def isVersion : Directive → Bool
  | .version .. => true
  | .handle .. => false

/-- A document may say only once which version it has, and only two versions are known. -/
def versionsFit (ds : List Directive) : Bool :=
  (ds.filter isVersion).length ≤ 1 && ds.all fun
    | .version major minor => major == 1 && (minor == 1 || minor == 2)
    | .handle .. => true

def standardHandles : Handles := [(['!'], ['!']), (['!', '!'], "tag:yaml.org,2002:".toList)]

/-- The handles of a document, none of which may be given twice. -/
def handles? (ds : List Directive) : Option Handles :=
  let given := ds.filterMap fun
    | .handle name lead => some (name, lead)
    | .version .. => none
  if given.any fun h => 1 < (given.filter fun g => g.1 == h.1).length then none
  else some (given ++ standardHandles)

def lacksContent : List Token → Bool
  | [] => true
  | .directive _ :: _ => true
  | .documentStart :: _ => true
  | .documentEnd :: _ => true
  | _ => false

/-- The root of the only document. -/
def root? (ts : List Token) : Option Yaml :=
  let fuel := 3 * ts.length + 8
  let alone (r : Option (Yaml × Feed)) : Option Yaml :=
    r.bind fun (y, f) =>
      if (f.tokens.dropWhile (· == .documentEnd)).isEmpty then some y else none
  let (ds, rest) := directives ts
  match rest with
  | .documentStart :: rest =>
    if !versionsFit ds then none
    else
      match handles? ds with
      | none => none
      | some hs =>
        if lacksContent rest then alone (some (empty, ⟨rest, []⟩))
        else alone (node? hs fuel true false ⟨rest, []⟩)
  | [] => if ds.isEmpty then some empty else none
  | rest => if ds.isEmpty then alone (node? standardHandles fuel true false ⟨rest, []⟩) else none

/-- Read a text that holds one document. An empty text is an empty plain scalar. -/
def parse? (t : Text) : Option Yaml := (tokens? t).bind root?

/-! ### Aliases -/

mutual

def anchored? (number : Nat) : Yaml → Option Yaml
  | .scalar .. => none
  | .alias _ => none
  | .seq items => anchoredItem? number items
  | .map members => anchoredMember? number members
  | .anchored n y =>
    match anchored? number y with
    | some z => some z
    | none => if n = number then some y else none

def anchoredItem? (number : Nat) : List Yaml → Option Yaml
  | [] => none
  | y :: ys =>
    match anchoredItem? number ys with
    | some z => some z
    | none => anchored? number y

def anchoredMember? (number : Nat) : List (Yaml × Yaml) → Option Yaml
  | [] => none
  | (k, v) :: ms =>
    match anchoredMember? number ms with
    | some z => some z
    | none =>
      match anchored? number v with
      | some z => some z
      | none => anchored? number k

end

/-- A node itself: what is anchored, or what an alias in a document stands for. -/
def target (root : Yaml) : Yaml → Yaml
  | .anchored _ y => y
  | .alias number => (anchored? number root).getD empty
  | y => y

end Yaml
end ShaderInline
