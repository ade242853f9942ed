import ShaderInline.Edit

/-! # Defines

Defines are names with or without a value, in the order of the names. They are
written as one block of lines right after the leading version line.
-/

namespace ShaderInline

/-- An order of texts by their characters is an order by their bytes, too. -/
theorem Text.lt_trichotomy (a b : Text) : a < b ∨ a = b ∨ b < a := by
  rcases Classical.em (a < b) with h | h
  · exact .inl h
  · rcases Classical.em (b < a) with h' | h'
    · exact .inr (.inr h')
    · exact .inr (.inl (List.le_antisymm (List.not_lt.mp h') (List.not_lt.mp h)))

/-- Names with their values, each name once and in order. -/
@[ext]
structure Defines where
  entries : List (Text × Option Text)
  sorted : entries.Pairwise fun a b => a.1 < b.1

namespace Defines

def empty : Defines := ⟨[], .nil⟩

def insertEntry (name : Text) (value : Option Text) :
    List (Text × Option Text) → List (Text × Option Text)
  | [] => [(name, value)]
  | e :: es =>
    if name < e.1 then (name, value) :: e :: es
    else if name = e.1 then (name, value) :: es
    else e :: insertEntry name value es

theorem mem_insertEntry {name : Text} {value : Option Text} {e : Text × Option Text} :
    ∀ {es : List (Text × Option Text)}, e ∈ insertEntry name value es →
      e = (name, value) ∨ e ∈ es
  | [], h => by simpa [insertEntry] using h
  | f :: es, h => by
    unfold insertEntry at h
    split at h
    · simpa using h
    · split at h
      · rcases List.mem_cons.mp h with h | h
        · exact .inl h
        · exact .inr (List.mem_cons_of_mem _ h)
      · rcases List.mem_cons.mp h with h | h
        · exact .inr (h ▸ List.mem_cons_self)
        · exact (mem_insertEntry h).imp id (List.mem_cons_of_mem _)

theorem insertEntry_sorted (name : Text) (value : Option Text) :
    ∀ {es : List (Text × Option Text)}, (es.Pairwise fun a b => a.1 < b.1) →
      (insertEntry name value es).Pairwise fun a b => a.1 < b.1
  | [], _ => by simp [insertEntry]
  | e :: es, h => by
    obtain ⟨first, rest⟩ := List.pairwise_cons.mp h
    unfold insertEntry
    split
    next lt =>
      refine List.pairwise_cons.mpr ⟨fun f mem => ?_, h⟩
      rcases List.mem_cons.mp mem with rfl | mem
      · exact lt
      · exact List.lt_trans lt (first f mem)
    next not_lt =>
      split
      next eq => exact List.pairwise_cons.mpr ⟨fun f mem => eq ▸ first f mem, rest⟩
      next ne =>
        refine List.pairwise_cons.mpr ⟨fun f mem => ?_, insertEntry_sorted name value rest⟩
        rcases mem_insertEntry mem with rfl | mem
        · exact ((Text.lt_trichotomy name e.1).resolve_left not_lt).resolve_left ne
        · exact first f mem

/-- Give a name a value; one that it had before is replaced. -/
def insert (d : Defines) (name : Text) (value : Option Text) : Defines :=
  ⟨insertEntry name value d.entries, insertEntry_sorted name value d.sorted⟩

def ofList (es : List (Text × Option Text)) : Defines :=
  es.foldl (fun d e => d.insert e.1 e.2) empty

/-- The line of one define. An empty value is left out. -/
def line (name : Text) (value : Option Text) : Text :=
  "#define ".toList ++ name ++
    (match value with
      | some (c :: cs) => ' ' :: c :: cs
      | _ => []) ++ ['\n']

def render (d : Defines) : Text := d.entries.flatMap fun e => line e.1 e.2

/-- A name is a word of ASCII letters, digits and underscores that starts with no digit. -/
def isIdentifier : Text → Bool
  | [] => false
  | c :: cs => Text.isWordStart c && cs.all Text.isWordPart

inductive Problem where
  | invalidName (name : Text)
  | multiLineValue (name : Text)
  /-- The form `NAME` or `NAME=VALUE` is not kept. -/
  | invalidForm (form : Text)
  deriving DecidableEq, Repr

def Problem.message : Problem → Text
  | invalidName name => "invalid define name '".toList ++ name ++ ['\'']
  | multiLineValue name => "define '".toList ++ name ++ "' has a multi-line value".toList
  | invalidForm form =>
    "invalid define '".toList ++ form ++ "': expected NAME or NAME=VALUE".toList

def Problem.failure (p : Problem) : Failure := .config p.message

/-- A name has to be an identifier and a value has to fit on one line. -/
def check (name : Text) (value : Option Text) : Except Failure Unit :=
  if !isIdentifier name then .error (Problem.invalidName name).failure
  else if value.any fun v => v.any Text.isLineBreak then
    .error (Problem.multiLineValue name).failure
  else .ok ()

def checkAll : List (Text × Option Text) → Except Failure Unit
  | [] => .ok ()
  | (name, value) :: rest =>
    match check name value with
    | .error f => .error f
    | .ok () => checkAll rest

def versionName : Text := "version".toList

/-- Check the defines and that the document has a line to put them after. -/
def validate (d : Defines) (doc : Document) (source : Text) : Except Failure Unit :=
  if d.entries.isEmpty then .ok ()
  else
    match checkAll d.entries with
    | .error f => .error f
    | .ok () =>
      match doc.leadingDirective? versionName with
      | some _ => .ok ()
      | none => .error (.missingVersion source)

/-- Insert the block of defines after the leading version line. Without such a line there must
be no defines, and the document stays as it is. -/
def inject (d : Defines) (doc : Document) (source : Text) : Except Failure Document :=
  match d.validate doc source with
  | .error f => .error f
  | .ok () =>
    match doc.leadingDirective? versionName with
    | none => .ok doc
    | some version =>
      let offset := doc.endOfLine version.stop
      let ended := (Text.takeBytes offset doc.text).getLast?.any Text.isLineBreak
      let block := if ended then d.render else '\n' :: d.render
      doc.commit [.insert (.offset offset) block]

/-- Read `NAME` or `NAME=VALUE`. -/
def parse (form : Text) : Except Failure (Text × Option Text) :=
  let (name, value) :=
    match Text.breakAt? '=' form with
    | some (name, value) => (Text.trim name, some (Text.trim value))
    | none => (Text.trim form, none)
  if isIdentifier name then .ok (name, value) else .error (Problem.invalidForm form).failure

end Defines
end ShaderInline
