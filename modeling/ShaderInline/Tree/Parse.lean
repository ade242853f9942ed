import ShaderInline.Schema.Basic
import ShaderInline.Token.Lexer
import ShaderInline.Tree.Basic
import ShaderInline.Tree.Group

/-! # From tokens to a tree

Groups become nodes, and the patterns of the schema wrap runs of groups into
structural nodes, inside blocks as well as at the top. Nothing can fail: what
no pattern matches stays as it is.
-/

namespace ShaderInline

namespace Group

/-- Whether a pattern may pass over a group between two steps. -/
def isSkippable (singleLine : Bool) : Group → Bool
  | item i => i.token.kind.isTrivia || (!singleLine && i.token.kind == .newline)
  | _ => false

def endsLine : Group → Bool
  | item i => i.endsLine
  | _ => false

end Group

/-- A string token that ends with a quote of its own. -/
def Token.isQuoted (t : Token) : Bool :=
  t.kind == .string && 2 ≤ Text.size t.text && t.text.getLast? == some '"'

mutual

/-- Whether a single step accepts a group. -/
def Matcher.accepts (s : Schema) : Matcher → Group → Bool
  | .anyOf options, g => Matcher.anyAccepts s options g
  | .block k, .block d _ _ _ => k == .block d
  | .tag name, .item i =>
    i.token.kind == .tag && name.all fun n => s.tagName i.token.text == n
  | .quoted, .item i => i.token.isQuoted
  | .ident, .item i => i.token.kind == .ident
  | .keyword category, .item i =>
    i.token.kind == .keyword && s.category? i.token.text == some category
  | .word text, .item i => i.token.kind == .keyword && i.token.text == text
  | _, _ => false

def Matcher.anyAccepts (s : Schema) : List Matcher → Group → Bool
  | [], _ => false
  | m :: ms, g => Matcher.accepts s m g || Matcher.anyAccepts s ms g

end

namespace Pattern

/-- How many groups the given steps take from the head of a list; `first` tells that nothing
may be passed over before the first step. -/
def width? (s : Schema) (singleLine : Bool) :
    (first : Bool) → List Matcher → List Group → Option Nat
  | _, [], _ => some 0
  | first, m :: ms, gs =>
    let skipped := if first then 0 else (gs.takeWhile (Group.isSkippable singleLine)).length
    match m, gs.drop skipped with
    | .restOfLine, gs =>
      let taken := (gs.takeWhile (!Group.endsLine ·)).length
      (width? s singleLine false ms (gs.drop taken)).map (skipped + taken + ·)
    | _, [] => none
    | m, g :: gs =>
      if m.accepts s g then (width? s singleLine false ms gs).map (skipped + 1 + ·) else none

/-- How many groups a pattern takes; one without steps takes none. -/
def extent? (s : Schema) (p : Pattern) (gs : List Group) : Option Nat :=
  if p.matchers.isEmpty then none else width? s p.singleLine true p.matchers gs

end Pattern

namespace Schema

/-- The kind of the first pattern that matches at the head of a list and how many groups it
takes after the first one. Nothing starts at a blank, a comment or a line break. -/
def matchAt? (s : Schema) : List Group → Option (Kind × Nat)
  | [] => none
  | g :: gs =>
    if g.isSkippable false then none
    else s.patterns.findSome? fun p => (p.extent? s (g :: gs)).map fun n => (p.kind, n - 1)

end Schema

namespace Group

/-- Wrap the trees of a list of groups by the patterns that the groups match, after the first
`skip` groups, which are inside a node already. -/
def wrap (s : Schema) : (skip : Nat) → List Group → List Tree → List Tree
  | skip + 1, _ :: gs, _ :: ts => wrap s skip gs ts
  | 0, g :: gs, t :: ts =>
    match s.matchAt? (g :: gs) with
    | some (kind, extra) => .node kind (t :: ts.take extra) :: wrap s extra gs ts
    | none => t :: wrap s 0 gs ts
  | _, _, _ => []

def leafOf (i : Item) : Tree := .leaf i.token.kind i.token.text

mutual

def toTree (s : Schema) : Group → Tree
  | item i => leafOf i
  | stray i => .leaf .error i.token.text
  | block d o inside c =>
    .node (.block d)
      (leafOf o :: (wrap s 0 inside (toTrees s inside) ++ c.toList.map leafOf))

def toTrees (s : Schema) : List Group → List Tree
  | [] => []
  | g :: gs => toTree s g :: toTrees s gs

end

end Group

def Tree.ofTokens (s : Schema) (ts : List Token) : Tree :=
  let gs := Group.nest (Item.mark ts)
  .node .root (Group.wrap s 0 gs (Group.toTrees s gs))

/-- A parsed text: its tree, the schema it was read with and the faults found in it. -/
structure Document where
  schema : Schema
  root : Tree
  faults : List FaultAt

namespace Document

def parse (s : Schema) (t : Text) : Document :=
  let ts := Token.lex s t
  ⟨s, Tree.ofTokens s ts, Token.faults ts⟩

def text (d : Document) : Text := d.root.text

def size (d : Document) : Nat := d.root.size

/-- Documents are compared by their trees. -/
def same (d e : Document) : Bool := d.root == e.root

end Document
end ShaderInline
