import ShaderInline.Token.Basic

/-! # Nesting tokens by their delimiters

An opening delimiter starts a block that the next matching closing one ends;
blocks left open inside are ended with it. A closing delimiter that matches no
open block is a stray. From a tag to the end of its line delimiters mean
nothing, so that a brace in a macro cannot unbalance a file.
-/

namespace ShaderInline

/-- A token, and whether it is a line break that ends its line. -/
structure Item where
  token : Token
  endsLine : Bool
  deriving DecidableEq, Repr

namespace Item

/-- Mark the line breaks that do not directly follow a backslash. -/
def markAfter (last : Text) : List Token → List Item
  | [] => []
  | t :: ts => ⟨t, t.kind == .newline && last != ['\\']⟩ :: markAfter t.text ts

def mark (ts : List Token) : List Item := markAfter [] ts

end Item

inductive Group where
  | item (i : Item)
  | stray (i : Item)
  | block (delimiter : Delimiter) (opener : Item) (inside : List Group) (closer : Option Item)
  deriving Repr

namespace Group

mutual

def items : Group → List Item
  | item i => [i]
  | stray i => [i]
  | block _ o inside c => o :: (itemsAll inside ++ c.toList)

def itemsAll : List Group → List Item
  | [] => []
  | g :: gs => items g ++ itemsAll gs

end

end Group

/-- A block that has not ended yet; what it holds so far stands in reverse. -/
structure OpenBlock where
  delimiter : Delimiter
  opener : Item
  inside : List Group
  deriving Repr

namespace OpenBlock

/-- End a block, first adding to it a block that was left open inside. -/
def toGroup (b : OpenBlock) (inner : Option Group) (closer : Option Item) : Group :=
  .block b.delimiter b.opener (inner.toList ++ b.inside).reverse closer

/-- End the innermost block of a delimiter together with the blocks inside it. -/
def close? (d : Delimiter) (closer : Item) :
    Option Group → List OpenBlock → Option (Group × List OpenBlock)
  | _, [] => none
  | inner, b :: bs =>
    if b.delimiter = d then some (b.toGroup inner (some closer), bs)
    else close? d closer (some (b.toGroup inner none)) bs

def closeAll (done : List Group) : Option Group → List OpenBlock → List Group
  | inner, [] => (inner.toList ++ done).reverse
  | inner, b :: bs => closeAll done (some (b.toGroup inner none)) bs

end OpenBlock

/-- The state of nesting: whether a tag's line is being read, the open blocks from the innermost
outwards, and the finished groups in reverse. -/
structure Nesting where
  inTagLine : Bool
  blocks : List OpenBlock
  done : List Group
  deriving Repr

namespace Nesting

def start : Nesting := ⟨false, [], []⟩

def push (g : Group) (n : Nesting) : Nesting :=
  match n.blocks with
  | [] => { n with done := g :: n.done }
  | b :: bs => { n with blocks := { b with inside := g :: b.inside } :: bs }

def step (n : Nesting) (i : Item) : Nesting :=
  if n.inTagLine && !i.endsLine then n.push (.item i)
  else
    let n := { n with inTagLine := i.token.kind == Kind.tag }
    match i.token.kind with
    | .opener d => { n with blocks := ⟨d, i, []⟩ :: n.blocks }
    | .closer d =>
      match OpenBlock.close? d i none n.blocks with
      | some (g, rest) => { n with blocks := rest }.push g
      | none => n.push (.stray i)
    | _ => n.push (.item i)

def finish (n : Nesting) : List Group := OpenBlock.closeAll n.done none n.blocks

end Nesting

namespace Group

def nest (is : List Item) : List Group := (is.foldl Nesting.step .start).finish

end Group
end ShaderInline
