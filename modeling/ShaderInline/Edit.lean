import ShaderInline.Failure
import ShaderInline.Tree.View

/-! # Editing by batches

All edits of a batch address the text before the batch. They are applied in
one sweep from left to right, and the result is parsed anew.
-/

namespace ShaderInline

/-- A place for new text, relative to the tree before the edit. -/
inductive Position where
  | before (start stop : Nat)
  | after (start stop : Nat)
  /-- Just inside the opening delimiter of a block. -/
  | startOf (n : Node)
  /-- Just inside the closing delimiter of a block. -/
  | endOf (n : Node)
  | offset (n : Nat)

def Position.resolve : Position → Nat
  | before start _ => start
  | after _ stop => stop
  | startOf n => if n.kind.isBlock then n.innerStart else n.start
  | endOf n => if n.kind.isBlock then n.innerStop else n.stop
  | offset n => n

/-- A range of a text and how what stands there changes. -/
structure Edit where
  start : Nat
  stop : Nat
  change : Text → Text

namespace Edit

def insert (p : Position) (t : Text) : Edit := ⟨p.resolve, p.resolve, fun _ => t⟩

def replace (start stop : Nat) (t : Text) : Edit := ⟨start, stop, fun _ => t⟩

def transform (n : Node) (f : Text → Text) : Edit := ⟨n.start, n.stop, f⟩

/-- The first end of a range that is not between two characters of the text. -/
def misplaced? (t : Text) (edits : List Edit) : Option Nat :=
  (edits.flatMap fun e => [e.start, e.stop]).find? fun n => !Text.isBoundary n t

/-- Ranges in the order of the sweep: by start, then by stop. -/
def le (a b : Edit) : Bool := a.start < b.start || (a.start == b.start && a.stop ≤ b.stop)

def conflict (e : Edit) (cursor : Nat) : Failure :=
  .editConflict ("edit at ".toList ++ Text.decimal e.start ++ "..".toList ++ Text.decimal e.stop ++
    " overlaps a previous edit ending at ".toList ++ Text.decimal cursor)

/-- Apply edits in order to the part of a text that starts at an offset. -/
def sweep : (cursor : Nat) → (rest : Text) → List Edit → Except Failure Text
  | _, rest, [] => .ok rest
  | cursor, rest, e :: es =>
    if e.start < cursor then .error (e.conflict cursor)
    else
      let kept := Text.takeBytes (e.start - cursor) rest
      let rest := Text.dropBytes (e.start - cursor) rest
      let old := Text.takeBytes (e.stop - e.start) rest
      match sweep e.stop (Text.dropBytes (e.stop - e.start) rest) es with
      | .ok tail => .ok (kept ++ e.change old ++ tail)
      | .error f => .error f

/-- The text after a batch of edits. Edits of equal ranges keep the order of the batch. -/
def apply (t : Text) (edits : List Edit) : Except Failure Text :=
  match misplaced? t edits with
  | some offset => .error (.offsetOutOfRange offset (Text.size t))
  | none => sweep 0 t (edits.mergeSort le)

end Edit

def Document.commit (d : Document) (edits : List Edit) : Except Failure Document :=
  (Edit.apply d.text edits).map (Document.parse d.schema)

end ShaderInline
