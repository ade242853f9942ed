import ShaderInline.Text.Char
import ShaderInline.Text.Basic

/-! # Lines and columns

A line ends with LF, with CR and LF, or with a lone CR. Lines and columns are
counted from one, columns in bytes.
-/

namespace ShaderInline

/-- The offsets at which the lines of a text start, and its size. -/
structure LineIndex where
  starts : List Nat
  size : Nat
  deriving DecidableEq, Repr

namespace LineIndex

/-- The starts of the lines after the first, in a text that starts at an offset. -/
def startsFrom : Nat → Text → List Nat
  | _, [] => []
  | offset, c :: cs =>
    let next := offset + c.utf8Size
    if c == '\n' || (c == '\r' && cs.head? != some '\n') then next :: startsFrom next cs
    else startsFrom next cs

def ofText (t : Text) : LineIndex := ⟨0 :: startsFrom 0 t, Text.size t⟩

/-- The line of an offset. A line owns the offset at which it starts, and the last line all
offsets past the end. -/
def line (x : LineIndex) (offset : Nat) : Nat := (x.starts.takeWhile (· ≤ offset)).length

/-- The line and the column of an offset; offsets past the end count as the end. -/
def lineCol (x : LineIndex) (offset : Nat) : Nat × Nat :=
  let offset := min offset x.size
  let line := x.line offset
  (line, offset - x.starts.getD (line - 1) 0 + 1)

def lineCount (x : LineIndex) : Nat := x.starts.length

def lineStart? (x : LineIndex) : Nat → Option Nat
  | 0 => none
  | n + 1 => x.starts[n]?

end LineIndex
end ShaderInline
