import ShaderInline.Text.Search

/-! # Places in a YAML text

A place knows its line, its column in characters and its offset in bytes. Not
only line feeds and carriage returns end a line, but also the characters next
line, line separator and paragraph separator.
-/

namespace ShaderInline.Yaml

def isBlank (c : Char) : Bool := c == ' ' || c == '\t'

/-- The two separators, which stand for themselves within a scalar. -/
def isSeparator (c : Char) : Bool := c.toNat == 0x2028 || c.toNat == 0x2029

def isBreak (c : Char) : Bool := c == '\n' || c == '\r' || c.toNat == 0x85 || isSeparator c

/-- What a break within a scalar stands for. -/
def breakText (c : Char) : Char := if isSeparator c then c else '\n'

/-- Whether a text is at its end or goes on with a blank or a break. -/
def atGap (t : Text) : Bool := t.head?.all fun c => isBlank c || isBreak c

def isNameChar (c : Char) : Bool := c.isAlphanum || c == '_' || c == '-'

structure Cursor where
  /-- What follows the place. -/
  rest : Text
  /-- The number of bytes before it. -/
  offset : Nat
  line : Nat
  /-- The number of characters before it on its line. -/
  column : Nat
  deriving Repr

namespace Cursor

def start (t : Text) : Cursor := ⟨t, 0, 0, 0⟩

def next (c : Cursor) : Cursor :=
  match c.rest with
  | [] => c
  | d :: rest => ⟨rest, c.offset + d.utf8Size, c.line, c.column + 1⟩

def nextLine (c : Cursor) : Cursor :=
  match c.rest with
  | [] => c
  | '\r' :: '\n' :: rest => ⟨rest, c.offset + 2, c.line + 1, 0⟩
  | d :: rest => ⟨rest, c.offset + d.utf8Size, c.line + 1, 0⟩

def skip : Nat → Cursor → Cursor
  | 0, c => c
  | n + 1, c => skip n c.next

def skipWhile (p : Char → Bool) (c : Cursor) : Cursor := c.skip (c.rest.takeWhile p).length

def sees (p : Char → Bool) (c : Cursor) : Bool := c.rest.head?.any p

/-- Whether three equal marks alone start the line. -/
def atMarks (mark : Char) (c : Cursor) : Bool :=
  c.column == 0 && c.rest.take 3 == [mark, mark, mark] && atGap (c.rest.drop 3)

def atDocumentMark (c : Cursor) : Bool := c.atMarks '-' || c.atMarks '.'

/-- Pass over blanks and a comment to the end of the line, and over its break. -/
def endLine? (c : Cursor) : Option Cursor :=
  let c := c.skipWhile isBlank
  let c := if c.sees (· == '#') then c.skipWhile (!isBreak ·) else c
  if c.rest.isEmpty then some c
  else if c.sees isBreak then some c.nextLine
  else none

end Cursor
end ShaderInline.Yaml
