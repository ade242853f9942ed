import ShaderInline.Yaml.Property

/-! # YAML tokens

The structure that indentation gives a text is told by tokens of its own. A key
is known as such only at its colon, so the tokens of a key and of the map that it
opens are put in front of what has been read since a place where a key may start.
Such a key ends on its line and at most 1024 bytes behind its start.
-/

namespace ShaderInline.Yaml

inductive Token where
  | directive (d : Directive)
  | documentStart
  | documentEnd
  /-- A list whose items stand at one indentation. -/
  | blockSeq
  /-- A map whose keys stand at one indentation. -/
  | blockMap
  | blockEnd
  | openSeq
  | closeSeq
  | openMap
  | closeMap
  | comma
  | dash
  | key
  | value
  | alias (name : Text)
  | anchor (name : Text)
  | tag (handle suffix : Text)
  | scalar (style : Style) (text : Text)
  deriving DecidableEq, Repr

/-- A place where a key may start. -/
structure KeyPlace where
  /-- Whether nothing but a key can stand here. -/
  required : Bool
  /-- The number of tokens before it. -/
  index : Nat
  offset : Nat
  line : Nat
  column : Nat
  deriving Repr

/-- The most bytes between the start of a key and its colon. -/
def KeyPlace.reach : Nat := 1024

def KeyPlace.isPast (k : KeyPlace) (c : Cursor) : Bool :=
  k.line < c.line || k.offset + reach < c.offset

/-- What has been read of a text. -/
structure Scan where
  cursor : Cursor
  /-- The tokens, the last one first. -/
  tokens : List Token
  /-- The least column of what belongs to the innermost block, and those of the blocks around it. -/
  floor : Nat
  floors : List Nat
  /-- Where the key of the next colon may have started. -/
  place : Option KeyPlace
  /-- The same for each flow collection around the innermost one and for the block around all. -/
  places : List (Option KeyPlace)
  /-- Whether a key may start at the next token. -/
  keyAllowed : Bool
  deriving Repr

namespace Scan

def start (t : Text) : Scan := ⟨.start t, [], 0, [], none, [], true⟩

def inFlow (s : Scan) : Bool := !s.places.isEmpty

def push (s : Scan) (t : Token) : Scan := { s with tokens := t :: s.tokens }

/-- Put a token in front of those read since a place. -/
def insertAt (s : Scan) (index : Nat) (t : Token) : Scan :=
  let since := s.tokens.length - index
  { s with tokens := s.tokens.take since ++ t :: s.tokens.drop since }

def pushMark (s : Scan) (t : Token) : Scan := { s.push t with cursor := s.cursor.next }

/-! ### Blocks -/

/-- Close the blocks whose floor lies beyond a column, and count them. -/
def closedBlocks (least : Nat) : (floor : Nat) → List Nat → Nat × Nat × List Nat
  | floor, [] => (0, floor, [])
  | floor, outer :: floors =>
    if least < floor then
      let (n, floor, floors) := closedBlocks least outer floors
      (n + 1, floor, floors)
    else (0, floor, outer :: floors)

def closeBlocks (s : Scan) (least : Nat) : Scan :=
  if s.inFlow then s
  else
    let (n, floor, floors) := closedBlocks least s.floor s.floors
    { s with tokens := List.replicate n .blockEnd ++ s.tokens, floor, floors }

/-- Open a block at a column, unless the innermost one starts there. Its token is put at an
index. -/
def openBlock (s : Scan) (column index : Nat) (t : Token) : Scan :=
  if s.inFlow || column < s.floor then s
  else { s.insertAt index t with floor := column + 1, floors := s.floor :: s.floors }

/-! ### Keys -/

def dropPlace? (s : Scan) : Option Scan :=
  if s.place.any (·.required) then none else some { s with place := none }

/-- Take the present place as that of a key, if one may start here. -/
def markPlace? (s : Scan) : Option Scan :=
  if s.keyAllowed then
    let c := s.cursor
    let required := !s.inFlow && s.floor == c.column + 1
    s.dropPlace?.map fun s =>
      { s with place := some ⟨required, s.tokens.length, c.offset, c.line, c.column⟩ }
  else some s

/-- Give up the places that are too far back. -/
def dropPast? (s : Scan) : Option Scan :=
  let isPast (p : Option KeyPlace) : Bool := p.any (·.isPast s.cursor)
  let isLost (p : Option KeyPlace) : Bool := isPast p && p.any (·.required)
  let kept (p : Option KeyPlace) : Option KeyPlace := if isPast p then none else p
  if isLost s.place || s.places.any isLost then none
  else some { s with place := kept s.place, places := s.places.map kept }

/-! ### Single tokens -/

def document? (s : Scan) (t : Token) : Option Scan :=
  (s.closeBlocks 0).dropPlace?.map fun s =>
    { s.push t with cursor := s.cursor.skip 3, keyAllowed := false }

def directive? (s : Scan) : Option Scan :=
  match (s.closeBlocks 0).dropPlace?, Yaml.directive? s.cursor.next with
  | some s, some (d, cursor) => some { s.push (.directive d) with cursor, keyAllowed := false }
  | _, _ => none

def openFlow? (s : Scan) (t : Token) : Option Scan :=
  s.markPlace?.map fun s =>
    { s.pushMark t with place := none, places := s.place :: s.places, keyAllowed := true }

def closeFlow? (s : Scan) (t : Token) : Option Scan :=
  s.dropPlace?.map fun s =>
    let s := { s.pushMark t with keyAllowed := false }
    match s.places with
    | [] => s
    | place :: places => { s with place, places }

def comma? (s : Scan) : Option Scan :=
  s.dropPlace?.map fun s => { s.pushMark .comma with keyAllowed := true }

def dash? (s : Scan) : Option Scan :=
  if !s.inFlow && !s.keyAllowed then none
  else
    (s.openBlock s.cursor.column s.tokens.length .blockSeq).dropPlace?.map fun s =>
      { s.pushMark .dash with keyAllowed := true }

def key? (s : Scan) : Option Scan :=
  if !s.inFlow && !s.keyAllowed then none
  else
    (s.openBlock s.cursor.column s.tokens.length .blockMap).dropPlace?.map fun s =>
      { s.pushMark .key with keyAllowed := !s.inFlow }

def value? (s : Scan) : Option Scan :=
  match s.place with
  | some k =>
    let s := (s.insertAt k.index .key).openBlock k.column k.index .blockMap
    some { s.pushMark .value with place := none, keyAllowed := false }
  | none =>
    if !s.inFlow && !s.keyAllowed then none
    else
      let s := s.openBlock s.cursor.column s.tokens.length .blockMap
      some { s.pushMark .value with keyAllowed := !s.inFlow }

def anchor? (s : Scan) (token : Text → Token) : Option Scan :=
  match s.markPlace?, anchorName? s.cursor.next with
  | some s, some (name, cursor) => some { s.push (token name) with cursor, keyAllowed := false }
  | _, _ => none

def tag? (s : Scan) : Option Scan :=
  match s.markPlace?, Yaml.tag? s.inFlow s.cursor with
  | some s, some (handle, suffix, cursor) =>
    some { s.push (.tag handle suffix) with cursor, keyAllowed := false }
  | _, _ => none

def block? (s : Scan) (style : Style) : Option Scan :=
  match s.dropPlace?, Yaml.block? (style == .folded) s.floor s.cursor.next with
  | some s, some (text, cursor) =>
    some { s.push (.scalar style text) with cursor, keyAllowed := true }
  | _, _ => none

def quoted? (s : Scan) : Option Scan :=
  match s.markPlace?, Yaml.quoted? s.cursor with
  | some s, some (text, cursor) =>
    some { s.push (.scalar .quoted text) with cursor, keyAllowed := false }
  | _, _ => none

def plain? (s : Scan) : Option Scan :=
  match s.markPlace?, Yaml.plain? s.inFlow s.floor s.cursor with
  | some s, some (text, broken, cursor) =>
    some { s.push (.scalar .plain text) with cursor, keyAllowed := broken }
  | _, _ => none

/-! ### The whole text -/

/-- The marks that no plain scalar starts with. -/
def indicators : List Char :=
  [',', '[', ']', '{', '}', '#', '&', '*', '!', '|', '>', '\'', '"', '%', '@', '`']

/-- Whether a plain scalar starts with a character that is followed by a text. -/
def startsPlain (inFlow : Bool) (c : Char) (rest : Text) : Bool :=
  if c == '-' then !rest.head?.any isBlank
  else if c == '?' || c == ':' then !inFlow && !atGap rest
  else !indicators.contains c && !isBlank c && !isBreak c

/-- Pass over blanks, comments and line breaks to the next token. A tab may not stand where a key
can start. -/
def skipIdle : Nat → Scan → Scan
  | 0, s => s
  | fuel + 1, s =>
    let c := s.cursor
    let c := if c.column == 0 && c.sees (·.toNat == 0xfeff) then c.next else c
    let c := c.skipWhile fun d => d == ' ' || (d == '\t' && (s.inFlow || !s.keyAllowed))
    let c := if c.sees (· == '#') then c.skipWhile (!isBreak ·) else c
    if c.sees isBreak then
      skipIdle fuel { s with cursor := c.nextLine, keyAllowed := s.keyAllowed || !s.inFlow }
    else { s with cursor := c }

def token? (s : Scan) : Option Scan :=
  match s.cursor.rest with
  | [] => none
  | c :: rest =>
    if s.cursor.column == 0 && c == '%' then s.directive?
    else if s.cursor.atMarks '-' then s.document? .documentStart
    else if s.cursor.atMarks '.' then s.document? .documentEnd
    else if c == '[' then s.openFlow? .openSeq
    else if c == '{' then s.openFlow? .openMap
    else if c == ']' then s.closeFlow? .closeSeq
    else if c == '}' then s.closeFlow? .closeMap
    else if c == ',' then s.comma?
    else if c == '-' && atGap rest then s.dash?
    else if c == '?' && (s.inFlow || atGap rest) then s.key?
    else if c == ':' && (s.inFlow || atGap rest) then s.value?
    else if c == '*' then s.anchor? .alias
    else if c == '&' then s.anchor? .anchor
    else if c == '!' then s.tag?
    else if c == '|' && !s.inFlow then s.block? .literal
    else if c == '>' && !s.inFlow then s.block? .folded
    else if c == '\'' || c == '"' then s.quoted?
    else if startsPlain s.inFlow c rest then s.plain?
    else none

def tokens? : Nat → Scan → Option (List Token)
  | 0, _ => none
  | fuel + 1, s =>
    match (s.skipIdle (s.cursor.rest.length + 1)).dropPast? with
    | none => none
    | some s =>
      if s.cursor.rest.isEmpty then (s.closeBlocks 0).dropPlace?.map (·.tokens.reverse)
      else
        match (s.closeBlocks (s.cursor.column + 1)).token? with
        | none => none
        | some s => tokens? fuel s

end Scan

def isReadable (c : Char) : Bool :=
  let n := c.toNat
  n == 0x09 || n == 0x0a || n == 0x0d || (0x20 ≤ n && n ≤ 0x7e) || n == 0x85 ||
    (0xa0 ≤ n && n ≤ 0xfffd) || 0x10000 ≤ n

def tokens? (t : Text) : Option (List Token) :=
  if t.all isReadable then Scan.tokens? (t.length + 1) (.start t) else none

end ShaderInline.Yaml
