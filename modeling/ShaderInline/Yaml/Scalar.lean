import ShaderInline.Text.Number
import ShaderInline.Yaml.Cursor

/-! # Reading YAML scalars

A plain scalar ends before a comment, a colon with a gap behind it or, in a flow
collection, one of its marks. A quoted scalar ends with its quote. Both may go on
over several lines, whose breaks are folded. A block scalar takes all lines that
are indented far enough.
-/

namespace ShaderInline.Yaml

inductive Style where
  | plain
  | quoted
  | literal
  | folded
  deriving DecidableEq, Repr

/-! ### Gaps between the words of a scalar -/

/-- What the breaks in a gap stand for: a single line feed is a space, and the first of several is
dropped. -/
def foldBreaks : Text → Text
  | ['\n'] => [' ']
  | '\n' :: more => more
  | breaks => breaks

/-- The breaks before the next word. No tab may stand left of the floor. -/
def breaks? (floor : Nat) : Nat → Cursor → Option (Text × Cursor)
  | 0, c => some ([], c)
  | fuel + 1, c =>
    match c.rest with
    | [] => some ([], c)
    | d :: _ =>
      if d == '\t' && c.column < floor then none
      else if isBlank d then breaks? floor fuel c.next
      else if isBreak d then
        (breaks? floor fuel c.nextLine).map fun (more, c) => (breakText d :: more, c)
      else some ([], c)

/-- What separates two words of a scalar. -/
structure Gap where
  /-- What the gap stands for. -/
  text : Text
  broken : Bool
  deriving Repr

def gap? (floor : Nat) (c : Cursor) : Option (Gap × Cursor) :=
  let blanks := c.rest.takeWhile isBlank
  let c := c.skip blanks.length
  if c.sees isBreak then
    (breaks? floor c.rest.length c).map fun (breaks, c) => (⟨foldBreaks breaks, true⟩, c)
  else some (⟨blanks, false⟩, c)

/-! ### Plain scalars -/

def isFlowMark (c : Char) : Bool := c == ',' || c == '[' || c == ']' || c == '{' || c == '}'

/-- A word of a plain scalar. In a flow collection no colon may stand directly before a mark. -/
def word? (inFlow : Bool) : Text → Option Text
  | [] => some []
  | c :: rest =>
    if isBlank c || isBreak c then some []
    else if inFlow && c == ':' && rest.head?.any (fun d => isFlowMark d || d == '?') then none
    else if (c == ':' && atGap rest) || (inFlow && isFlowMark c) then some []
    else (word? inFlow rest).map (c :: ·)

/-- The words of a plain scalar behind a gap. The flag of the result tells whether a line has
ended after the last of them. -/
def words? (inFlow : Bool) (floor : Nat) : Nat → Gap → Cursor → Option (Text × Bool × Cursor)
  | 0, _, _ => none
  | fuel + 1, gap, c =>
    if c.atDocumentMark || c.sees (· == '#') then some ([], gap.broken, c)
    else
      match word? inFlow c.rest with
      | none => none
      | some [] => some ([], gap.broken, c)
      | some word =>
        match gap? floor (c.skip word.length) with
        | none => none
        | some (next, c) =>
          if !inFlow && next.broken && c.column < floor then
            some (gap.text ++ word, true, c)
          else
            (words? inFlow floor fuel next c).map fun (more, broken, c) =>
              (gap.text ++ word ++ more, broken, c)

/-- A plain scalar. Its further lines are indented at least as far as the floor. -/
def plain? (inFlow : Bool) (floor : Nat) (c : Cursor) : Option (Text × Bool × Cursor) :=
  words? inFlow floor (c.rest.length + 1) ⟨[], false⟩ c

/-! ### Quoted scalars -/

def escapes : List (Char × Nat) :=
  [('0', 0x00), ('a', 0x07), ('b', 0x08), ('t', 0x09), ('\t', 0x09), ('n', 0x0a), ('v', 0x0b),
    ('f', 0x0c), ('r', 0x0d), ('e', 0x1b), (' ', 0x20), ('"', 0x22), ('/', 0x2f), ('\\', 0x5c),
    ('N', 0x85), ('_', 0xa0), ('L', 0x2028), ('P', 0x2029)]

/-- The character that an escape after its backslash stands for, and how long the escape is. -/
def escape? : Text → Option (Char × Nat)
  | [] => none
  | c :: rest =>
    let width := if c == 'x' then 2 else if c == 'u' then 4 else if c == 'U' then 8 else 0
    if width = 0 then (escapes.find? fun e => e.1 == c).map fun e => (Char.ofNat e.2, 1)
    else if rest.length < width then none
    else (Text.hexChar? (rest.take width)).map fun d => (d, width + 1)

/-- The rest of a quoted scalar up to its quote, and the place behind it. -/
def quotedRest? (quote : Char) : Nat → Cursor → Option (Text × Cursor)
  | 0, _ => none
  | fuel + 1, c =>
    let goOn (text : Text) (c : Cursor) : Option (Text × Cursor) :=
      (quotedRest? quote fuel c).map fun (more, c) => (text ++ more, c)
    match c.rest with
    | [] => none
    | d :: rest =>
      if d == quote then
        if quote == '\'' && rest.head? == some '\'' then goOn ['\''] (c.skip 2)
        else some ([], c.next)
      else if quote == '"' && d == '\\' then
        if rest.head?.any isBreak then
          match breaks? 0 rest.length c.next.nextLine with
          | none => none
          | some (breaks, c) => if c.atDocumentMark then none else goOn breaks c
        else
          match escape? rest with
          | none => none
          | some (e, width) => goOn [e] (c.skip (width + 1))
      else if isBlank d || isBreak d then
        match gap? 0 c with
        | none => none
        | some (gap, c) => if c.atDocumentMark then none else goOn gap.text c
      else goOn [d] c.next

def quoted? (c : Cursor) : Option (Text × Cursor) :=
  match c.rest with
  | [] => none
  | quote :: rest => quotedRest? quote (rest.length + 1) c.next

/-! ### Block scalars -/

/-- What happens to the breaks at the end of a block scalar. -/
inductive Chomp where
  | strip
  | clip
  | keep
  deriving DecidableEq, Repr

def chompOf? (c : Char) : Option Chomp :=
  if c == '-' then some .strip else if c == '+' then some .keep else none

/-- The header of a block scalar: what happens to its last breaks and how much further than its
surroundings it is indented, if that is told. -/
def blockHeader? (c : Cursor) : Option (Chomp × Nat × Cursor) :=
  let digit (d : Char) : Nat := d.toNat - 48
  match c.rest with
  | [] => some (.clip, 0, c)
  | a :: rest =>
    match chompOf? a with
    | some chomp =>
      match rest with
      | b :: _ =>
        if b == '0' then none
        else if b.isDigit then some (chomp, digit b, c.skip 2)
        else some (chomp, 0, c.next)
      | [] => some (chomp, 0, c.next)
    | none =>
      if a == '0' then none
      else if a.isDigit then
        match rest.head?.bind chompOf? with
        | some chomp => some (chomp, digit a, c.skip 2)
        | none => some (.clip, digit a, c.next)
      else some (.clip, 0, c)

/-- The breaks before the next line with content. Without an indent, all spaces are passed over,
and the largest column reached is told. A tab may not stand in the indentation. -/
def blockBreaks? (indent : Nat) : Nat → (widest : Nat) → Cursor → Option (Text × Nat × Cursor)
  | 0, widest, c => some ([], widest, c)
  | fuel + 1, widest, c =>
    let blanks := (c.rest.takeWhile (· == ' ')).length
    let c := c.skip (if indent = 0 then blanks else min blanks (indent - c.column))
    let widest := max widest c.column
    if (indent = 0 || c.column < indent) && c.sees (· == '\t') then none
    else
      match c.rest with
      | [] => some ([], widest, c)
      | d :: _ =>
        if isBreak d then
          (blockBreaks? indent fuel widest c.nextLine).map fun (more, widest, c) =>
            (breakText d :: more, widest, c)
        else some ([], widest, c)

/-- The breaks between two lines of a folded scalar: a single one is a space, unless a line
starts with a blank. -/
def joinBlock (folded firstBlank secondBlank : Bool) (lead further : Text) : Text :=
  if folded && lead == ['\n'] && !firstBlank && !secondBlank then
    if further.isEmpty then [' '] else further
  else lead ++ further

/-- The lines of a block scalar. The break after the last line, the further breaks below it and
the first flag belong to what has been read. -/
def blockLines? (folded : Bool) (indent : Nat) (chomp : Chomp) :
    Nat → (lastBlank : Bool) → (lead further : Text) → Cursor → Option (Text × Cursor)
  | 0, _, _, _, _ => none
  | fuel + 1, lastBlank, lead, further, c =>
    if c.column == indent && !c.rest.isEmpty then
      let blank := c.sees isBlank
      let line := c.rest.takeWhile (!isBreak ·)
      let c := c.skip line.length
      let lead' := (c.rest.take 1).map breakText
      match blockBreaks? indent (c.rest.length + 1) 0 c.nextLine with
      | none => none
      | some (further', _, c) =>
        (blockLines? folded indent chomp fuel blank lead' further' c).map fun (more, c) =>
          (joinBlock folded lastBlank blank lead further ++ line ++ more, c)
    else
      match chomp with
      | .strip => some ([], c)
      | .clip => some (lead, c)
      | .keep => some (lead ++ further, c)

/-- A block scalar behind its mark. The floor is the least column of the surroundings. -/
def block? (folded : Bool) (floor : Nat) (c : Cursor) : Option (Text × Cursor) :=
  match blockHeader? c with
  | none => none
  | some (chomp, extra, c) =>
    match c.endLine? with
    | none => none
    | some c =>
      let given := if extra = 0 then 0 else floor - 1 + extra
      match blockBreaks? given (c.rest.length + 1) 0 c with
      | none => none
      | some (breaks, widest, c) =>
        let indent := if given = 0 then max (max widest floor) 1 else given
        blockLines? folded indent chomp (c.rest.length + 1) false [] breaks c

end ShaderInline.Yaml
