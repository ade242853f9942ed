import ShaderInline.Json.Reader
import ShaderInline.Toml.Moment
import ShaderInline.Toml.Printer
import ShaderInline.Toml.Table

/-! # Reading TOML -/

namespace ShaderInline.Toml

open Text (hexValue? dropSign)

def isBlank (c : Char) : Bool := c == ' ' || c == '\t'

def skipBlanks (t : Text) : Text := t.dropWhile isBlank

/-- A character that may stand in a comment or a string. -/
def isTextChar (c : Char) : Bool := c == '\t' || (0x20 ≤ c.toNat && c.toNat != 0x7f)

def lineBreak? : Text → Option Text
  | '\n' :: t => some t
  | '\r' :: '\n' :: t => some t
  | _ => none

/-- Pass over a comment. Its characters are checked. -/
def skipComment : Text → Option Text
  | '#' :: t =>
    let rest := t.dropWhile isTextChar
    if rest.isEmpty || (lineBreak? rest).isSome then some rest else none
  | t => some t

/-- Pass over blanks and a comment up to the end of a line. -/
def endLine? (t : Text) : Option Text :=
  (skipComment (skipBlanks t)).bind fun t => if t.isEmpty then some [] else lineBreak? t

/-- Pass over blanks, comments and line breaks. The first argument bounds the steps. -/
def skipLines : Nat → Text → Option Text
  | 0, t => some t
  | fuel + 1, t =>
    match skipComment (skipBlanks t) with
    | none => none
    | some t =>
      match lineBreak? t with
      | some t => skipLines fuel t
      | none => some t

/-- The character whose code is spelled by the first digits of a text, and the rest. -/
def code? (width : Nat) (t : Text) : Option (Char × Text) :=
  if t.length < width then none else (Text.hexChar? (t.take width)).map fun c => (c, t.drop width)

def escape? : Text → Option (Char × Text)
  | 'b' :: t => some (Char.ofNat 0x08, t)
  | 't' :: t => some ('\t', t)
  | 'n' :: t => some ('\n', t)
  | 'f' :: t => some (Char.ofNat 0x0c, t)
  | 'r' :: t => some ('\r', t)
  | 'e' :: t => some (Char.ofNat 0x1b, t)
  | '"' :: t => some ('"', t)
  | '\\' :: t => some ('\\', t)
  | 'x' :: t => code? 2 t
  | 'u' :: t => code? 4 t
  | 'U' :: t => code? 8 t
  | _ => none

/-- A text put in front of what a reader has read. -/
def prepend (s : Text) : Option (Text × Text) → Option (Text × Text) :=
  Option.map fun (t, rest) => (s ++ t, rest)

def basicBody : Nat → Text → Option (Text × Text)
  | 0, _ => none
  | fuel + 1, t =>
    match t with
    | [] => none
    | c :: rest =>
      if c == '"' then some ([], rest)
      else if c == '\\' then
        match escape? rest with
        | some (d, rest) => prepend [d] (basicBody fuel rest)
        | none => none
      else if isTextChar c then prepend [c] (basicBody fuel rest)
      else none

def literalBody : Text → Option (Text × Text)
  | [] => none
  | c :: rest =>
    if c == '\'' then some ([], rest)
    else if isTextChar c then prepend [c] (literalBody rest)
    else none

/-- Pass over blanks and line breaks. The first argument bounds the steps. -/
def skipGap : Nat → Text → Text
  | 0, t => t
  | fuel + 1, t =>
    match lineBreak? (skipBlanks t) with
    | some t => skipGap fuel t
    | none => skipBlanks t

/-- Pass over the blanks and line breaks after a backslash at the end of a line. -/
def joinLines (t : Text) : Option Text :=
  (lineBreak? (skipBlanks t)).map fun t => skipGap (t.length + 1) t

/-- A string up to three closing quotes. Up to two more quotes before them belong to it, and line
breaks stay as they are written. -/
def linesBody (q : Char) : Nat → Text → Option (Text × Text)
  | 0, _ => none
  | fuel + 1, t =>
    match t with
    | [] => none
    | c :: rest =>
      if c == q then
        let run := (t.takeWhile (· == q)).length
        if run < 3 then prepend (List.replicate run q) (linesBody q fuel (t.drop run))
        else if run ≤ 5 then some (List.replicate (run - 3) q, t.drop run)
        else none
      else if c == '\\' && q == '"' then
        match joinLines rest with
        | some rest => linesBody q fuel rest
        | none =>
          match escape? rest with
          | some (d, rest) => prepend [d] (linesBody q fuel rest)
          | none => none
      else if isTextChar c || (lineBreak? t).isSome then prepend [c] (linesBody q fuel rest)
      else none

/-- A string at the head of a text, in any of its four forms. -/
def string? (t : Text) : Option (Text × Text) :=
  let fuel := t.length + 1
  let body (t : Text) := (lineBreak? t).getD t
  match t with
  | '"' :: '"' :: '"' :: rest => linesBody '"' fuel (body rest)
  | '\'' :: '\'' :: '\'' :: rest => linesBody '\'' fuel (body rest)
  | '"' :: rest => basicBody fuel rest
  | '\'' :: rest => literalBody rest
  | _ => none

def simpleKey? (t : Text) : Option (Text × Text) :=
  match t with
  | '"' :: rest => basicBody (t.length + 1) rest
  | '\'' :: rest => literalBody rest
  | t =>
    let bare := t.takeWhile isBareChar
    if bare.isEmpty then none else some (bare, t.dropWhile isBareChar)

/-- The most parts that a key may have, and the most arrays and inline tables that may lie
within each other. -/
def maxDepth : Nat := 80

/-- A key with at most the given number of parts, and the rest after the blanks that follow it. -/
def parts? : Nat → Text → Option (List Text × Text)
  | 0, _ => none
  | n + 1, t =>
    match simpleKey? (skipBlanks t) with
    | none => none
    | some (k, rest) =>
      match skipBlanks rest with
      | '.' :: rest => (parts? n rest).map fun (ks, rest) => (k :: ks, rest)
      | rest => some ([k], rest)

def key? (t : Text) : Option (List Text × Text) := parts? maxDepth t

/-! ### Numbers -/

/-- Digits with underscores between them. -/
def isDigits (p : Char → Bool) (t : Text) : Bool :=
  let parts := Text.split '_' t
  parts.all fun part => !part.isEmpty && part.all p

def isDecimal (t : Text) : Bool :=
  isDigits Char.isDigit t && (t.length == 1 || t.head? != some '0')

def plainDigits (t : Text) : Text := t.filter (· != '_')

def isHexDigit (c : Char) : Bool := (hexValue? c).isSome

def inBase (base : Nat) (t : Text) : Nat :=
  (plainDigits t).foldl (fun n c => n * base + (hexValue? c).getD 0) 0

/-- An integer, which has to fit into 128 bits, with or without sign. -/
def ofInt? (n : Int) (t : Text) : Option Json :=
  if -(Json.limit63 : Int) ≤ n && n < Json.limit64 then some (.int n)
  else if -0x80000000000000000000000000000000 ≤ n &&
      n < 0x100000000000000000000000000000000 then some (.real t)
  else none

def integer? (t : Text) : Option Json :=
  match t with
  | '0' :: 'x' :: ds => if isDigits isHexDigit ds then ofInt? (inBase 16 ds) t else none
  | '0' :: 'o' :: ds =>
    if isDigits (fun c => '0' ≤ c && c ≤ '7') ds then ofInt? (inBase 8 ds) t else none
  | '0' :: 'b' :: ds =>
    if isDigits (fun c => c == '0' || c == '1') ds then ofInt? (inBase 2 ds) t else none
  | t =>
    let ds := dropSign t
    if isDecimal ds then
      let n : Int := inBase 10 ds
      ofInt? (if t.head? == some '-' then -n else n) t
    else none

def isExponent (t : Text) : Bool := isDigits Char.isDigit (dropSign t)

/-- Whether a text spells a number that need not be whole. It may not be too large. -/
def isFloat (t : Text) : Bool :=
  let t := dropSign t
  if t == "inf".toList || t == "nan".toList then true
  else
    let e := t.map fun c => if c == 'E' then 'e' else c
    let (mantissa, exponent) : Text × Option Text :=
      match Text.breakAt? 'e' e with
      | some (m, x) => (m, some x)
      | none => (e, none)
    let (whole, fraction) : Text × Option Text :=
      match Text.breakAt? '.' mantissa with
      | some (w, f) => (w, some f)
      | none => (mantissa, none)
    isDecimal whole && fraction.all (isDigits Char.isDigit) && exponent.all isExponent &&
      (fraction.isSome || exponent.isSome) &&
      Text.isFiniteDecimal (plainDigits whole) (plainDigits (fraction.getD []))
        (plainDigits (exponent.getD ['0']))

/-- A value that is no string, array or table. -/
def word? (t : Text) : Option Json :=
  if t == "true".toList then some (.bool true)
  else if t == "false".toList then some (.bool false)
  else
    match integer? t with
    | some j => some j
    | none => if isFloat t then some (.real t) else (Moment.parse? t).map fun m => .date m.text

def isWordChar (c : Char) : Bool :=
  c.isAlphanum || c == '_' || c == '-' || c == '+' || c == '.' || c == ':'

/-- The characters of such a value. A blank may stand between a date and a time. -/
def wordText (t : Text) : Text :=
  let word := t.takeWhile isWordChar
  match t.drop word.length with
  | ' ' :: rest =>
    if ((Date.read? word).any fun d => d.2.isEmpty) && rest.head?.any Char.isDigit then
      word ++ ' ' :: rest.takeWhile isWordChar
    else word
  | _ => word

/-! ### Values -/

mutual

/-- A value at the head of a text and the rest. The second argument tells how many arrays and
inline tables may still be opened. -/
def value? : Nat → (depth : Nat) → Text → Option (Json × Text)
  | 0, _, _ => none
  | fuel + 1, depth, t =>
    match t with
    | [] => none
    | c :: rest =>
      if c == '"' || c == '\'' then (string? t).map fun (s, rest) => (.str s, rest)
      else if c == '[' then
        if depth = 0 then none
        else (items? fuel (depth - 1) rest).map fun (js, rest) => (.arr js, rest)
      else if c == '{' then
        if depth = 0 then none
        else
          (inline? fuel (depth - 1) [] rest).map fun (ms, rest) => (.obj (membersToJson ms), rest)
      else
        let word := wordText t
        (word? word).map fun j => (j, t.drop word.length)

def items? : Nat → (depth : Nat) → Text → Option (List Json × Text)
  | 0, _, _ => none
  | fuel + 1, depth, t =>
    match skipLines (t.length + 1) t with
    | none => none
    | some (']' :: rest) => some ([], rest)
    | some t =>
      match value? fuel depth t with
      | none => none
      | some (j, rest) =>
        match skipLines (rest.length + 1) rest with
        | some (',' :: rest) => (items? fuel depth rest).map fun (js, rest) => (j :: js, rest)
        | some (']' :: rest) => some ([j], rest)
        | _ => none

/-- The members of an inline table up to its closing brace. Lines may end anywhere but within a
key. -/
def inline? : Nat → (depth : Nat) → Members → Text → Option (Members × Text)
  | 0, _, _, _ => none
  | fuel + 1, depth, ms, t =>
    match skipLines (t.length + 1) t with
    | none => none
    | some ('}' :: rest) => some (ms, rest)
    | some t =>
      match key? t with
      | none => none
      | some (ks, rest) =>
        match skipLines (rest.length + 1) rest with
        | some ('=' :: rest) =>
          match (skipLines (rest.length + 1) rest).bind (value? fuel depth) with
          | none => none
          | some (j, rest) =>
            match Members.assign j ks ms with
            | none => none
            | some ms =>
              match skipLines (rest.length + 1) rest with
              | some (',' :: rest) => inline? fuel depth ms rest
              | some ('}' :: rest) => some (ms, rest)
              | _ => none
        | _ => none

end

/-! ### Documents -/

/-- Read the lines of a document below the header of a table. -/
def lines? : Nat → (header : List Text) → Members → Text → Option Members
  | 0, _, ms, _ => some ms
  | fuel + 1, header, ms, t =>
    match skipLines (t.length + 1) t with
    | none => none
    | some [] => some ms
    | some ('[' :: '[' :: rest) =>
      match key? rest with
      | some (ks, ']' :: ']' :: rest) =>
        match Members.openItem ks ms, endLine? rest with
        | some ms, some rest => lines? fuel ks ms rest
        | _, _ => none
      | _ => none
    | some ('[' :: rest) =>
      match key? rest with
      | some (ks, ']' :: rest) =>
        match Members.openTable ks ms, endLine? rest with
        | some ms, some rest => lines? fuel ks ms rest
        | _, _ => none
      | _ => none
    | some t =>
      match key? t with
      | some (ks, '=' :: rest) =>
        match value? (t.length + 1) maxDepth (skipBlanks rest) with
        | none => none
        | some (j, rest) =>
          match Members.within header (Members.assign j ks) ms, endLine? rest with
          | some ms, some rest => lines? fuel header ms rest
          | _, _ => none
      | _ => none

def dropMark : Text → Text
  | [] => []
  | c :: cs => if c.toNat == 0xfeff then cs else c :: cs

def parse? (t : Text) : Option Json :=
  (lines? (t.length + 1) [] [] (dropMark t)).map fun ms => .obj (membersToJson ms)

end ShaderInline.Toml
