import ShaderInline.Json.Basic
import ShaderInline.Text.Number
import ShaderInline.Text.Search

/-! # Reading JSON -/

namespace ShaderInline.Json

open Text (hexValue? digitsValue)

def isSpace (c : Char) : Bool := c == ' ' || c == '\n' || c == '\t' || c == '\r'

def skipSpace (t : Text) : Text := t.dropWhile isSpace

def hex4? (a b c d : Char) : Option Nat := do
  return (((← hexValue? a) * 16 + (← hexValue? b)) * 16 + (← hexValue? c)) * 16 + (← hexValue? d)

def isHighSurrogate (n : Nat) : Bool := 0xd800 ≤ n && n < 0xdc00

def isLowSurrogate (n : Nat) : Bool := 0xdc00 ≤ n && n < 0xe000

/-- What an escape stands for: a character, or half a pair without its other half. -/
def unit? (n : Nat) : Option Char :=
  if isHighSurrogate n || isLowSurrogate n then none else some (Char.ofNat n)

/-- The characters of a string up to its closing quote and the rest of the text. A part that
spells no character is `none`. -/
def stringBody : Text → Option (List (Option Char) × Text)
  | [] => none
  | '"' :: rest => some ([], rest)
  | '\\' :: 'u' :: a :: b :: c :: d :: rest =>
    match hex4? a b c d with
    | none => none
    | some high =>
      if isHighSurrogate high then
        match rest with
        | '\\' :: 'u' :: e :: f :: g :: h :: rest' =>
          match hex4? e f g h with
          | none => none
          | some low =>
            if isLowSurrogate low then
              (stringBody rest').map fun (cs, r) =>
                (some (Char.ofNat (0x10000 + (high - 0xd800) * 0x400 + (low - 0xdc00))) :: cs, r)
            else (stringBody rest').map fun (cs, r) => (none :: cs, r)
        | rest => (stringBody rest).map fun (cs, r) => (none :: cs, r)
      else (stringBody rest).map fun (cs, r) => (unit? high :: cs, r)
  | '\\' :: c :: rest =>
    let plain (d : Char) := (stringBody rest).map fun (cs, r) => (some d :: cs, r)
    match c with
    | '"' => plain '"'
    | '\\' => plain '\\'
    | '/' => plain '/'
    | 'b' => plain (Char.ofNat 0x08)
    | 'f' => plain (Char.ofNat 0x0c)
    | 'n' => plain '\n'
    | 'r' => plain '\r'
    | 't' => plain '\t'
    | _ => none
  | c :: rest =>
    if c == '\\' || c.toNat < 0x20 then none
    else (stringBody rest).map fun (cs, r) => (some c :: cs, r)

def allChars : List (Option Char) → Option Text
  | [] => some []
  | none :: _ => none
  | some c :: cs => (allChars cs).map (c :: ·)

/-- A number: its digits, its fraction and its exponent as far as they are written. -/
def numberText? (t : Text) : Option (Text × Bool × Text) :=
  let (sign, t) : Text × Text :=
    match t with
    | '-' :: t => (['-'], t)
    | t => ([], t)
  let digits := t.takeWhile Char.isDigit
  let t := t.dropWhile Char.isDigit
  if digits.isEmpty || (digits.length > 1 && digits.head? == some '0') then none
  else
    let fraction? : Option (Text × Text) :=
      match t with
      | '.' :: t =>
        let ds := t.takeWhile Char.isDigit
        if ds.isEmpty then none else some ('.' :: ds, t.dropWhile Char.isDigit)
      | t => some ([], t)
    match fraction? with
    | none => none
    | some (fraction, t) =>
      let exponent? : Option (Text × Text) :=
        match t with
        | e :: t =>
          if e == 'e' || e == 'E' then
            let (mark, t) : Text × Text :=
              match t with
              | '+' :: t => (['+'], t)
              | '-' :: t => (['-'], t)
              | t => ([], t)
            let ds := t.takeWhile Char.isDigit
            if ds.isEmpty then none else some (e :: mark ++ ds, t.dropWhile Char.isDigit)
          else some ([], e :: t)
        | [] => some ([], [])
      match exponent? with
      | none => none
      | some (exponent, t) =>
        some (sign ++ digits ++ fraction ++ exponent, fraction.isEmpty && exponent.isEmpty, t)

/-- A number without fraction and exponent is an integer if 64 bits hold it; minus zero and
those out of range are not. -/
def ofNumber (t : Text) (plain : Bool) : Json :=
  if !plain then real t
  else
    match t with
    | '-' :: ds =>
      let n := digitsValue ds
      if n == 0 || n > limit63 then real t else int (-(n : Int))
    | ds =>
      let n := digitsValue ds
      if n ≥ limit64 then real t else int n

mutual

/-- A value at the head of a text and the rest of it. The first argument bounds the nesting. -/
def value? : Nat → Text → Option (Json × Text)
  | 0, _ => none
  | fuel + 1, t =>
    match skipSpace t with
    | [] => none
    | c :: rest =>
      if c == '{' then
        match skipSpace rest with
        | '}' :: rest => some (obj [], rest)
        | rest => (members? fuel rest).map fun (ms?, r) => ((ms?.map obj).getD unpaired, r)
      else if c == '[' then
        match skipSpace rest with
        | ']' :: rest => some (arr [], rest)
        | rest => (items? fuel rest).map fun (js, r) => (arr js, r)
      else if c == '"' then
        (stringBody rest).map fun (cs, r) =>
          match allChars cs with
          | some t => (str t, r)
          | none => (unpaired, r)
      else if c == '-' || c.isDigit then
        (numberText? (c :: rest)).map fun (t, plain, r) => (ofNumber t plain, r)
      else
        match Text.after? "null".toList (c :: rest) with
        | some r => some (null, r)
        | none =>
          match Text.after? "true".toList (c :: rest) with
          | some r => some (bool true, r)
          | none => (Text.after? "false".toList (c :: rest)).map fun r => (bool false, r)

/-- The items of an array up to its closing bracket; there is at least one. -/
def items? : Nat → Text → Option (List Json × Text)
  | 0, _ => none
  | fuel + 1, t =>
    match value? fuel t with
    | none => none
    | some (j, rest) =>
      match skipSpace rest with
      | ',' :: rest => (items? fuel rest).map fun (js, r) => (j :: js, r)
      | ']' :: rest => some ([j], rest)
      | _ => none

/-- The members of an object up to its closing brace; there is at least one. They are missing
if one of their keys spells no text. -/
def members? : Nat → Text → Option (Option (List (Text × Json)) × Text)
  | 0, _ => none
  | fuel + 1, t =>
    match skipSpace t with
    | '"' :: rest =>
      match stringBody rest with
      | none => none
      | some (cs, rest) =>
        match skipSpace rest with
        | ':' :: rest =>
          match value? fuel rest with
          | none => none
          | some (j, rest) =>
            let withThis (ms? : Option (List (Text × Json))) : Option (List (Text × Json)) := do
              return (← allChars cs, j) :: (← ms?)
            match skipSpace rest with
            | ',' :: rest => (members? fuel rest).map fun (ms?, r) => (withThis ms?, r)
            | '}' :: rest => some (withThis (some []), rest)
            | _ => none
        | _ => none
    | _ => none

end

def parse? (t : Text) : Option Json :=
  match value? (2 * t.length + 2) t with
  | some (j, rest) => if (skipSpace rest).isEmpty then some j else none
  | none => none

end ShaderInline.Json
