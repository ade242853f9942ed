import ShaderInline.Yaml.Scalar

/-! # Anchors, tags and directives -/

namespace ShaderInline.Yaml

def anchorName? (c : Cursor) : Option (Text × Cursor) :=
  let name := c.rest.takeWhile isNameChar
  let c := c.skip name.length
  if name.isEmpty then none
  else if atGap c.rest || c.sees fun d => "?:,]\x7d%@`".toList.contains d then some (name, c)
  else none

/-! ### Tags -/

/-- The marks that may stand in the address of a tag. -/
def isAddressMark (c : Char) : Bool := ";/?:@&=+$.%!~*'()".toList.contains c

/-- The number of bytes that the escape of a character takes, given its first byte. -/
def escapedWidth? (byte : Nat) : Option Nat :=
  if byte < 0x80 then some 1
  else if 0xc0 ≤ byte && byte < 0xe0 then some 2
  else if 0xe0 ≤ byte && byte < 0xf0 then some 3
  else if 0xf0 ≤ byte && byte < 0xf8 then some 4
  else none

/-- A byte that is written as a percent sign and two digits. -/
def escapedByte? : Text → Option Nat
  | '%' :: a :: b :: _ => do return (← Text.hexValue? a) * 16 + (← Text.hexValue? b)
  | _ => none

def furtherBytes? : Nat → Text → Option Unit
  | 0, _ => some ()
  | n + 1, t =>
    match escapedByte? t with
    | some byte => if 0x80 ≤ byte && byte < 0xc0 then furtherBytes? n (t.drop 3) else none
    | none => none

/-- The characters of a tag's address and how many characters they are written with. Brackets and
commas belong to it only if the flag says so. An escaped character beyond ASCII is only counted. -/
def address? (wide : Bool) : Nat → Text → Option (Text × Nat)
  | 0, _ => some ([], 0)
  | fuel + 1, t =>
    match t with
    | [] => some ([], 0)
    | c :: rest =>
      if c == '%' then
        match (escapedByte? t).bind fun byte => (escapedWidth? byte).map fun width =>
            (byte, width) with
        | none => none
        | some (byte, width) =>
          match furtherBytes? (width - 1) (t.drop 3) with
          | none => none
          | some () =>
            let d := if width = 1 then Char.ofNat byte else Char.ofNat 0xfffd
            (address? wide fuel (t.drop (3 * width))).map fun (more, n) =>
              (d :: more, n + 3 * width)
      else if isNameChar c || isAddressMark c ||
          (wide && (c == ',' || c == '[' || c == ']')) then
        (address? wide fuel rest).map fun (more, n) => (c :: more, n + 1)
      else some ([], 0)

/-- The address of a tag behind what has been read of it. It may not be empty. -/
def tagAddress? (wide : Bool) (head : Text) (c : Cursor) : Option (Text × Cursor) :=
  match address? wide c.rest.length c.rest with
  | none => none
  | some (text, n) =>
    if n = 0 && head.isEmpty then none else some (head.drop 1 ++ text, c.skip n)

/-- The handle at the head of a tag: an exclamation mark, and more up to a second one. -/
def tagHandle? (c : Cursor) : Option (Text × Cursor) :=
  match c.rest with
  | '!' :: rest =>
    let name := rest.takeWhile isNameChar
    let c := c.skip (name.length + 1)
    if c.sees (· == '!') then some ('!' :: name ++ ['!'], c.next) else some ('!' :: name, c)
  | _ => none

/-- A tag: its handle, which is empty if the tag is given in full, and the rest of it. -/
def tag? (inFlow : Bool) (c : Cursor) : Option (Text × Text × Cursor) :=
  let read? : Option (Text × Text × Cursor) :=
    match c.rest with
    | '!' :: '<' :: _ =>
      match tagAddress? true [] (c.skip 2) with
      | some (address, c) => if c.sees (· == '>') then some ([], address, c.next) else none
      | none => none
    | _ =>
      match tagHandle? c with
      | none => none
      | some (handle, c) =>
        if 1 < handle.length && handle.getLast? == some '!' then
          (tagAddress? false [] c).map fun (suffix, c) => (handle, suffix, c)
        else
          (tagAddress? false handle c).map fun (suffix, c) =>
            if suffix.isEmpty then ([], ['!'], c) else (['!'], suffix, c)
  match read? with
  | none => none
  | some (handle, suffix, c) =>
    if atGap c.rest || (inFlow && c.sees (· == ',')) then some (handle, suffix, c) else none

/-! ### Directives -/

inductive Directive where
  | version (major minor : Nat)
  /-- What a handle at the head of a tag stands for. -/
  | handle (name lead : Text)
  deriving DecidableEq, Repr

def versionNumber? (c : Cursor) : Option (Nat × Cursor) :=
  let digits := c.rest.takeWhile Char.isDigit
  if digits.isEmpty || 9 < digits.length then none
  else some (Text.digitsValue digits, c.skip digits.length)

def versionValue? (c : Cursor) : Option (Directive × Cursor) :=
  match versionNumber? (c.skipWhile isBlank) with
  | none => none
  | some (major, c) =>
    if !c.sees (· == '.') then none
    else (versionNumber? c.next).map fun (minor, c) => (.version major minor, c)

def handleValue? (c : Cursor) : Option (Directive × Cursor) :=
  match tagHandle? (c.skipWhile isBlank) with
  | none => none
  | some (name, c) =>
    if !(name == ['!'] || (1 < name.length && name.getLast? == some '!')) || !c.sees isBlank then
      none
    else
      match tagAddress? true [] (c.skipWhile isBlank) with
      | none => none
      | some (lead, c) => if atGap c.rest then some (.handle name lead, c) else none

/-- A directive behind its percent sign, with the rest of its line. -/
def directive? (c : Cursor) : Option (Directive × Cursor) :=
  let name := c.rest.takeWhile isNameChar
  let c := c.skip name.length
  let value? : Option (Directive × Cursor) :=
    if !atGap c.rest then none
    else if name == "YAML".toList then versionValue? c
    else if name == "TAG".toList then handleValue? c
    else none
  match value? with
  | none => none
  | some (d, c) => c.endLine?.map fun c => (d, c)

end ShaderInline.Yaml
