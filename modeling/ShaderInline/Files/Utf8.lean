import ShaderInline.Text.Basic

/-! # Bytes and characters -/

namespace ShaderInline.Utf8

abbrev Bytes := List UInt8

def encodeChar (c : Char) : Bytes :=
  let n := c.toNat
  let tail (unit : Nat) : UInt8 := UInt8.ofNat (0x80 + n / unit % 0x40)
  if n < 0x80 then [UInt8.ofNat n]
  else if n < 0x800 then [UInt8.ofNat (0xc0 + n / 0x40), tail 1]
  else if n < 0x10000 then [UInt8.ofNat (0xe0 + n / 0x1000), tail 0x40, tail 1]
  else [UInt8.ofNat (0xf0 + n / 0x40000), tail 0x1000, tail 0x40, tail 1]

def encode (t : Text) : Bytes := t.flatMap encodeChar

/-- Whether a byte may follow the first byte of a character. The second byte decides whether the
character is encoded in the shortest form and in range. -/
def isSecond (first second : Nat) : Bool :=
  if first == 0xe0 then 0xa0 ≤ second && second < 0xc0
  else if first == 0xed then 0x80 ≤ second && second < 0xa0
  else if first == 0xf0 then 0x90 ≤ second && second < 0xc0
  else if first == 0xf4 then 0x80 ≤ second && second < 0x90
  else 0x80 ≤ second && second < 0xc0

def isTail (n : Nat) : Bool := 0x80 ≤ n && n < 0xc0

/-- The number of bytes that a character takes, by its first byte; zero if none starts with it. -/
def width (first : Nat) : Nat :=
  if first < 0x80 then 1
  else if 0xc2 ≤ first && first < 0xe0 then 2
  else if 0xe0 ≤ first && first < 0xf0 then 3
  else if 0xf0 ≤ first && first < 0xf5 then 4
  else 0

/-- The character at the head of a list of bytes, or `none` for a part that encodes none, and
the number of bytes after the first that belong to it. -/
def head (first : UInt8) (rest : Bytes) : Option Char × Nat :=
  let a := first.toNat
  let bits (b : Nat) := b % 64
  match width a, rest with
  | 0, _ => (none, 0)
  | 1, _ => (some (Char.ofNat a), 0)
  | 2, b :: _ =>
    if isSecond a b.toNat then (some (Char.ofNat ((a - 0xc0) * 64 + bits b.toNat)), 1)
    else (none, 0)
  | 3, b :: rest =>
    if !isSecond a b.toNat then (none, 0)
    else
      match rest with
      | c :: _ =>
        if isTail c.toNat then
          (some (Char.ofNat (((a - 0xe0) * 64 + bits b.toNat) * 64 + bits c.toNat)), 2)
        else (none, 1)
      | [] => (none, 1)
  | 4, b :: rest =>
    if !isSecond a b.toNat then (none, 0)
    else
      match rest with
      | c :: rest =>
        if !isTail c.toNat then (none, 1)
        else
          match rest with
          | d :: _ =>
            if isTail d.toNat then
              (some (Char.ofNat
                ((((a - 0xf0) * 64 + bits b.toNat) * 64 + bits c.toNat) * 64 + bits d.toNat)), 3)
            else (none, 2)
          | [] => (none, 2)
      | [] => (none, 1)
  | _, _ => (none, 0)

/-- The characters of a list of bytes after the first `skip` ones; each longest part that
encodes no character is one `none`. -/
def decodeFrom : (skip : Nat) → Bytes → List (Option Char)
  | _, [] => []
  | skip + 1, _ :: rest => decodeFrom skip rest
  | 0, first :: rest => (head first rest).1 :: decodeFrom (head first rest).2 rest

def decode (b : Bytes) : List (Option Char) := decodeFrom 0 b

def text? (b : Bytes) : Option Text := (decode b).mapM id

/-- The text that bytes encode, with a replacement character for each part that encodes none. -/
def lossyText (b : Bytes) : Text := (decode b).map fun c => c.getD (Char.ofNat 0xfffd)

end ShaderInline.Utf8
