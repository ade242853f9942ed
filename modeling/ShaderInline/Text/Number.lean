import ShaderInline.Text.Basic

/-! # Numbers in texts -/

namespace ShaderInline.Text

def hexValue? (c : Char) : Option Nat :=
  if c.isDigit then some (c.toNat - 48)
  else if 'a' ≤ c && c ≤ 'f' then some (c.toNat - 87)
  else if 'A' ≤ c && c ≤ 'F' then some (c.toNat - 55)
  else none

/-- The number that decimal digits spell. -/
def digitsValue (t : Text) : Nat := t.foldl (fun n c => n * 10 + (c.toNat - 48)) 0

/-- The character whose code hexadecimal digits spell. -/
def hexChar? (digits : Text) : Option Char :=
  (digits.mapM hexValue?).bind fun ds =>
    let n := ds.foldl (fun n d => n * 16 + d) 0
    if n < 0xd800 || (0xe000 ≤ n && n < 0x110000) then some (Char.ofNat n) else none

/-- The least number that is rounded to infinity in 64 bits. -/
def overflow : Nat := Nat.pow 2 1024 - Nat.pow 2 970

/-- Whether the number with the given digits and power of ten is rounded to a finite one. -/
def isFinite (digits : Text) (power : Int) : Bool :=
  let ds := digits.dropWhile (· == '0')
  let magnitude := (ds.length : Int) + power
  if ds.isEmpty || magnitude < 300 then true
  else if 310 < magnitude then false
  else
    let n := digitsValue ds
    if 0 ≤ power then n * Nat.pow 10 power.toNat < overflow
    else n < overflow * Nat.pow 10 (-power).toNat

def dropSign : Text → Text
  | '+' :: t => t
  | '-' :: t => t
  | t => t

/-- Whether a number with the given digits before and after its point and the given exponent is
rounded to a finite one. -/
def isFiniteDecimal (whole fraction exponent : Text) : Bool :=
  let size : Int := digitsValue (dropSign exponent)
  isFinite (whole ++ fraction)
    ((if exponent.head? == some '-' then -size else size) - fraction.length)

end ShaderInline.Text
