import ShaderInline.Text.Basic

/-! # JSON values

The values of TOML are the same but for its dates and times.
-/

namespace ShaderInline

inductive Json where
  | null
  | bool (b : Bool)
  /-- A number without fraction and exponent that fits into 64 bits, with or without sign. -/
  | int (n : Int)
  /-- Any other number, as it is written. -/
  | real (digits : Text)
  | str (t : Text)
  /-- A string that escapes one half of a surrogate pair and so spells no text, or an object with
  such a key. -/
  | unpaired
  /-- A date or a time, which only TOML has. -/
  | date (t : Text)
  | arr (items : List Json)
  /-- The members in the order in which they are written; a key may occur twice. -/
  | obj (members : List (Text × Json))
  deriving Repr

namespace Json

def limit32 : Nat := 0x100000000

def limit63 : Nat := 0x8000000000000000

def limit64 : Nat := 0x10000000000000000

def nat (n : Nat) : Json := int n

def lit (s : String) : Json := str s.toList

def ofOption : Option Json → Json
  | some j => j
  | none => null

def get? (key : Text) : Json → Option Json
  | obj members => (members.find? fun m => m.1 == key).map (·.2)
  | _ => none

end Json
end ShaderInline
