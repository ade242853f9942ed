import ShaderInline.Json.Basic

/-! # Reading records

A record is written as an object, in which members of other names are ignored
and no field may occur twice, or as an array with the fields in their order. A
date counts as an object with one member of a name that no record has.
-/

namespace ShaderInline.Json

/-- The values of the named fields, as far as they are given. An array may end early; whether
it may be longer than the record is told by the first argument. -/
def record? (openEnded : Bool) (names : List Text) : Json → Option (List (Option Json))
  | obj members =>
    if names.any fun name => 1 < (members.filter fun m => m.1 == name).length then none
    else some (names.map fun name => (members.find? fun m => m.1 == name).map (·.2))
  | arr items =>
    if !openEnded && names.length < items.length then none
    else some ((List.range names.length).map fun i => items[i]?)
  | date _ => some (names.map fun _ => none)
  | _ => none

/-- An integer from zero up to a bound, which is left out. -/
def natBelow? (bound : Nat) : Json → Option Nat
  | int n => if 0 ≤ n && n < bound then some n.toNat else none
  | _ => none

def text? : Json → Option Text
  | str t => some t
  | _ => none

def bool? : Json → Option Bool
  | bool b => some b
  | _ => none

end ShaderInline.Json
