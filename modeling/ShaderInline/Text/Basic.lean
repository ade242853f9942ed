/-! # Text measured in bytes

A text is a list of characters. Offsets into it count the bytes of its UTF-8
form, so an offset is the size of a leading part of the text.
-/

namespace ShaderInline

abbrev Text := List Char

namespace Text

/-- The number of bytes a text takes in UTF-8. -/
def size : Text → Nat
  | [] => 0
  | c :: cs => c.utf8Size + size cs

@[simp] theorem size_nil : size [] = 0 := rfl
@[simp] theorem size_cons (c : Char) (cs : Text) : size (c :: cs) = c.utf8Size + size cs := rfl
@[simp] theorem size_append (s t : Text) : size (s ++ t) = size s + size t := by
  induction s with
  | nil => simp
  | cons c cs ih => simp [ih, Nat.add_assoc]

/-- Cut a text at a byte offset; there is no cut inside a character or past the end. -/
def splitAt? : Nat → Text → Option (Text × Text)
  | 0, t => some ([], t)
  | _ + 1, [] => none
  | n + 1, c :: cs =>
    if c.utf8Size ≤ n + 1 then
      (splitAt? (n + 1 - c.utf8Size) cs).map fun (before, after) => (c :: before, after)
    else none

/-- Whether an offset lies between two characters, or at either end. -/
def isBoundary (n : Nat) (t : Text) : Bool := (splitAt? n t).isSome

/-- What is left after the first `n` bytes; a character that straddles the offset is dropped. -/
def dropBytes : Nat → Text → Text
  | _, [] => []
  | 0, t => t
  | n + 1, c :: cs => dropBytes (n + 1 - c.utf8Size) cs

/-- The characters that fit into the first `n` bytes. -/
def takeBytes : Nat → Text → Text
  | _, [] => []
  | n, c :: cs => if c.utf8Size ≤ n then c :: takeBytes (n - c.utf8Size) cs else []

def decimal (n : Nat) : Text := Nat.toDigits 10 n

end Text
end ShaderInline
