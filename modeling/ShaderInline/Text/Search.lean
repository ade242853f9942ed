import ShaderInline.Text.Basic
import ShaderInline.Text.Char

/-! # Searching, splitting and trimming -/

namespace ShaderInline.Text

def after? : Text → Text → Option Text
  | [], t => some t
  | _ :: _, [] => none
  | p :: ps, c :: cs => if p = c then after? ps cs else none

def startsWith (lead t : Text) : Bool := (after? lead t).isSome

/-- The texts before and after the first occurrence of a part. -/
def breakOn? (part : Text) : Text → Option (Text × Text)
  | [] => if part = [] then some ([], []) else none
  | c :: cs =>
    match after? part (c :: cs) with
    | some rest => some ([], rest)
    | none => (breakOn? part cs).map fun (before, rest) => (c :: before, rest)

section

variable {α : Type}

/-- The texts before and after the first occurrence of a character. -/
def breakAt? [DecidableEq α] (sep : α) : List α → Option (List α × List α)
  | [] => none
  | c :: cs =>
    if c = sep then some ([], cs)
    else (breakAt? sep cs).map fun (before, rest) => (c :: before, rest)

/-- The parts of a text between separators; there is always at least one. A path, which is a list
of bytes, has parts in the same way. -/
def split [DecidableEq α] (sep : α) : List α → List (List α)
  | [] => [[]]
  | c :: cs =>
    if c = sep then [] :: split sep cs
    else
      match split sep cs with
      | [] => [[c]]
      | part :: parts => (c :: part) :: parts

def join (sep : List α) : List (List α) → List α
  | [] => []
  | [part] => part
  | part :: parts => part ++ sep ++ join sep parts

end

def trimStart (t : Text) : Text := t.dropWhile isBlank

def trimEnd (t : Text) : Text := (t.reverse.dropWhile isBlank).reverse

def trim (t : Text) : Text := trimEnd (trimStart t)

/-- Part the mark that closes a block comment, so that the text can stand inside one. -/
def partCommentEnds : Text → Text
  | '*' :: '/' :: cs => '*' :: ' ' :: '/' :: partCommentEnds cs
  | c :: cs => c :: partCommentEnds cs
  | [] => []

/-- Comparison of texts by their characters, which is also that of their bytes. -/
def le : Text → Text → Bool
  | [], _ => true
  | _ :: _, [] => false
  | a :: as, b :: bs => if a = b then le as bs else a.toNat < b.toNat

end ShaderInline.Text
