import ShaderInline.Text.Search

/-! # Glob patterns

A question mark stands for any character, a star for any text, and a double
star, which has to be a whole component of a path, for any number of leading
components. Brackets stand for one character of a set.
-/

namespace ShaderInline

/-- A member of a set in brackets. -/
inductive GlobRange where
  | one (c : Char)
  /-- All characters from the first to the last; none if they are reversed. -/
  | span (first last : Char)
  deriving DecidableEq, Repr

inductive GlobPart where
  | char (c : Char)
  | anyChar
  /-- Any text. -/
  | anyText
  /-- Nothing, any text that ends with a slash, or all of the text. -/
  | anyDepth
  | within (ranges : List GlobRange)
  | except (ranges : List GlobRange)
  deriving DecidableEq, Repr

def GlobRange.contains (r : GlobRange) (c : Char) : Bool :=
  match r with
  | .one d => c == d
  | .span first last => first ≤ c && c ≤ last

/-- Whether a part that stands for one character can stand for the given one. -/
def GlobPart.isOne (part : GlobPart) (c : Char) : Bool :=
  match part with
  | .char d => c == d
  | .anyChar => true
  | .within ranges => ranges.any (·.contains c)
  | .except ranges => !ranges.any (·.contains c)
  | .anyText => false
  | .anyDepth => false

/-- A pattern that has been read. -/
abbrev Glob := List GlobPart

namespace Glob

inductive Flaw where
  | wildcards
  | recursive
  | range
  deriving DecidableEq, Repr

structure Problem where
  /-- The place of the flaw, counted in characters. -/
  position : Nat
  flaw : Flaw
  deriving DecidableEq, Repr

def Flaw.message : Flaw → Text
  | wildcards => "wildcards are either regular `*` or recursive `**`".toList
  | recursive => "recursive wildcards must form a single path component".toList
  | range => "invalid range pattern".toList

def Problem.message (p : Problem) : Text :=
  "Pattern syntax error near position ".toList ++ Text.decimal p.position ++ ": ".toList ++
    p.flaw.message

/-- The members of a set. A hyphen between two characters makes a span of them. -/
def ranges : Text → List GlobRange
  | a :: '-' :: b :: rest => .span a b :: ranges rest
  | a :: rest => .one a :: ranges rest
  | [] => []

/-- The set after an opening bracket and how many characters it takes with its closing bracket.
The first character of a set is never its end. -/
def bracket? : Text → Option (GlobPart × Nat)
  | '!' :: c :: rest =>
    (Text.breakAt? ']' rest).map fun (inside, _) =>
      (.except (ranges (c :: inside)), inside.length + 3)
  | '!' :: [] => none
  | c :: rest =>
    (Text.breakAt? ']' rest).map fun (inside, _) =>
      (.within (ranges (c :: inside)), inside.length + 2)
  | [] => none

/-- Read a pattern from a position on, after the first `skip` characters, which belong to a
part that has been read already. -/
def parseFrom : (skip position : Nat) → (last : Option Char) → Text → Except Problem Glob
  | _, _, _, [] => .ok []
  | skip + 1, position, _, c :: cs => parseFrom skip (position + 1) (some c) cs
  | 0, position, last, c :: cs =>
    let goOn (part : GlobPart) (skip : Nat) : Except Problem Glob :=
      (parseFrom skip (position + 1) (some c) cs).map (part :: ·)
    match c with
    | '?' => goOn .anyChar 0
    | '*' =>
      match (cs.takeWhile (· == '*')).length with
      | 0 => goOn .anyText 0
      | 1 =>
        if last.all (· == '/') then
          match cs.drop 1 with
          | [] => goOn .anyDepth 1
          | '/' :: _ => goOn .anyDepth 2
          | _ => .error ⟨position + 2, .recursive⟩
        else .error ⟨position - 1, .recursive⟩
      | _ => .error ⟨position + 2, .wildcards⟩
    | '[' =>
      match bracket? cs with
      | some (part, taken) => goOn part taken
      | none => .error ⟨position, .range⟩
    | c => goOn (.char c) 0

def parse (t : Text) : Except Problem Glob := parseFrom 0 0 none t

/-- Whether a property holds of some ending of a text. -/
def someEnding (p : Text → Bool) : Text → Bool
  | [] => p []
  | c :: cs => p (c :: cs) || someEnding p cs

/-- Whether a property holds of what follows some slash, or of nothing at all. -/
def someBelow (p : Text → Bool) : Text → Bool
  | [] => p []
  | c :: cs => (c == '/' && p cs) || someBelow p cs

def fits : Glob → Text → Bool
  | [], t => t.isEmpty
  | .anyText :: parts, t => someEnding (fits parts) t
  | .anyDepth :: parts, t => fits parts t || someBelow (fits parts) t
  | _ :: _, [] => false
  | part :: parts, c :: cs => part.isOne c && fits parts cs

/-! ### Matching all endings of a text at once

Trying the places where a star may end one after the other takes time that grows
with a power of the number of stars. The endings of the text that the rest of a
pattern matches are therefore computed together, from the last part on.
-/

def endings : Text → List Text
  | [] => [[]]
  | c :: cs => (c :: cs) :: endings cs

/-- For each ending, whether its first character has a property and the ending behind it is
marked. -/
def oneRow (p : Char → Bool) : Text → List Bool → List Bool
  | c :: cs, _ :: r => (p c && r.headD false) :: oneRow p cs r
  | _, _ => [false]

/-- For each ending, whether it or a shorter one is marked. -/
def textRow : List Bool → List Bool
  | [] => []
  | b :: r =>
    let more := textRow r
    (b || more.headD false) :: more

/-- For each ending, whether one is marked that follows a slash in it, or the empty one. -/
def belowRow : Text → List Bool → List Bool
  | c :: cs, _ :: r =>
    let more := belowRow cs r
    ((c == '/' && r.headD false) || more.headD false) :: more
  | _, r => r

/-- For each ending of a text, whether a pattern matches it. -/
def row : Glob → Text → List Bool
  | [], t => (endings t).map List.isEmpty
  | .anyText :: parts, t => textRow (row parts t)
  | .anyDepth :: parts, t =>
    let r := row parts t
    List.zipWith (· || ·) r (belowRow t r)
  | part :: parts, t => oneRow part.isOne t (row parts t)

/-- Whether a pattern matches the whole of a text. -/
def isMatch (g : Glob) (t : Text) : Bool := (row g t).headD false

theorem headD_map_endings (p : Text → Bool) (t : Text) :
    ((endings t).map p).headD false = p t := by
  cases t <;> rfl

theorem oneRow_map_endings (p : Char → Bool) (q : Text → Bool) (t : Text) :
    oneRow p t ((endings t).map q) =
      (endings t).map fun
        | [] => false
        | c :: cs => p c && q cs := by
  induction t with
  | nil => rfl
  | cons c cs ih => simp only [endings, List.map_cons, oneRow, headD_map_endings, ih]

theorem textRow_map_endings (q : Text → Bool) (t : Text) :
    textRow ((endings t).map q) = (endings t).map (someEnding q) := by
  induction t with
  | nil => simp [endings, textRow, someEnding]
  | cons c cs ih => simp only [endings, List.map_cons, textRow, ih, headD_map_endings, someEnding]

theorem belowRow_map_endings (q : Text → Bool) (t : Text) :
    belowRow t ((endings t).map q) = (endings t).map (someBelow q) := by
  induction t with
  | nil => rfl
  | cons c cs ih =>
    simp only [endings, List.map_cons, belowRow, ih, headD_map_endings, someBelow]

theorem row_eq_map_endings (g : Glob) (t : Text) : row g t = (endings t).map (fits g) := by
  induction g with
  | nil =>
    refine List.map_congr_left fun s _ => ?_
    cases s <;> rfl
  | cons part parts ih =>
    cases part <;>
      simp only [row, ih, textRow_map_endings, belowRow_map_endings, oneRow_map_endings,
        List.zipWith_map_left, List.zipWith_map_right, List.zipWith_self] <;>
      refine List.map_congr_left fun s _ => ?_ <;>
      cases s <;> simp [fits]

/-- Matching all endings at once agrees with trying them one after the other. -/
theorem isMatch_eq_fits (g : Glob) (t : Text) : isMatch g t = fits g t := by
  rw [isMatch, row_eq_map_endings, headD_map_endings]

end Glob
end ShaderInline
