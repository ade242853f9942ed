import ShaderInline.Text.Search
import ShaderInline.Kind

/-! # Schemas

A schema says which comments there are, which characters mark a tag, which
words are keywords and which runs of elements form a structural node.
-/

namespace ShaderInline

inductive CommentStyle where
  /-- From a mark to the end of the line. -/
  | line (mark : Text)
  /-- From an opening mark to the next closing one. -/
  | block (opening closing : Text)
  deriving DecidableEq, Repr

inductive Matcher where
  /-- A tag, possibly only one of a given name. -/
  | tag (name : Option Text)
  /-- A string with its closing quote. -/
  | quoted
  /-- Everything up to the end of the line, possibly nothing. -/
  | restOfLine
  | ident
  /-- A keyword of a category. -/
  | keyword (category : Text)
  /-- One particular keyword. -/
  | word (text : Text)
  /-- A block of a kind. -/
  | block (kind : Kind)
  /-- Any of several single steps. -/
  | anyOf (options : List Matcher)
  deriving Repr

/-- The steps that make up a structural node. -/
structure Pattern where
  name : Text
  kind : Kind
  priority : Int
  matchers : List Matcher
  /-- No line break may be skipped between two steps. -/
  singleLine : Bool
  deriving Repr

structure Schema where
  comments : List CommentStyle
  tagMarks : List Char
  /-- Categories of keywords in the order in which they were first named. -/
  categories : List (Text × List Text)
  /-- Patterns by descending priority, those of equal priority in the order of their addition. -/
  patterns : List Pattern
  deriving Repr

namespace Schema

def empty : Schema := ⟨[], [], [], []⟩

def addComment (style : CommentStyle) (s : Schema) : Schema :=
  { s with comments := s.comments ++ [style] }

def addTagMark (c : Char) (s : Schema) : Schema :=
  if c ∈ s.tagMarks then s else { s with tagMarks := s.tagMarks ++ [c] }

/-- Extend a category, or open it at the end. -/
def extendCategory (category : Text) (words : List Text) :
    List (Text × List Text) → List (Text × List Text)
  | [] => [(category, words)]
  | (name, old) :: rest =>
    if name = category then (name, old ++ words) :: rest
    else (name, old) :: extendCategory category words rest

def addKeywords (category : Text) (words : List Text) (s : Schema) : Schema :=
  { s with categories := extendCategory category words s.categories }

/-- Put a pattern behind all that have at least its priority. -/
def insertPattern (p : Pattern) : List Pattern → List Pattern
  | [] => [p]
  | q :: qs => if p.priority ≤ q.priority then q :: insertPattern p qs else p :: q :: qs

def addPattern (p : Pattern) (s : Schema) : Schema :=
  { s with patterns := insertPattern p s.patterns }

/-- The category of a keyword: the first one that lists the word. -/
def category? (s : Schema) (word : Text) : Option Text :=
  (s.categories.find? fun entry => entry.2.contains word).map (·.1)

def isKeyword (s : Schema) (word : Text) : Bool := (s.category? word).isSome

def isTagMark (s : Schema) (c : Char) : Bool := s.tagMarks.contains c

def tagName (s : Schema) : Text → Text
  | [] => []
  | c :: cs => if s.isTagMark c then cs else c :: cs

end Schema
end ShaderInline
