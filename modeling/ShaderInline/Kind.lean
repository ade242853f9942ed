/-! # Kinds of leaves and nodes -/

namespace ShaderInline

inductive Delimiter where
  | paren
  | brace
  | bracket
  deriving DecidableEq, Repr, Inhabited

/-- What a leaf or a node of a tree stands for. -/
inductive Kind where
  | whitespace
  | lineComment
  | blockComment
  | newline
  | tag
  | ident
  | keyword
  | number
  | string
  | opener (delimiter : Delimiter)
  | closer (delimiter : Delimiter)
  | semicolon
  | comma
  | punct
  | root
  | directive
  | importDirective
  | function
  | struct
  | block (delimiter : Delimiter)
  /-- A closing delimiter without an opening one. -/
  | error
  /-- A character that belongs to no other kind. -/
  | unknown
  deriving DecidableEq, Repr, Inhabited

namespace Kind

def all : List Kind :=
  [whitespace, lineComment, blockComment, newline, tag, ident, keyword, number, string,
    opener .paren, closer .paren, opener .brace, closer .brace, opener .bracket, closer .bracket,
    semicolon, comma, punct, root, directive, importDirective, function, struct,
    block .paren, block .brace, block .bracket, error, unknown]

def code : Kind → Nat
  | whitespace => 0
  | lineComment => 1
  | blockComment => 2
  | newline => 3
  | tag => 10
  | ident => 11
  | keyword => 12
  | number => 13
  | string => 14
  | opener .paren => 100
  | closer .paren => 101
  | opener .brace => 102
  | closer .brace => 103
  | opener .bracket => 104
  | closer .bracket => 105
  | semicolon => 106
  | comma => 107
  | punct => 108
  | root => 200
  | directive => 201
  | importDirective => 202
  | function => 203
  | struct => 204
  | block .paren => 210
  | block .brace => 211
  | block .bracket => 212
  | error => 400
  | unknown => 401

/-- The kind with a code; a number that is no code stands for `unknown`. -/
def ofCode (n : Nat) : Kind := (all.find? fun k => k.code == n).getD unknown

/-- Blanks and comments; line breaks are kept apart. -/
def isTrivia : Kind → Bool
  | whitespace | lineComment | blockComment => true
  | _ => false

def isBlock : Kind → Bool
  | block _ => true
  | _ => false

/-- The kinds a schema's patterns are meant to produce. -/
def isStructural : Kind → Bool
  | directive | importDirective | function | struct => true
  | _ => false

def isNode (k : Kind) : Bool := k == root || k.isBlock || k.isStructural

def blockOpened? : Kind → Option Kind
  | opener d => some (block d)
  | _ => none

/-- The delimiter that closes a block. -/
def closer? : Kind → Option Kind
  | block d => some (closer d)
  | _ => none

def isCloser : Kind → Bool
  | closer _ => true
  | _ => false

theorem ofCode_code (k : Kind) : ofCode k.code = k := by
  cases k with
  | opener d => cases d <;> rfl
  | closer d => cases d <;> rfl
  | block d => cases d <;> rfl
  | _ => rfl

end Kind
end ShaderInline
