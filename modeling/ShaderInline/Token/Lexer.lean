import ShaderInline.Schema.Basic
import ShaderInline.Token.Basic

/-! # Cutting a text into tokens

Every character goes into exactly one token, so that nothing of a text is
lost. A text that is not well formed still has tokens; some carry a fault.
-/

namespace ShaderInline

/-- The token at the head of a text: its kind and the number of characters after its first one. -/
structure Lexeme where
  kind : Kind
  extra : Nat
  fault : Option Fault := none
  deriving DecidableEq, Repr

namespace Lexeme

/-- The lexeme made of the first `width` characters, if there is at least one. -/
def ofWidth? (kind : Kind) (fault : Option Fault) : Nat → Option Lexeme
  | 0 => none
  | n + 1 => some ⟨kind, n, fault⟩

def comment? (t : Text) : CommentStyle → Option Lexeme
  | .line mark =>
    if Text.startsWith mark t then
      ofWidth? .lineComment none (t.takeWhile (!Text.isLineBreak ·)).length
    else none
  | .block opening closing =>
    (Text.after? opening t).bind fun body =>
      match Text.breakOn? closing body with
      | some (inside, _) =>
        ofWidth? .blockComment none (opening.length + inside.length + closing.length)
      | none => ofWidth? .blockComment (some .unterminatedComment) t.length

/-- How many characters of a text go on with a number, given the one before them. -/
def numberExtra (hex : Bool) (last : Char) : Text → Nat
  | [] => 0
  | c :: cs =>
    if c.isAlphanum || c == '.' || c == '_' ||
        ((c == '+' || c == '-') && !hex && (last == 'e' || last == 'E')) then
      numberExtra hex c cs + 1
    else 0

/-- A number is hexadecimal if it starts with a zero and an x. -/
def isHex (c : Char) : Text → Bool
  | x :: _ => c == '0' && (x == 'x' || x == 'X')
  | [] => false

/-- How many characters after the opening quote belong to a string, and whether it is closed.
A backslash takes the next character with it; no string goes past the end of its line. -/
def stringExtra : Text → Nat × Bool
  | [] => (0, false)
  | '\\' :: cs =>
    match cs with
    | [] => (1, false)
    | c :: rest =>
      if Text.isLineBreak c then (1, false)
      else ((stringExtra rest).1 + 2, (stringExtra rest).2)
  | c :: cs =>
    if c == '"' then (1, true)
    else if Text.isLineBreak c then (0, false)
    else ((stringExtra cs).1 + 1, (stringExtra cs).2)

/-- The lexeme of one character that starts nothing longer. -/
def single (c : Char) : Lexeme :=
  match c with
  | '(' => ⟨.opener .paren, 0, none⟩
  | ')' => ⟨.closer .paren, 0, none⟩
  | '{' => ⟨.opener .brace, 0, none⟩
  | '}' => ⟨.closer .brace, 0, none⟩
  | '[' => ⟨.opener .bracket, 0, none⟩
  | ']' => ⟨.closer .bracket, 0, none⟩
  | ';' => ⟨.semicolon, 0, none⟩
  | ',' => ⟨.comma, 0, none⟩
  | c => if Text.isPunctuation c then ⟨.punct, 0, none⟩ else ⟨.unknown, 0, some (.unexpected c)⟩

/-- The lexeme at the head of a text that starts no comment. -/
def plain (s : Schema) (c : Char) (cs : Text) : Lexeme :=
  if c == '\n' then ⟨.newline, 0, none⟩
  else if c == '\r' then ⟨.newline, if cs.head? == some '\n' then 1 else 0, none⟩
  else if Text.isBlank c then
    ⟨.whitespace, (cs.takeWhile fun d => Text.isBlank d && !Text.isLineBreak d).length, none⟩
  else if s.isTagMark c && cs.head?.any Text.isWordStart then
    ⟨.tag, (cs.takeWhile Text.isWordPart).length, none⟩
  else if Text.isWordStart c then
    let more := cs.takeWhile Text.isWordPart
    ⟨if s.isKeyword (c :: more) then .keyword else .ident, more.length, none⟩
  else if c.isDigit || (c == '.' && cs.head?.any Char.isDigit) then
    ⟨.number, numberExtra (isHex c cs) c cs, none⟩
  else if c == '"' then
    ⟨.string, (stringExtra cs).1, if (stringExtra cs).2 then none else some .unterminatedString⟩
  else single c

/-- The lexeme at the head of a text. The comment styles come first, in their order. -/
def read (s : Schema) (c : Char) (cs : Text) : Lexeme :=
  (s.comments.findSome? (comment? (c :: cs))).getD (plain s c cs)

end Lexeme

namespace Token

/-- The tokens of a text that starts at an offset, after the first `skip` characters, which
belong to a token that has been read already. -/
def lexFrom (s : Schema) : (skip start : Nat) → Text → List Token
  | _, _, [] => []
  | skip + 1, start, _ :: cs => lexFrom s skip start cs
  | 0, start, c :: cs =>
    let l := Lexeme.read s c cs
    let text := c :: cs.take l.extra
    ⟨l.kind, text, start, l.fault⟩ :: lexFrom s l.extra (start + Text.size text) cs

def lex (s : Schema) (t : Text) : List Token := lexFrom s 0 0 t

def faults (ts : List Token) : List FaultAt := ts.filterMap faultAt?

end Token
end ShaderInline
