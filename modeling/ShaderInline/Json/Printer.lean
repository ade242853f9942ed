import ShaderInline.Json.Basic

/-! # Writing JSON

Two layouts: compact, without any blank, and indented, with one member or item
a line. Strings keep every character but quotes, backslashes and controls.
-/

namespace ShaderInline.Json

def hexDigit (n : Nat) : Char := Nat.digitChar n

def escapeChar (c : Char) : Text :=
  if c == '"' then ['\\', '"']
  else if c == '\\' then ['\\', '\\']
  else if c.toNat < 0x20 then
    if c.toNat == 0x08 then ['\\', 'b']
    else if c == '\t' then ['\\', 't']
    else if c == '\n' then ['\\', 'n']
    else if c.toNat == 0x0c then ['\\', 'f']
    else if c == '\r' then ['\\', 'r']
    else ['\\', 'u', '0', '0', hexDigit (c.toNat / 16), hexDigit (c.toNat % 16)]
  else [c]

def escape (t : Text) : Text := t.flatMap escapeChar

def quote (t : Text) : Text := '"' :: (escape t ++ ['"'])

def intText : Int → Text
  | .ofNat n => Text.decimal n
  | .negSucc n => '-' :: Text.decimal (n + 1)

/-- The text of a value that holds no others. -/
def scalar : Json → Text
  | null => "null".toList
  | bool true => "true".toList
  | bool false => "false".toList
  | int n => intText n
  | real t => t
  | str t => quote t
  | _ => []

mutual

/-- A value without blanks. -/
def compact : Json → Text
  | arr items => '[' :: (compactItems items ++ [']'])
  | obj members => '{' :: (compactMembers members ++ ['}'])
  | j => scalar j

def compactItems : List Json → Text
  | [] => []
  | [j] => compact j
  | j :: js => compact j ++ ',' :: compactItems js

def compactMembers : List (Text × Json) → Text
  | [] => []
  | [(k, j)] => quote k ++ ':' :: compact j
  | (k, j) :: ms => quote k ++ ':' :: (compact j ++ ',' :: compactMembers ms)

end

/-- A new line, indented by two blanks a level. -/
def newLine (depth : Nat) : Text := '\n' :: List.replicate (2 * depth) ' '

mutual

/-- A value laid out over several lines, at a depth. -/
def pretty (depth : Nat) : Json → Text
  | arr [] => ['[', ']']
  | arr items => '[' :: (prettyItems (depth + 1) items ++ newLine depth ++ [']'])
  | obj [] => ['{', '}']
  | obj members => '{' :: (prettyMembers (depth + 1) members ++ newLine depth ++ ['}'])
  | j => scalar j

def prettyItems (depth : Nat) : List Json → Text
  | [] => []
  | [j] => newLine depth ++ pretty depth j
  | j :: js => newLine depth ++ pretty depth j ++ ',' :: prettyItems depth js

def prettyMembers (depth : Nat) : List (Text × Json) → Text
  | [] => []
  | [(k, j)] => newLine depth ++ quote k ++ ':' :: ' ' :: pretty depth j
  | (k, j) :: ms =>
    newLine depth ++ quote k ++ ':' :: ' ' :: (pretty depth j ++ ',' :: prettyMembers depth ms)

end

end ShaderInline.Json
