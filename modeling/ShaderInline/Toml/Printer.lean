import ShaderInline.Text.Basic

/-! # Writing TOML strings and keys

A string is written in the first form that needs no escapes: between double
quotes, between single quotes, then between three of either. If none will do,
its characters are escaped.
-/

namespace ShaderInline.Toml

/-- The longest run of a character in a text, given the length of the run before it. -/
def longestRun (c : Char) (run : Nat) : Text → Nat
  | [] => 0
  | d :: ds => if d = c then max (run + 1) (longestRun c (run + 1) ds) else longestRun c 0 ds

/-- A control character other than the tab and the line feed. -/
def needsCode (c : Char) : Bool := (c.toNat < 0x20 && c != '\t' && c != '\n') || c.toNat == 0x7f

def upperHex (n : Nat) : Char := (Nat.digitChar n).toUpper

def escapeChar (c : Char) : Text :=
  if c == '"' then ['\\', '"']
  else if c == '\\' then ['\\', '\\']
  else if c.toNat == 0x08 then ['\\', 'b']
  else if c == '\t' then ['\\', 't']
  else if c == '\n' then ['\\', 'n']
  else if c.toNat == 0x0c then ['\\', 'f']
  else if c == '\r' then ['\\', 'r']
  else if c.toNat < 0x20 || c.toNat == 0x7f then
    ['\\', 'u', '0', '0', upperHex (c.toNat / 16), upperHex (c.toNat % 16)]
  else [c]

/-- The characters between three double quotes, of which at most two may follow each other. -/
def escapeLines (run : Nat) : Text → Text
  | [] => []
  | c :: cs =>
    if c == '"' then
      if run < 2 then c :: escapeLines (run + 1) cs else '\\' :: '"' :: escapeLines 0 cs
    else if c == '\n' then c :: escapeLines 0 cs
    else escapeChar c ++ escapeLines 0 cs

def basic (t : Text) : Text := '"' :: (t.flatMap escapeChar ++ ['"'])

def literal (t : Text) : Text := '\'' :: (t ++ ['\''])

/-- A line feed after the opening quotes, which does not count, if the text has several lines. -/
def firstLine (t : Text) : Text := if t.contains '\n' then ['\n'] else []

def basicLines (t : Text) : Text :=
  ['"', '"', '"'] ++ firstLine t ++ escapeLines 0 t ++ ['"', '"', '"']

def literalLines (t : Text) : Text :=
  ['\'', '\'', '\''] ++ firstLine t ++ t ++ ['\'', '\'', '\'']

def string (t : Text) : Text :=
  let codes := t.any needsCode
  let backslash := t.contains '\\'
  let lines := t.contains '\n'
  if !codes && !backslash && !t.contains '"' && !lines then basic t
  else if !codes && !t.contains '\'' && !lines then literal t
  else if !codes && !backslash && longestRun '"' 0 t ≤ 2 then basicLines t
  else if !codes && longestRun '\'' 0 t ≤ 2 then literalLines t
  else if lines then basicLines t
  else basic t

def isBareChar (c : Char) : Bool := c.isAlphanum || c == '_' || c == '-'

def key (t : Text) : Text :=
  if !t.isEmpty && t.all isBareChar then t
  else
    let codes := t.any fun c => needsCode c || c == '\n'
    if !codes && !t.contains '\\' && !t.contains '"' then basic t
    else if !codes && !t.contains '\'' then literal t
    else basic t

/-- A list of strings; two or more stand on lines of their own. -/
def strings : List Text → Text
  | [] => ['[', ']']
  | [t] => '[' :: (string t ++ [']'])
  | ts => "[\n".toList ++ ts.flatMap (fun t => "    ".toList ++ string t ++ ",\n".toList) ++ [']']

end ShaderInline.Toml
