/-! # Character classes

Blanks are the characters with the Unicode property White_Space and controls
those of category Cc. The word and punctuation classes are those of ASCII.
-/

namespace ShaderInline.Text

/-- Unicode White_Space. -/
def isBlank (c : Char) : Bool :=
  let n := c.toNat
  (0x09 ≤ n && n ≤ 0x0d) || n == 0x20 || n == 0x85 || n == 0xa0 || n == 0x1680 ||
    (0x2000 ≤ n && n ≤ 0x200a) || n == 0x2028 || n == 0x2029 || n == 0x202f || n == 0x205f ||
    n == 0x3000

/-- Unicode category Cc. -/
def isControl (c : Char) : Bool :=
  let n := c.toNat
  n < 0x20 || (0x7f ≤ n && n ≤ 0x9f)

def isLineBreak (c : Char) : Bool := c == '\n' || c == '\r'

def isAscii (c : Char) : Bool := c.toNat < 0x80

/-- The printable ASCII characters that are neither letters, digits nor the space. -/
def isPunctuation (c : Char) : Bool :=
  let n := c.toNat
  (0x21 ≤ n && n ≤ 0x2f) || (0x3a ≤ n && n ≤ 0x40) || (0x5b ≤ n && n ≤ 0x60) ||
    (0x7b ≤ n && n ≤ 0x7e)

/-- The first character of a word. -/
def isWordStart (c : Char) : Bool := c.isAlpha || c == '_'

/-- The further characters of a word. -/
def isWordPart (c : Char) : Bool := c.isAlphanum || c == '_'

end ShaderInline.Text
