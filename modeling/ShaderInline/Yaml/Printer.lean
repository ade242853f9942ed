import ShaderInline.Yaml.Token

/-! # Writing YAML strings

A string stands plain if it reads back as that string, in single quotes if it
could be taken for something else, on lines of its own if it has line feeds,
and in double quotes if nothing else will do.
-/

namespace ShaderInline.Yaml

def isNullWord (t : Text) : Bool :=
  ["null", "Null", "NULL", "~"].any fun w => w.toList == t

def boolWord? (t : Text) : Option Bool :=
  if ["true", "True", "TRUE"].any fun w => w.toList == t then some true
  else if ["false", "False", "FALSE"].any fun w => w.toList == t then some false
  else none

/-- Digits after a leading zero are no number. -/
def isZeroLed (t : Text) : Bool :=
  match Text.dropSign t with
  | '0' :: c :: cs => (c :: cs).all Char.isDigit
  | _ => false

def digits? (base : Nat) (t : Text) : Option Nat :=
  if t.isEmpty then none
  else (t.mapM Text.hexValue?).bind fun ds =>
    if ds.all (· < base) then some (ds.foldl (fun n d => n * base + d) 0) else none

/-- The number that a scalar without minus sign spells: in decimal or after a mark of its base. -/
def nat? (t : Text) : Option Nat :=
  let u := match t with
    | '+' :: u => u
    | u => u
  match u with
  | '0' :: 'x' :: ds => digits? 16 ds
  | '0' :: 'o' :: ds => digits? 8 ds
  | '0' :: 'b' :: ds => digits? 2 ds
  | ds => if isZeroLed t then none else digits? 10 ds

def isInt (t : Text) : Bool :=
  match t with
  | '-' :: u => u.head? != some '+' && (nat? u).any (· ≤ 0x80000000000000000000000000000000)
  | t => (nat? t).any (· < 0x100000000000000000000000000000000)

/-- Whether a scalar spells a finite number with a fraction or an exponent. -/
def isNumber (t : Text) : Bool :=
  let lower := t.map fun c => if c == 'E' then 'e' else c
  let (mantissa, exponent) : Text × Text := (Text.breakAt? 'e' lower).getD (lower, ['0'])
  let (whole, fraction) : Text × Text := (Text.breakAt? '.' mantissa).getD (mantissa, [])
  let digits := whole ++ fraction
  let size := Text.dropSign exponent
  !digits.isEmpty && digits.all Char.isDigit && !size.isEmpty && size.all Char.isDigit &&
    Text.isFiniteDecimal whole fraction exponent

/-- Whether a scalar spells a number that need not be whole. -/
def isFloat (t : Text) : Bool :=
  let u := Text.dropSign t
  [".inf", ".Inf", ".INF"].any (fun w => w.toList == u) ||
    [".nan", ".NaN", ".NAN"].any (fun w => w.toList == t) || isNumber u

/-- Whether a string could be taken for something else if it stood plain. -/
def isAmbiguous (t : Text) : Bool :=
  t.isEmpty || isNullWord t || (boolWord? t).isSome || isInt t || isZeroLed t || isFloat t

/-- A character that may be written as it is. -/
def isPrintable (c : Char) : Bool :=
  let n := c.toNat
  n == 0x0a || (0x20 ≤ n && n ≤ 0x7e) || (0xa0 ≤ n && n ≤ 0xd7ff) ||
    (0xe000 ≤ n && n ≤ 0xfffd && n != 0xfeff) || 0x10000 ≤ n

/-- Whether a text ends here or goes on with a gap. The character with code zero counts as one. -/
def isGapNext (t : Text) : Bool := atGap t || t.head?.any (·.toNat == 0)

/-- Whether marks in a text keep it from standing plain. -/
def hasIndicators (first afterBlank : Bool) : Text → Bool
  | [] => false
  | c :: rest =>
    let here :=
      if first then
        Scan.indicators.contains c || ((c == '?' || c == ':' || c == '-') && isGapNext rest)
      else (c == ':' && isGapNext rest) || (c == '#' && afterBlank)
    here || hasIndicators false (isGapNext [c]) rest

def hasPair (p q : Char → Bool) : Text → Bool
  | a :: b :: rest => (p a && q b) || hasPair p q (b :: rest)
  | _ => false

def standsPlain (t : Text) : Bool :=
  !(t.take 3 == ['-', '-', '-'] || t.take 3 == ['.', '.', '.']) && !hasIndicators true true t &&
    t.head? != some ' ' && t.getLast? != some ' ' && !t.any isBreak && t.all isPrintable

def standsSingle (t : Text) : Bool :=
  t.all isPrintable && !hasPair (· == ' ') isBreak t && !hasPair isBreak (· == ' ') t

def standsBlock (t : Text) : Bool :=
  t.all isPrintable && !hasPair (· == ' ') isBreak t && t.getLast? != some ' '

def margin (indent : Nat) : Text := List.replicate indent ' '

/-- The characters between single quotes. What follows a break is indented, also the quote. -/
def singleChars (indent : Nat) (afterBreak : Bool) : Text → Text
  | [] => if afterBreak then margin indent else []
  | c :: cs =>
    if isBreak c then c :: singleChars indent true cs
    else
      (if afterBreak then margin indent else []) ++ (if c == '\'' then ['\'', '\''] else [c]) ++
        singleChars indent false cs

def single (indent : Nat) (t : Text) : Text := '\'' :: (singleChars indent false t ++ ['\''])

def upperHex (width n : Nat) : Text :=
  let ds := (Nat.toDigits 16 n).map Char.toUpper
  List.replicate (width - ds.length) '0' ++ ds

def escapeChar (c : Char) : Text :=
  let n := c.toNat
  if c == '"' || c == '\\' then ['\\', c]
  else if isPrintable c && !isBreak c then [c]
  else
    match [(0x00, '0'), (0x07, 'a'), (0x08, 'b'), (0x09, 't'), (0x0a, 'n'), (0x0b, 'v'),
        (0x0c, 'f'), (0x0d, 'r'), (0x1b, 'e'), (0x85, 'N'), (0x2028, 'L'), (0x2029, 'P')].find?
        fun e => e.1 == n with
    | some e => ['\\', e.2]
    | none =>
      if n ≤ 0xff then ['\\', 'x'] ++ upperHex 2 n
      else if n ≤ 0xffff then ['\\', 'u'] ++ upperHex 4 n
      else ['\\', 'U'] ++ upperHex 8 n

def double (t : Text) : Text := '"' :: (t.flatMap escapeChar ++ ['"'])

/-- The lines of a string, each of which is indented unless it is empty. -/
def literalChars (indent : Nat) (afterBreak : Bool) : Text → Text
  | [] => []
  | c :: cs =>
    if isBreak c then c :: literalChars indent true cs
    else (if afterBreak then margin indent else []) ++ c :: literalChars indent false cs

/-- A string on lines of its own, indented. -/
def literal (indent : Nat) (t : Text) : Text :=
  let hint := if t.head?.any fun c => c == ' ' || isBreak c then ['2'] else []
  let chomp :=
    match t.reverse with
    | [] => ['-']
    | c :: rest =>
      if !isBreak c then ['-']
      else if rest.head?.all isBreak then ['+']
      else []
  ['|'] ++ hint ++ chomp ++ '\n' :: literalChars indent true t

def string (indent : Nat) (t : Text) : Text :=
  if t.contains '\n' then if standsBlock t then literal indent t else double t
  else if !isAmbiguous t && standsPlain t then t
  else if standsSingle t then single indent t
  else double t

/-- End a line, unless the last string on it has done so. -/
def endLine (t : Text) : Text := if t.getLast?.any isBreak then t else t ++ ['\n']

/-- The most bytes that a key beside its value may have. -/
def maxKey : Nat := 128

/-- A key with its value, on lines of their own if the key is long or has several lines. -/
def member (indent : Nat) (k value : Text) : Text :=
  let k' := string (indent + 2) k
  if k.any isBreak || maxKey < Text.size k then
    margin indent ++ "? ".toList ++ endLine k' ++ margin indent ++ ": ".toList ++ endLine value
  else margin indent ++ k' ++ ": ".toList ++ endLine value

end ShaderInline.Yaml
