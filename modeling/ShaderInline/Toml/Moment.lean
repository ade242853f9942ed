import ShaderInline.Text.Number

/-! # Dates and times

A moment is a date, a time of the day, or both, and then possibly a zone. A
moment is written in one way only, however it was spelled.
-/

namespace ShaderInline.Toml

structure Date where
  year : Nat
  month : Nat
  day : Nat
  deriving DecidableEq, Repr

structure Time where
  hour : Nat
  minute : Nat
  second : Nat
  nanosecond : Nat
  deriving DecidableEq, Repr

inductive Zone where
  | utc
  /-- So many minutes ahead of it. -/
  | shift (minutes : Int)
  deriving DecidableEq, Repr

inductive Moment where
  | date (d : Date)
  | time (t : Time)
  | both (d : Date) (t : Time) (zone : Option Zone)
  deriving DecidableEq, Repr

/-! ### Reading -/

def digits? (width : Nat) (t : Text) : Option (Nat × Text) :=
  let ds := t.take width
  if ds.length = width && ds.all Char.isDigit then some (Text.digitsValue ds, t.drop width)
  else none

def after? (c : Char) : Text → Option Text
  | d :: t => if d = c then some t else none
  | [] => none

namespace Date

def isLeapYear (year : Nat) : Bool := year % 4 = 0 && (year % 100 != 0 || year % 400 = 0)

def daysIn (year month : Nat) : Nat :=
  if month = 2 then if isLeapYear year then 29 else 28
  else if [4, 6, 9, 11].contains month then 30
  else 31

def isValid (d : Date) : Bool :=
  1 ≤ d.month && d.month ≤ 12 && 1 ≤ d.day && d.day ≤ daysIn d.year d.month

def read? (t : Text) : Option (Date × Text) := do
  let (year, t) ← digits? 4 t
  let (month, t) ← digits? 2 (← after? '-' t)
  let (day, t) ← digits? 2 (← after? '-' t)
  let d : Date := ⟨year, month, day⟩
  if d.isValid then some (d, t) else none

end Date

namespace Time

/-- A minute may have a leap second. -/
def isValid (t : Time) : Bool := t.hour ≤ 23 && t.minute ≤ 59 && t.second ≤ 60

/-- The nanoseconds after the point of a second; further digits are cut off. -/
def nanoseconds (digits : Text) : Nat :=
  Text.digitsValue ((digits ++ List.replicate 9 '0').take 9)

/-- A fraction of a second at the head of a text and the rest. -/
def fraction? : Text → Option (Nat × Text)
  | '.' :: t =>
    let ds := t.takeWhile Char.isDigit
    if ds.isEmpty then none else some (nanoseconds ds, t.drop ds.length)
  | t => some (0, t)

/-- The seconds of a time, which may be left out, its nanoseconds and the rest. -/
def seconds? : Text → Option (Nat × Nat × Text)
  | ':' :: t => do
    let (second, t) ← digits? 2 t
    let (nanosecond, t) ← fraction? t
    return (second, nanosecond, t)
  | t => some (0, 0, t)

def read? (t : Text) : Option (Time × Text) := do
  let (hour, t) ← digits? 2 t
  let (minute, t) ← digits? 2 (← after? ':' t)
  let (second, nanosecond, t) ← seconds? t
  let clock : Time := ⟨hour, minute, second, nanosecond⟩
  if clock.isValid then some (clock, t) else none

end Time

namespace Zone

/-- The minutes of a shift, without its sign. -/
def minutes? (t : Text) : Option Nat := do
  let (hour, t) ← digits? 2 t
  let (minute, t) ← digits? 2 (← after? ':' t)
  if t.isEmpty && hour ≤ 23 && minute ≤ 59 then some (hour * 60 + minute) else none

def parse? : Text → Option Zone
  | ['Z'] | ['z'] => some .utc
  | '+' :: t => (minutes? t).map fun n => .shift n
  | '-' :: t => (minutes? t).map fun n => .shift (-n)
  | _ => none

end Zone

namespace Moment

/-- What follows a date: nothing, or a time and possibly a zone. -/
def ofDate? (d : Date) : Text → Option Moment
  | [] => some (.date d)
  | c :: t =>
    if c = 'T' || c = 't' || c = ' ' then
      match Time.read? t with
      | some (clock, []) => some (.both d clock none)
      | some (clock, zone) => (Zone.parse? zone).map fun z => .both d clock (some z)
      | none => none
    else none

def parse? (t : Text) : Option Moment :=
  match Date.read? t with
  | some (d, t) => ofDate? d t
  | none =>
    match Time.read? t with
    | some (clock, []) => some (.time clock)
    | _ => none

end Moment

/-! ### Writing -/

/-- A number with zeros in front up to a width. -/
def padded (width n : Nat) : Text :=
  let ds := Text.decimal n
  List.replicate (width - ds.length) '0' ++ ds

def Date.text (d : Date) : Text :=
  padded 4 d.year ++ '-' :: padded 2 d.month ++ '-' :: padded 2 d.day

/-- The seconds are always written, a fraction of them only as far as it is not zero. -/
def Time.text (t : Time) : Text :=
  padded 2 t.hour ++ ':' :: padded 2 t.minute ++ ':' :: padded 2 t.second ++
    (if t.nanosecond = 0 then []
      else '.' :: ((padded 9 t.nanosecond).reverse.dropWhile (· == '0')).reverse)

def Zone.text : Zone → Text
  | utc => ['Z']
  | shift minutes =>
    let n := minutes.natAbs
    (if minutes < 0 then '-' else '+') :: padded 2 (n / 60) ++ ':' :: padded 2 (n % 60)

def Moment.text : Moment → Text
  | date d => d.text
  | time t => t.text
  | both d t zone => d.text ++ 'T' :: t.text ++ (zone.map Zone.text).getD []

end ShaderInline.Toml
