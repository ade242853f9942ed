import Mathlib.Data.List.Basic
import ShaderInline.Json.Printer
import ShaderInline.Json.Reader
import ShaderInline.Proofs.Text.Decimal
import ShaderInline.Proofs.Text.Search

/-! # Reading JSON that has been written

A value that is laid out over several lines is read back, whatever follows it, as
long as that does not go on with a number. The reader needs no more steps than
the text is long.
-/

namespace ShaderInline.Json

/-! ### Strings -/

theorem hex4?_control : ∀ n < 0x20,
    hex4? '0' '0' (hexDigit (n / 16)) (hexDigit (n % 16)) = some n := by decide

theorem unit?_control : ∀ n < 0x20,
    isHighSurrogate n = false ∧ unit? n = some (Char.ofNat n) := by decide

theorem stringBody_escapeChar (c : Char) (rest : Text) :
    stringBody (escapeChar c ++ rest) = (stringBody rest).map fun x => (some c :: x.1, x.2) := by
  unfold escapeChar
  split
  next h =>
    obtain rfl := eq_of_beq h
    simp [stringBody]
  next hquote =>
    split
    next h =>
      obtain rfl := eq_of_beq h
      simp [stringBody]
    next hbackslash =>
      split
      next hcontrol =>
        split
        next h =>
          obtain rfl := Text.eq_ofNat h
          simp [stringBody]
        split
        next h =>
          obtain rfl := eq_of_beq h
          simp [stringBody]
        split
        next h =>
          obtain rfl := eq_of_beq h
          simp [stringBody]
        split
        next h =>
          obtain rfl := Text.eq_ofNat h
          simp [stringBody]
        split
        next h =>
          obtain rfl := eq_of_beq h
          simp [stringBody]
        next =>
          obtain ⟨hhigh, hunit⟩ := unit?_control c.toNat hcontrol
          simp [stringBody, hex4?_control c.toNat hcontrol, hhigh, hunit, Char.ofNat_toNat]
      next hplain =>
        rw [List.singleton_append, stringBody]
        · simp_all
        · simp_all
        · simp_all
        · simp_all

theorem stringBody_escape (t rest : Text) :
    stringBody (escape t ++ '"' :: rest) = some (t.map some, rest) := by
  induction t with
  | nil => simp [escape, stringBody]
  | cons c t ih =>
    rw [escape, List.flatMap_cons, List.append_assoc, stringBody_escapeChar]
    rw [escape] at ih
    rw [ih]
    rfl

theorem allChars_map_some (t : Text) : allChars (t.map some) = some t := by
  induction t with
  | nil => rfl
  | cons c t ih => rw [List.map_cons, allChars, ih, Option.map_some]

/-! ### Numbers -/

def EndsNumber (rest : Text) : Prop :=
  ∀ c ∈ rest.head?, c.isDigit = false ∧ c ≠ '.' ∧ c ≠ 'e' ∧ c ≠ 'E'

theorem endsNumber_nil : EndsNumber [] := by
  intro c hc
  cases hc

theorem takeWhile_decimal (n : Nat) {rest : Text} (h : EndsNumber rest) :
    (Text.decimal n ++ rest).takeWhile Char.isDigit = Text.decimal n ∧
      (Text.decimal n ++ rest).dropWhile Char.isDigit = rest := by
  have hdigits : ∀ c ∈ Text.decimal n, c.isDigit = true := by
    intro c hc
    exact Text.isDigit_of_mem_decimal hc
  rw [List.takeWhile_append_of_pos hdigits, List.dropWhile_append_of_pos hdigits]
  cases rest with
  | nil => simp
  | cons c rest => simp [(h c rfl).1]

theorem numberText?_decimal (n : Nat) {rest : Text} (h : EndsNumber rest) :
    numberText? (Text.decimal n ++ rest) = some (Text.decimal n, true, rest) ∧
      numberText? ('-' :: (Text.decimal n ++ rest)) = some ('-' :: Text.decimal n, true, rest) := by
  obtain ⟨htake, hdrop⟩ := takeWhile_decimal n h
  obtain ⟨d, ds, hd, hdigits⟩ := Text.exists_decimal n
  have hsign : d ≠ '-' := by
    rintro rfl
    simp at hdigits
  have hzero : ¬ ((Text.decimal n).isEmpty ||
      (decide ((Text.decimal n).length > 1) && (Text.decimal n).head? == some '0')) = true := by
    intro hz
    rcases Bool.or_eq_true_iff.1 hz with hz | hz
    · simp [hd] at hz
    · rw [Bool.and_eq_true, decide_eq_true_eq, beq_iff_eq] at hz
      rw [Text.decimal_of_head hz.2] at hz
      simp at hz
  constructor
  · rw [numberText?]
    · simp only [htake, hdrop, if_neg hzero]
      cases rest with
      | nil => simp
      | cons c rest =>
        obtain ⟨-, hpoint, he, hE⟩ := h c rfl
        simp [hpoint, he, hE]
    · intro t heq
      rw [hd] at heq
      exact hsign (List.cons.inj heq).1
  · rw [numberText?]
    simp only [htake, hdrop, if_neg hzero]
    cases rest with
    | nil => simp
    | cons c rest =>
      obtain ⟨-, hpoint, he, hE⟩ := h c rfl
      simp [hpoint, he, hE]

theorem numberText?_intText (n : Int) {rest : Text} (h : EndsNumber rest) :
    numberText? (intText n ++ rest) = some (intText n, true, rest) := by
  cases n with
  | ofNat n => exact (numberText?_decimal n h).1
  | negSucc n => exact (numberText?_decimal (n + 1) h).2

theorem ofNumber_intText {n : Int} (hlow : -(limit63 : Int) ≤ n) (hhigh : n < limit64) :
    ofNumber (intText n) true = int n := by
  cases n with
  | ofNat n =>
    obtain ⟨d, ds, hd, hdigits⟩ := Text.exists_decimal n
    have hsign : d ≠ '-' := by
      rintro rfl
      simp at hdigits
    have hlt : n < limit64 := Int.ofNat_lt.1 hhigh
    rw [intText, ofNumber]
    · simp [Text.digitsValue_decimal, hlt]
    · intro ds' heq
      rw [hd] at heq
      exact hsign (List.cons.inj heq).1
  | negSucc n =>
    have hle : n + 1 ≤ limit63 := by omega
    rw [intText, ofNumber]
    simp [Text.digitsValue_decimal, Nat.not_lt.2 hle]
    omega

/-! ### Blanks -/

theorem skipSpace_cons {c : Char} (h : isSpace c = true) (t : Text) :
    skipSpace (c :: t) = skipSpace t := List.dropWhile_cons_of_pos h

theorem skipSpace_of_not {c : Char} (h : isSpace c = false) (t : Text) :
    skipSpace (c :: t) = c :: t := List.dropWhile_cons_of_neg (by rw [h]; exact Bool.false_ne_true)

theorem skipSpace_skipSpace (t : Text) : skipSpace (skipSpace t) = skipSpace t := by
  induction t with
  | nil => rfl
  | cons c t ih =>
    cases h : isSpace c with
    | true => rw [skipSpace_cons h, ih]
    | false => rw [skipSpace_of_not h, skipSpace_of_not h]

theorem skipSpace_newLine (depth : Nat) (t : Text) :
    skipSpace (newLine depth ++ t) = skipSpace t := by
  rw [newLine, List.cons_append, skipSpace_cons rfl]
  induction 2 * depth with
  | zero => rfl
  | succ n ih => rw [List.replicate_succ, List.cons_append, skipSpace_cons rfl, ih]

theorem value?_congr {t u : Text} (h : skipSpace t = skipSpace u) (fuel : Nat) :
    value? fuel t = value? fuel u := by
  cases fuel with
  | zero => rw [value?, value?]
  | succ fuel => rw [value?, value?, h]

theorem items?_congr {t u : Text} (h : skipSpace t = skipSpace u) (fuel : Nat) :
    items? fuel t = items? fuel u := by
  cases fuel with
  | zero => rw [items?, items?]
  | succ fuel => rw [items?, items?, value?_congr h]

theorem members?_congr {t u : Text} (h : skipSpace t = skipSpace u) (fuel : Nat) :
    members? fuel t = members? fuel u := by
  cases fuel with
  | zero => rw [members?, members?]
  | succ fuel => rw [members?, members?, h]

/-! ### Arrays and objects -/

section Lists

variable {fuel : Nat} {t u r r' : Text} {j : Json} {js : List Json} {ms : List (Text × Json)}

theorem value?_closing (h : skipSpace t = ']' :: r) : value? fuel t = none := by
  cases fuel with
  | zero => rw [value?]
  | succ fuel =>
    rw [value?, h]
    rfl

theorem items?_closing (h : skipSpace t = ']' :: r) : items? fuel t = none := by
  cases fuel with
  | zero => rw [items?]
  | succ fuel => rw [items?, value?_closing h]

theorem members?_closing (h : skipSpace t = '}' :: r) : members? fuel t = none := by
  cases fuel with
  | zero => rw [members?]
  | succ fuel =>
    rw [members?, h]
    simp

theorem value?_arr (h : items? fuel t = some (js, r)) :
    value? (fuel + 1) ('[' :: t) = some (arr js, r) := by
  rw [value?, skipSpace_of_not rfl]
  simp only [Char.reduceBEq, Bool.false_eq_true, if_false, if_true]
  split
  next heq =>
    rw [items?_closing heq] at h
    cases h
  next => rw [items?_congr (skipSpace_skipSpace t), h, Option.map_some]

theorem value?_obj (h : members? fuel t = some (some ms, r)) :
    value? (fuel + 1) ('{' :: t) = some (obj ms, r) := by
  rw [value?, skipSpace_of_not rfl]
  simp only [Char.reduceBEq, if_true]
  split
  next heq =>
    rw [members?_closing heq] at h
    cases h
  next =>
    rw [members?_congr (skipSpace_skipSpace t), h]
    rfl

theorem items?_last (hv : value? fuel t = some (j, r)) (hr : skipSpace r = ']' :: r') :
    items? (fuel + 1) t = some ([j], r') := by
  rw [items?, hv]
  simp only [hr]

theorem items?_cons (hv : value? fuel t = some (j, ',' :: r))
    (hr : items? fuel r = some (js, r')) : items? (fuel + 1) t = some (j :: js, r') := by
  rw [items?, hv]
  simp only [skipSpace_of_not (c := ',') rfl, hr, Option.map_some]

theorem members?_last (k : Text) (hv : value? fuel u = some (j, r))
    (hr : skipSpace r = '}' :: r') :
    members? (fuel + 1) (quote k ++ ':' :: ' ' :: u) = some (some [(k, j)], r') := by
  rw [members?, quote, List.cons_append, skipSpace_of_not rfl, List.append_assoc,
    List.singleton_append]
  simp only [stringBody_escape, skipSpace_of_not (c := ':') rfl,
    value?_congr (skipSpace_cons (c := ' ') rfl u), hv, hr, allChars_map_some]
  rfl

theorem members?_cons (k : Text) (hv : value? fuel u = some (j, ',' :: r))
    (hr : members? fuel r = some (some ms, r')) :
    members? (fuel + 1) (quote k ++ ':' :: ' ' :: u) = some (some ((k, j) :: ms), r') := by
  rw [members?, quote, List.cons_append, skipSpace_of_not rfl, List.append_assoc,
    List.singleton_append]
  simp only [stringBody_escape, skipSpace_of_not (c := ':') rfl,
    value?_congr (skipSpace_cons (c := ' ') rfl u), hv, skipSpace_of_not (c := ',') rfl, hr,
    allChars_map_some]
  rfl

end Lists

/-! ### Whole values -/

mutual

/-- A value that JSON can spell exactly: its numbers are integers of 64 bits. -/
def IsPlain : Json → Prop
  | null | bool _ | str _ => True
  | int n => -(limit63 : Int) ≤ n ∧ n < limit64
  | real _ | unpaired | date _ => False
  | arr items => ItemsPlain items
  | obj members => MembersPlain members

def ItemsPlain : List Json → Prop
  | [] => True
  | j :: js => j.IsPlain ∧ ItemsPlain js

def MembersPlain : List (Text × Json) → Prop
  | [] => True
  | (_, j) :: ms => j.IsPlain ∧ MembersPlain ms

end

theorem endsNumber_newLine (depth : Nat) (t : Text) : EndsNumber (newLine depth ++ t) := by
  intro c hc
  obtain rfl : '\n' = c := Option.some.inj hc
  decide

theorem endsNumber_comma (t : Text) : EndsNumber (',' :: t) := by
  intro c hc
  obtain rfl : ',' = c := Option.some.inj hc
  decide

theorem pretty_arr_cons (depth : Nat) (j : Json) (js : List Json) : pretty depth (arr (j :: js)) =
    '[' :: (prettyItems (depth + 1) (j :: js) ++ newLine depth ++ [']']) := rfl

theorem pretty_obj_cons (depth : Nat) (m : Text × Json) (ms : List (Text × Json)) :
    pretty depth (obj (m :: ms)) =
      '{' :: (prettyMembers (depth + 1) (m :: ms) ++ newLine depth ++ ['}']) := rfl

theorem prettyItems_cons (depth : Nat) (i j : Json) (js : List Json) :
    prettyItems depth (i :: j :: js) =
      newLine depth ++ pretty depth i ++ ',' :: prettyItems depth (j :: js) := rfl

theorem prettyMembers_cons (depth : Nat) (k : Text) (j : Json) (m : Text × Json)
    (ms : List (Text × Json)) : prettyMembers depth ((k, j) :: m :: ms) =
      newLine depth ++ quote k ++
        ':' :: ' ' :: (pretty depth j ++ ',' :: prettyMembers depth (m :: ms)) := rfl

section Scalars

variable (fuel : Nat) {rest : Text}

theorem value?_null : value? (fuel + 1) (scalar null ++ rest) = some (null, rest) := by
  rw [scalar, value?]
  rfl

theorem value?_bool (b : Bool) :
    value? (fuel + 1) (scalar (bool b) ++ rest) = some (bool b, rest) := by
  cases b with
  | true =>
    rw [scalar, value?]
    rfl
  | false =>
    rw [scalar, value?]
    rfl

theorem value?_str (t : Text) :
    value? (fuel + 1) (scalar (str t) ++ rest) = some (str t, rest) := by
  rw [scalar, value?, quote, List.cons_append, skipSpace_of_not rfl, List.append_assoc,
    List.singleton_append]
  simp [stringBody_escape, allChars_map_some]

theorem exists_intText (n : Int) :
    ∃ c cs, intText n = c :: cs ∧ (c = '-' ∨ c.isDigit = true) := by
  cases n with
  | ofNat n =>
    obtain ⟨d, ds, hd, hdigits⟩ := Text.exists_decimal n
    exact ⟨d, ds, hd, .inr (hdigits d List.mem_cons_self)⟩
  | negSucc n => exact ⟨'-', _, rfl, .inl rfl⟩

theorem value?_int {n : Int} (hn : (int n).IsPlain) (hrest : EndsNumber rest) :
    value? (fuel + 1) (scalar (int n) ++ rest) = some (int n, rest) := by
  have hnumber := numberText?_intText n hrest
  obtain ⟨c, cs, hc, hsign⟩ := exists_intText n
  have hhead : isSpace c = false ∧ (c == '{') = false ∧ (c == '[') = false ∧
      (c == '"') = false ∧ (c == '-' || c.isDigit) = true := by
    rcases hsign with rfl | hdigit
    · decide
    · have hne : ∀ d : Char, d.isDigit = false → (c == d) = false := by
        intro d hd
        rw [beq_eq_false_iff_ne]
        rintro rfl
        rw [hdigit] at hd
        cases hd
      refine ⟨?_, hne _ rfl, hne _ rfl, hne _ rfl, by simp [hdigit]⟩
      rw [isSpace, hne _ rfl, hne _ rfl, hne _ rfl, hne _ rfl]
      rfl
  obtain ⟨hspace, hbrace, hbracket, hquote, hstart⟩ := hhead
  rw [hc, List.cons_append] at hnumber
  rw [scalar, hc, List.cons_append, value?, skipSpace_of_not hspace]
  simp only [hbrace, hbracket, hquote, hstart, Bool.false_eq_true, if_false, if_true, hnumber,
    Option.map_some]
  rw [← hc, ofNumber_intText hn.1 hn.2]

end Scalars

mutual

/-- A value is read back. Every bracket, item and member costs a character and a step. -/
theorem value?_pretty : ∀ (j : Json) (fuel depth : Nat) (rest : Text), j.IsPlain →
    (j.pretty depth).length < fuel → EndsNumber rest →
    value? fuel (j.pretty depth ++ rest) = some (j, rest)
  | _, 0, _, _, _, hlen, _ => absurd hlen (Nat.not_lt_zero _)
  | null, fuel + 1, _, _, _, _, _ => value?_null fuel
  | bool b, fuel + 1, _, _, _, _, _ => value?_bool fuel b
  | int _, fuel + 1, _, _, hj, _, hrest => value?_int fuel hj hrest
  | str t, fuel + 1, _, _, _, _, _ => value?_str fuel t
  | arr [], fuel + 1, depth, rest, _, _, _ => by
    rw [pretty, value?]
    rfl
  | arr (j :: js), fuel + 1, depth, rest, hj, hlen, _ => by
    rw [pretty_arr_cons] at hlen ⊢
    rw [List.cons_append, List.append_assoc, List.append_assoc]
    apply value?_arr
    apply items?_pretty j js fuel (depth + 1) depth rest hj
    simp only [List.length_cons, List.length_append] at hlen
    omega
  | obj [], fuel + 1, depth, rest, _, _, _ => by
    rw [pretty, value?]
    rfl
  | obj ((k, j) :: ms), fuel + 1, depth, rest, hj, hlen, _ => by
    rw [pretty_obj_cons] at hlen ⊢
    rw [List.cons_append, List.append_assoc, List.append_assoc]
    apply value?_obj
    apply members?_pretty k j ms fuel (depth + 1) depth rest hj
    simp only [List.length_cons, List.length_append] at hlen
    omega
  termination_by structural _ fuel => fuel

theorem items?_pretty : ∀ (j : Json) (js : List Json) (fuel depth outer : Nat) (rest : Text),
    ItemsPlain (j :: js) → (prettyItems depth (j :: js)).length < fuel →
    items? fuel (prettyItems depth (j :: js) ++ (newLine outer ++ ([']'] ++ rest))) =
      some (j :: js, rest)
  | _, _, 0, _, _, _, _, hlen => absurd hlen (Nat.not_lt_zero _)
  | j, [], fuel + 1, depth, outer, rest, hj, hlen => by
    rw [prettyItems] at hlen ⊢
    simp only [newLine, List.length_append, List.length_cons] at hlen
    rw [List.append_assoc, items?_congr (skipSpace_newLine depth _)]
    apply items?_last (r := newLine outer ++ ([']'] ++ rest))
    · apply value?_pretty j fuel depth _ hj.1 _ (endsNumber_newLine outer _)
      omega
    · rw [skipSpace_newLine]
      rfl
  | j, k :: ks, fuel + 1, depth, outer, rest, hj, hlen => by
    rw [prettyItems_cons] at hlen ⊢
    simp only [newLine, List.length_append, List.length_cons] at hlen
    rw [List.append_assoc, List.append_assoc, items?_congr (skipSpace_newLine depth _)]
    apply items?_cons
    · apply value?_pretty j fuel depth _ hj.1 _ (endsNumber_comma _)
      omega
    · apply items?_pretty k ks fuel depth outer rest hj.2
      omega
  termination_by structural _ _ fuel => fuel

theorem members?_pretty : ∀ (k : Text) (j : Json) (ms : List (Text × Json))
    (fuel depth outer : Nat) (rest : Text),
    MembersPlain ((k, j) :: ms) → (prettyMembers depth ((k, j) :: ms)).length < fuel →
    members? fuel (prettyMembers depth ((k, j) :: ms) ++ (newLine outer ++ (['}'] ++ rest))) =
      some (some ((k, j) :: ms), rest)
  | _, _, _, 0, _, _, _, _, hlen => absurd hlen (Nat.not_lt_zero _)
  | k, j, [], fuel + 1, depth, outer, rest, hj, hlen => by
    rw [prettyMembers] at hlen ⊢
    simp only [newLine, List.length_append, List.length_cons] at hlen
    rw [List.append_assoc, List.append_assoc, members?_congr (skipSpace_newLine depth _)]
    apply members?_last k (r := newLine outer ++ (['}'] ++ rest))
    · apply value?_pretty j fuel depth _ hj.1 _ (endsNumber_newLine outer _)
      omega
    · rw [skipSpace_newLine]
      rfl
  | k, j, (l, i) :: ms, fuel + 1, depth, outer, rest, hj, hlen => by
    rw [prettyMembers_cons] at hlen ⊢
    simp only [newLine, List.length_append, List.length_cons] at hlen
    rw [List.append_assoc, List.append_assoc, members?_congr (skipSpace_newLine depth _)]
    rw [List.cons_append, List.cons_append, List.append_assoc]
    apply members?_cons k
    · apply value?_pretty j fuel depth _ hj.1 _ (endsNumber_comma _)
      omega
    · apply members?_pretty l i ms fuel depth outer rest hj.2
      omega
  termination_by structural _ _ _ fuel => fuel

end

theorem parse?_pretty {j : Json} (hj : j.IsPlain) : parse? (j.pretty 0) = some j := by
  have hread := value?_pretty j (2 * (j.pretty 0).length + 2) 0 [] hj (by omega) endsNumber_nil
  rw [List.append_nil] at hread
  rw [parse?, hread]
  rfl

end ShaderInline.Json
