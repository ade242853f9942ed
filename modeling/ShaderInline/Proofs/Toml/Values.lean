import ShaderInline.Proofs.Text.Split
import ShaderInline.Proofs.Toml.Strings

/-! # Reading TOML values that have been written

Strings, lists of strings, truth values and numbers are read back at the end of
a line.
-/

namespace ShaderInline.Toml

/-! ### Line ends -/

theorem skipLines_of_head {c : Char} (hblank : isBlank c = false) (hcomment : c ≠ '#')
    (hbreak : c ≠ '\n' ∧ c ≠ '\r') (fuel : Nat) (t : Text) :
    skipLines fuel (c :: t) = some (c :: t) := by
  have hline : lineBreak? (c :: t) = none := by
    apply lineBreak?_of_head
    rintro d ⟨⟩
    exact hbreak
  cases fuel with
  | zero => rw [skipLines]
  | succ fuel =>
    rw [skipLines, skipBlanks_of_not hblank, skipComment]
    · simp only [hline]
    · rintro u ⟨⟩
      exact hcomment rfl

theorem skipLines_newLine (fuel : Nat) (t : Text) :
    skipLines (fuel + 1) ('\n' :: t) = skipLines fuel t := rfl

theorem endLine?_newLine (t : Text) : endLine? ('\n' :: t) = some t := rfl

/-! ### Values -/

def Spells (v : Text) (j : Json) : Prop :=
  (∀ c ∈ v.head?, isBlank c = false) ∧ ∀ fuel rest, v.length < fuel →
    value? fuel maxDepth (v ++ '\n' :: rest) = some (j, '\n' :: rest)

theorem exists_string (t : Text) : ∃ c cs, string t = c :: cs ∧ (c = '"' ∨ c = '\'') := by
  rcases string_cases t with h | h | ⟨h, -⟩ | ⟨h, -⟩
  · exact ⟨'"', _, h, .inl rfl⟩
  · exact ⟨'"', _, h, .inl rfl⟩
  · exact ⟨'\'', _, h, .inr rfl⟩
  · exact ⟨'\'', _, h, .inr rfl⟩

theorem value?_string (t rest : Text) (hdouble : rest.head? ≠ some '"')
    (hsingle : rest.head? ≠ some '\'') (fuel depth : Nat) :
    value? (fuel + 1) depth (string t ++ rest) = some (.str t, rest) := by
  have hread := string?_string t hdouble hsingle
  obtain ⟨c, cs, hc, hquote⟩ := exists_string t
  have hopen : (c == '"' || c == '\'') = true := by
    rcases hquote with rfl | rfl <;> rfl
  rw [hc, List.cons_append] at hread ⊢
  rw [value?]
  simp only [hopen, if_true, hread, Option.map_some]

theorem skipLines_string (t : Text) (fuel : Nat) (rest : Text) :
    skipLines fuel (string t ++ rest) = some (string t ++ rest) := by
  obtain ⟨c, cs, hc, hquote⟩ := exists_string t
  rw [hc, List.cons_append]
  rcases hquote with rfl | rfl <;> exact skipLines_of_head rfl (by decide) (by decide) fuel _

theorem spells_string (t : Text) : Spells (string t) (.str t) := by
  constructor
  · obtain ⟨c, cs, hc, hquote⟩ := exists_string t
    rw [hc]
    rintro d ⟨⟩
    rcases hquote with rfl | rfl <;> rfl
  · intro fuel rest hfuel
    cases fuel with
    | zero => exact absurd hfuel (Nat.not_lt_zero _)
    | succ fuel => exact value?_string t _ (by simp) (by simp) fuel maxDepth

section Items

variable {fuel depth : Nat} {t u rest rest' : Text} {js : List Json}

theorem items?_end (h : skipLines (u.length + 1) u = some (']' :: rest)) :
    items? (fuel + 1) depth u = some ([], rest) := by
  rw [items?, h]
  rfl

theorem items?_last (h : skipLines (u.length + 1) u = some (string t ++ ']' :: rest)) :
    items? (fuel + 2) depth u = some ([.str t], rest) := by
  have hvalue := value?_string t (']' :: rest) (by simp) (by simp) fuel depth
  have hclose := skipLines_of_head (c := ']') rfl (by decide) (by decide) (rest.length + 2) rest
  obtain ⟨c, cs, hc, hquote⟩ := exists_string t
  have hne : c ≠ ']' := by
    rcases hquote with rfl | rfl <;> decide
  rw [hc, List.cons_append] at h hvalue
  rw [items?, h]
  simp [hne, hvalue, hclose]

theorem items?_cons (h : skipLines (u.length + 1) u = some (string t ++ ',' :: rest))
    (hrest : items? (fuel + 1) depth rest = some (js, rest')) :
    items? (fuel + 2) depth u = some (.str t :: js, rest') := by
  have hvalue := value?_string t (',' :: rest) (by simp) (by simp) fuel depth
  have hcomma := skipLines_of_head (c := ',') rfl (by decide) (by decide) (rest.length + 2) rest
  obtain ⟨c, cs, hc, hquote⟩ := exists_string t
  have hne : c ≠ ']' := by
    rcases hquote with rfl | rfl <;> decide
  rw [hc, List.cons_append] at h hvalue
  rw [items?, h]
  simp [hne, hvalue, hcomma, hrest]

end Items

def itemLine (t : Text) : Text := "    ".toList ++ string t ++ ",\n".toList

theorem skipLines_itemLine (fuel : Nat) (t rest : Text) :
    skipLines (fuel + 2) ('\n' :: (itemLine t ++ rest)) =
      some (string t ++ ',' :: '\n' :: rest) := by
  have hline : itemLine t ++ rest = "    ".toList ++ (string t ++ ',' :: '\n' :: rest) := by
    simp [itemLine]
  rw [skipLines_newLine, hline]
  exact skipLines_string t (fuel + 1) _

theorem items?_strings (ts : List Text) (depth : Nat) (rest : Text) {fuel : Nat}
    (h : ts.length < fuel) :
    items? fuel depth ('\n' :: (ts.flatMap itemLine ++ ']' :: rest)) =
      some (ts.map .str, rest) := by
  induction ts generalizing fuel with
  | nil =>
    cases fuel with
    | zero => exact absurd h (Nat.not_lt_zero _)
    | succ fuel =>
      apply items?_end
      exact skipLines_of_head rfl (by decide) (by decide) _ rest
  | cons t ts ih =>
    rw [List.length_cons] at h
    obtain ⟨fuel, rfl⟩ : ∃ n, fuel = n + 2 := ⟨fuel - 2, by omega⟩
    have hread := ih (Nat.lt_of_succ_lt_succ h)
    rw [List.flatMap_cons, List.append_assoc]
    exact items?_cons (skipLines_itemLine _ t _) hread

theorem length_le_itemLines (ts : List Text) : ts.length ≤ (ts.flatMap itemLine).length := by
  induction ts with
  | nil => exact Nat.le_refl 0
  | cons t ts ih =>
    simp only [List.flatMap_cons, itemLine, List.length_append, List.length_cons]
    have hline : 0 < ",\n".toList.length := by decide
    omega

theorem strings_cons_cons (t u : Text) (ts : List Text) :
    strings (t :: u :: ts) = '[' :: '\n' :: ((t :: u :: ts).flatMap itemLine ++ [']']) := rfl

theorem value?_bracket {fuel : Nat} {u rest : Text} {js : List Json}
    (h : items? fuel (maxDepth - 1) u = some (js, rest)) :
    value? (fuel + 1) maxDepth ('[' :: u) = some (.arr js, rest) := by
  rw [value?]
  simp [maxDepth] at h ⊢
  simp [h]

theorem spells_strings (ts : List Text) : Spells (strings ts) (.arr (ts.map .str)) := by
  constructor
  · rcases ts with _ | ⟨t, _ | ⟨u, ts⟩⟩ <;> rintro c ⟨⟩ <;> rfl
  · intro fuel rest hfuel
    rcases ts with _ | ⟨t, _ | ⟨u, ts⟩⟩
    · obtain ⟨fuel, rfl⟩ : ∃ n, fuel = n + 2 := ⟨fuel - 2, by simp [strings] at hfuel; omega⟩
      apply value?_bracket
      apply items?_end
      exact skipLines_of_head rfl (by decide) (by decide) _ _
    · obtain ⟨fuel, rfl⟩ : ∃ n, fuel = n + 3 := ⟨fuel - 3, by simp [strings] at hfuel; omega⟩
      rw [strings, List.cons_append, List.append_assoc]
      apply value?_bracket
      apply items?_last
      exact skipLines_string t _ _
    · have hle := length_le_itemLines (t :: u :: ts)
      rw [strings_cons_cons] at hfuel ⊢
      simp only [List.length_cons, List.length_append] at hfuel
      cases fuel with
      | zero => exact absurd hfuel (Nat.not_lt_zero _)
      | succ fuel =>
        rw [List.cons_append, List.cons_append, List.append_assoc]
        apply value?_bracket
        apply items?_strings
        omega

/-! ### Words -/

theorem wordText_append {w : Text} (rest : Text) (h : ∀ c ∈ w, isWordChar c = true) :
    wordText (w ++ '\n' :: rest) = w := by
  have htake : (w ++ '\n' :: rest).takeWhile isWordChar = w := by
    rw [List.takeWhile_append_of_pos h, List.takeWhile_cons_of_neg (by decide), List.append_nil]
  rw [wordText]
  simp [htake]

theorem spells_word {w : Text} {j : Json} (hne : w ≠ []) (hw : ∀ c ∈ w, isWordChar c = true)
    (hj : word? w = some j) : Spells w j := by
  obtain ⟨c, cs, rfl⟩ := List.exists_cons_of_ne_nil hne
  have hc : ∀ d, isWordChar d = false → (c == d) = false := by
    intro d hd
    rw [beq_eq_false_iff_ne]
    rintro rfl
    rw [hw c List.mem_cons_self] at hd
    cases hd
  constructor
  · rintro d ⟨⟩
    rw [isBlank, hc ' ' rfl, hc '\t' rfl]
    rfl
  · intro fuel rest hfuel
    cases fuel with
    | zero => exact absurd hfuel (Nat.not_lt_zero _)
    | succ fuel =>
      have htext := wordText_append rest hw
      rw [List.cons_append] at htext ⊢
      rw [value?]
      simp [hc '"' rfl, hc '\'' rfl, hc '[' rfl, hc '{' rfl, htext, hj]

theorem spells_bool (b : Bool) :
    Spells (if b then "true".toList else "false".toList) (.bool b) := by
  cases b with
  | true =>
    have hword : "true".toList.all isWordChar = true := rfl
    exact spells_word (by decide) (List.all_eq_true.1 hword) rfl
  | false =>
    have hword : "false".toList.all isWordChar = true := rfl
    exact spells_word (by decide) (List.all_eq_true.1 hword) rfl

section Decimal

variable {n : Nat}

theorem not_mem_decimal {c : Char} (hc : c.isDigit = false) : c ∉ Text.decimal n := by
  intro hmem
  rw [Text.isDigit_of_mem_decimal hmem] at hc
  cases hc

theorem dropSign_decimal : Text.dropSign (Text.decimal n) = Text.decimal n := by
  rw [Text.dropSign]
  · intro t ht
    exact not_mem_decimal (n := n) (c := '+') rfl (ht ▸ List.mem_cons_self)
  · intro t ht
    exact not_mem_decimal (n := n) (c := '-') rfl (ht ▸ List.mem_cons_self)

theorem isDecimal_decimal : isDecimal (Text.decimal n) = true := by
  have hsplit : Text.split '_' (Text.decimal n) = [Text.decimal n] :=
    Text.split_of_not_mem (not_mem_decimal rfl)
  have hall : (Text.decimal n).all Char.isDigit = true :=
    List.all_eq_true.2 fun c hc => Text.isDigit_of_mem_decimal hc
  have hne : (Text.decimal n).isEmpty = false := by
    obtain ⟨d, ds, hd, -⟩ := Text.exists_decimal n
    rw [hd]
    rfl
  have hzero : ((Text.decimal n).length == 1 || (Text.decimal n).head? != some '0') = true := by
    by_cases hhead : (Text.decimal n).head? = some '0'
    · rw [Text.decimal_of_head hhead]
      rfl
    · simp [hhead]
  simp [isDecimal, isDigits, hsplit, hall, hne, hzero]

theorem inBase_decimal : inBase 10 (Text.decimal n) = n := by
  have hplain : plainDigits (Text.decimal n) = Text.decimal n := by
    rw [plainDigits, List.filter_eq_self]
    intro c hc
    rw [bne_iff_ne]
    rintro rfl
    exact not_mem_decimal rfl hc
  have hdigits : ∀ m : Nat, ∀ c ∈ Text.decimal n,
      m * 10 + (Text.hexValue? c).getD 0 = m * 10 + (c.toNat - 48) := by
    intro m c hc
    rw [Text.hexValue?, if_pos (Text.isDigit_of_mem_decimal hc), Option.getD_some]
  rw [inBase, hplain, List.foldl_ext _ _ 0 hdigits]
  exact Text.digitsValue_decimal n

theorem integer?_decimal (h : n < Json.limit64) : integer? (Text.decimal n) = some (.nat n) := by
  have hhead : ((Text.decimal n).head? == some '-') = false := by
    rw [beq_eq_false_iff_ne]
    intro hhead
    exact not_mem_decimal (n := n) (c := '-') rfl (List.mem_of_head? hhead)
  have hlow : -(Json.limit63 : Int) ≤ (n : Int) := by omega
  have hhigh : (n : Int) < (Json.limit64 : Int) := Int.ofNat_lt.2 h
  rw [integer?]
  · simp only [dropSign_decimal, isDecimal_decimal, if_true, inBase_decimal, hhead,
      Bool.false_eq_true, if_false]
    rw [ofInt?, if_pos]
    · rfl
    · simp [hlow, hhigh]
  · intro t ht
    exact not_mem_decimal (n := n) (c := 'x') rfl (by rw [ht]; simp)
  · intro t ht
    exact not_mem_decimal (n := n) (c := 'o') rfl (by rw [ht]; simp)
  · intro t ht
    exact not_mem_decimal (n := n) (c := 'b') rfl (by rw [ht]; simp)

theorem spells_decimal (h : n < Json.limit64) : Spells (Text.decimal n) (.nat n) := by
  obtain ⟨d, ds, hd, -⟩ := Text.exists_decimal n
  apply spells_word
  · rw [hd]
    exact List.cons_ne_nil _ _
  · intro c hc
    have hdigit := Text.isDigit_of_mem_decimal hc
    simp [isWordChar, Char.isAlphanum, hdigit]
  · have htrue : (Text.decimal n == "true".toList) = false := by
      rw [beq_eq_false_iff_ne]
      intro heq
      exact not_mem_decimal (n := n) (c := 't') rfl (by rw [heq]; decide)
    have hfalse : (Text.decimal n == "false".toList) = false := by
      rw [beq_eq_false_iff_ne]
      intro heq
      exact not_mem_decimal (n := n) (c := 'f') rfl (by rw [heq]; decide)
    rw [word?, integer?_decimal h, htrue, hfalse]
    rfl

end Decimal

end ShaderInline.Toml
