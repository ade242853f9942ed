import Mathlib.Data.List.Basic
import ShaderInline.Proofs.Text.Decimal
import ShaderInline.Toml.Reader

/-! # Reading TOML strings and keys that have been written

Each of the four forms of a string is read back in full, whatever its text. The
text between three quotes is followed by its runs of quotes: one of up to two
belongs to the text, and a longer one ends it with its last three.
-/

namespace ShaderInline.Toml

/-! ### Characters -/

theorem hexChar?_code : ∀ n < 0x80,
    Text.hexChar? ['0', '0', upperHex (n / 16), upperHex (n % 16)] = some (Char.ofNat n) := by
  decide

theorem isTextChar_of_not_code {c : Char} (hc : needsCode c = false) (hline : c ≠ '\n') :
    isTextChar c = true := by
  simp only [needsCode, isTextChar, Bool.or_eq_false_iff, Bool.and_eq_false_iff, Bool.or_eq_true,
    Bool.and_eq_true, decide_eq_true_eq, decide_eq_false_iff_not, beq_eq_false_iff_ne, bne_iff_ne,
    bne_eq_false_iff_eq, beq_iff_eq] at hc ⊢
  grind

/-- A character is written as itself or with an escape, which does not join lines. -/
theorem escapeChar_cases (c : Char) :
    (escapeChar c = [c] ∧ c ≠ '"' ∧ c ≠ '\\' ∧ isTextChar c = true) ∨
      ∃ e, escapeChar c = '\\' :: e ∧
        ∀ u, joinLines (e ++ u) = none ∧ escape? (e ++ u) = some (c, u) := by
  unfold escapeChar
  split
  next h =>
    obtain rfl := eq_of_beq h
    exact .inr ⟨['"'], rfl, fun u => ⟨rfl, rfl⟩⟩
  next hquote =>
    split
    next h =>
      obtain rfl := eq_of_beq h
      exact .inr ⟨['\\'], rfl, fun u => ⟨rfl, rfl⟩⟩
    next hbackslash =>
      split
      next h =>
        obtain rfl := Text.eq_ofNat h
        exact .inr ⟨['b'], rfl, fun u => ⟨rfl, rfl⟩⟩
      split
      next h =>
        obtain rfl := eq_of_beq h
        exact .inr ⟨['t'], rfl, fun u => ⟨rfl, rfl⟩⟩
      split
      next h =>
        obtain rfl := eq_of_beq h
        exact .inr ⟨['n'], rfl, fun u => ⟨rfl, rfl⟩⟩
      split
      next h =>
        obtain rfl := Text.eq_ofNat h
        exact .inr ⟨['f'], rfl, fun u => ⟨rfl, rfl⟩⟩
      split
      next h =>
        obtain rfl := eq_of_beq h
        exact .inr ⟨['r'], rfl, fun u => ⟨rfl, rfl⟩⟩
      split
      next h =>
        refine .inr ⟨_, rfl, fun u => ⟨rfl, ?_⟩⟩
        have hlt : c.toNat < 0x80 := by
          simp only [Bool.or_eq_true, decide_eq_true_eq, beq_iff_eq] at h
          omega
        simp [escape?, code?, hexChar?_code c.toNat hlt, Char.ofNat_toNat]
      next h =>
        refine .inl ⟨rfl, by simpa using hquote, by simpa using hbackslash, ?_⟩
        simp only [Bool.or_eq_true, decide_eq_true_eq, beq_iff_eq, not_or, Nat.not_lt] at h
        simp [isTextChar, h]

theorem length_escapeChar_pos (c : Char) : 0 < (escapeChar c).length := by
  rcases escapeChar_cases c with ⟨he, -⟩ | ⟨e, he, -⟩
  · rw [he]
    exact Nat.succ_pos _
  · rw [he]
    exact Nat.succ_pos _

theorem length_le_escape (t : Text) : t.length ≤ (t.flatMap escapeChar).length := by
  induction t with
  | nil => exact Nat.le_refl 0
  | cons c t ih =>
    have hpos := length_escapeChar_pos c
    rw [List.flatMap_cons, List.length_append, List.length_cons]
    omega

theorem length_le_escapeLines (t : Text) (run : Nat) : t.length ≤ (escapeLines run t).length := by
  induction t generalizing run with
  | nil => exact Nat.zero_le _
  | cons c t ih =>
    have hpos := length_escapeChar_pos c
    have hnext := ih (run + 1)
    have hfirst := ih 0
    unfold escapeLines
    repeat' split
    all_goals
      simp only [List.length_cons, List.length_append]
      omega

/-! ### Strings on one line -/

theorem prepend_some (s t rest : Text) : prepend s (some (t, rest)) = some (s ++ t, rest) := rfl

theorem basicBody_escapeChar (c : Char) (fuel : Nat) (u : Text) :
    basicBody (fuel + 1) (escapeChar c ++ u) = prepend [c] (basicBody fuel u) := by
  rcases escapeChar_cases c with ⟨he, hquote, hbackslash, htext⟩ | ⟨e, he, hread⟩
  · rw [he, List.singleton_append, basicBody]
    simp [hquote, hbackslash, htext]
  · rw [he, List.cons_append, basicBody]
    simp [(hread u).2]

theorem basicBody_escape (t rest : Text) {fuel : Nat} (h : t.length < fuel) :
    basicBody fuel (t.flatMap escapeChar ++ '"' :: rest) = some (t, rest) := by
  induction t generalizing fuel with
  | nil =>
    obtain ⟨fuel, rfl⟩ := Nat.exists_eq_add_of_lt h
    rfl
  | cons c t ih =>
    cases fuel with
    | zero => exact absurd h (Nat.not_lt_zero _)
    | succ fuel =>
      rw [List.flatMap_cons, List.append_assoc, basicBody_escapeChar, ih (Nat.lt_of_succ_lt_succ h)]
      rfl

theorem basic_append (t rest : Text) :
    basic t ++ rest = '"' :: (t.flatMap escapeChar ++ '"' :: rest) := by
  simp [basic]

theorem literal_append (t rest : Text) : literal t ++ rest = '\'' :: (t ++ '\'' :: rest) := by
  simp [literal]

theorem literalBody_append {t : Text} (rest : Text)
    (h : ∀ c ∈ t, isTextChar c = true ∧ c ≠ '\'') :
    literalBody (t ++ '\'' :: rest) = some (t, rest) := by
  induction t with
  | nil => rfl
  | cons c t ih =>
    obtain ⟨htext, hquote⟩ := h c List.mem_cons_self
    have ht : ∀ d ∈ t, isTextChar d = true ∧ d ≠ '\'' :=
      fun d hd => h d (List.mem_cons_of_mem c hd)
    rw [List.cons_append, literalBody, ih ht]
    simp [htext, hquote, prepend_some]

/-! ### Strings between three quotes -/

section Lines

variable {q : Char} {r : Nat} {t u v rest : Text}

theorem takeWhile_run (hu : u.head? ≠ some q) :
    (List.replicate r q ++ u).takeWhile (· == q) = List.replicate r q := by
  induction r with
  | zero =>
    cases u with
    | nil => rfl
    | cons c u =>
      have hc : (c == q) = false := by simpa using hu
      simp [hc]
  | succ r ih => simp [List.replicate_succ, ih]

/-- Up to two quotes belong to the text, and so does the character behind them. -/
theorem linesBody_run {c : Char} (hr : r ≤ 2) (hu : u.head? ≠ some q)
    (hstep : ∀ fuel, linesBody q (fuel + 1) u = prepend [c] (linesBody q fuel v))
    (hv : ∀ fuel, t.length < fuel → linesBody q fuel v = some (t, rest)) (fuel : Nat)
    (h : r + (c :: t).length < fuel) :
    linesBody q fuel (List.replicate r q ++ u) = some (List.replicate r q ++ c :: t, rest) := by
  rw [List.length_cons] at h
  have hread : ∀ fuel, t.length + 1 < fuel → linesBody q fuel u = some (c :: t, rest) := by
    intro fuel hfuel
    cases fuel with
    | zero => exact absurd hfuel (Nat.not_lt_zero _)
    | succ fuel => rw [hstep, hv fuel (by omega), prepend_some, List.singleton_append]
  cases r with
  | zero => exact hread fuel (by omega)
  | succ r =>
    cases fuel with
    | zero => exact absurd h (Nat.not_lt_zero _)
    | succ fuel =>
      have hlt : r + 1 < 3 := by omega
      have hrun := takeWhile_run (r := r + 1) hu
      rw [List.replicate_succ, List.cons_append] at hrun ⊢
      rw [linesBody, if_pos (beq_self_eq_true q)]
      simp only [hrun]
      rw [← List.replicate_succ, List.length_replicate, if_pos hlt, ← List.cons_append,
        ← List.replicate_succ, List.drop_left', hread fuel (by omega), prepend_some]
      exact List.length_replicate

theorem linesBody_close (hr : r ≤ 2) (hrest : rest.head? ≠ some q) (fuel : Nat) :
    linesBody q (fuel + 1) (List.replicate r q ++ ([q, q, q] ++ rest)) =
      some (List.replicate r q, rest) := by
  have htext : List.replicate r q ++ ([q, q, q] ++ rest) = List.replicate (r + 3) q ++ rest := by
    rw [← List.replicate_append_replicate, List.append_assoc]
    rfl
  have hge : ¬ r + 3 < 3 := by omega
  have hle : r + 3 ≤ 5 := by omega
  have hrun := takeWhile_run (r := r + 3) hrest
  rw [htext]
  rw [List.replicate_succ, List.cons_append] at hrun ⊢
  rw [linesBody, if_pos (beq_self_eq_true q)]
  simp only [hrun]
  rw [← List.replicate_succ, List.length_replicate, if_neg hge, if_pos hle,
    Nat.add_sub_cancel (m := 3), ← List.cons_append, ← List.replicate_succ, List.drop_left']
  exact List.length_replicate

theorem linesBody_escapeChar {c : Char} (hc : c ≠ '"') (fuel : Nat) (u : Text) :
    linesBody '"' (fuel + 1) ((if c == '\n' then [c] else escapeChar c) ++ u) =
      prepend [c] (linesBody '"' fuel u) := by
  split
  next h =>
    obtain rfl := eq_of_beq h
    rfl
  next =>
    rcases escapeChar_cases c with ⟨he, -, hbackslash, htext⟩ | ⟨e, he, hread⟩
    · rw [he, List.singleton_append, linesBody]
      simp [hc, hbackslash, htext]
    · rw [he, List.cons_append, linesBody]
      simp [hread u]

theorem linesBody_quote (fuel : Nat) (u : Text) :
    linesBody '"' (fuel + 1) ('\\' :: '"' :: u) = prepend ['"'] (linesBody '"' fuel u) := rfl

theorem escapeLines_cons_of_ne {c : Char} (hc : c ≠ '"') (run : Nat) (cs : Text) :
    escapeLines run (c :: cs) =
      (if c == '\n' then [c] else escapeChar c) ++ escapeLines 0 cs := by
  rw [escapeLines, if_neg (by simpa using hc)]
  split
  next => rfl
  next => rfl

theorem head?_escapeChar {c : Char} (hc : c ≠ '"') (u : Text) :
    ((if c == '\n' then [c] else escapeChar c) ++ u).head? ≠ some '"' := by
  split
  next h =>
    obtain rfl := eq_of_beq h
    simp
  next =>
    rcases escapeChar_cases c with ⟨he, -, -, -⟩ | ⟨e, he, -⟩
    · simpa [he] using hc
    · simp [he]

/-- The text goes on after a run of quotes that has been written already. -/
theorem linesBody_escapeLines (hrest : rest.head? ≠ some '"') (t : Text) (r : Nat) (hr : r ≤ 2)
    (fuel : Nat) (h : r + t.length < fuel) :
    linesBody '"' fuel (List.replicate r '"' ++ (escapeLines r t ++ (['"', '"', '"'] ++ rest))) =
      some (List.replicate r '"' ++ t, rest) := by
  -- the reader takes a run of quotes at once, so the run that is not read yet is kept apart
  induction t generalizing r fuel with
  | nil =>
    cases fuel with
    | zero => exact absurd h (Nat.not_lt_zero _)
    | succ fuel =>
      rw [escapeLines, List.nil_append, List.append_nil]
      exact linesBody_close hr hrest fuel
  | cons c t ih =>
    have hread (fuel : Nat) (hfuel : t.length < fuel) := ih 0 (Nat.zero_le 2) fuel (by omega)
    simp only [List.replicate_zero, List.nil_append] at hread
    by_cases hc : c = '"'
    · subst hc
      rw [escapeLines, if_pos (beq_self_eq_true _)]
      split
      next hlt =>
        have hnext := ih (r + 1) hlt fuel (by simp only [List.length_cons] at h; omega)
        rw [List.replicate_succ', List.append_assoc, List.append_assoc] at hnext
        exact hnext
      next hge =>
        apply linesBody_run hr _ (linesBody_quote · _) hread fuel h
        simp
    · rw [escapeLines_cons_of_ne hc, List.append_assoc]
      exact linesBody_run hr (head?_escapeChar hc _) (linesBody_escapeChar hc · _) hread fuel h

theorem linesBody_plain {c : Char} (hc : c ≠ '\'') (hcode : needsCode c = false) (fuel : Nat)
    (u : Text) : linesBody '\'' (fuel + 1) (c :: u) = prepend [c] (linesBody '\'' fuel u) := by
  have htext : (isTextChar c || (lineBreak? (c :: u)).isSome) = true := by
    by_cases hline : c = '\n'
    · subst hline
      rfl
    · rw [isTextChar_of_not_code hcode hline, Bool.true_or]
  rw [linesBody, if_neg (by simpa using hc), if_neg (by simp), if_pos htext]

theorem linesBody_literal (hrest : rest.head? ≠ some '\'') (t : Text) (r : Nat) (hr : r ≤ 2)
    (hcodes : ∀ c ∈ t, needsCode c = false) (hrun : longestRun '\'' r t ≤ 2)
    (fuel : Nat) (h : r + t.length < fuel) :
    linesBody '\'' fuel (List.replicate r '\'' ++ (t ++ (['\'', '\'', '\''] ++ rest))) =
      some (List.replicate r '\'' ++ t, rest) := by
  induction t generalizing r fuel with
  | nil =>
    cases fuel with
    | zero => exact absurd h (Nat.not_lt_zero _)
    | succ fuel =>
      rw [List.nil_append, List.append_nil]
      exact linesBody_close hr hrest fuel
  | cons c t ih =>
    have ht : ∀ d ∈ t, needsCode d = false := fun d hd => hcodes d (List.mem_cons_of_mem c hd)
    rw [longestRun] at hrun
    split at hrun
    next hc =>
      subst hc
      have hnext := ih (r + 1) (by omega) ht (by omega) fuel
        (by simp only [List.length_cons] at h; omega)
      rw [List.replicate_succ', List.append_assoc, List.append_assoc] at hnext
      exact hnext
    next hc =>
      have hread (fuel : Nat) (hfuel : t.length < fuel) :=
        ih 0 (Nat.zero_le 2) ht hrun fuel (by omega)
      simp only [List.replicate_zero, List.nil_append] at hread
      apply linesBody_run hr _ (linesBody_plain hc (hcodes c List.mem_cons_self) · _) hread fuel h
      simpa using hc

end Lines

/-! ### Whole strings -/

theorem lineBreak?_of_head {u : Text} (h : ∀ c ∈ u.head?, c ≠ '\n' ∧ c ≠ '\r') :
    lineBreak? u = none := by
  cases u with
  | nil => rfl
  | cons c u =>
    obtain ⟨hn, hr⟩ := h c rfl
    rw [lineBreak?]
    · simpa using hn
    · rintro t ⟨⟩
      exact hr rfl

/-- The line feed after the opening quotes is dropped, and no other one. -/
theorem lineBreak?_firstLine {t u : Text} (h : '\n' ∉ t → ∀ c ∈ u.head?, c ≠ '\n' ∧ c ≠ '\r') :
    (lineBreak? (firstLine t ++ u)).getD (firstLine t ++ u) = u := by
  unfold firstLine
  split
  next => rfl
  next hline =>
    rw [List.nil_append, lineBreak?_of_head (h (by simpa using hline))]
    rfl

section Strings

variable {rest : Text}

theorem string?_quote {u : Text} (h : ∀ v, u ≠ '"' :: '"' :: v) :
    string? ('"' :: u) = basicBody (u.length + 2) u := by
  rw [string?]
  · rfl
  · intro v hv
    exact h v hv

theorem string?_apostrophe {u : Text} (h : ∀ v, u ≠ '\'' :: '\'' :: v) :
    string? ('\'' :: u) = literalBody u := by
  rw [string?]
  · rintro v ⟨⟩
    exact h v rfl

theorem string?_basic (t : Text) (hrest : rest.head? ≠ some '"') :
    string? (basic t ++ rest) = some (t, rest) := by
  rw [basic_append, string?_quote]
  · apply basicBody_escape
    have hle := length_le_escape t
    rw [List.length_append]
    omega
  · intro v hv
    cases t with
    | nil =>
      obtain ⟨-, rfl⟩ := List.cons.inj hv
      exact hrest rfl
    | cons c t =>
      rcases escapeChar_cases c with ⟨he, hquote, -, -⟩ | ⟨e, he, -⟩
      · simp [he, hquote] at hv
      · simp [he] at hv

theorem string?_literal {t : Text} (ht : ∀ c ∈ t, isTextChar c = true ∧ c ≠ '\'')
    (hrest : rest.head? ≠ some '\'') : string? (literal t ++ rest) = some (t, rest) := by
  rw [literal_append, string?_apostrophe]
  · exact literalBody_append rest ht
  · intro v hv
    cases t with
    | nil =>
      obtain ⟨-, rfl⟩ := List.cons.inj hv
      exact hrest rfl
    | cons c t => exact (ht c List.mem_cons_self).2 (List.cons.inj hv).1

theorem head?_escapeLines {t : Text} (ht : '\n' ∉ t) (u : Text) :
    ∀ c ∈ (escapeLines 0 t ++ '"' :: u).head?, c ≠ '\n' ∧ c ≠ '\r' := by
  intro c hc
  cases t with
  | nil =>
    obtain rfl : '"' = c := Option.some.inj hc
    decide
  | cons d t =>
    have hline : d ≠ '\n' := (List.ne_of_not_mem_cons ht).symm
    by_cases hd : d = '"'
    · subst hd
      obtain rfl : '"' = c := Option.some.inj hc
      decide
    · rw [escapeLines_cons_of_ne hd, if_neg (by simpa using hline), List.append_assoc] at hc
      rcases escapeChar_cases d with ⟨he, -, -, htext⟩ | ⟨e, he, -⟩
      · rw [he] at hc
        obtain rfl : d = c := Option.some.inj hc
        refine ⟨hline, ?_⟩
        rintro rfl
        exact absurd htext (by decide)
      · rw [he] at hc
        obtain rfl : '\\' = c := Option.some.inj hc
        decide

theorem string?_basicLines (t : Text) (hrest : rest.head? ≠ some '"') :
    string? (basicLines t ++ rest) = some (t, rest) := by
  have hbody : basicLines t ++ rest = '"' :: '"' :: '"' ::
      (firstLine t ++ (escapeLines 0 t ++ (['"', '"', '"'] ++ rest))) := by
    simp [basicLines]
  have hline := lineBreak?_firstLine (u := escapeLines 0 t ++ (['"', '"', '"'] ++ rest))
    fun ht => head?_escapeLines ht _
  have hle := length_le_escapeLines t 0
  rw [hbody, string?]
  simp only [hline]
  apply linesBody_escapeLines hrest t 0 (Nat.zero_le 2)
  simp only [List.length_cons, List.length_append]
  omega

theorem head?_literal {t : Text} (ht : '\n' ∉ t) (hcodes : ∀ c ∈ t, needsCode c = false)
    (u : Text) : ∀ c ∈ (t ++ '\'' :: u).head?, c ≠ '\n' ∧ c ≠ '\r' := by
  intro c hc
  cases t with
  | nil =>
    obtain rfl : '\'' = c := Option.some.inj hc
    decide
  | cons d t =>
    obtain rfl : d = c := Option.some.inj hc
    refine ⟨(List.ne_of_not_mem_cons ht).symm, ?_⟩
    rintro rfl
    exact absurd (hcodes _ List.mem_cons_self) (by decide)

theorem string?_literalLines {t : Text} (hcodes : ∀ c ∈ t, needsCode c = false)
    (hrun : longestRun '\'' 0 t ≤ 2) (hrest : rest.head? ≠ some '\'') :
    string? (literalLines t ++ rest) = some (t, rest) := by
  have hbody : literalLines t ++ rest = '\'' :: '\'' :: '\'' ::
      (firstLine t ++ (t ++ (['\'', '\'', '\''] ++ rest))) := by
    simp [literalLines]
  have hline := lineBreak?_firstLine (u := t ++ (['\'', '\'', '\''] ++ rest))
    fun ht => head?_literal ht hcodes _
  rw [hbody, string?]
  simp only [hline]
  apply linesBody_literal hrest t 0 (Nat.zero_le 2) hcodes hrun
  simp only [List.length_cons, List.length_append]
  omega

theorem string_cases (t : Text) :
    string t = basic t ∨ string t = basicLines t ∨
      (string t = literal t ∧ ∀ c ∈ t, isTextChar c = true ∧ c ≠ '\'') ∨
      (string t = literalLines t ∧ (∀ c ∈ t, needsCode c = false) ∧ longestRun '\'' 0 t ≤ 2) := by
  unfold string
  dsimp only
  split
  next => exact .inl rfl
  split
  next h =>
    simp only [Bool.and_eq_true] at h
    refine .inr (.inr (.inl ⟨rfl, ?_⟩))
    intro c hc
    have hquote : '\'' ∉ t := by simpa using h.1.2
    have hline : '\n' ∉ t := by simpa using h.2
    have hcode : needsCode c = false := by
      have hall : ∀ d ∈ t, needsCode d = false := by simpa using h.1.1
      exact hall c hc
    refine ⟨isTextChar_of_not_code hcode ?_, ?_⟩
    · rintro rfl
      exact hline hc
    · rintro rfl
      exact hquote hc
  split
  next => exact .inr (.inl rfl)
  split
  next h =>
    simp only [Bool.and_eq_true, decide_eq_true_eq] at h
    exact .inr (.inr (.inr ⟨rfl, by simpa using h.1, h.2⟩))
  split
  next => exact .inr (.inl rfl)
  next => exact .inl rfl

/-- Every text is read back from the form in which it is written. -/
theorem string?_string (t : Text) (hdouble : rest.head? ≠ some '"')
    (hsingle : rest.head? ≠ some '\'') : string? (string t ++ rest) = some (t, rest) := by
  rcases string_cases t with h | h | ⟨h, ht⟩ | ⟨h, hcodes, hrun⟩
  · rw [h, string?_basic t hdouble]
  · rw [h, string?_basicLines t hdouble]
  · rw [h, string?_literal ht hsingle]
  · rw [h, string?_literalLines hcodes hrun hsingle]

end Strings

/-! ### Keys -/

theorem key_cases (t : Text) :
    (key t = t ∧ t ≠ [] ∧ ∀ c ∈ t, isBareChar c = true) ∨ key t = basic t ∨
      (key t = literal t ∧ ∀ c ∈ t, isTextChar c = true ∧ c ≠ '\'') := by
  unfold key
  split
  next h =>
    simp only [Bool.and_eq_true, List.all_eq_true] at h
    exact .inl ⟨rfl, by simpa using h.1, h.2⟩
  dsimp only
  split
  next => exact .inr (.inl rfl)
  split
  next h =>
    simp only [Bool.and_eq_true] at h
    refine .inr (.inr ⟨rfl, ?_⟩)
    intro c hc
    have hquote : '\'' ∉ t := by simpa using h.2
    have hall : ∀ d ∈ t, needsCode d = false ∧ d ≠ '\n' := by simpa using h.1
    refine ⟨isTextChar_of_not_code (hall c hc).1 (hall c hc).2, ?_⟩
    rintro rfl
    exact hquote hc
  next => exact .inr (.inl rfl)

/-- The characters that start no key. The last one is the byte order mark. -/
def keyless : List Char := [' ', '\t', '\n', '\r', '#', '[', Char.ofNat 0xfeff]

theorem exists_key (t : Text) : ∃ c cs, key t = c :: cs ∧ ∀ d ∈ keyless, c ≠ d := by
  rcases key_cases t with ⟨h, hne, hbare⟩ | h | ⟨h, -⟩
  · obtain ⟨c, cs, rfl⟩ := List.exists_cons_of_ne_nil hne
    refine ⟨c, cs, h, ?_⟩
    rintro d hd rfl
    have hnot : keyless.all (fun d => !isBareChar d) = true := by decide
    have hbare := hbare c List.mem_cons_self
    have hnot := List.all_eq_true.1 hnot c hd
    rw [hbare] at hnot
    cases hnot
  · exact ⟨'"', _, h, by simp [keyless]⟩
  · exact ⟨'\'', _, h, by simp [keyless]⟩

theorem simpleKey?_key (t : Text) {rest : Text} (hrest : ∀ c ∈ rest.head?, isBareChar c = false) :
    simpleKey? (key t ++ rest) = some (t, rest) := by
  rcases key_cases t with ⟨h, hne, hbare⟩ | h | ⟨h, ht⟩
  · have htake : (t ++ rest).takeWhile isBareChar = t ∧
        (t ++ rest).dropWhile isBareChar = rest := by
      rw [List.takeWhile_append_of_pos hbare, List.dropWhile_append_of_pos hbare]
      cases rest with
      | nil => simp
      | cons c rest => simp [hrest c rfl]
    obtain ⟨c, cs, rfl⟩ := List.exists_cons_of_ne_nil hne
    have hc := hbare c List.mem_cons_self
    rw [h, simpleKey?]
    · simp only [htake.1, htake.2]
      rfl
    · rintro v ⟨⟩
      exact absurd hc (by decide)
    · rintro v ⟨⟩
      exact absurd hc (by decide)
  · have hle := length_le_escape t
    rw [h, basic_append, simpleKey?]
    apply basicBody_escape
    simp only [List.length_cons, List.length_append]
    omega
  · rw [h, literal_append, simpleKey?, literalBody_append rest ht]

theorem skipBlanks_cons {c : Char} (h : isBlank c = true) (t : Text) :
    skipBlanks (c :: t) = skipBlanks t := List.dropWhile_cons_of_pos h

theorem skipBlanks_of_not {c : Char} (h : isBlank c = false) (t : Text) :
    skipBlanks (c :: t) = c :: t := List.dropWhile_cons_of_neg (by rw [h]; exact Bool.false_ne_true)

theorem key?_key (t rest : Text) {d : Char} {u : Text}
    (hrest : ∀ c ∈ rest.head?, isBareChar c = false) (hd : d ≠ '.')
    (hu : skipBlanks rest = d :: u) : key? (key t ++ rest) = some ([t], d :: u) := by
  obtain ⟨c, cs, hkey, hc⟩ := exists_key t
  have hblank : isBlank c = false := by
    simp [isBlank, hc ' ' (by decide), hc '\t' (by decide)]
  have hskip : skipBlanks (key t ++ rest) = key t ++ rest := by
    rw [hkey, List.cons_append, skipBlanks_of_not hblank]
  rw [key?, maxDepth, parts?, hskip, simpleKey?_key t hrest]
  simp [hu, hd]

end ShaderInline.Toml
