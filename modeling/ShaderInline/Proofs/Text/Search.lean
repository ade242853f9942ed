import ShaderInline.Proofs.Text.Offset

/-! # What a search finds

A search reports the first occurrence only, and what follows the occurrence has
no part in it. A run of characters of a class stops at the first character
outside it, which is all that it sees of the text behind it.
-/

namespace ShaderInline.Text

theorem after?_eq_some_iff {lead t r : Text} : after? lead t = some r ↔ t = lead ++ r := by
  induction lead generalizing t with
  | nil => simp [after?, eq_comm]
  | cons p ps ih =>
    cases t with
    | nil => simp [after?]
    | cons c cs =>
      rw [after?]
      split
      next h => simp [ih, h]
      next h => simp [Ne.symm h]

theorem startsWith_iff {lead t : Text} : startsWith lead t = true ↔ ∃ r, t = lead ++ r := by
  simp [startsWith, Option.isSome_iff_exists, after?_eq_some_iff]

theorem eq_of_breakOn? {part t a b : Text} (h : breakOn? part t = some (a, b)) :
    t = a ++ (part ++ b) := by
  induction t generalizing a with
  | nil =>
    rw [breakOn?] at h
    split at h
    next hp => simp_all
    next => simp at h
  | cons c cs ih =>
    rw [breakOn?] at h
    split at h
    next r hr =>
      obtain ⟨rfl, rfl⟩ : [] = a ∧ r = b := by simpa using h
      simpa using after?_eq_some_iff.mp hr
    next =>
      obtain ⟨⟨a', b'⟩, h', he⟩ := Option.map_eq_some_iff.mp h
      obtain ⟨rfl, rfl⟩ : c :: a' = a ∧ b' = b := by simpa using he
      rw [ih h', List.cons_append]

theorem after?_eq_none_iff {lead t : Text} : after? lead t = none ↔ ¬ lead <+: t := by
  simp only [Option.eq_none_iff_forall_ne_some, ne_eq, after?_eq_some_iff, List.IsPrefix,
    not_exists]
  exact forall_congr' fun r => by rw [eq_comm]

theorem breakOn?_ne_none (part a b : Text) : breakOn? part (a ++ (part ++ b)) ≠ none := by
  induction a with
  | nil =>
    cases part with
    | nil => cases b <;> simp [breakOn?, after?]
    | cons p ps =>
      have hf : after? (p :: ps) (p :: ps ++ b) = some b := after?_eq_some_iff.mpr rfl
      rw [List.nil_append, List.cons_append, breakOn?, ← List.cons_append, hf]
      simp
  | cons c a ih =>
    rw [List.cons_append, breakOn?]
    split
    · simp
    · simpa using ih

theorem breakOn?_append_newline {t : Text} (h : breakOn? ['*', '/'] t = none) :
    breakOn? ['*', '/'] (t ++ ['\n']) = none := by
  rcases hb : breakOn? ['*', '/'] (t ++ ['\n']) with - | ⟨a, b⟩
  · rfl
  have he := eq_of_breakOn? hb
  rcases List.eq_nil_or_concat b with rfl | ⟨b, c, rfl⟩
  · have := congrArg List.getLast? he
    simp at this
  · have he' : t ++ ['\n'] = (a ++ (['*', '/'] ++ b)) ++ [c] := by simpa using he
    have ht := (List.append_inj' he' rfl).1
    exact absurd (ht ▸ h) (breakOn?_ne_none _ a b)

theorem breakOn?_congr {part a b : Text} (b' : Text)
    (h : breakOn? part (a ++ (part ++ b)) = some (a, b)) :
    breakOn? part (a ++ (part ++ b')) = some (a, b') := by
  induction a with
  | nil =>
    cases part with
    | nil => cases b' <;> simp [breakOn?, after?]
    | cons p ps =>
      have hf : after? (p :: ps) (p :: ps ++ b') = some b' := after?_eq_some_iff.mpr rfl
      rw [List.nil_append, List.cons_append, breakOn?, ← List.cons_append, hf]
  | cons c a ih =>
    rw [List.cons_append, breakOn?] at h ⊢
    split at h
    next => simp at h
    next hn =>
      obtain ⟨⟨x, y⟩, h', he⟩ := Option.map_eq_some_iff.mp h
      obtain ⟨rfl, rfl⟩ : x = a ∧ y = b := by simpa using he
      have hn' : after? part (c :: (x ++ (part ++ b'))) = none := by
        rw [after?_eq_none_iff] at hn ⊢
        intro hp
        have hl : part <+: c :: (x ++ part) :=
          List.prefix_of_prefix_length_le hp ⟨b', by simp⟩ (by simp; omega)
        exact hn (hl.trans ⟨y, by simp⟩)
      rw [hn', ih h']
      rfl

theorem mem_partCommentEnds {c : Char} {t : Text} (h : c ∈ partCommentEnds t) :
    c ∈ t ∨ c = ' ' := by
  fun_induction partCommentEnds t with
  | case1 cs ih =>
    rcases List.mem_cons.1 h with rfl | h
    · simp
    rcases List.mem_cons.1 h with rfl | h
    · simp
    rcases List.mem_cons.1 h with rfl | h
    · simp
    · exact (ih h).imp_left (List.mem_cons_of_mem _ <| List.mem_cons_of_mem _ ·)
  | case2 d cs _ ih =>
    rcases List.mem_cons.1 h with rfl | h
    · simp
    · exact (ih h).imp_left (List.mem_cons_of_mem _)
  | case3 => cases h

theorem head?_partCommentEnds (t : Text) : (partCommentEnds t).head? = t.head? := by
  fun_cases partCommentEnds t <;> simp

/-- After its marks have been parted, a text ends no block comment that it stands in. -/
theorem breakOn?_partCommentEnds (t b : Text) :
    breakOn? ['*', '/'] (partCommentEnds t ++ ' ' :: '*' :: '/' :: b) =
      some (partCommentEnds t ++ [' '], b) := by
  fun_induction partCommentEnds t with
  | case1 cs ih => simp [breakOn?, after?, ih]
  | case2 c cs hc ih =>
    have hn : after? ['*', '/'] (c :: (partCommentEnds cs ++ ' ' :: '*' :: '/' :: b)) = none := by
      rw [after?_eq_none_iff]
      rintro ⟨r, hr⟩
      obtain ⟨rfl, hr'⟩ := List.cons_eq_cons.mp hr
      have hh := head?_partCommentEnds cs
      cases hd : partCommentEnds cs with
      | nil => simp [hd] at hr'
      | cons d ds =>
        rw [hd] at hr' hh
        obtain ⟨rfl, -⟩ := List.cons_eq_cons.mp hr'
        cases cs with
        | nil => simp at hh
        | cons e es =>
          obtain rfl : '/' = e := by simpa using hh
          exact hc es rfl rfl
    rw [List.cons_append, breakOn?, hn, ih]
    rfl
  | case3 => simp [breakOn?, after?]

theorem takeWhile_append_eq {f : Char → Bool} {p rest : Text} (hp : ∀ c ∈ p, f c = true)
    (hr : rest.head?.any f = false) : (p ++ rest).takeWhile f = p := by
  rw [List.takeWhile_append_of_pos hp]
  cases rest with
  | nil => simp
  | cons x rest => simp_all

theorem takeWhile_append_length_iff {f : Char → Bool} {p rest : Text} :
    ((p ++ rest).takeWhile f).length = p.length ↔
      (∀ c ∈ p, f c = true) ∧ rest.head?.any f = false := by
  induction p with
  | nil =>
    cases rest with
    | nil => simp
    | cons x rest => cases hx : f x <;> simp [hx]
  | cons c p ih => cases hc : f c <;> simp [hc, ih]

end ShaderInline.Text
