import ShaderInline.Text.Search

/-! # Splitting and joining

The parts of a text hold no separator, and a text is its parts with separators
between them. So splitting and joining undo each other, and parts say all
there is to say about a text.
-/

namespace ShaderInline.Text

variable {α : Type} [DecidableEq α] {sep : α}

theorem split_cons_sep (t : List α) : split sep (sep :: t) = [] :: split sep t := by
  rw [split, if_pos rfl]

theorem split_cons_of_ne {c : α} {t part : List α} {parts : List (List α)} (hc : c ≠ sep)
    (h : split sep t = part :: parts) : split sep (c :: t) = (c :: part) :: parts := by
  rw [split, if_neg hc, h]

theorem exists_split (sep : α) (t : List α) : ∃ part parts, split sep t = part :: parts := by
  induction t with
  | nil => exact ⟨[], [], rfl⟩
  | cons c t ih =>
    obtain ⟨part, parts, h⟩ := ih
    by_cases hc : c = sep
    · exact ⟨[], split sep t, hc ▸ split_cons_sep t⟩
    · exact ⟨c :: part, parts, split_cons_of_ne hc h⟩

theorem split_append_sep (a b : List α) :
    split sep (a ++ sep :: b) = split sep a ++ split sep b := by
  induction a with
  | nil => exact split_cons_sep b
  | cons c a ih =>
    by_cases hc : c = sep
    · rw [hc, List.cons_append, split_cons_sep, split_cons_sep, ih, List.cons_append]
    · obtain ⟨part, parts, h⟩ := exists_split sep a
      rw [split_cons_of_ne hc h, List.cons_append, split_cons_of_ne hc (ih.trans (by rw [h]; rfl))]
      rfl

theorem split_of_not_mem {t : List α} (h : sep ∉ t) : split sep t = [t] := by
  induction t with
  | nil => rfl
  | cons c t ih =>
    have hc : c ≠ sep := (List.ne_of_not_mem_cons h).symm
    exact split_cons_of_ne hc (ih (List.not_mem_of_not_mem_cons h))

theorem join_cons_cons {α : Type} (lead part : List α) (parts : List (List α)) (s : List α) :
    join s (lead :: part :: parts) = lead ++ s ++ join s (part :: parts) := rfl

theorem join_split (t : List α) : join [sep] (split sep t) = t := by
  induction t with
  | nil => rfl
  | cons c t ih =>
    obtain ⟨part, parts, h⟩ := exists_split sep t
    by_cases hc : c = sep
    · rw [hc, split_cons_sep, h, join_cons_cons, ← h, ih]
      rfl
    · rw [split_cons_of_ne hc h]
      rw [h] at ih
      cases parts with
      | nil => exact congrArg (c :: ·) ih
      | cons p ps => exact congrArg (c :: ·) ih

theorem split_join {parts : List (List α)} (hne : parts ≠ []) (h : ∀ p ∈ parts, sep ∉ p) :
    split sep (join [sep] parts) = parts := by
  induction parts with
  | nil => exact absurd rfl hne
  | cons p ps ih =>
    obtain ⟨hp, hps⟩ := List.forall_mem_cons.1 h
    cases ps with
    | nil => exact split_of_not_mem hp
    | cons q qs =>
      rw [join_cons_cons, List.append_assoc, List.singleton_append, split_append_sep,
        split_of_not_mem hp, ih (List.cons_ne_nil _ _) hps, List.singleton_append]

theorem not_mem_of_mem_split {t part : List α} (h : part ∈ split sep t) : sep ∉ part := by
  induction t generalizing part with
  | nil => simp_all [split]
  | cons c t ih =>
    obtain ⟨p, ps, hs⟩ := exists_split sep t
    by_cases hc : c = sep
    · rw [hc, split_cons_sep] at h
      rcases List.mem_cons.1 h with rfl | h
      · exact List.not_mem_nil
      · exact ih h
    · rw [split_cons_of_ne hc hs] at h
      rw [hs] at ih
      rcases List.mem_cons.1 h with rfl | h
      · exact List.not_mem_cons_of_ne_of_not_mem (Ne.symm hc) (ih List.mem_cons_self)
      · exact ih (List.mem_cons_of_mem _ h)

theorem mem_join {α : Type} {sep c : α} {parts : List (List α)} (h : c ∈ join [sep] parts) :
    c = sep ∨ ∃ p ∈ parts, c ∈ p := by
  induction parts with
  | nil => exact absurd h List.not_mem_nil
  | cons p ps ih =>
    cases ps with
    | nil => exact .inr ⟨p, List.mem_cons_self, h⟩
    | cons q qs =>
      rw [join_cons_cons, List.append_assoc, List.mem_append, List.singleton_append,
        List.mem_cons] at h
      rcases h with h | h | h
      · exact .inr ⟨p, List.mem_cons_self, h⟩
      · exact .inl h
      · exact (ih h).imp_right fun ⟨r, hr, hc⟩ => ⟨r, List.mem_cons_of_mem _ hr, hc⟩

theorem mem_join_of_mem {α : Type} {s p : List α} {c : α} {parts : List (List α)} (hp : p ∈ parts)
    (hc : c ∈ p) :
    c ∈ join s parts := by
  induction parts with
  | nil => exact absurd hp List.not_mem_nil
  | cons q qs ih =>
    cases qs with
    | nil => exact List.mem_singleton.1 hp ▸ hc
    | cons r rs =>
      rw [join_cons_cons, List.mem_append, List.mem_append]
      rcases List.mem_cons.1 hp with rfl | hp
      · exact .inl (.inl hc)
      · exact .inr (ih hp)

theorem mem_of_mem_split {c : α} {t part : List α} (h : part ∈ split sep t) (hc : c ∈ part) :
    c ∈ t := by
  rw [← join_split t]
  exact mem_join_of_mem h hc

end ShaderInline.Text
