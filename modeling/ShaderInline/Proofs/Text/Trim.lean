import Mathlib
import ShaderInline.Text.Search

/-! # Trimming

Trimming goes on from either end up to the first character that is no blank. What
stands behind such a character is therefore trimmed by itself, and a text is left
as it is just if it neither starts nor ends with a blank.
-/

namespace ShaderInline.Text

variable {c : Char} {t : Text}

theorem isBlank_wordPart (h : isWordPart c = true) : isBlank c = false := by
  simp only [isWordPart, Char.isAlphanum, Char.isAlpha, Char.isUpper, Char.isLower, Char.isDigit,
    Bool.or_eq_true, Bool.and_eq_true, decide_eq_true_eq, UInt32.le_iff_toNat_le, ge_iff_le,
    beq_iff_eq] at h
  change (((65 ≤ c.toNat ∧ c.toNat ≤ 90) ∨ (97 ≤ c.toNat ∧ c.toNat ≤ 122)) ∨
    (48 ≤ c.toNat ∧ c.toNat ≤ 57)) ∨ c = '_' at h
  rcases h with h | rfl
  · simp only [isBlank, Bool.or_eq_false_iff, Bool.and_eq_false_iff, decide_eq_false_iff_not,
      beq_eq_false_iff_ne]
    omega
  · decide

theorem trim_space (t : Text) : trim (' ' :: t) = trim t := by
  rw [trim, trimStart, List.dropWhile_cons_of_pos (by decide)]
  rfl

theorem trimStart_eq_self (h : ∀ c ∈ t.head?, isBlank c = false) : trimStart t = t := by
  cases t with
  | nil => rfl
  | cons c t => exact List.dropWhile_cons_of_neg (by simp [h c rfl])

theorem trimEnd_eq_self_iff : trimEnd t = t ↔ ∀ c ∈ t.getLast?, isBlank c = false := by
  change t.rdropWhile isBlank = t ↔ _
  rw [List.rdropWhile_eq_self_iff]
  cases t using List.reverseRecOn with
  | nil => simp
  | append_singleton t c => simp

theorem trim_eq_self (h : ∀ c ∈ t, isBlank c = false) : trim t = t := by
  have hstart : trimStart t = t := trimStart_eq_self fun c hc => h c (List.mem_of_head? hc)
  rw [trim, hstart, trimEnd_eq_self_iff]
  exact fun c hc => h c (List.mem_of_getLast? hc)

theorem trimEnd_prefix (t : Text) : trimEnd t <+: t := List.rdropWhile_prefix isBlank t

theorem trimEnd_append (hc : isBlank c = false) (a b : Text) :
    trimEnd (a ++ c :: b) = a ++ c :: trimEnd b := by
  have hstop : (c :: a.reverse).dropWhile isBlank = c :: a.reverse :=
    List.dropWhile_cons_of_neg (by simp [hc])
  have hrev : (a ++ c :: b).reverse = b.reverse ++ (c :: a.reverse) := by simp
  unfold trimEnd
  rw [hrev, List.dropWhile_append, hstop]
  split
  next hb => simp [List.isEmpty_iff.1 hb]
  next => simp

end ShaderInline.Text
