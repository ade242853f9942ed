import Mathlib.Data.Nat.Basic
import ShaderInline.Text.Number

/-! # Decimal digits

A number is written with digits only, without zeros in front, and the digits
spell it.
-/

namespace ShaderInline.Text

theorem eq_ofNat {c : Char} {n : Nat} (h : (c.toNat == n) = true) : Char.ofNat n = c := by
  rw [← eq_of_beq h, Char.ofNat_toNat]

theorem toNat_of_isDigit {c : Char} (h : c.isDigit = true) : 48 ≤ c.toNat ∧ c.toNat ≤ 57 := by
  rw [Char.isDigit, Bool.and_eq_true, decide_eq_true_eq, decide_eq_true_eq] at h
  exact ⟨UInt32.le_iff_toNat_le.1 h.1, UInt32.le_iff_toNat_le.1 h.2⟩

theorem exists_decimal (n : Nat) :
    ∃ c cs, decimal n = c :: cs ∧ ∀ d ∈ c :: cs, d.isDigit = true := by
  obtain ⟨c, cs, hcs⟩ := List.exists_cons_of_ne_nil (Nat.toDigits_ne_nil (n := n) (b := 10))
  refine ⟨c, cs, hcs, fun d hd => ?_⟩
  rw [← hcs] at hd
  exact Nat.isDigit_of_mem_toDigits (by decide) (by decide) hd

theorem isDigit_of_mem_decimal {n : Nat} {c : Char} (h : c ∈ decimal n) : c.isDigit = true := by
  obtain ⟨d, ds, hds, hdigits⟩ := exists_decimal n
  exact hdigits c (hds ▸ h)

theorem digitsValue_decimal (n : Nat) : digitsValue (decimal n) = n := by
  have hvalue : Nat.ofDigitChars 10 (decimal n) 0 = n := Nat.ofDigitChars_ten_toDigits
  rw [Nat.ofDigitChars_eq_foldl] at hvalue
  simp only [Nat.mul_comm 10] at hvalue
  exact hvalue

theorem decimal_of_head {n : Nat} (h : (decimal n).head? = some '0') : decimal n = ['0'] := by
  induction n using Nat.strongRecOn with
  | ind n ih =>
    have hdigits := Nat.toDigits_eq_if (b := 10) (n := n) (by decide)
    split at hdigits
    next hlt =>
      rw [decimal, hdigits] at h ⊢
      rw [Option.some.inj h]
    next hge =>
      -- the digits in front are those of a number that is not zero
      obtain ⟨c, cs, hcs, -⟩ := exists_decimal (n / 10)
      have hfront : decimal n = decimal (n / 10) ++ [(n % 10).digitChar] := hdigits
      have hhead : (decimal (n / 10)).head? = some '0' := by
        rw [hfront, hcs] at h
        rw [hcs]
        exact h
      have hzero := digitsValue_decimal (n / 10)
      rw [ih (n / 10) (by omega) hhead] at hzero
      change 0 = n / 10 at hzero
      omega

end ShaderInline.Text
