import Mathlib.Data.List.Induction
import Mathlib.Data.List.Nodup
import ShaderInline.Define
import ShaderInline.Toml.Table

/-! # Tables with distinct keys

A table that is filled with distinct keys holds just what it was filled with, in
the order of the keys.
-/

namespace ShaderInline

namespace Text

theorem char_lt_iff {a b : Char} : a < b ↔ a.toNat < b.toNat := UInt32.lt_iff_toNat_lt

theorem lt_of_le : ∀ {a b : Text}, le a b = true → a ≠ b → a < b
  | [], [], _, hne => absurd rfl hne
  | [], _ :: _, _, _ => List.nil_lt_cons _ _
  | _ :: _, [], h, _ => absurd h Bool.false_ne_true
  | a :: as, b :: bs, h, hne => by
    rw [le] at h
    split at h
    next heq =>
      subst heq
      refine List.cons_lt_cons_iff.2 (.inr ⟨rfl, lt_of_le h ?_⟩)
      rintro rfl
      exact hne rfl
    next =>
      exact List.cons_lt_cons_iff.2 (.inl (char_lt_iff.2 (of_decide_eq_true h)))

theorem lt_of_not_le : ∀ {a b : Text}, le a b = false → b < a
  | [], _, h => absurd h.symm Bool.false_ne_true
  | _ :: _, [], _ => List.nil_lt_cons _ _
  | a :: as, b :: bs, h => by
    rw [le] at h
    split at h
    next heq =>
      subst heq
      exact List.cons_lt_cons_iff.2 (.inr ⟨rfl, lt_of_not_le h⟩)
    next hne =>
      have hle := of_decide_eq_false h
      have hcode : a.toNat ≠ b.toNat := fun heq => hne (Char.toNat_inj.1 heq)
      exact List.cons_lt_cons_iff.2 (.inl (char_lt_iff.2 (by omega)))

theorem le_iff {a b : Text} : le a b = true ↔ ¬ b < a := by
  constructor
  · intro h hlt
    by_cases heq : a = b
    · exact List.lt_irrefl b (heq ▸ hlt)
    · exact List.lt_asymm hlt (lt_of_le h heq)
  · intro h
    by_contra hle
    exact h (lt_of_not_le (Bool.eq_false_iff.2 hle))

theorem le_trans {a b c : Text} (hab : le a b = true) (hbc : le b c = true) : le a c = true := by
  rw [le_iff] at hab hbc ⊢
  intro hlt
  rcases lt_trichotomy b c with h | rfl | h
  · exact hab (List.lt_trans h hlt)
  · exact hab hlt
  · exact hbc h

theorem le_total (a b : Text) : (le a b || le b a) = true := by
  rw [Bool.or_eq_true, le_iff, le_iff]
  rcases lt_trichotomy a b with h | rfl | h
  · exact .inl (List.lt_asymm h)
  · exact .inl (List.lt_irrefl a)
  · exact .inr (List.lt_asymm h)

end Text

namespace Toml.Members

variable {k l : Text} {e f : Entry}

theorem get?_set_self : ∀ ms : Members, (ms.set k e).get? k = some e
  | [] => by rw [set, get?, if_pos rfl]
  | (l, f) :: ms => by
    unfold set
    split
    next h => rw [get?, if_pos h]
    split
    next h _ => rw [get?, if_neg h, get?_set_self ms]
    next => rw [get?, if_pos rfl]

theorem get?_set_of_ne (h : k ≠ l) : ∀ ms : Members, (ms.set k e).get? l = ms.get? l
  | [] => by simp [set, get?, h]
  | (m, f) :: ms => by
    unfold set
    split
    next hm =>
      subst hm
      rw [get?, get?, if_neg h, if_neg h]
    split
    next => rw [get?, get?, get?_set_of_ne h ms]
    next => rw [get?, if_neg h]

theorem set_set : ∀ ms : Members, (ms.set k e).set k f = ms.set k f
  | [] => by simp [set]
  | (l, g) :: ms => by
    by_cases hl : l = k
    · simp [set, hl]
    · by_cases hle : Text.le l k = true
      · simp [set, hl, hle, set_set ms]
      · simp [set, hl, hle]

theorem mem_set {m : Text × Entry} : ∀ {ms : Members}, m ∈ ms.set k e → m = (k, e) ∨ m ∈ ms
  | [], h => .inl (List.mem_singleton.1 h)
  | (l, f) :: ms, h => by
    unfold set at h
    split at h
    next hl =>
      rcases List.mem_cons.1 h with rfl | h
      · exact .inl (by rw [hl])
      · exact .inr (List.mem_cons_of_mem _ h)
    split at h
    next =>
      rcases List.mem_cons.1 h with rfl | h
      · exact .inr List.mem_cons_self
      · exact (mem_set h).imp id (List.mem_cons_of_mem _)
    next => exact List.mem_cons.1 h

theorem pairwise_set : ∀ {ms : Members}, (ms.Pairwise fun a b => a.1 < b.1) →
    (ms.set k e).Pairwise fun a b => a.1 < b.1
  | [], _ => List.pairwise_singleton _ _
  | (l, f) :: ms, h => by
    obtain ⟨hfirst, hrest⟩ := List.pairwise_cons.1 h
    unfold set
    split
    next => exact List.pairwise_cons.2 ⟨hfirst, hrest⟩
    split
    next hne hle =>
      refine List.pairwise_cons.2 ⟨?_, pairwise_set hrest⟩
      intro m hm
      rcases mem_set hm with rfl | hm
      · exact Text.lt_of_le hle hne
      · exact hfirst m hm
    next hne hle =>
      have hlt : k < l := Text.lt_of_not_le (Bool.eq_false_iff.2 hle)
      refine List.pairwise_cons.2 ⟨?_, h⟩
      intro m hm
      rcases List.mem_cons.1 hm with rfl | hm
      · exact hlt
      · exact List.lt_trans hlt (hfirst m hm)

theorem set_perm : ∀ {ms : Members}, ms.get? k = none → (ms.set k e).Perm ((k, e) :: ms)
  | [], _ => .refl _
  | (l, f) :: ms, h => by
    rw [get?] at h
    split at h
    next => cases h
    next hne =>
      unfold set
      rw [if_neg hne]
      split
      next => exact ((set_perm h).cons _).trans (.swap _ _ _)
      next => exact .refl _

/-- A table with the given entries, of which a later one replaces an earlier one of its key. -/
def ofList (es : List (Text × Entry)) : Members := es.foldl (fun ms e => ms.set e.1 e.2) []

theorem ofList_concat (es : List (Text × Entry)) (k : Text) (e : Entry) :
    ofList (es ++ [(k, e)]) = (ofList es).set k e := by
  rw [ofList, List.foldl_append]
  rfl

theorem fresh_of_nodup {es es' : List (Text × Entry)} {e : Text × Entry}
    (h : ((es ++ e :: es').map (·.1)).Nodup) : e.1 ∉ es.map (·.1) := by
  intro hmem
  rw [List.map_append] at h
  exact List.disjoint_of_nodup_append h hmem List.mem_cons_self

theorem get?_ofList {es : List (Text × Entry)} (h : k ∉ es.map (·.1)) :
    (ofList es).get? k = none := by
  induction es using List.reverseRecOn with
  | nil => rfl
  | append_singleton es e ih =>
    rw [List.map_append, List.mem_append, not_or] at h
    have hne : e.1 ≠ k := by
      rintro rfl
      exact h.2 List.mem_cons_self
    rw [ofList_concat, get?_set_of_ne hne, ih h.1]

theorem pairwise_ofList (es : List (Text × Entry)) :
    (ofList es).Pairwise fun a b => a.1 < b.1 := by
  induction es using List.reverseRecOn with
  | nil => exact .nil
  | append_singleton es e ih =>
    rw [ofList_concat]
    exact pairwise_set ih

theorem ofList_perm {es : List (Text × Entry)} (h : (es.map (·.1)).Nodup) :
    (ofList es).Perm es := by
  induction es using List.reverseRecOn with
  | nil => exact .refl _
  | append_singleton es e ih =>
    rw [ofList_concat]
    refine (set_perm (get?_ofList (fresh_of_nodup h))).trans ?_
    rw [List.map_append] at h
    refine ((ih (List.Nodup.of_append_left h)).cons e).trans ?_
    exact (List.perm_append_singleton e es).symm

theorem ofList_eq {es es' : List (Text × Entry)} (hnodup : (es.map (·.1)).Nodup)
    (hperm : es'.Perm es) (hsorted : es'.Pairwise fun a b => a.1 < b.1) : ofList es = es' := by
  refine List.Perm.eq_of_pairwise ?_ (pairwise_ofList es) hsorted
    ((ofList_perm hnodup).trans hperm.symm)
  intro a b _ _ hab hba
  exact absurd hba (List.lt_asymm hab)

end Toml.Members

theorem Toml.membersToJson_eq_map : ∀ ms : Members,
    membersToJson ms = ms.map fun m => (m.1, m.2.toJson)
  | [] => rfl
  | m :: ms => by rw [membersToJson, membersToJson_eq_map ms, List.map_cons]

end ShaderInline
