import ShaderInline.Edit
import ShaderInline.Proofs.Text.Offset

/-! # Batches that cannot fail

Edits that stand in order between characters of a text are applied, and the
result is the text with each edited part exchanged for the new one.
-/

namespace ShaderInline

open Text

namespace Edit

/-- What edits in order make of a text that starts at an offset. -/
inductive Swept : Nat → Text → List Edit → Text → Prop where
  | done (n : Nat) (t : Text) : Swept n t [] t
  | next {n : Nat} {a b c u : Text} {e : Edit} {es : List Edit} :
      e.start = n + size a → e.stop = e.start + size b → Swept e.stop c es u →
      Swept n (a ++ (b ++ c)) (e :: es) (a ++ (e.change b ++ u))

namespace Swept

variable {n : Nat} {t u : Text} {e : Edit} {es : List Edit}

theorem isBoundary (h : Swept n t es u) {a : Text} (ha : size a = n) :
    ∀ e ∈ es, isBoundary e.start (a ++ t) = true ∧ isBoundary e.stop (a ++ t) = true := by
  induction h generalizing a with
  | done => simp
  | @next n a' b c u e es hs hp _ ih =>
    rintro e' he'
    have hstart : size (a ++ a') = e.start := by rw [size_append, ha, hs]
    have hstop : size (a ++ a' ++ b) = e.stop := by rw [size_append, hstart, hp]
    rcases List.mem_cons.1 he' with rfl | he'
    · rw [← hstart, ← hstop]
      refine ⟨?_, ?_⟩
      · simpa using isBoundary_size_append (a ++ a') (b ++ c)
      · simpa using isBoundary_size_append (a ++ a' ++ b) c
    · simpa using ih hstop e' he'

theorem ordered (h : Swept n t es u) : ∀ e ∈ es, n ≤ e.start ∧ e.start ≤ e.stop := by
  induction h with
  | done => simp
  | next hs hp _ ih =>
    rintro e' he'
    rcases List.mem_cons.1 he' with rfl | he'
    · omega
    · have := ih e' he'
      omega

theorem pairwise_le (h : Swept n t es u) : es.Pairwise fun a b => Edit.le a b = true := by
  induction h with
  | done => exact .nil
  | @next n a b c u e es hs hp h ih =>
    refine .cons (fun e' he' => ?_) ih
    have := h.ordered e' he'
    simp only [Edit.le, Bool.or_eq_true, Bool.and_eq_true, decide_eq_true_eq, beq_iff_eq]
    omega

theorem sweep_eq (h : Swept n t es u) : sweep n t es = .ok u := by
  induction h with
  | done => rfl
  | @next n a b c u e es hs hp _ ih =>
    have ha : e.start - n = size a := by omega
    have hb : e.stop - e.start = size b := by omega
    rw [sweep, if_neg (by omega)]
    simp only [ha, hb, takeBytes_size_append, dropBytes_size_append, ih, List.append_assoc]

theorem apply_eq (h : Swept 0 t es u) : Edit.apply t es = .ok u := by
  have hplace : misplaced? t es = none := by
    rw [misplaced?, List.find?_eq_none]
    intro o ho
    obtain ⟨e, he, ho⟩ := List.mem_flatMap.1 ho
    have hb := h.isBoundary size_nil e he
    rcases List.mem_pair.1 ho with rfl | rfl
    · simpa using hb.1
    · simpa using hb.2
  rw [Edit.apply, hplace, List.mergeSort_of_pairwise h.pairwise_le]
  exact h.sweep_eq

theorem exists_kept {m r : Text} (h : Swept n (m ++ r) es u)
    (hm : ∀ e ∈ es, n + size m ≤ e.start) : ∃ r', u = m ++ r' := by
  generalize ht : m ++ r = t at h
  cases h with
  | done => exact ⟨r, ht.symm⟩
  | @next _ a b c u e es hs hp h =>
    have hle : size m ≤ size a := by
      have := hm e List.mem_cons_self
      omega
    obtain ⟨a', rfl, -⟩ := exists_append_of_size_le ht hle
    exact ⟨a' ++ (e.change b ++ u), List.append_assoc ..⟩

end Swept

theorem exists_swept_inserts {n : Nat} {a t : Text} (ha : size a = n) {ps : List (Nat × Text)}
    (hs : ps.Pairwise fun p q => p.1 < q.1) (hn : ∀ p ∈ ps, n ≤ p.1)
    (hb : ∀ p ∈ ps, ∃ b c, a ++ t = b ++ c ∧ size b = p.1) :
    ∃ u, Swept n t (ps.map fun p => .insert (.offset p.1) p.2) u := by
  induction ps generalizing n a t with
  | nil => exact ⟨t, .done n t⟩
  | cons p ps ih =>
    obtain ⟨hlt, hs⟩ := List.pairwise_cons.1 hs
    obtain ⟨b, c, he, hsize⟩ := hb p List.mem_cons_self
    obtain ⟨m, rfl, rfl⟩ := exists_append_of_size_le he
      (by rw [ha, hsize]; exact hn p List.mem_cons_self)
    obtain ⟨u, hu⟩ := ih (a := a ++ m) (t := c) hsize hs (fun q hq => (hlt q hq).le)
      fun q hq => by simpa using hb q (List.mem_cons_of_mem _ hq)
    have hp : p.1 = n + size m := by rw [← hsize, size_append, ha]
    exact ⟨_, by simpa using Swept.next (b := []) (e := .insert (.offset p.1) p.2) hp rfl hu⟩

end Edit
end ShaderInline
