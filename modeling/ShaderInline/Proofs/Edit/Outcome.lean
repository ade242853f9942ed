import ShaderInline.Proofs.Edit.Sequence

/-! # How a batch ends

A batch is refused because one of its offsets is not between two characters of
the text, or else because two of its edits overlap; otherwise it is accepted. The
sweep compares an edit with no other than the one before it. In the order of the
sweep that is enough to find every overlap, and none where two edits just touch.
-/

namespace ShaderInline

open Text Schema

/-- An offset of a text is the size of a leading part of it. There is none inside a character or
past the end. -/
def Text.HasOffset (t : Text) (n : Nat) : Prop := ∃ a b, t = a ++ b ∧ size a = n

theorem Text.isBoundary_iff {n : Nat} {t : Text} : isBoundary n t = true ↔ HasOffset t n := by
  constructor
  · exact exists_append_of_isBoundary
  · rintro ⟨a, b, rfl, rfl⟩
    exact isBoundary_size_append a b

instance (t : Text) (n : Nat) : Decidable (HasOffset t n) := decidable_of_iff _ isBoundary_iff

namespace Edit

variable {n o : Nat} {t : Text} {a b : Edit} {edits es queue : List Edit}

/-! ### Offsets of a queue -/

def ends (edits : List Edit) : List Nat := edits.flatMap fun e => [e.start, e.stop]

/-- An offset of a queue that the text does not have, where it has all that come before. -/
def FirstMisplaced (t : Text) (edits : List Edit) (o : Nat) : Prop :=
  ∃ before after, ends edits = before ++ o :: after ∧ (∀ n ∈ before, t.HasOffset n) ∧
    ¬ t.HasOffset o

theorem misplaced?_eq_some_iff : misplaced? t edits = some o ↔ FirstMisplaced t edits o := by
  rw [misplaced?, List.find?_eq_some_iff_append]
  simp only [Bool.not_eq_true', ← Bool.not_eq_true, isBoundary_iff, not_not]
  constructor
  · rintro ⟨ho, before, after, he, hb⟩
    exact ⟨before, after, he, hb, ho⟩
  · rintro ⟨before, after, he, hb, ho⟩
    exact ⟨ho, before, after, he, hb⟩

theorem misplaced?_eq_none : misplaced? t edits = none ↔ ∀ n ∈ ends edits, t.HasOffset n := by
  rw [misplaced?, List.find?_eq_none]
  simp only [Bool.not_eq_true', Bool.not_eq_false, isBoundary_iff]
  rfl

theorem exists_firstMisplaced (h : ∃ n ∈ ends edits, ¬ t.HasOffset n) :
    ∃ o, FirstMisplaced t edits o := by
  obtain ⟨n, hn, hno⟩ := h
  cases hm : misplaced? t edits with
  | none => exact absurd (misplaced?_eq_none.1 hm n hn) hno
  | some o => exact ⟨o, misplaced?_eq_some_iff.1 hm⟩

/-! ### Overlaps -/

def Overlaps (a b : Edit) : Prop := a.start < b.stop ∧ b.start < a.stop

instance (a b : Edit) : Decidable (Overlaps a b) := inferInstanceAs (Decidable (_ ∧ _))

def Clashing (edits : List Edit) : Prop :=
  ∃ (i j : Nat) (hi : i < edits.length) (hj : j < edits.length), i ≠ j ∧ Overlaps edits[i] edits[j]

theorem Overlaps.symm (h : Overlaps a b) : Overlaps b a := ⟨h.2, h.1⟩

theorem not_clashing_iff : ¬ Clashing edits ↔ edits.Pairwise fun a b => ¬ Overlaps a b := by
  rw [List.pairwise_iff_getElem]
  constructor
  · intro h i j hi hj hij ho
    exact h ⟨i, j, hi, hj, hij.ne, ho⟩
  · rintro h ⟨i, j, hi, hj, hij, ho⟩
    rcases Nat.lt_or_gt_of_ne hij with hlt | hgt
    · exact h i j hi hj hlt ho
    · exact h j i hj hi hgt ho.symm

theorem clashing_iff_of_perm (hp : queue.Perm edits) : Clashing queue ↔ Clashing edits := by
  rw [← not_iff_not, not_clashing_iff, not_clashing_iff]
  exact hp.pairwise_iff fun h ho => h ho.symm

/-- In the order of the sweep two ranges do not overlap just if the first stops where the second
starts, or before. -/
theorem not_overlaps_iff_of_le (hab : le a b = true) (hb : b.start ≤ b.stop) :
    ¬ Overlaps a b ↔ a.stop ≤ b.start := by
  rw [le_iff] at hab
  unfold Overlaps
  omega

theorem pairwise_mergeSort_iff (hr : ∀ e ∈ edits, e.start ≤ e.stop) :
    ((edits.mergeSort le).Pairwise fun a b => a.stop ≤ b.start) ↔ ¬ Clashing edits := by
  have hsorted := List.pairwise_mergeSort le_trans le_total edits
  have hr' (e : Edit) (he : e ∈ edits.mergeSort le) : e.start ≤ e.stop :=
    hr e (List.mem_mergeSort.1 he)
  rw [← clashing_iff_of_perm (edits.mergeSort_perm le), not_clashing_iff]
  constructor
  · intro h
    refine (hsorted.and h).imp_of_mem fun _ hb hab => ?_
    exact (not_overlaps_iff_of_le hab.1 (hr' _ hb)).2 hab.2
  · intro h
    refine (hsorted.and h).imp_of_mem fun _ hb hab => ?_
    exact (not_overlaps_iff_of_le hab.1 (hr' _ hb)).1 hab.2

/-! ### Outcomes -/

inductive Outcome where
  | accepted
  | misplaced
  | conflicting
  /-- A failure that is not about edits. -/
  | other
  deriving DecidableEq, Repr

def Outcome.ofFailure : Failure → Outcome
  | .offsetOutOfRange _ _ => .misplaced
  | .editConflict _ => .conflicting
  | _ => .other

def outcome {α : Type} : Except Failure α → Outcome
  | .ok _ => .accepted
  | .error f => .ofFailure f

theorem outcome_map {α β : Type} (f : α → β) (r : Except Failure α) :
    outcome (r.map f) = outcome r := by
  cases r <;> rfl

theorem sweep_cons {e : Edit} (h : n ≤ e.start) : sweep n t (e :: es) =
    (sweep e.stop (dropBytes (e.stop - e.start) (dropBytes (e.start - n) t)) es).map
      (takeBytes (e.start - n) t ++
        e.change (takeBytes (e.stop - e.start) (dropBytes (e.start - n) t)) ++ ·) := by
  rw [sweep, if_neg h.not_gt]
  dsimp only
  cases sweep e.stop (dropBytes (e.stop - e.start) (dropBytes (e.start - n) t)) es <;> rfl

/-- Ranges that stand behind an offset and follow one another, touching at most. -/
structure Follows (n : Nat) (es : List Edit) : Prop where
  le_start : ∀ e ∈ es, n ≤ e.start
  pairwise : es.Pairwise fun a b => a.stop ≤ b.start

/-- The sweep goes through just if the ranges follow one another behind the cursor. -/
theorem outcome_sweep (hr : ∀ e ∈ es, e.start ≤ e.stop) (n : Nat) (t : Text) :
    Follows n es ∧ outcome (sweep n t es) = .accepted ∨
      ¬ Follows n es ∧ outcome (sweep n t es) = .conflicting := by
  induction es generalizing n t with
  | nil => exact .inl ⟨⟨by simp, .nil⟩, rfl⟩
  | cons e es ih =>
    obtain ⟨he, hr⟩ := List.forall_mem_cons.1 hr
    rcases Nat.lt_or_ge e.start n with hlt | hge
    · refine .inr ⟨fun h => hlt.not_ge (h.le_start e List.mem_cons_self), ?_⟩
      rw [sweep, if_pos hlt]
      rfl
    · rw [sweep_cons hge, outcome_map]
      rcases ih hr e.stop _ with ⟨h, ho⟩ | ⟨hnot, ho⟩
      · refine .inl ⟨⟨List.forall_mem_cons.2 ⟨hge, fun e' he' => ?_⟩, ?_⟩, ho⟩
        · exact (hge.le.trans he).trans (h.le_start e' he')
        · exact .cons h.le_start h.pairwise
      · refine .inr ⟨fun h => hnot ?_, ho⟩
        obtain ⟨hstart, hpair⟩ := List.pairwise_cons.1 h.pairwise
        exact ⟨hstart, hpair⟩

theorem outcome_apply (hr : ∀ e ∈ edits, e.start ≤ e.stop) (t : Text) :
    (outcome (Edit.apply t edits) = .misplaced ∧ ∃ n ∈ ends edits, ¬ t.HasOffset n) ∨
    (outcome (Edit.apply t edits) = .conflicting ∧ (∀ n ∈ ends edits, t.HasOffset n) ∧
      Clashing edits) ∨
    (outcome (Edit.apply t edits) = .accepted ∧ (∀ n ∈ ends edits, t.HasOffset n) ∧
      ¬ Clashing edits) := by
  rw [Edit.apply]
  cases hm : misplaced? t edits with
  | some o =>
    obtain ⟨before, after, he, -, ho⟩ := misplaced?_eq_some_iff.1 hm
    exact .inl ⟨rfl, o, by simp [he], ho⟩
  | none =>
    have hall := misplaced?_eq_none.1 hm
    have hr' (e : Edit) (he : e ∈ edits.mergeSort le) : e.start ≤ e.stop :=
      hr e (List.mem_mergeSort.1 he)
    rcases outcome_sweep hr' 0 t with ⟨h, ho⟩ | ⟨hnot, ho⟩
    · exact .inr (.inr ⟨ho, hall, (pairwise_mergeSort_iff hr).1 h.pairwise⟩)
    · refine .inr (.inl ⟨ho, hall, ?_⟩)
      by_contra hc
      exact hnot ⟨fun e _ => Nat.zero_le e.start, (pairwise_mergeSort_iff hr).2 hc⟩

theorem ends_perm (hp : queue.Perm edits) : n ∈ ends queue ↔ n ∈ ends edits :=
  (hp.flatMap_right _).mem_iff

end Edit

namespace Document

open Edit

theorem outcome_commit (d : Document) (edits : List Edit) :
    outcome (d.commit edits) = outcome (Edit.apply d.text edits) := outcome_map _ _

theorem commit_eq_of_firstMisplaced {d : Document} {edits : List Edit} {o : Nat}
    (h : FirstMisplaced d.text edits o) :
    d.commit edits = .error (.offsetOutOfRange o (Text.size d.text)) := by
  rw [commit, Edit.apply, misplaced?_eq_some_iff.2 h]
  rfl

/-- A batch of ranges ends in one of three ways. It is refused for its first offset that the text
does not have; else for a conflict, just if edits at two places of the queue overlap; else it is
accepted. In which order the edits were queued does not matter for the way it ends. -/
theorem commit_outcome {d : Document} {edits : List Edit} (hr : ∀ e ∈ edits, e.start ≤ e.stop) :
    (outcome (d.commit edits) = .misplaced ↔ ∃ n ∈ ends edits, ¬ d.text.HasOffset n) ∧
    (∀ o len, d.commit edits = .error (.offsetOutOfRange o len) ↔
      FirstMisplaced d.text edits o ∧ len = Text.size d.text) ∧
    (outcome (d.commit edits) = .conflicting ↔
      (∀ n ∈ ends edits, d.text.HasOffset n) ∧ Clashing edits) ∧
    (outcome (d.commit edits) = .accepted ↔
      (∀ n ∈ ends edits, d.text.HasOffset n) ∧ ¬ Clashing edits) ∧
    ∀ queue : List Edit, queue.Perm edits →
      outcome (d.commit queue) = outcome (d.commit edits) := by
  -- the three cases exclude one another, so that each outcome tells which of them it comes from
  have hcases := outcome_apply hr d.text
  rw [← outcome_commit] at hcases
  refine ⟨?_, fun o len => ⟨fun h => ?_, ?_⟩, ?_, ?_, fun queue hp => ?_⟩
  · grind
  · have hout : outcome (d.commit edits) = .misplaced := by rw [h]; rfl
    have hno : ∃ n ∈ ends edits, ¬ d.text.HasOffset n := by grind
    obtain ⟨o', ho'⟩ := exists_firstMisplaced hno
    rw [commit_eq_of_firstMisplaced ho'] at h
    cases h
    exact ⟨ho', rfl⟩
  · rintro ⟨ho, rfl⟩
    exact commit_eq_of_firstMisplaced ho
  · grind
  · grind
  · have hcases' := outcome_apply (fun e he => hr e (hp.mem_iff.1 he)) d.text
    rw [← outcome_commit] at hcases'
    simp only [ends_perm hp, clashing_iff_of_perm hp] at hcases'
    grind

def insideBlock : List Edit := [.replace 3 6 ['x'], .insert (.offset 4) ['y']]

/-- A range that stops inside the first character, and an insertion past the end. -/
def insideLetter : List Edit := [.replace 0 1 ['x'], .insert (.offset 9) ['y']]

theorem commit_outcome_inside :
    (∀ e ∈ insideBlock, e.start ≤ e.stop) ∧ (∀ e ∈ insideLetter, e.start ≤ e.stop) ∧
    outcome ((parse glsl "αb{c}".toList).commit insideBlock) = .conflicting ∧
    outcome ((parse glsl "αb{c}".toList).commit insideBlock.reverse) = .conflicting ∧
    (parse glsl "αb{c}".toList).commit insideLetter = .error (.offsetOutOfRange 1 6) := by
  have hblock : ∀ e ∈ insideBlock, e.start ≤ e.stop := by
    simp [insideBlock, Edit.insert, Edit.replace]
  have hletter : ∀ e ∈ insideLetter, e.start ≤ e.stop := by
    simp [insideLetter, Edit.insert, Edit.replace]
  obtain ⟨-, -, hconflict, -, hqueue⟩ := commit_outcome (d := parse glsl "αb{c}".toList) hblock
  obtain ⟨-, hmisplaced, -⟩ := commit_outcome (d := parse glsl "αb{c}".toList) hletter
  rw [text_parse] at hconflict hmisplaced
  have hout := hconflict.2 ⟨by decide, 0, 1, by decide, by decide, by decide, by decide⟩
  refine ⟨hblock, hletter, hout, (hqueue _ (List.reverse_perm _)).trans hout, ?_⟩
  exact (hmisplaced 1 6).2 ⟨⟨[0], [9, 9], rfl, by decide, by decide⟩, rfl⟩

end Document
end ShaderInline
