import ShaderInline.Proofs.LineIndex
import ShaderInline.Proofs.SourceMap.Lookup

/-! # Lines and their terminators

Each start of a line after the first one is the end of a line terminator, and each
terminator ends where a line starts. So the line of an offset is known by counting
the terminators before it, and lines and columns tell the offset they are of.
-/

namespace ShaderInline

namespace Text

/-- A line terminator, with what stands before and after it. A CR and the LF behind it are one
terminator. -/
inductive Terminator : (before mark after : Text) → Prop where
  | returnFeed (a b : Text) : Terminator a ['\r', '\n'] b
  | feed {a : Text} (b : Text) : a.getLast? ≠ some '\r' → Terminator a ['\n'] b
  | carriageReturn (a : Text) {b : Text} : b.head? ≠ some '\n' → Terminator a ['\r'] b

def HasTerminator (t : Text) (start stop : Nat) : Prop :=
  ∃ a mark b, Terminator a mark b ∧ t = a ++ (mark ++ b) ∧ size a = start ∧
    start + size mark = stop

theorem Terminator.size_mark {a mark b : Text} (h : Terminator a mark b) :
    size mark = if ['\r', '\n'] <:+ a ++ mark then 2 else 1 := by
  cases h with
  | returnFeed => exact (if_pos (List.suffix_append a _)).symm
  | feed _ ha =>
    refine (if_neg ?_).symm
    rintro ⟨u, hu⟩
    obtain ⟨rfl, -⟩ : u ++ ['\r'] = a ∧ ['\n'] = ['\n'] := List.append_inj' (by simpa using hu) rfl
    simp at ha
  | carriageReturn =>
    refine (if_neg ?_).symm
    rintro ⟨u, hu⟩
    have hlast := congrArg List.getLast? hu
    simp at hlast

theorem HasTerminator.unique {t : Text} {i j stop : Nat} (h : t.HasTerminator i stop)
    (h' : t.HasTerminator j stop) : i = j := by
  obtain ⟨a, x, b, hx, ht, rfl, hstop⟩ := h
  obtain ⟨c, y, d, hy, ht', rfl, rfl⟩ := h'
  have hcut : a ++ x = c ++ y := by
    refine (append_inj_of_size (b := b) (d := d) ?_ ?_).1
    · rw [List.append_assoc, List.append_assoc, ← ht, ht']
    · rw [size_append, size_append, hstop]
  have hmark : size x = size y := by rw [hx.size_mark, hy.size_mark, hcut]
  omega

end Text

namespace LineIndex

open Text (HasTerminator Terminator size_cons)

variable {n k o i : Nat} {t : Text}

/-! ### Starts and terminators -/

theorem mem_startsFrom_iff : k ∈ startsFrom n t ↔ ∃ a c b, t = a ++ c :: b ∧
    endsLine c b.head? = true ∧ k = n + Text.size (a ++ [c]) := by
  induction t generalizing n with
  | nil => simp [startsFrom]
  | cons d t ih =>
    rw [startsFrom_cons, List.mem_append, ih]
    constructor
    · rintro (hk | ⟨a, c, b, rfl, hc, rfl⟩)
      · split at hk
        next hd => exact ⟨[], d, t, rfl, hd, by simpa using hk⟩
        next => cases hk
      · exact ⟨d :: a, c, b, rfl, hc, by simp [Nat.add_assoc]⟩
    · rintro ⟨a, c, b, ht, hc, rfl⟩
      cases a with
      | nil =>
        obtain ⟨rfl, rfl⟩ := List.cons_eq_cons.1 ht
        exact .inl (by simp [hc])
      | cons d' a =>
        obtain ⟨rfl, rfl⟩ := List.cons_eq_cons.1 ht
        exact .inr ⟨a, c, b, rfl, hc, by simp [Nat.add_assoc]⟩

/-- The lines after the first one start where a terminator ends. -/
theorem exists_hasTerminator_iff : (∃ start, t.HasTerminator start k) ↔ k ∈ startsFrom 0 t := by
  rw [mem_startsFrom_iff]
  constructor
  · rintro ⟨_, a, mark, b, hmark, rfl, rfl, rfl⟩
    cases hmark with
    | returnFeed => exact ⟨a ++ ['\r'], '\n', b, by simp, by simp [endsLine], by simp⟩
    | feed => exact ⟨a, '\n', b, rfl, by simp [endsLine], by simp⟩
    | carriageReturn hb => exact ⟨a, '\r', b, rfl, by simpa [endsLine] using hb, by simp⟩
  · rintro ⟨a, c, b, rfl, hc, rfl⟩
    obtain rfl | ⟨rfl, hb⟩ : c = '\n' ∨ c = '\r' ∧ b.head? ≠ some '\n' := by
      simpa [endsLine] using hc
    · by_cases ha : a.getLast? = some '\r'
      · obtain ⟨a, rfl⟩ := List.getLast?_eq_some_iff.1 ha
        exact ⟨_, a, _, b, .returnFeed a b, by simp, rfl, by simp⟩
      · exact ⟨_, a, _, b, .feed b ha, rfl, rfl, by simp⟩
    · exact ⟨_, a, _, b, .carriageReturn a hb, rfl, rfl, by simp⟩

theorem startsFrom_sorted (n : Nat) (t : Text) : (startsFrom n t).Pairwise (· < ·) := by
  induction t generalizing n with
  | nil => exact .nil
  | cons c t ih =>
    rw [startsFrom_cons]
    split
    · exact .cons (fun k hk => lt_of_mem_startsFrom hk) (ih _)
    · exact ih _

theorem starts_sorted (t : Text) : (ofText t).starts.Pairwise (· < ·) :=
  .cons (fun _ hk => lt_of_mem_startsFrom hk) (startsFrom_sorted 0 t)

/-! ### Counting -/

theorem takeWhile_eq_filter {l : List Nat} (h : l.Pairwise (· < ·)) (o : Nat) :
    l.takeWhile (· ≤ o) = l.filter (· ≤ o) := by
  induction l with
  | nil => rfl
  | cons k l ih =>
    obtain ⟨hk, hl⟩ := List.pairwise_cons.1 h
    by_cases hko : k ≤ o
    · rw [List.takeWhile_cons_of_pos (by simpa using hko),
        List.filter_cons_of_pos (by simpa using hko), ih hl]
    · have hrest : l.filter (· ≤ o) = [] := by
        rw [List.filter_eq_nil_iff]
        intro j hj
        have := hk j hj
        simp only [decide_eq_true_eq]
        omega
      rw [List.takeWhile_cons_of_neg (by simpa using hko),
        List.filter_cons_of_neg (by simpa using hko), hrest]

/-- The line of an offset tells how many terminators end at the offset or before it. -/
theorem line_eq_ncard (t : Text) (o : Nat) :
    (ofText t).line o = 1 + {p : Nat × Nat | t.HasTerminator p.1 p.2 ∧ p.2 ≤ o}.ncard := by
  have hinj : Set.InjOn Prod.snd {p : Nat × Nat | t.HasTerminator p.1 p.2 ∧ p.2 ≤ o} := by
    rintro ⟨i, k⟩ ⟨hi, -⟩ ⟨j, k'⟩ ⟨hj, -⟩ rfl
    exact congrArg (·, k) (hi.unique hj)
  have himage : Prod.snd '' {p : Nat × Nat | t.HasTerminator p.1 p.2 ∧ p.2 ≤ o} =
      ((startsFrom 0 t).filter (· ≤ o)).toFinset := by
    ext k
    simp [← exists_hasTerminator_iff]
  have hnodup : ((startsFrom 0 t).filter (· ≤ o)).Nodup :=
    ((startsFrom_sorted 0 t).imp fun h => h.ne).filter _
  rw [← hinj.ncard_image, himage, Set.ncard_coe_finset, List.toFinset_card_of_nodup hnodup,
    ← takeWhile_eq_filter (startsFrom_sorted 0 t), line, ofText,
    List.takeWhile_cons_of_pos (by simp), List.length_cons, Nat.add_comm]

/-! ### Lines and their starts -/

theorem lt_length_takeWhile_iff {l : List Nat} (h : l.Pairwise (· < ·)) :
    i < (l.takeWhile (· ≤ o)).length ↔ ∃ s, l[i]? = some s ∧ s ≤ o := by
  induction l generalizing i with
  | nil => simp
  | cons k l ih =>
    obtain ⟨hk, hl⟩ := List.pairwise_cons.1 h
    by_cases hko : k ≤ o
    · rw [List.takeWhile_cons_of_pos (by simpa using hko)]
      cases i with
      | zero => simp [hko]
      | succ i => simpa using ih hl
    · rw [List.takeWhile_cons_of_neg (by simpa using hko)]
      constructor
      · intro hi
        cases hi
      · rintro ⟨s, hs, hso⟩
        rcases List.mem_cons.1 (List.mem_of_getElem? hs) with rfl | hmem
        · exact absurd hso hko
        · have := hk s hmem
          omega

theorem lt_line_iff : i < (ofText t).line o ↔ ∃ s, (ofText t).lineStart? (i + 1) = some s ∧ s ≤ o :=
  lt_length_takeWhile_iff (starts_sorted t)

theorem line_pos (t : Text) (o : Nat) : 0 < (ofText t).line o :=
  lt_line_iff.2 ⟨0, rfl, Nat.zero_le o⟩

theorem lineStart?_lt {s s' : Nat} (h : (ofText t).lineStart? k = some s)
    (h' : (ofText t).lineStart? (k + 1) = some s') : s < s' := by
  cases k with
  | zero => cases h
  | succ i =>
    obtain ⟨hi, rfl⟩ := List.getElem?_eq_some_iff.1 h
    obtain ⟨hi', rfl⟩ := List.getElem?_eq_some_iff.1 h'
    exact List.pairwise_iff_getElem.1 (starts_sorted t) i (i + 1) hi hi' (Nat.lt_succ_self i)

theorem line_lineStart? {s : Nat} (h : (ofText t).lineStart? k = some s) :
    (ofText t).line s = k := by
  cases k with
  | zero => cases h
  | succ i =>
    have hle : i < (ofText t).line s := lt_line_iff.2 ⟨s, h, Nat.le_refl s⟩
    have hge : ¬ i + 1 < (ofText t).line s := by
      rw [lt_line_iff]
      rintro ⟨s', hs', hle'⟩
      exact absurd hle' (Nat.not_le_of_lt (lineStart?_lt h hs'))
    omega

theorem lineStart?_eq_none_iff : (ofText t).lineStart? k = none ↔
    k = 0 ∨ (ofText t).lineCount < k := by
  cases k with
  | zero => simp [lineStart?]
  | succ i => simp [lineStart?, lineCount]

theorem lineStart?_lineCol (t : Text) (o : Nat) :
    ∃ s, (ofText t).lineStart? ((ofText t).lineCol o).1 = some s ∧
      s + ((ofText t).lineCol o).2 - 1 = min o (Text.size t) := by
  obtain ⟨i, hi⟩ : ∃ i, (ofText t).line (min o (Text.size t)) = i + 1 :=
    Nat.exists_eq_succ_of_ne_zero (line_pos t _).ne'
  obtain ⟨s, hs, hso⟩ := lt_line_iff.1 (hi.symm ▸ Nat.lt_succ_self i :
    i < (ofText t).line (min o (Text.size t)))
  have hcol : (ofText t).lineCol o = (i + 1, min o (Text.size t) - s + 1) := by
    have hstart : (ofText t).starts.getD i 0 = s := by
      rw [List.getD_eq_getElem?_getD, show (ofText t).starts[i]? = some s from hs, Option.getD_some]
    change (_, _) = _
    rw [show (ofText t).line (min o (ofText t).size) = i + 1 from hi, Nat.add_sub_cancel, hstart]
    rfl
  rw [hcol]
  refine ⟨s, hs, ?_⟩
  dsimp only
  omega

theorem line_eq_partitionPoint (t : Text) (o : Nat) : (ofText t).line o =
    SourceMap.partitionPoint (fun i => (ofText t).starts[i]?.any (· ≤ o)) (ofText t).lineCount := by
  refine (SourceMap.partitionPoint_eq (List.takeWhile_sublist _).length_le fun i _ => ?_).symm
  rw [Option.any_eq_true]
  simpa using (lt_length_takeWhile_iff (starts_sorted t)).symm

/-- The index of a text is exact, with any mix of line ends. Starts increase; the line of an
offset, which bisection finds, is one more than the number of terminators up to it; a line and a
column lead back to their offset, and the start of each line to that line. -/
theorem ofText_exact (t : Text) :
    (ofText t).starts.Pairwise (· < ·) ∧
      (∀ o, (ofText t).line o =
          1 + {p : Nat × Nat | t.HasTerminator p.1 p.2 ∧ p.2 ≤ o}.ncard ∧
        (ofText t).line o = SourceMap.partitionPoint
          (fun i => (ofText t).starts[i]?.any (· ≤ o)) (ofText t).lineCount) ∧
      (∀ o, ∃ s, (ofText t).lineStart? ((ofText t).lineCol o).1 = some s ∧
        s + ((ofText t).lineCol o).2 - 1 = min o (Text.size t)) ∧
      (∀ k, 1 ≤ k → k ≤ (ofText t).lineCount →
        ∃ s, (ofText t).lineStart? k = some s ∧ (ofText t).line s = k) ∧
      ∀ k, k = 0 ∨ (ofText t).lineCount < k → (ofText t).lineStart? k = none := by
  refine ⟨starts_sorted t, fun o => ⟨line_eq_ncard t o, line_eq_partitionPoint t o⟩,
    lineStart?_lineCol t, fun k hpos hle => ?_, fun k => lineStart?_eq_none_iff.2⟩
  cases hs : (ofText t).lineStart? k with
  | none =>
    have := lineStart?_eq_none_iff.1 hs
    omega
  | some s => exact ⟨s, rfl, line_lineStart? hs⟩

/-- A lone CR before a CR and LF, and one at the end of the text: up to the offset between the CR
and the LF one terminator has ended, and the fourth line is empty. -/
theorem ofText_exact_mixed :
    let t : Text := "é\r\r\nb\r".toList
    {p : Nat × Nat | t.HasTerminator p.1 p.2 ∧ p.2 ≤ 4}.ncard = 1 ∧
      (ofText t).lineCol 40 = (4, 1) ∧ (∃ s, (ofText t).lineStart? 4 = some s ∧ s + 1 - 1 = 7) ∧
      (∃ s, (ofText t).lineStart? 3 = some s ∧ (ofText t).line s = 3) ∧
      (ofText t).lineStart? 5 = none := by
  intro t
  obtain ⟨-, hline, hcol, hstart, hnone⟩ := ofText_exact t
  have hcount : 2 = 1 + _ := (hline 4).1
  refine ⟨by omega, rfl, hcol 40, hstart 3 (by decide) (by decide), hnone 5 (.inr (by decide))⟩

end LineIndex
end ShaderInline
