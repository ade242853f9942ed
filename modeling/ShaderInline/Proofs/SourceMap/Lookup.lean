import Mathlib
import ShaderInline.SourceMap

/-! # Look-up by bisection

Ranges that stand in the order of the text may leave gaps between them. Among
such ranges bisection finds what a walk over all of them finds: the one range
that holds an offset, and the ranges that share an offset with an interval.
-/

namespace ShaderInline

theorem MapRange.contains_iff {r : MapRange} {o : Nat} :
    r.contains o = true ↔ r.start ≤ o ∧ o < r.stop := by
  simp [contains]

namespace SourceMap

theorem narrow_spec {p : Nat → Bool} {n k : Nat} (hp : ∀ i < n, p i = true ↔ i < k)
    {steps base size : Nat} (hs : size ≤ steps + 1) (hpos : 0 < size) (hn : base + size ≤ n)
    (hl : base ≤ k) (hu : k ≤ base + size) :
    narrow p steps base size < n ∧ narrow p steps base size ≤ k ∧
      k ≤ narrow p steps base size + 1 := by
  induction steps generalizing base size with
  | zero =>
    rw [narrow]
    omega
  | succ steps ih =>
    rw [narrow]
    split
    next => omega
    next hsize =>
      have hmid := hp (base + size / 2) (by omega)
      split
      next h =>
        rw [hmid] at h
        exact ih (by omega) (by omega) (by omega) (by omega) (by omega)
      next h =>
        rw [hmid] at h
        exact ih (by omega) (by omega) (by omega) (by omega) (by omega)

/-- Bisection finds where a property of a leading part ends to hold. -/
theorem partitionPoint_eq {p : Nat → Bool} {n k : Nat} (hk : k ≤ n)
    (hp : ∀ i < n, p i = true ↔ i < k) : partitionPoint p n = k := by
  rw [partitionPoint]
  split
  next => omega
  next hn =>
    obtain ⟨hlt, hl, hu⟩ : narrow p n 0 n < n ∧ narrow p n 0 n ≤ k ∧ k ≤ narrow p n 0 n + 1 :=
      narrow_spec hp (by omega) (by omega) (by omega) (by omega) (by omega)
    have hlast := hp _ hlt
    simp only [hlast]
    split <;> omega

variable {m : SourceMap} {p : MapRange → Bool} {r : MapRange} {rs rs' : List MapRange} {o : Nat}

theorem firstNot_eq (hm : m.ranges = rs ++ rs') (hrs : ∀ r ∈ rs, p r = true)
    (hrs' : ∀ r ∈ rs', p r = false) : m.firstNot p = rs.length := by
  refine partitionPoint_eq (by simp [hm]) fun i _ => ?_
  rw [hm]
  rcases Nat.lt_or_ge i rs.length with hlt | hge
  · rw [List.getElem?_append_left hlt, List.getElem?_eq_getElem hlt, Option.any_some]
    exact iff_of_true (hrs _ (List.getElem_mem hlt)) hlt
  · refine iff_of_false ?_ hge.not_gt
    rw [List.getElem?_append_right hge]
    cases hget : rs'[i - rs.length]? with
    | none => simp
    | some r => simp [hrs' r (List.mem_of_getElem? hget)]

/-! ### Ranges in order -/

/-- The ranges of a map stand in the order of the text. None is empty and no two overlap, but there
may be gaps. -/
structure Ordered (m : SourceMap) : Prop where
  start_lt_stop : ∀ r ∈ m.ranges, r.start < r.stop
  pairwise : m.ranges.Pairwise fun r r' => r.stop ≤ r'.start

theorem Ordered.of_append (h : m.Ordered) (hm : m.ranges = rs ++ r :: rs') :
    (∀ r' ∈ rs, r'.stop ≤ r.start) ∧ ∀ r' ∈ rs', r.stop ≤ r'.start ∧ r'.start < r'.stop := by
  have hpair := h.pairwise
  rw [hm, List.pairwise_append, List.pairwise_cons] at hpair
  refine ⟨fun r' hr' => hpair.2.2 r' hr' r List.mem_cons_self, fun r' hr' => ?_⟩
  exact ⟨hpair.2.1.1 r' hr', h.start_lt_stop r' (by simp [hm, hr'])⟩

/-- A property that passes from each range to those before it cuts the ranges in two. -/
theorem exists_cut (h : rs.Pairwise fun r r' => p r' = true → p r = true) :
    ∃ as bs, rs = as ++ bs ∧ (∀ r ∈ as, p r = true) ∧ ∀ r ∈ bs, p r = false := by
  induction rs with
  | nil => exact ⟨[], [], rfl, by simp, by simp⟩
  | cons r rs ih =>
    obtain ⟨hr, hrs⟩ := List.pairwise_cons.1 h
    by_cases hp : p r = true
    · obtain ⟨as, bs, rfl, has, hbs⟩ := ih hrs
      exact ⟨r :: as, bs, rfl, List.forall_mem_cons.2 ⟨hp, has⟩, hbs⟩
    · refine ⟨[], r :: rs, rfl, by simp, List.forall_mem_cons.2 ⟨by simpa using hp, ?_⟩⟩
      exact fun r' hr' => Bool.eq_false_iff.2 fun hp' => hp (hr r' hr' hp')

theorem Ordered.query_eq_some (h : m.Ordered) (hr : r ∈ m.ranges) (ho : r.contains o = true) :
    m.query o = some ⟨r.resource, r.sourceOffset o⟩ := by
  obtain ⟨rs, rs', hm⟩ := List.append_of_mem hr
  obtain ⟨hbefore, hafter⟩ := h.of_append hm
  rw [MapRange.contains_iff] at ho
  have hfirst : m.firstNot (fun r => r.stop ≤ o) = rs.length := by
    refine firstNot_eq hm (fun r' hr' => ?_) (List.forall_mem_cons.2 ⟨?_, fun r' hr' => ?_⟩)
    · simpa using (hbefore r' hr').trans ho.1
    · simpa using ho.2
    · have := hafter r' hr'
      rw [decide_eq_false_iff_not]
      omega
  rw [query, hfirst, hm]
  simp [MapRange.contains_iff.2 ho]

theorem query_eq_none (h : ∀ r ∈ m.ranges, r.contains o = false) : m.query o = none := by
  rw [query]
  split
  next r hget => rw [if_neg (by simp [h r (List.mem_of_getElem? hget)])]
  next => rfl

theorem Ordered.filter_contains (h : m.Ordered) (hr : r ∈ m.ranges) (ho : r.contains o = true) :
    m.ranges.filter (fun r => r.contains o) = [r] := by
  obtain ⟨rs, rs', hm⟩ := List.append_of_mem hr
  obtain ⟨hbefore, hafter⟩ := h.of_append hm
  have hin := MapRange.contains_iff.1 ho
  have hrs : rs.filter (fun r => r.contains o) = [] := by
    refine List.filter_eq_nil_iff.2 fun r' hr' => ?_
    have := hbefore r' hr'
    rw [MapRange.contains_iff]
    omega
  have hrs' : rs'.filter (fun r => r.contains o) = [] := by
    refine List.filter_eq_nil_iff.2 fun r' hr' => ?_
    have := hafter r' hr'
    rw [MapRange.contains_iff]
    omega
  rw [hm, List.filter_append, List.filter_cons, if_pos ho, hrs, hrs', List.nil_append]

end SourceMap

/-! ### Intervals -/

def MapRange.meets (r : MapRange) (start stop : Nat) : Bool :=
  (List.range' start (stop - start)).any r.contains

theorem MapRange.meets_iff {r : MapRange} {start stop : Nat} :
    r.meets start stop = true ↔ max r.start start < min r.stop stop := by
  simp only [meets, List.any_eq_true, List.mem_range'_1, contains_iff]
  constructor
  · rintro ⟨o, ho, hr⟩
    omega
  · intro h
    exact ⟨max r.start start, by omega, by omega⟩

namespace SourceMap

variable {m : SourceMap}

/-- An interval cuts ranges in order into those before it, those that reach into it and those
after it. -/
theorem Ordered.exists_parts (h : m.Ordered) (start stop : Nat) :
    ∃ as bs cs, m.ranges = as ++ (bs ++ cs) ∧ (∀ r ∈ as, r.stop ≤ start) ∧
      (∀ r ∈ bs, start < r.stop ∧ r.start < stop) ∧ ∀ r ∈ cs, start < r.stop ∧ stop ≤ r.start := by
  obtain ⟨as, rest, hm, has, hrest⟩ : ∃ as rest, m.ranges = as ++ rest ∧
      (∀ r ∈ as, decide (r.stop ≤ start) = true) ∧
        ∀ r ∈ rest, decide (r.stop ≤ start) = false := by
    refine exists_cut (h.pairwise.imp_of_mem fun {r r'} _ hr' hle hp => ?_)
    have := h.start_lt_stop r' hr'
    rw [decide_eq_true_eq] at hp ⊢
    omega
  obtain ⟨bs, cs, rfl, hbs, hcs⟩ : ∃ bs cs, rest = bs ++ cs ∧
      (∀ r ∈ bs, decide (r.start < stop) = true) ∧
        ∀ r ∈ cs, decide (r.start < stop) = false := by
    have hpair := h.pairwise
    rw [hm, List.pairwise_append] at hpair
    refine exists_cut (hpair.2.1.imp_of_mem fun {r r'} hr _ hle hp => ?_)
    have := h.start_lt_stop r (by simp [hm, hr])
    rw [decide_eq_true_eq] at hp ⊢
    omega
  simp only [decide_eq_true_eq, decide_eq_false_iff_not, not_le, not_lt] at has hrest hbs hcs
  refine ⟨as, bs, cs, hm, has, fun r hr => ⟨hrest r ?_, hbs r hr⟩,
    fun r hr => ⟨hrest r ?_, hcs r hr⟩⟩
  · exact List.mem_append_left _ hr
  · exact List.mem_append_right _ hr

theorem Ordered.overlaps_eq (h : m.Ordered) (start stop : Nat) :
    m.overlaps start stop = m.ranges.filter fun r => r.meets start stop := by
  rw [overlaps]
  split
  next hle =>
    refine (List.filter_eq_nil_iff.2 fun r _ => ?_).symm
    rw [MapRange.meets_iff]
    omega
  next hlt =>
    obtain ⟨as, bs, cs, hm, has, hbs, hcs⟩ := h.exists_parts start stop
    have hpos : ∀ r ∈ as ++ (bs ++ cs), r.start < r.stop := by
      rw [← hm]
      exact h.start_lt_stop
    have hfirst : m.firstNot (fun r => r.stop ≤ start) = as.length := by
      refine firstNot_eq hm (by simpa using has) (List.forall_mem_append.2 ⟨?_, ?_⟩)
      · exact fun r hr => by simpa using (hbs r hr).1
      · exact fun r hr => by simpa using (hcs r hr).1
    have hlast : m.firstNot (fun r => r.start < stop) = (as ++ bs).length := by
      refine firstNot_eq (hm.trans (List.append_assoc ..).symm)
        (List.forall_mem_append.2 ⟨fun r hr => ?_, ?_⟩) fun r hr => ?_
      · have := has r hr
        have := hpos r (List.mem_append_left _ hr)
        rw [decide_eq_true_eq]
        omega
      · exact fun r hr => by simpa using (hbs r hr).2
      · simpa using (hcs r hr).2
    have hnone : as.filter (fun r => r.meets start stop) = [] := by
      refine List.filter_eq_nil_iff.2 fun r hr => ?_
      have := has r hr
      rw [MapRange.meets_iff]
      omega
    have hall : bs.filter (fun r => r.meets start stop) = bs := by
      refine List.filter_eq_self.2 fun r hr => ?_
      have := hbs r hr
      have := hpos r (by simp [hr])
      rw [MapRange.meets_iff]
      omega
    have hnone' : cs.filter (fun r => r.meets start stop) = [] := by
      refine List.filter_eq_nil_iff.2 fun r hr => ?_
      have := hcs r hr
      rw [MapRange.meets_iff]
      omega
    rw [hfirst, hlast, hm, List.filter_append, List.filter_append, hnone, hall, hnone']
    simp

/-- Look-up agrees with a walk over the ranges. An offset is looked up in the only range that holds
it, and nowhere if none does; and of an interval the ranges that share an offset with it are found,
in their order. -/
theorem lookups_linear (h : m.Ordered) :
    (∀ o, ∀ r ∈ m.ranges, r.contains o = true →
      m.ranges.filter (fun r => r.contains o) = [r] ∧
        m.query o = some ⟨r.resource, r.sourceOffset o⟩) ∧
    (∀ o, (∀ r ∈ m.ranges, r.contains o = false) → m.query o = none) ∧
    ∀ start stop, m.overlaps start stop = m.ranges.filter fun r => r.meets start stop :=
  ⟨fun _ _ hr ho => ⟨h.filter_contains hr ho, h.query_eq_some hr ho⟩, fun _ => query_eq_none,
    h.overlaps_eq⟩

/-- Two bytes of one resource and three that belong to one place in another, with gaps before,
between and after them. -/
def gapped : SourceMap :=
  ⟨[⟨1, 3, ⟨['s'], ['a']⟩, 10, .verbatim⟩, ⟨5, 8, ⟨['s'], ['b']⟩, 4, .synthetic⟩], 9⟩

theorem lookups_linear_gapped : gapped.Ordered ∧
    gapped.query 2 = some ⟨⟨['s'], ['a']⟩, 11⟩ ∧ gapped.query 3 = none ∧
    gapped.query 7 = some ⟨⟨['s'], ['b']⟩, 4⟩ ∧ gapped.overlaps 2 6 = gapped.ranges ∧
    gapped.overlaps 3 5 = [] ∧ gapped.overlaps 6 2 = [] := by
  have h : gapped.Ordered := ⟨by decide, by decide⟩
  obtain ⟨hsome, hnone, hoverlaps⟩ := lookups_linear h
  refine ⟨h, (hsome 2 _ List.mem_cons_self rfl).2, hnone 3 (by decide),
    (hsome 7 _ (List.mem_cons_of_mem _ List.mem_cons_self) rfl).2, ?_, ?_, ?_⟩
  · rw [hoverlaps]
    rfl
  · rw [hoverlaps]
    rfl
  · rw [hoverlaps]
    rfl

end SourceMap
end ShaderInline
