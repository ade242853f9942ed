import ShaderInline.Proofs.SourceMap

/-! # How maps are built

A map that is built has no gaps, none of its ranges goes on where the one before
stops, and every byte keeps the place that its own segment gives it. To append a
whole map is to append the segments that it was built from, so that every map is
one of segments, whatever calls built it. Two maps of copied text are equal as
soon as they give every offset the same place.
-/

namespace ShaderInline

theorem Tiles.of_concat {a b : Nat} {rs : List MapRange} {r : MapRange}
    (h : Tiles a (rs ++ [r]) b) : Tiles a rs r.start ∧ r.start < r.stop ∧ r.stop = b := by
  obtain ⟨c, hrs, rfl, hlt, hstop⟩ := h.split
  exact ⟨hrs, hlt, hstop⟩

theorem Tiles.lenAll_eq {a b : Nat} {rs : List MapRange} (h : Tiles a rs b) :
    a + Segment.lenAll (rs.map MapRange.segment) = b := by
  induction rs generalizing a with
  | nil => exact h
  | cons r rs ih =>
    obtain ⟨rfl, hlt, hrs⟩ := h
    have hsize := r.len_segment
    have := ih hrs
    rw [List.map_cons, Segment.lenAll_cons, hsize]
    omega

theorem Tiles.exists_place {a b o : Nat} {rs : List MapRange} (h : Tiles a rs b) (ha : a ≤ o)
    (hb : o < b) : ∃ r ∈ rs, r.contains o = true ∧
      Segment.placeAll (rs.map MapRange.segment) (o - a) = some ⟨r.resource, r.sourceOffset o⟩ := by
  induction rs generalizing a with
  | nil =>
    obtain rfl : a = b := h
    omega
  | cons r rs ih =>
    obtain ⟨rfl, hlt, hrs⟩ := h
    have hsize := r.len_segment
    rw [List.map_cons, Segment.placeAll]
    rcases Nat.lt_or_ge o r.stop with ho | ho
    · refine ⟨r, List.mem_cons_self, MapRange.contains_iff.2 ⟨ha, ho⟩, ?_⟩
      rw [if_pos (by omega), MapRange.place_segment]
    · obtain ⟨r', hr', ho', hplace⟩ := ih hrs ho
      refine ⟨r', List.mem_cons_of_mem r hr', ho', ?_⟩
      rw [if_neg (by omega), ← hplace]
      congr 1
      omega

namespace SourceMap

variable {m b : SourceMap} {ss : List Segment} {r : MapRange} {rs : List MapRange}

/-! ### Ranges without seams -/

/-- The ranges of a map cover its text one after another, and none goes on where the one before it
stops. -/
structure Seamless (m : SourceMap) : Prop where
  tiles : Tiles 0 m.ranges m.size
  merged : m.ranges.IsChain fun r r' => ¬ r.GoesOn r'.segment

theorem seamless_empty : empty.Seamless := ⟨rfl, .nil⟩

theorem tiles_pushSegment (h : Tiles 0 m.ranges m.size) (s : Segment) :
    Tiles 0 (m.pushSegment s).ranges (m.pushSegment s).size := by
  rcases pushSegment_cases m s with ⟨-, hp⟩ | ⟨rs, r, hm, hs, -, hp⟩ | ⟨hs, -, hp⟩
  · rwa [hp]
  · rw [hm] at h
    obtain ⟨hrs, hlt, hstop⟩ := h.of_concat
    rw [hp]
    exact hrs.append ⟨rfl, by simp only; omega, rfl⟩
  · rw [hp]
    exact h.append ⟨rfl, Nat.lt_add_of_pos_right hs, rfl⟩

theorem Seamless.pushSegment (h : m.Seamless) (s : Segment) : (m.pushSegment s).Seamless := by
  refine ⟨tiles_pushSegment h.tiles s, ?_⟩
  have hchain := h.merged
  rcases pushSegment_cases m s with ⟨-, hp⟩ | ⟨rs, r, hm, -, -, hp⟩ | ⟨-, hnew, hp⟩
  · rwa [hp]
  · -- whether a range goes on with the one before it does not depend on where it stops
    rw [hm, List.isChain_append] at hchain
    rw [hp, List.isChain_append]
    refine ⟨hchain.1, .singleton _, fun r₁ hr₁ r₂ hr₂ => ?_⟩
    obtain rfl : { r with stop := m.size + s.len } = r₂ := by simpa using hr₂
    exact hchain.2.2 r₁ hr₁ r (by simp)
  · rw [hp, List.isChain_append]
    refine ⟨hchain, .singleton _, fun r₁ hr₁ r₂ hr₂ => ?_⟩
    obtain rfl : s.range m.size = r₂ := by simpa using hr₂
    rw [MapRange.segment_range]
    exact hnew r₁ hr₁

/-- To append a segment to a map gives its bytes their place, and leaves all others theirs. -/
theorem placeAll_pushSegment (h : Tiles 0 m.ranges m.size) (s : Segment) (n : Nat) :
    Segment.placeAll (m.pushSegment s).segments n = Segment.placeAll (m.segments ++ [s]) n := by
  rcases pushSegment_cases m s with ⟨hs, hp⟩ | ⟨rs, r, hm, -, hgo, hp⟩ | ⟨-, -, hp⟩
  · rw [hp, Segment.placeAll_concat_empty hs]
  · rw [hm] at h
    obtain ⟨-, hlt, hstop⟩ := h.of_concat
    obtain ⟨hlast, hr, hs⟩ := hgo.divides hlt
    rw [hp, segments_concat rfl, segments_concat hm, ← hstop, hlast, hr, hs, List.append_assoc]
    exact Segment.placeAll_append_congr (fun _ => rfl)
      (fun n => (Segment.placeAll_divide r.size s.len r.resource r.source n).symm) n
  · rw [hp, segments_concat rfl]
    simp [segments]

/-! ### Many segments -/

theorem tiles_foldl (h : Tiles 0 m.ranges m.size) (ss : List Segment) :
    Tiles 0 (ss.foldl pushSegment m).ranges (ss.foldl pushSegment m).size := by
  induction ss generalizing m with
  | nil => exact h
  | cons s ss ih => exact ih (tiles_pushSegment h s)

def ofSegments (ss : List Segment) : SourceMap := ss.foldl pushSegment empty

theorem ofSegments_append (ss ts : List Segment) :
    ofSegments (ss ++ ts) = ts.foldl pushSegment (ofSegments ss) := List.foldl_append

theorem ofSegments_concat (ss : List Segment) (s : Segment) :
    ofSegments (ss ++ [s]) = (ofSegments ss).pushSegment s := ofSegments_append ss [s]

theorem seamless_ofSegments (ss : List Segment) : (ofSegments ss).Seamless := by
  induction ss using List.reverseRecOn with
  | nil => exact seamless_empty
  | append_singleton ss s ih =>
    rw [ofSegments_concat]
    exact ih.pushSegment s

theorem size_ofSegments (ss : List Segment) : (ofSegments ss).size = Segment.lenAll ss := by
  induction ss using List.reverseRecOn with
  | nil => rfl
  | append_singleton ss s ih => simp [ofSegments_concat, ih]

/-- Merged or not, every byte keeps its place. -/
theorem placeAll_ofSegments (ss : List Segment) (n : Nat) :
    Segment.placeAll (ofSegments ss).segments n = Segment.placeAll ss n := by
  induction ss using List.reverseRecOn generalizing n with
  | nil => rfl
  | append_singleton ss s ih =>
    rw [ofSegments_concat, placeAll_pushSegment (seamless_ofSegments ss).tiles]
    exact Segment.placeAll_append_congr ih (fun _ => rfl) n

/-- A look-up goes through the ranges as if they were segments. -/
theorem query_eq_placeAll (h : Tiles 0 m.ranges m.size) (o : Nat) :
    m.query o = Segment.placeAll m.segments o := by
  rcases Nat.lt_or_ge o m.size with ho | ho
  · obtain ⟨r, hr, hro, hplace⟩ := h.exists_place (Nat.zero_le o) ho
    rw [query_eq h hr hro]
    exact hplace.symm
  · have hlen := h.lenAll_eq
    have hnone : Segment.placeAll m.segments o = none := by
      rw [← Option.not_isSome_iff_eq_none, Segment.isSome_placeAll, segments]
      omega
    rw [hnone]
    refine query_eq_none fun r hr => ?_
    have := h.stop_le r hr
    rw [Bool.eq_false_iff, Ne, MapRange.contains_iff]
    omega

/-! ### Maps in maps -/

theorem pushSegment_divide (h : Tiles 0 m.ranges m.size) {a : Nat} (ha : 0 < a) (b : Nat)
    (id : ResourceId) (o : Nat) :
    (m.pushSegment ⟨a, id, o, .verbatim⟩).pushSegment ⟨b, id, o + a, .verbatim⟩ =
      m.pushSegment ⟨a + b, id, o, .verbatim⟩ := by
  rcases Nat.eq_zero_or_pos b with rfl | hb
  · rw [pushSegment_empty rfl, Nat.add_zero]
  rcases pushSegment_cases m ⟨a, id, o, .verbatim⟩ with ⟨ha', -⟩ | ⟨rs, r, hm, -, hgo, hp⟩ |
    ⟨-, hnew, hp⟩
  · exact absurd ha' ha.ne'
  · -- both parts lengthen the last range
    rw [hm] at h
    obtain ⟨-, hlt, hstop⟩ := h.of_concat
    obtain ⟨hr, -, hid, ho⟩ := hgo
    have hgo' : MapRange.GoesOn { r with stop := m.size + a } ⟨b, id, o + a, .verbatim⟩ := by
      refine ⟨hr, rfl, hid, ?_⟩
      simp only [MapRange.size] at ho ⊢
      omega
    rw [hp, pushSegment_merge hb rfl hgo',
      pushSegment_merge (s := ⟨a + b, id, o, .verbatim⟩) (Nat.add_pos_left ha b) hm
        ⟨hr, rfl, hid, ho⟩]
    simp [Nat.add_assoc]
  · -- the second part goes on with the range of the first
    have hgo' : (Segment.range m.size ⟨a, id, o, .verbatim⟩).GoesOn ⟨b, id, o + a, .verbatim⟩ :=
      ⟨rfl, rfl, rfl, by simp [MapRange.size, Segment.range]⟩
    rw [hp, pushSegment_merge hb rfl hgo',
      pushSegment_new (s := ⟨a + b, id, o, .verbatim⟩) (Nat.add_pos_left ha b) hnew]
    simp [Segment.range, Nat.add_assoc]

theorem append_pushSegment (hb : Tiles 0 b.ranges b.size) (hm : Tiles 0 m.ranges m.size)
    (s : Segment) : b.append (m.pushSegment s) = (b.append m).pushSegment s := by
  simp only [append_eq]
  rcases pushSegment_cases m s with ⟨hs, hp⟩ | ⟨rs, r, hr, -, hgo, hp⟩ | ⟨-, -, hp⟩
  · rw [hp, pushSegment_empty hs]
  · rw [hr] at hm
    obtain ⟨-, hlt, hstop⟩ := hm.of_concat
    obtain ⟨hlast, hfirst, hs⟩ := hgo.divides hlt
    -- the range that grew is appended whole, the map and the segment in two parts
    rw [hp, segments_concat rfl, segments_concat hr, ← hstop, hlast, hfirst, List.foldl_concat,
      List.foldl_concat, hs]
    exact (pushSegment_divide (tiles_foldl hb _) (Nat.sub_pos_of_lt hlt) _ _ _).symm
  · rw [hp, segments_concat rfl, List.foldl_concat]
    simp [segments]

theorem append_ofSegments (hb : Tiles 0 b.ranges b.size) (ss : List Segment) :
    b.append (ofSegments ss) = ss.foldl pushSegment b := by
  induction ss using List.reverseRecOn with
  | nil => rfl
  | append_singleton ss s ih =>
    rw [ofSegments_concat, append_pushSegment hb (seamless_ofSegments ss).tiles, ih,
      List.foldl_concat]

/-! ### All calls -/

/-- How a map comes about: text is appended to it, or a whole map that came about in this way too,
or one that was read and may hold any ranges. -/
inductive Script where
  | start
  | verbatim (b : Script) (len : Nat) (resource : ResourceId) (source : Nat)
  | synthetic (b : Script) (len : Nat) (resource : ResourceId) (source : Nat)
  | splice (b nested : Script)
  | spliceRead (b : Script) (read : SourceMap)

namespace Script

def run : Script → SourceMap
  | start => empty
  | verbatim b len resource source => b.run.pushVerbatim len resource source
  | synthetic b len resource source => b.run.pushSynthetic len resource source
  | splice b nested => b.run.append nested.run
  | spliceRead b read => b.run.append read

/-- The segments that were appended, those of appended maps in their place. -/
def segments : Script → List Segment
  | start => []
  | verbatim b len resource source => b.segments ++ [⟨len, resource, source, .verbatim⟩]
  | synthetic b len resource source => b.segments ++ [⟨len, resource, source, .synthetic⟩]
  | splice b nested => b.segments ++ nested.segments
  | spliceRead b read => b.segments ++ read.segments

theorem run_eq (c : Script) : c.run = ofSegments c.segments := by
  induction c with
  | start => rfl
  | verbatim b len resource source ih =>
    rw [run, segments, ofSegments_concat, ih]
    rfl
  | synthetic b len resource source ih =>
    rw [run, segments, ofSegments_concat, ih]
    rfl
  | splice b nested ih ih' =>
    rw [run, segments, ofSegments_append, ih, ih', append_ofSegments (seamless_ofSegments _).tiles]
  | spliceRead b read ih => rw [run, segments, ofSegments_append, ih, append_eq]

/-- Whatever calls built a map, its ranges are not empty and follow one another from the start of
the text to its end, and the text is as long as all that was appended. No copied text borders on
copied text that goes on with it. An offset is looked up with success just if it is in the text, and
comes from where the segment says with which it was appended. -/
theorem run_seamless (c : Script) :
    Tiles 0 c.run.ranges c.run.size ∧ c.run.size = Segment.lenAll c.segments ∧
    (c.run.ranges.IsChain fun r r' => ¬ (r.mapping = .verbatim ∧ r'.mapping = .verbatim ∧
      r.resource = r'.resource ∧ r.source + r.size = r'.source)) ∧
    ∀ o, ((c.run.query o).isSome = true ↔ o < c.run.size) ∧
      c.run.query o = Segment.placeAll c.segments o := by
  rw [run_eq]
  obtain ⟨htiles, hmerged⟩ := seamless_ofSegments c.segments
  refine ⟨htiles, size_ofSegments _, hmerged, fun o => ?_⟩
  have hquery : (ofSegments c.segments).query o = Segment.placeAll c.segments o := by
    rw [query_eq_placeAll htiles, placeAll_ofSegments]
  rw [hquery, Segment.isSome_placeAll, size_ofSegments]
  exact ⟨Iff.rfl, rfl⟩

-- what is spliced goes on with the range before it, behind a segment without text
example : ((start.verbatim 4 ⟨['s'], ['a']⟩ 1).splice
    ((start.synthetic 0 ⟨['s'], ['b']⟩ 9).verbatim 2 ⟨['s'], ['a']⟩ 5)).run =
      ⟨[⟨0, 6, ⟨['s'], ['a']⟩, 1, .verbatim⟩], 6⟩ := rfl

end Script

/-! ### Maps of copied text -/

attribute [ext] MapRange SourceMap

theorem mapping_ofSegments (hss : ∀ s ∈ ss, s.mapping = .verbatim) :
    ∀ r ∈ (ofSegments ss).ranges, r.mapping = .verbatim := by
  induction ss using List.reverseRecOn with
  | nil => simp [ofSegments, empty]
  | append_singleton ss s ih =>
    obtain ⟨hss, hs⟩ := List.forall_mem_append.1 hss
    have ih := ih hss
    rw [ofSegments_concat]
    rcases pushSegment_cases (ofSegments ss) s with ⟨-, hp⟩ | ⟨rs, r, hm, -, -, hp⟩ | ⟨-, -, hp⟩
    · rwa [hp]
    · rw [hm, List.forall_mem_append] at ih
      rw [hp]
      exact List.forall_mem_append.2 ⟨ih.1, by simpa using ih.2⟩
    · rw [hp]
      exact List.forall_mem_append.2 ⟨ih, by simpa [Segment.range] using hs⟩

end SourceMap

/-- Ranges of copied text that follow one another from an offset to another, where none goes on with
the one before it. -/
structure Copies (a : Nat) (rs : List MapRange) (b : Nat) : Prop where
  tiles : Tiles a rs b
  merged : rs.IsChain fun r r' => ¬ r.GoesOn r'.segment
  verbatim : ∀ r ∈ rs, r.mapping = .verbatim

namespace Copies

variable {a b b' n : Nat} {r r' : MapRange} {rs rs' : List MapRange}

theorem tail (h : Copies a (r :: rs) b) : Copies r.stop rs b :=
  ⟨h.tiles.2.2, h.merged.tail, fun r' hr' => h.verbatim r' (List.mem_cons_of_mem r hr')⟩

theorem placeAll_head (h : Copies a (r :: rs) b) (hn : a + n < r.stop) :
    Segment.placeAll ((r :: rs).map MapRange.segment) n = some ⟨r.resource, r.source + n⟩ := by
  obtain ⟨rfl, -, -⟩ := h.tiles
  have hsize := r.len_segment
  have hv : r.segment.mapping = .verbatim := h.verbatim r List.mem_cons_self
  rw [List.map_cons, Segment.placeAll, if_pos (by omega), Segment.place, hv]
  rfl

theorem placeAll_tail (h : Copies a (r :: rs) b) (n : Nat) :
    Segment.placeAll ((r :: rs).map MapRange.segment) (r.stop - a + n) =
      Segment.placeAll (rs.map MapRange.segment) n := by
  obtain ⟨rfl, -, -⟩ := h.tiles
  have hsize := r.len_segment
  rw [List.map_cons, Segment.placeAll, if_neg (by omega), hsize, Nat.add_sub_cancel_left]

/-- A range ends no earlier than another that gives its offsets the same places: what follows it
would go on with it. -/
theorem stop_le (h : Copies a (r :: rs) b) (h' : Copies a (r' :: rs') b')
    (hp : ∀ n, Segment.placeAll ((r :: rs).map MapRange.segment) n =
      Segment.placeAll ((r' :: rs').map MapRange.segment) n) : r'.stop ≤ r.stop := by
  by_contra hlt
  have hpos := h.tiles.2.1
  have hpos' := h'.tiles.2.1
  -- both ranges start at the same place
  have hzero := hp 0
  rw [h.placeAll_head hpos, h'.placeAll_head hpos'] at hzero
  -- where the shorter one stops, the longer one tells the place of what comes next
  have hnext := hp (r.stop - a + 0)
  rw [h.placeAll_tail, h'.placeAll_head (by omega)] at hnext
  cases rs with
  | nil => cases hnext
  | cons s rs =>
    rw [h.tail.placeAll_head h.tail.tiles.2.1] at hnext
    simp only [Option.some.injEq, Location.mk.injEq, Nat.add_zero] at hzero hnext
    refine (List.isChain_cons_cons.1 h.merged).1 ⟨?_, ?_, ?_, ?_⟩
    · exact h.verbatim r List.mem_cons_self
    · exact h.verbatim s (List.mem_cons_of_mem r List.mem_cons_self)
    · exact hzero.1.trans hnext.1.symm
    · have hstart : r.start = a := h.tiles.1
      rw [MapRange.size, hstart]
      exact (congrArg (· + (r.stop - a)) hzero.2).trans hnext.2.symm

theorem unique (h : Copies a rs b) (h' : Copies a rs' b')
    (hp : ∀ n, Segment.placeAll (rs.map MapRange.segment) n =
      Segment.placeAll (rs'.map MapRange.segment) n) : rs = rs' := by
  induction rs generalizing a rs' with
  | nil =>
    cases rs' with
    | nil => rfl
    | cons r' rs' =>
      have := hp 0
      rw [h'.placeAll_head h'.tiles.2.1] at this
      cases this
  | cons r rs ih =>
    cases rs' with
    | nil =>
      have := hp 0
      rw [h.placeAll_head h.tiles.2.1] at this
      cases this
    | cons r' rs' =>
      have hstop : r.stop = r'.stop :=
        le_antisymm (h'.stop_le h fun n => (hp n).symm) (h.stop_le h' hp)
      have hzero := hp 0
      rw [h.placeAll_head h.tiles.2.1, h'.placeAll_head h'.tiles.2.1] at hzero
      simp only [Option.some.injEq, Location.mk.injEq, Nat.add_zero] at hzero
      have hr : r = r' := by
        have hstart : r.start = r'.start := h.tiles.1.trans h'.tiles.1.symm
        have hv : r.mapping = r'.mapping := (h.verbatim r List.mem_cons_self).trans
          (h'.verbatim r' List.mem_cons_self).symm
        exact MapRange.ext hstart hstop hzero.1 hzero.2 hv
      subst hr
      congr 1
      refine ih h.tail h'.tail fun n => ?_
      rw [← h.placeAll_tail, ← h'.placeAll_tail, hp]

end Copies

namespace SourceMap

theorem copies_ofSegments {ss : List Segment} (hss : ∀ s ∈ ss, s.mapping = .verbatim) :
    Copies 0 (ofSegments ss).ranges (ofSegments ss).size :=
  ⟨(seamless_ofSegments ss).tiles, (seamless_ofSegments ss).merged, mapping_ofSegments hss⟩

/-- To append the map of some segments to any map that was built leaves what appending the segments
one by one leaves. And segments of copied text that give every offset the same place have the same
map, however the text was divided. -/
theorem append_canonical :
    (∀ (c : Script) (ss : List Segment),
      c.run.append (ofSegments ss) = ss.foldl pushSegment c.run) ∧
    ∀ ss ts : List Segment, (∀ s ∈ ss, s.mapping = .verbatim) →
      (∀ s ∈ ts, s.mapping = .verbatim) →
        (∀ o, Segment.placeAll ss o = Segment.placeAll ts o) → ofSegments ss = ofSegments ts := by
  constructor
  · intro c ss
    rw [c.run_eq, append_ofSegments (seamless_ofSegments _).tiles]
  · intro ss ts hss hts hplace
    have hranges : (ofSegments ss).ranges = (ofSegments ts).ranges := by
      refine (copies_ofSegments hss).unique (copies_ofSegments hts) fun n => ?_
      exact (placeAll_ofSegments ss n).trans ((hplace n).trans (placeAll_ofSegments ts n).symm)
    have hsize : (ofSegments ss).size = (ofSegments ts).size := by
      rw [size_ofSegments, size_ofSegments, Segment.lenAll_eq_of_placeAll hplace]
    exact SourceMap.ext hranges hsize

def inParts : List Segment :=
  [⟨2, ⟨['s'], ['a']⟩, 0, .verbatim⟩, ⟨0, ⟨['s'], ['b']⟩, 7, .verbatim⟩,
    ⟨3, ⟨['s'], ['a']⟩, 2, .verbatim⟩]

theorem append_canonical_inParts :
    (∀ o, Segment.placeAll inParts o = Segment.placeAll [⟨5, ⟨['s'], ['a']⟩, 0, .verbatim⟩] o) ∧
    ofSegments inParts = ofSegments [⟨5, ⟨['s'], ['a']⟩, 0, .verbatim⟩] ∧
    (Script.verbatim .start 4 ⟨['s'], ['b']⟩ 3).run.append (ofSegments inParts) =
      inParts.foldl pushSegment (Script.verbatim .start 4 ⟨['s'], ['b']⟩ 3).run := by
  have hplace (o : Nat) : Segment.placeAll inParts o =
      Segment.placeAll [⟨5, ⟨['s'], ['a']⟩, 0, .verbatim⟩] o :=
    (Segment.placeAll_divide 2 3 _ 0 o)
  exact ⟨hplace, append_canonical.2 _ _ (by decide) (by decide) hplace, append_canonical.1 _ _⟩

end SourceMap
end ShaderInline
