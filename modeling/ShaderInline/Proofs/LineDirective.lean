import ShaderInline.LineDirective
import ShaderInline.Proofs.Edit
import ShaderInline.Proofs.SourceMap
import ShaderInline.Proofs.Token.Restart
import ShaderInline.Proofs.Tree.Leaves

/-! # The directive in force

A directive for a range stands at the last start of a leaf that does not come
after the range. Directives are planned in order, so that from the first allowed
offset on one is in force everywhere, and their insertion cannot fail.
-/

namespace ShaderInline

open Schema Piece

namespace Piece

open ShaderInline.Tree (placeLeaves)

variable {ps : List Piece} {ls : List (Kind × Text)} {l : Leaf} {n o : Nat} {b : Bool}

theorem mem_placeLeaves (h : List.Forall₂ IsLeaf ps ls) (hl : l ∈ placeLeaves n ls) :
    ∃ as p bs, ps = as ++ p :: bs ∧ l.start = n + Text.size (textAll as) ∧ l.text = p.text ∧
      (l.kind = p.kind ∨ l.kind = .error) := by
  induction h generalizing n with
  | nil => cases hl
  | @cons p kt ps ls hp _ ih =>
    rw [placeLeaves] at hl
    rcases List.mem_cons.1 hl with rfl | hl
    · exact ⟨[], p, ps, rfl, rfl, hp.1, hp.2.imp id And.left⟩
    · obtain ⟨as, q, bs, rfl, hs, ht⟩ := ih hl
      refine ⟨p :: as, q, bs, rfl, ?_, ht⟩
      rw [hs, hp.1, textAll_cons, Text.size_append, Nat.add_assoc]

theorem leafStarting_placeLeaves (h : List.Forall₂ IsLeaf ps ls) (hn : n ≤ o)
    (ho : o < n + Text.size (textAll ps)) : ∃ l b',
      LineDirective.leafStarting o b (placeLeaves n ls) = some (l, b') ∧
      l ∈ placeLeaves n ls ∧ l.start ≤ o ∧ o < l.stop := by
  induction h generalizing n b with
  | nil => simp at ho; omega
  | @cons p kt ps ls hp _ ih =>
    rw [placeLeaves, LineDirective.leafStarting]
    by_cases hlt : o < n + Text.size kt.2
    · exact ⟨_, b, if_pos (by simp [hn, Leaf.stop, hlt]), List.mem_cons_self, hn, hlt⟩
    · have hrest : o < n + Text.size kt.2 + Text.size (textAll ps) := by
        rw [hp.1, Nat.add_assoc, ← Text.size_append, ← textAll_cons]
        exact ho
      obtain ⟨l, b', hl, hmem, hle⟩ := ih (b := kt.1 == .newline) (by omega) hrest
      refine ⟨l, b', ?_, List.mem_cons_of_mem _ hmem, hle⟩
      rw [if_neg (by simp [Leaf.stop, hlt])]
      exact hl

end Piece

namespace Document

variable {t : Text} {o : Nat}

theorem exists_piece_of_mem_leaves {s : Schema} {l : Leaf} (h : l ∈ (parse s t).leaves) :
    ∃ as p bs, ofText s t = as ++ p :: bs ∧ l.start = Text.size (textAll as) ∧
      l.text = p.text ∧ (l.kind = p.kind ∨ l.kind = .error) := by
  rw [leaves_parse] at h
  simpa using Piece.mem_placeLeaves (isLeaf_parse s t) h

theorem exists_leafStarting (h : o < Text.size t) :
    ∃ l b, LineDirective.leafStarting o true (parse glsl t).leaves = some (l, b) ∧
      IsLastCut t o l.start := by
  have hsize : o < 0 + Text.size (textAll (ofText glsl t)) := by simpa using h
  obtain ⟨l, b, hl, hmem, hle, hlt⟩ :=
    Piece.leafStarting_placeLeaves (b := true) (isLeaf_parse glsl t) (Nat.zero_le o) hsize
  rw [← leaves_parse] at hl hmem
  obtain ⟨as, p, bs, he, hs, ht, -⟩ := exists_piece_of_mem_leaves hmem
  rw [Leaf.stop, ht, hs] at hlt
  rw [hs] at hle
  exact ⟨l, b, hl, hs ▸ isLastCut_of_ofText he hle hlt⟩

theorem exists_pieces_endOfLine (s : Schema) (t : Text) (n : Nat) : ∃ as bs,
    ofText s t = as ++ bs ∧ (parse s t).endOfLine n = Text.size (textAll as) := by
  unfold endOfLine
  split
  next l hl =>
    obtain ⟨as, p, bs, he, hs, ht, -⟩ :=
      exists_piece_of_mem_leaves (List.mem_of_find?_eq_some hl)
    exact ⟨as ++ [p], bs, by simp [he], by simp [Leaf.stop, hs, ht]⟩
  next => exact ⟨ofText s t, [], by simp, by simp⟩

theorem isCut_endOfLine (t : Text) (n : Nat) : IsCut t ((parse glsl t).endOfLine n) := by
  obtain ⟨as, bs, he, hn⟩ := exists_pieces_endOfLine glsl t n
  exact ⟨as, _, cuts_of_ofText_eq he, hn.symm⟩

end Document

/-! ### Plans -/

/-- A map that covers a text, with the contents of all its resources. -/
structure SourceMap.Covers (m : SourceMap) (t : Text) (contents : Contents) : Prop where
  size_eq : m.size = Text.size t
  tiles : Tiles 0 m.ranges m.size
  known : ∀ r ∈ m.ranges, ∃ content, contents.get? r.resource = some content

theorem SourceMap.covers_ofChunks {cs : List Chunk} {contents : Contents}
    (h : ∀ c ∈ cs, ∃ content, contents.get? c.resource = some content) :
    (ofChunks cs).Covers (Chunk.textAll cs) contents := by
  refine ⟨rfl, tiles_ofChunks cs, fun r hr => ?_⟩
  obtain ⟨xs, c, ys, rfl, -, rfl⟩ := Chunk.mem_rangesFrom.1 hr
  exact h c (by simp)

namespace LineDirective

variable {w : LineDirective} {t : Text} {m : SourceMap} {contents : Contents} {min o i : Nat}
  {plan : Plan} {r : MapRange} {rs rs' : List MapRange}

theorem isCut_minOffset (w : LineDirective) (t : Text) : IsCut t (w.minOffset (.parse glsl t)) := by
  unfold minOffset
  split
  · exact Document.isCut_endOfLine t _
  · exact .zero t

theorem mem_put {x : Nat × Text} {u : Text} {ps : List (Nat × Text)}
    (hs : ps.Pairwise fun p q => p.1 < q.1) :
    x ∈ put i u ps ↔ x = (i, u) ∨ x ∈ ps ∧ x.1 ≠ i := by
  induction ps with
  | nil => simp [put]
  | cons p ps ih =>
    obtain ⟨hlt, hs'⟩ := List.pairwise_cons.1 hs
    obtain ⟨j, v⟩ := p
    rw [put]
    split_ifs with h₁ h₂
    · have hne : ∀ y ∈ (j, v) :: ps, y.1 ≠ i := by
        rintro y hy rfl
        rcases List.mem_cons.1 hy with rfl | hy
        · exact Nat.lt_irrefl _ h₁
        · exact Nat.lt_irrefl _ (h₁.trans (hlt y hy))
      rw [List.mem_cons]
      exact or_congr_right ⟨fun hx => ⟨hx, hne x hx⟩, And.left⟩
    · subst h₂
      have hne : ∀ y ∈ ps, y.1 ≠ i := fun y hy => (hlt y hy).ne'
      grind
    · rw [List.mem_cons, ih hs']
      grind

theorem sorted_put {u : Text} {ps : List (Nat × Text)} (hs : ps.Pairwise fun p q => p.1 < q.1) :
    (put i u ps).Pairwise fun p q => p.1 < q.1 := by
  induction ps with
  | nil => exact List.pairwise_singleton _ _
  | cons p ps ih =>
    obtain ⟨hlt, hs'⟩ := List.pairwise_cons.1 hs
    obtain ⟨j, v⟩ := p
    rw [put]
    split_ifs with h₁ h₂
    · refine .cons (fun y hy => ?_) hs
      rcases List.mem_cons.1 hy with rfl | hy
      · exact h₁
      · exact h₁.trans (hlt y hy)
    · exact .cons hlt hs'
    · refine .cons (fun y hy => ?_) (ih hs')
      rcases (mem_put hs').1 hy with rfl | ⟨hy, -⟩
      · have hne : i ≠ j := h₂
        exact Nat.lt_of_le_of_ne (Nat.le_of_not_lt h₁) hne.symm
      · exact hlt y hy

theorem number_spec (ids : Numbering) (id : ResourceId) :
    ids <+: (number ids id).2 ∧ (number ids id).2[(number ids id).1]? = some id := by
  unfold number
  split
  next n hn =>
    obtain ⟨h, hid, -⟩ := List.findIdx?_eq_some_iff_getElem.1 hn
    refine ⟨List.prefix_refl ids, ?_⟩
    rw [List.getElem?_eq_getElem h, eq_of_beq hid]
  next => exact ⟨List.prefix_append _ _, by simp⟩

def planFrom (w : LineDirective) (t : Text) (m : SourceMap) (contents : Contents) (min : Nat)
    (plan : Plan) (rs : List MapRange) : Plan :=
  rs.foldl (w.planRange (.parse glsl t) (Document.parse glsl t).leaves m contents min) plan

theorem planRange_spec (h : m.Covers t contents) (hr : r ∈ m.ranges) (hmin : min < r.stop)
    (plan : Plan) :
    let plan' := w.planFrom t m contents min plan [r]
    ∃ content i b n, contents.get? r.resource = some content ∧
      IsLastCut t (max r.start min) i ∧ plan.ids <+: plan'.ids ∧ plan'.ids[n]? = some r.resource ∧
      plan'.inserts = put i (w.render b
        ((LineIndex.ofText content).line (r.sourceOffset (max r.start min))) n) plan.inserts := by
  obtain ⟨content, hcontent⟩ := h.known r hr
  obtain ⟨rs, rs', hm⟩ := List.append_of_mem hr
  obtain ⟨a, -, hstart, hstop, -⟩ := (hm ▸ h.tiles).split
  have hlt : r.start < r.stop := hstart ▸ hstop
  have hsize : r.stop ≤ Text.size t := h.size_eq ▸ h.tiles.stop_le r hr
  have hcontains : r.contains (max r.start min) = true := by
    simp [MapRange.contains]
    omega
  have hquery := SourceMap.query_eq h.tiles hr hcontains
  obtain ⟨l, b, hl, hcut⟩ :=
    Document.exists_leafStarting (t := t) (o := max r.start min) (by omega)
  obtain ⟨hids, hn⟩ := number_spec plan.ids r.resource
  refine ⟨content, l.start, b, (number plan.ids r.resource).1, hcontent, hcut, ?_⟩
  rw [planFrom, List.foldl_cons, List.foldl_nil, planRange, if_neg (by simp; omega)]
  simp only [Document.size_parse, ge_iff_le, if_neg (show ¬ Text.size t ≤ max r.start min by omega),
    hquery, hcontent, hl]
  exact ⟨hids, hn, trivial⟩

theorem planRange_early (hmin : r.stop ≤ min) (plan : Plan) :
    w.planFrom t m contents min plan [r] = plan := by
  rw [planFrom, List.foldl_cons, List.foldl_nil, planRange, if_pos (by simp [hmin])]

/-- The plan of some ranges: directives in order, each at the last cut before one of the ranges. -/
structure Plan.Sound (t : Text) (min : Nat) (rs : List MapRange) (plan : Plan) : Prop where
  sorted : plan.inserts.Pairwise fun p q => p.1 < q.1
  placed : ∀ p ∈ plan.inserts, ∃ r ∈ rs, min < r.stop ∧ IsLastCut t (max r.start min) p.1

theorem Plan.Sound.range (h : m.Covers t contents) (hp : plan.Sound t min rs) (hr : r ∈ m.ranges) :
    (w.planFrom t m contents min plan [r]).Sound t min (rs ++ [r]) := by
  have hplaced : ∀ p ∈ plan.inserts, ∃ r' ∈ rs ++ [r], min < r'.stop ∧
      IsLastCut t (max r'.start min) p.1 := by
    intro p hmem
    obtain ⟨r', hr', hcut⟩ := hp.placed p hmem
    exact ⟨r', List.mem_append_left _ hr', hcut⟩
  rcases Nat.lt_or_ge min r.stop with hmin | hmin
  · obtain ⟨content, i, b, n, -, hcut, -, -, hput⟩ := planRange_spec (w := w) h hr hmin plan
    constructor
    · rw [hput]
      exact sorted_put hp.sorted
    · intro p hmem
      rw [hput] at hmem
      rcases (mem_put hp.sorted).1 hmem with rfl | ⟨hmem, -⟩
      · exact ⟨r, by simp, hmin, hcut⟩
      · exact hplaced p hmem
  · rw [planRange_early hmin]
    exact ⟨hp.sorted, hplaced⟩

theorem Plan.Sound.planFrom (h : m.Covers t contents) (hp : plan.Sound t min rs)
    (hr : ∀ r ∈ rs', r ∈ m.ranges) :
    (w.planFrom t m contents min plan rs').Sound t min (rs ++ rs') := by
  induction rs' generalizing plan rs with
  | nil => simpa [LineDirective.planFrom] using hp
  | cons r rs' ih =>
    obtain ⟨hr, hrs⟩ := List.forall_mem_cons.1 hr
    have := ih (hp.range (w := w) h hr) hrs
    rwa [List.append_assoc] at this

theorem sound_nil (t : Text) (min : Nat) : (⟨[], []⟩ : Plan).Sound t min [] :=
  ⟨.nil, by simp⟩

/-- Ranges that start later leave the directives before an offset in place. -/
theorem planFrom_keeps (h : m.Covers t contents) (hp : plan.Sound t min rs)
    (hr : ∀ r ∈ rs', r ∈ m.ranges) {x : Nat × Text} (hx : x ∈ plan.inserts) (hxo : x.1 ≤ o)
    (hlater : ∀ r ∈ rs', ∀ j, IsLastCut t (max r.start min) j → o < j) :
    x ∈ (w.planFrom t m contents min plan rs').inserts ∧
      plan.ids <+: (w.planFrom t m contents min plan rs').ids := by
  induction rs' generalizing plan rs with
  | nil => exact ⟨hx, List.prefix_refl _⟩
  | cons r rs' ih =>
    obtain ⟨hr, hrs⟩ := List.forall_mem_cons.1 hr
    obtain ⟨hl, hls⟩ := List.forall_mem_cons.1 hlater
    have hstep : x ∈ (w.planFrom t m contents min plan [r]).inserts ∧
        plan.ids <+: (w.planFrom t m contents min plan [r]).ids := by
      rcases Nat.lt_or_ge min r.stop with hmin | hmin
      · obtain ⟨content, i, b, n, -, hcut, hids, -, hput⟩ :=
          planRange_spec (w := w) h hr hmin plan
        have hi := hl i hcut
        rw [hput]
        exact ⟨(mem_put hp.sorted).2 (.inr ⟨hx, by omega⟩), hids⟩
      · rw [planRange_early hmin]
        exact ⟨hx, List.prefix_refl _⟩
    obtain ⟨hmem, hids⟩ := ih (hp.range (w := w) h hr) hrs hstep.1 hls
    exact ⟨hmem, hstep.2.trans hids⟩

/-- The directive that is in force at an offset, by where it stands and by its numbers. -/
structure InForce (w : LineDirective) (plan : Plan) (o p line id : Nat) : Prop where
  mem : ∃ startsLine, (p, w.render startsLine line id) ∈ plan.inserts
  le : p ≤ o
  last : ∀ x ∈ plan.inserts, x.1 ≤ o → x.1 ≤ p

/-- The directive of a range is in force until one of a later range is. -/
theorem exists_inForce (h : m.Covers t contents) (hm : m.ranges = rs ++ r :: rs')
    (hmin : w.minOffset (.parse glsl t) < r.stop)
    (hcut : IsLastCut t (max r.start (w.minOffset (.parse glsl t))) i) (hio : i ≤ o)
    (hlater : ∀ r' ∈ rs', ∀ j,
      IsLastCut t (max r'.start (w.minOffset (.parse glsl t))) j → o < j) :
    ∃ content n, contents.get? r.resource = some content ∧
      (w.plan (.parse glsl t) m contents).ids[n]? = some r.resource ∧
      w.InForce (w.plan (.parse glsl t) m contents) o i ((LineIndex.ofText content).line
        (r.sourceOffset (max r.start (w.minOffset (.parse glsl t))))) n := by
  generalize hmo : w.minOffset (.parse glsl t) = min at *
  have hplan : w.plan (.parse glsl t) m contents =
      w.planFrom t m contents min (w.planFrom t m contents min
        (w.planFrom t m contents min ⟨[], []⟩ rs) [r]) rs' := by
    simp only [plan, planFrom, hmo, hm, List.foldl_append, List.foldl_cons, List.foldl_nil]
  have hmem : ∀ r' ∈ rs ++ r :: rs', r' ∈ m.ranges := fun r' hr' => hm ▸ hr'
  obtain ⟨hrs, hr, hrs'⟩ : (∀ r' ∈ rs, r' ∈ m.ranges) ∧ r ∈ m.ranges ∧
      ∀ r' ∈ rs', r' ∈ m.ranges := by
    simpa [or_imp, forall_and] using hmem
  have hsound := (sound_nil t min).planFrom (w := w) h hrs
  have hsound' := hsound.range (w := w) h hr
  obtain ⟨content, i', b, n, hcontent, hcut', -, hid, hput⟩ :=
    planRange_spec (w := w) h hr hmin (w.planFrom t m contents min ⟨[], []⟩ rs)
  obtain rfl := hcut.eq hcut'
  have hin : (i, w.render b ((LineIndex.ofText content).line
      (r.sourceOffset (max r.start min))) n) ∈ (w.planFrom t m contents min
        (w.planFrom t m contents min ⟨[], []⟩ rs) [r]).inserts := by
    rw [hput]
    exact (mem_put hsound.sorted).2 (.inl rfl)
  obtain ⟨hkept, hids⟩ := planFrom_keeps (w := w) h hsound' hrs' hin hio hlater
  have hall := hsound'.planFrom (w := w) h hrs'
  rw [← hplan] at hkept hids hall
  refine ⟨content, n, hcontent, ?_, ⟨b, hkept⟩, hio, fun x hx hxo => ?_⟩
  · obtain ⟨ids, hids⟩ := hids
    have hn := (List.getElem?_eq_some_iff.1 hid).1
    rw [← hids, List.getElem?_append_left hn]
    exact hid
  · obtain ⟨r', hr', -, hx'⟩ := hall.placed x hx
    obtain ⟨a, hleft, hstart, -⟩ := (hm ▸ h.tiles).split
    have hle : max r'.start min ≤ max r.start min ∨ o < x.1 := by
      rw [List.mem_append, List.mem_append, List.nil_append, List.mem_singleton] at hr'
      rcases hr' with (hr' | rfl) | hr'
      · have := hleft.stop_le r' hr'
        have := hleft.start_lt_stop r' hr'
        omega
      · exact .inl le_rfl
      · exact .inr (hlater r' hr' x.1 hx')
    rcases hle with hle | hlt
    · exact hcut.le_of_isCut _ hx'.isCut (hx'.le.trans hle)
    · omega

def Plan.edits (plan : Plan) : List Edit := plan.inserts.map fun p => .insert (.offset p.1) p.2

theorem sound_plan (w : LineDirective) (h : m.Covers t contents) :
    (w.plan (.parse glsl t) m contents).Sound t (w.minOffset (.parse glsl t)) m.ranges := by
  have hsound := (sound_nil t (w.minOffset (.parse glsl t))).planFrom (w := w) h fun _ hr => hr
  rwa [List.nil_append] at hsound

theorem inject_of_swept {s : Schema} {u : Text}
    (hu : Edit.Swept 0 t (w.plan (.parse s t) m contents).edits u) :
    w.inject (.parse s t) m contents =
      .ok ⟨.parse s u, (w.plan (.parse s t) m contents).ids⟩ := by
  cases hempty : (w.plan (.parse s t) m contents).inserts.isEmpty with
  | true =>
    rw [Plan.edits, List.isEmpty_iff.1 hempty] at hu
    cases hu
    simp only [inject, hempty, if_true]
  | false =>
    have hcommit : (Document.parse s t).commit
        (w.plan (.parse s t) m contents).edits = .ok (.parse s u) := by
      rw [Document.commit, Document.text_parse, hu.apply_eq]
      rfl
    rw [Plan.edits] at hcommit
    simp only [inject, hempty, hcommit]
    rfl

/-- The planned directives can all be inserted. -/
theorem inject_eq (w : LineDirective) (h : m.Covers t contents) :
    ∃ u, Edit.Swept 0 t (w.plan (.parse glsl t) m contents).edits u ∧
      w.inject (.parse glsl t) m contents =
        .ok ⟨.parse glsl u, (w.plan (.parse glsl t) m contents).ids⟩ := by
  have hsound := w.sound_plan h
  have hbound : ∀ p ∈ (w.plan (.parse glsl t) m contents).inserts,
      ∃ b c, [] ++ t = b ++ c ∧ Text.size b = p.1 := by
    intro p hp
    obtain ⟨r, -, -, hcut⟩ := hsound.placed p hp
    exact hcut.isCut.exists_append
  obtain ⟨u, hu⟩ := Edit.exists_swept_inserts Text.size_nil hsound.sorted (fun _ _ => Nat.zero_le _)
    hbound
  exact ⟨u, hu, inject_of_swept hu⟩

theorem exists_inject (w : LineDirective) (h : m.Covers t contents) :
    ∃ inj, w.inject (.parse glsl t) m contents = .ok inj ∧
      inj.paths = (w.plan (.parse glsl t) m contents).ids ∧
      Edit.apply t (w.plan (.parse glsl t) m contents).edits = .ok inj.document.text := by
  obtain ⟨u, hu, hinj⟩ := w.inject_eq h
  exact ⟨_, hinj, rfl, by rw [hu.apply_eq, Document.text_parse]⟩

end LineDirective
end ShaderInline
