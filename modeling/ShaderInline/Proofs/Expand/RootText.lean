import ShaderInline.Proofs.Expand.Provenance

/-! # The text of the root in the output

Read along the output, the offsets of the root that are copied are those outside
its imports, each once and from first to last. No other resource contributes to
them, because an import never leads back to a resource that is being expanded.
-/

namespace ShaderInline

open Schema Piece

namespace MapRange

def isCopyOf (id : ResourceId) (r : MapRange) : Bool := r.mapping == .verbatim && r.resource == id

def offsets (r : MapRange) : List Nat := List.range' r.source r.size

theorem mem_offsets {r : MapRange} {n : Nat} :
    n ∈ r.offsets ↔ r.source ≤ n ∧ n < r.source + r.size := List.mem_range'_1

end MapRange

namespace SourceMap

def copies (m : SourceMap) (id : ResourceId) : List MapRange := m.ranges.filter (·.isCopyOf id)

/-- The offsets of a resource in the order in which they are copied. -/
def copiedOffsets (m : SourceMap) (id : ResourceId) : List Nat :=
  (m.copies id).flatMap MapRange.offsets

end SourceMap

namespace Chunk

def offsetsOf (id : ResourceId) (c : Chunk) : List Nat :=
  if c.mapping = .verbatim ∧ c.resource = id then List.range' c.source (Text.size c.text) else []

theorem offsetsOf_copied (r : Resource) (n : Nat) (t : Text) :
    (copied r n t).offsetsOf r.id = List.range' n (Text.size t) := if_pos ⟨rfl, rfl⟩

theorem offsetsOf_of_ne {id : ResourceId} {c : Chunk} (h : c.resource ≠ id) :
    c.offsetsOf id = [] := if_neg fun hc => h hc.2

theorem offsetsOf_synthetic {id : ResourceId} {c : Chunk} (h : c.mapping = .synthetic) :
    c.offsetsOf id = [] := if_neg fun hc => by rw [h] at hc; cases hc.1

theorem offsets_range (n : Nat) (c : Chunk) :
    (c.range n).offsets = List.range' c.source (Text.size c.text) := by
  rw [MapRange.offsets, MapRange.size, range, Nat.add_sub_cancel_left]

theorem offsets_rangesFrom (id : ResourceId) (n : Nat) (cs : List Chunk) :
    ((rangesFrom n cs).filter (·.isCopyOf id)).flatMap MapRange.offsets =
      cs.flatMap (offsetsOf id) := by
  induction cs generalizing n with
  | nil => rfl
  | cons c cs ih =>
    rw [rangesFrom, List.flatMap_cons]
    split
    next hc => simp [offsetsOf, hc, ih]
    next =>
      rw [List.filter_cons]
      by_cases hcopy : c.mapping = .verbatim ∧ c.resource = id
      · have hr : (c.range n).isCopyOf id = true := by simpa [MapRange.isCopyOf, range] using hcopy
        rw [if_pos hr, List.flatMap_cons, offsets_range, offsetsOf, if_pos hcopy, ih]
      · have hr : ¬ (c.range n).isCopyOf id = true := by
          simpa [MapRange.isCopyOf, range] using hcopy
        rw [if_neg hr, offsetsOf, if_neg hcopy, List.nil_append, ih]

end Chunk

theorem SourceMap.copiedOffsets_ofChunks (id : ResourceId) (cs : List Chunk) :
    (ofChunks cs).copiedOffsets id = cs.flatMap (Chunk.offsetsOf id) :=
  Chunk.offsets_rangesFrom id 0 cs

/-! ### The offsets of a resource -/

def Site.outside (ss : List Site) (n : Nat) : Bool :=
  ss.all fun s => decide ¬(s.start ≤ n ∧ n < s.stop)

theorem Site.outside_iff {ss : List Site} {n : Nat} :
    Site.outside ss n = true ↔ ∀ s ∈ ss, ¬(s.start ≤ n ∧ n < s.stop) := by
  simp only [Site.outside, List.all_eq_true, decide_eq_true_eq]

namespace Unfolds

variable {env : ExpandEnv} {chain : List ResourceId} {r : Resource} {n : Nat} {t rest : Text}
  {gap imp : List Piece} {s : Site} {ss : List Site} {cs : List Chunk}

theorem filter_outside (hsplit : Split .start t gap imp rest)
    (hs : s = Site.ofPieces (n + Text.size (textAll gap)) imp)
    (hss : ∀ s' ∈ ss, s.stop ≤ s'.start) :
    (List.range' n (Text.size t)).filter (Site.outside (s :: ss)) =
      List.range' n (Text.size (textAll gap)) ++
        (List.range' s.stop (Text.size rest)).filter (Site.outside ss) := by
  have hstart : s.start = n + Text.size (textAll gap) := by rw [hs]; rfl
  have hstop : s.stop = s.start + Text.size (textAll imp) := by rw [hs]; rfl
  have hsize : Text.size t =
      Text.size (textAll gap) + (Text.size (textAll imp) + Text.size rest) := by
    rw [hsplit.cuts.eq_append]
    simp
  rw [hsize, ← List.range'_append_1, ← hstart, ← List.range'_append_1, ← hstop,
    List.filter_append, List.filter_append]
  have hbefore : (List.range' n (Text.size (textAll gap))).filter (Site.outside (s :: ss)) =
      List.range' n (Text.size (textAll gap)) := by
    refine List.filter_eq_self.2 fun k hk => Site.outside_iff.2 ?_
    have hk := List.mem_range'_1.1 hk
    refine List.forall_mem_cons.2 ⟨by omega, fun s' hs' => ?_⟩
    have := hss s' hs'
    omega
  have hinside : (List.range' s.start (Text.size (textAll imp))).filter
      (Site.outside (s :: ss)) = [] := by
    refine List.filter_eq_nil_iff.2 fun k hk hout => ?_
    have hk := List.mem_range'_1.1 hk
    exact Site.outside_iff.1 hout s List.mem_cons_self (by omega)
  have hbehind : (List.range' s.stop (Text.size rest)).filter (Site.outside (s :: ss)) =
      (List.range' s.stop (Text.size rest)).filter (Site.outside ss) := by
    refine List.filter_congr fun k hk => ?_
    have hk := List.mem_range'_1.1 hk
    have hout : ¬(s.start ≤ k ∧ k < s.stop) := by omega
    rw [Site.outside, List.all_cons, decide_eq_true hout, Bool.true_and, Site.outside]
  rw [hbefore, hinside, hbehind, List.nil_append]

/-- A resource that is imported contributes nothing to those that import it. -/
theorem offsetsOf_child {child : Resource} {ds : List Chunk} (hr : r.id ∈ chain)
    (hchild : child.id ∉ chain)
    (hd : Unfolds env (chain ++ [child.id]) child 0 child.content child.document.sites ds) :
    (ds ++ Chunk.lineEnd child (Chunk.textAll ds)).flatMap (Chunk.offsetsOf r.id) = [] := by
  refine List.flatMap_eq_nil_iff.2 fun c hc => Chunk.offsetsOf_of_ne fun he => ?_
  rcases List.mem_append.1 hc with hc | hc
  · have hown := hd.resource_eq c hc (he ▸ List.mem_append_left _ hr)
    exact hchild (hown ▸ he ▸ hr)
  · exact not_mem_lineEnd hchild c hc (he ▸ hr)

theorem offsetsOf_eq (h : Unfolds env chain r n t ss cs) (hr : r.id ∈ chain) :
    cs.flatMap (Chunk.offsetsOf r.id) =
      (List.range' n (Text.size t)).filter (Site.outside ss) := by
  induction h with
  | done =>
    rw [List.filter_eq_self.2 fun _ _ => Site.outside_iff.2 (by simp)]
    simp [Chunk.offsetsOf_copied]
  | @failed chain r n t rest gap imp s ss cs d hsplit hs _ hrest ih =>
    rw [filter_outside hsplit hs hrest.le_start, ← ih hr]
    simp [Chunk.offsetsOf_copied, Chunk.offsetsOf_synthetic]
  | @expanded chain r child n t rest gap imp s ss cs ds hsplit hs ht hd hrest _ ih =>
    have hnone := offsetsOf_child hr (ExpandEnv.target_eq_ok ht).2.1 hd
    rw [filter_outside hsplit hs hrest.le_start, ← ih hr, ← List.append_assoc ds]
    rw [List.flatMap_cons, List.flatMap_cons, List.flatMap_append, hnone, Chunk.offsetsOf_copied,
      Chunk.offsetsOf_synthetic (Chunk.quote_mapping r s), List.nil_append, List.nil_append]

end Unfolds

/-! ### From offsets to ranges -/

namespace SourceMap

variable {m : SourceMap} {id : ResourceId}

theorem mem_copiedOffsets {k : Nat} : k ∈ m.copiedOffsets id ↔
    ∃ r ∈ m.copies id, r.source ≤ k ∧ k < r.source + r.size := by
  simp only [copiedOffsets, List.mem_flatMap, MapRange.mem_offsets]

theorem size_pos_of_mem_copies (h : Tiles 0 m.ranges m.size) :
    ∀ r ∈ m.copies id, 0 < r.size := fun r hr =>
  Nat.sub_pos_of_lt (h.start_lt_stop r (List.mem_filter.1 hr).1)

theorem pairwise_copies (h : Tiles 0 m.ranges m.size)
    (ho : (m.copiedOffsets id).Pairwise (· < ·)) :
    (m.copies id).Pairwise fun r r' => r.stop ≤ r'.start ∧ r.source < r'.source ∧
      r.source + r.size ≤ r'.source := by
  have hstop : (m.copies id).Pairwise fun r r' => r.stop ≤ r'.start := h.pairwise.filter _
  have hsource := (List.pairwise_flatMap.1 ho).2
  refine (hstop.and hsource).imp_of_mem fun {r r'} hr hr' hrr => ⟨hrr.1, ?_⟩
  have hpos := size_pos_of_mem_copies h r hr
  have hpos' := size_pos_of_mem_copies h r' hr'
  -- the last offset of the one lies below the first of the other
  have hlast : r.source + (r.size - 1) < r'.source :=
    hrr.2 _ (MapRange.mem_offsets.2 (by omega)) _ (MapRange.mem_offsets.2 (by omega))
  omega

end SourceMap

namespace Ran

variable {env : ExpandEnv} {root : Resource} {e : Expanded} {cs : List Chunk}

theorem copiedOffsets_eq (h : Ran env root e cs) :
    (SourceMap.ofChunks cs).copiedOffsets root.id =
      (List.range (Text.size root.content)).filter (Site.outside root.document.sites) := by
  rw [SourceMap.copiedOffsets_ofChunks, h.unfolds.offsetsOf_eq (List.mem_singleton.2 rfl),
    List.range_eq_range']

theorem bytes_copies (h : Ran env root e cs) :
    ∀ r ∈ (SourceMap.ofChunks cs).copies root.id, ∀ k < r.size,
      (Text.bytes (Chunk.textAll cs))[r.start + k]? =
        (Text.bytes root.content)[r.source + k]? := by
  intro r hr k hk
  obtain ⟨hmem, hcopy⟩ := List.mem_filter.1 hr
  obtain ⟨hm, hres⟩ : r.mapping = .verbatim ∧ r.resource = root.id := by
    simpa [MapRange.isCopyOf] using hcopy
  obtain ⟨cs₁, c, cs₂, rfl, -, rfl⟩ := Chunk.mem_rangesFrom.1 hmem
  obtain ⟨content, hget, hfits⟩ := h.exists_fits (c := c) (by simp)
  have hroot : e.contents.get? root.id = some root.content := h.known _ _ (.refl _ _)
  obtain rfl : content = root.content := by
    rw [show c.resource = root.id from hres] at hget
    exact Option.some.inj (hget.symm.trans hroot)
  obtain ⟨a, b, hab, ha⟩ := hfits.2 hm
  have hk : k < Text.size c.text := by simpa [Chunk.range, MapRange.size] using hk
  rw [hab, Chunk.textAll_append, Chunk.textAll_cons, Chunk.range, Nat.zero_add, ← ha,
    Text.getElem?_bytes_append _ _ _ hk, Text.getElem?_bytes_append _ _ _ hk]

end Ran

namespace ExpandEnv

/-- Nothing of the root is lost or doubled: the ranges that are copied from it come in the order
of its text and do not overlap, they cover just what lies outside its imports, and each byte
there is copied once. -/
theorem run_copies_root {env : ExpandEnv} {id : ResourceId} {t : Text} {e : Expanded}
    (h : env.run (.parse glsl id t) = .ok e) (hi : e.hadImports = true) :
    ∃ m, e.map = some m ∧
      (m.copies id).Pairwise (fun r r' => r.stop ≤ r'.start ∧ r.source < r'.source ∧
        r.source + r.size ≤ r'.source) ∧
      (∀ n, (∃ r ∈ m.copies id, r.source ≤ n ∧ n < r.source + r.size) ↔
        n < Text.size t ∧ ∀ s ∈ (Document.parse glsl t).sites, ¬(s.start ≤ n ∧ n < s.stop)) ∧
      m.copiedOffsets id =
        (List.range (Text.size t)).filter (Site.outside (Document.parse glsl t).sites) ∧
      ∀ r ∈ m.copies id, ∀ k < r.size,
        (Text.bytes e.document.text)[r.start + k]? = (Text.bytes t)[r.source + k]? := by
  obtain ⟨cs, hran⟩ := exists_ran (Resource.isGlsl_parse id t) h
  have hoffsets := hran.copiedOffsets_eq
  refine ⟨.ofChunks cs, by rw [hran.map, hi, if_pos rfl], ?_, fun n => ?_, hoffsets, ?_⟩
  · refine SourceMap.pairwise_copies (SourceMap.tiles_ofChunks cs) ?_
    rw [show (SourceMap.ofChunks cs).copiedOffsets id = _ from hoffsets]
    exact List.pairwise_lt_range.filter _
  · rw [← SourceMap.mem_copiedOffsets,
      show (SourceMap.ofChunks cs).copiedOffsets id = _ from hoffsets,
      List.mem_filter, List.mem_range, Site.outside_iff]
    rfl
  · rw [hran.document, Document.text_parse]
    exact hran.bytes_copies

/-- A root with text before, between and behind its imports, of which one fails; another resource
imports the root in turn. -/
theorem run_copies_root_cycle :
    let root := Resource.parse glsl ⟨"s".toList, "m".toList⟩
      "é @import \"a\" x\n@import \"b\"\n@import \"a\"".toList
    let store : Store := fun i =>
      .ok (if i.path = "a".toList then some "float ü; @import \"m\"".toList else none)
    let env : ExpandEnv := ⟨store, ⟨"s".toList, []⟩, 3, none⟩
    ∃ e m, env.run root = .ok e ∧ e.hadImports = true ∧ e.map = some m ∧
      m.copiedOffsets root.id = [0, 1, 2, 14, 15, 16, 28] := by
  intro root store env
  have hroot : root.IsGlsl := Resource.isGlsl_parse _ _
  have hsites : root.document.sites.isEmpty = false := by decide +kernel
  obtain ⟨e, he⟩ : ∃ e, env.run root = .ok e := exists_run hroot rfl
  obtain ⟨cs, hran⟩ := exists_ran hroot he
  have hi : e.hadImports = true := by rw [hran.hadImports, hsites, Bool.not_false]
  obtain ⟨m, hm, -, -, hoffsets, -⟩ := run_copies_root he hi
  exact ⟨e, m, he, hi, hm, hoffsets.trans (by decide +kernel)⟩

end ExpandEnv
end ShaderInline
