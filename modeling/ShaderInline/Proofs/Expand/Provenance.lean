import ShaderInline.Proofs.Expand.Run

/-! # Where the output of a run comes from

The map of a run covers the output without gaps. Copied text has the bytes of
the resource it is said to come from, at the offsets the map gives; generated
text belongs to an offset of its resource.
-/

namespace ShaderInline

open Schema Piece

def Chunk.Fits (content : Text) (c : Chunk) : Prop :=
  c.source ≤ Text.size content ∧
    (c.mapping = .verbatim → ∃ a b, content = a ++ (c.text ++ b) ∧ Text.size a = c.source)

/-- Whether a chunk comes from a resource or from one that it reaches. -/
def Chunk.From (env : ExpandEnv) (chain : List ResourceId) (r : Resource) (c : Chunk) : Prop :=
  ∃ chain' r', Reached env chain r chain' r' ∧ c.resource = r'.id ∧ c.Fits r'.content

theorem Chunk.From.self {env : ExpandEnv} {chain : List ResourceId} {r : Resource} {c : Chunk}
    (hr : c.resource = r.id) (h : c.Fits r.content) : c.From env chain r :=
  ⟨chain, r, .refl chain r, hr, h⟩

theorem Chunk.fits_synthetic {content : Text} {c : Chunk} (hm : c.mapping = .synthetic)
    (h : c.source ≤ Text.size content) : c.Fits content :=
  ⟨h, fun hv => by rw [hm] at hv; cases hv⟩

/-- The rest of a resource from an offset on, with the imports in it. -/
structure Rest (r : Resource) (n : Nat) (t : Text) (ss : List Site) : Prop where
  sites : ∀ s ∈ ss, s ∈ r.document.sites
  content : ∃ a, r.content = a ++ t ∧ Text.size a = n

namespace Rest

variable {r : Resource} {n : Nat} {t rest : Text} {gap imp : List Piece} {s : Site}
  {ss : List Site} {σ : Search}

theorem whole (r : Resource) : Rest r 0 r.content r.document.sites :=
  ⟨fun _ hs => hs, [], rfl, rfl⟩

theorem locate (h : Rest r n t (s :: ss)) (hsplit : Split σ t gap imp rest)
    (hs : s = Site.ofPieces (n + Text.size (textAll gap)) imp) :
    ∃ a, r.content = a ++ (textAll gap ++ (textAll imp ++ rest)) ∧ Text.size a = n ∧
      Text.size (a ++ textAll gap) = s.start ∧
      Text.size (a ++ textAll gap ++ textAll imp) = s.stop := by
  obtain ⟨a, ha, hn⟩ := h.content
  subst hs
  refine ⟨a, by rw [ha, hsplit.cuts.eq_append]; simp, hn, ?_, ?_⟩
  · simp [Site.ofPieces, hn]
  · simp [Site.ofPieces, hn, Nat.add_assoc]

theorem after (h : Rest r n t (s :: ss)) (hsplit : Split σ t gap imp rest)
    (hs : s = Site.ofPieces (n + Text.size (textAll gap)) imp) : Rest r s.stop rest ss := by
  obtain ⟨a, ha, -, -, hstop⟩ := h.locate hsplit hs
  exact ⟨fun s' hs' => h.sites s' (List.mem_cons_of_mem _ hs'), _, by simpa using ha, hstop⟩

theorem mem (h : Rest r n t (s :: ss)) : s ∈ r.document.sites := h.sites s List.mem_cons_self

end Rest

namespace Unfolds

variable {env : ExpandEnv} {chain : List ResourceId} {r : Resource} {n : Nat} {t : Text}
  {ss : List Site} {cs : List Chunk}

theorem fits_copied {a gap rest : Text} (hc : r.content = a ++ (gap ++ rest))
    (hn : Text.size a = n) : (Chunk.copied r n gap).Fits r.content :=
  ⟨by rw [hc]; simp; omega, fun _ => ⟨a, rest, hc, hn⟩⟩

theorem from_reached (h : Unfolds env chain r n t ss cs) (hrest : Rest r n t ss) :
    ∀ c ∈ cs, c.From env chain r := by
  induction h with
  | @done chain r n t =>
    obtain ⟨a, ha, hn⟩ := hrest.content
    have hc : r.content = a ++ (t ++ []) := by simpa using ha
    simpa using Chunk.From.self rfl (fits_copied hc hn)
  | @failed chain r n t rest gap imp s ss cs d hsplit hs ht _ ih =>
    obtain ⟨a, hc, hn, hstart, -⟩ := hrest.locate hsplit hs
    have hle : s.start ≤ Text.size r.content := by rw [← hstart, hc]; simp
    simp only [List.forall_mem_cons]
    exact ⟨.self rfl (fits_copied hc hn), .self rfl (Chunk.fits_synthetic rfl hle),
      .self rfl (Chunk.fits_synthetic rfl hle), ih (hrest.after hsplit hs)⟩
  | @expanded chain r child n t rest gap imp s ss cs ds hsplit hs ht _ _ ihd ih =>
    obtain ⟨a, hc, hn, hstart, -⟩ := hrest.locate hsplit hs
    have hle : s.start ≤ Text.size r.content := by rw [← hstart, hc]; simp
    have hbelow {c : Chunk} (hfrom : c.From env (chain ++ [child.id]) child) :
        c.From env chain r := by
      obtain ⟨chain', r', hreach, hres, hfits⟩ := hfrom
      exact ⟨chain', r', .step hrest.mem ht hreach, hres, hfits⟩
    simp only [List.forall_mem_cons, List.forall_mem_append]
    refine ⟨.self rfl (fits_copied hc hn), .self rfl (Chunk.fits_synthetic rfl hle),
      fun c hmem => hbelow (ihd (.whole child) c hmem), fun c hmem => ?_,
      ih (hrest.after hsplit hs)⟩
    unfold Chunk.lineEnd at hmem
    split at hmem
    · cases hmem
    · obtain rfl := List.mem_singleton.1 hmem
      exact hbelow (.self rfl (Chunk.fits_synthetic rfl le_rfl))

end Unfolds

/-- A map that covers a text and is right about each of its bytes. -/
structure SourceMap.Faithful (m : SourceMap) (out : Text) (contents : Contents) : Prop where
  size_eq : m.size = Text.size out
  ranges_ne_nil : m.ranges ≠ []
  tiles : Tiles 0 m.ranges m.size
  traced : ∀ r ∈ m.ranges, ∃ content, contents.get? r.resource = some content ∧
    ∀ o, r.contains o = true → ∃ place, m.query o = some place ∧ place.resource = r.resource ∧
      match r.mapping with
      | .verbatim => place.offset < Text.size content ∧
          (Text.bytes out)[o]? = (Text.bytes content)[place.offset]?
      | .synthetic => place.offset ≤ Text.size content

namespace Chunk

variable {cs : List Chunk} {contents : Contents}

/-- A chunk that fits its resource is traced by the map of the whole. -/
theorem traced {r : MapRange} (hr : r ∈ (SourceMap.ofChunks cs).ranges) {o : Nat}
    (ho : r.contains o = true) {content : Text}
    (hf : ∀ c ∈ cs, c.resource = r.resource → c.Fits content) :
    ∃ place, (SourceMap.ofChunks cs).query o = some place ∧ place.resource = r.resource ∧
      match r.mapping with
      | .verbatim => place.offset < Text.size content ∧
          (Text.bytes (textAll cs))[o]? = (Text.bytes content)[place.offset]?
      | .synthetic => place.offset ≤ Text.size content := by
  refine ⟨_, SourceMap.query_eq (SourceMap.tiles_ofChunks cs) hr ho, rfl, ?_⟩
  obtain ⟨cs₁, c, cs₂, rfl, -, rfl⟩ := mem_rangesFrom.1 hr
  obtain ⟨hle, hcopy⟩ := hf c (by simp) rfl
  simp only [range, MapRange.contains, Nat.zero_add, Bool.and_eq_true, decide_eq_true_eq] at ho
  simp only [range, MapRange.sourceOffset, Nat.zero_add]
  cases hm : c.mapping with
  | synthetic => exact hle
  | verbatim =>
    obtain ⟨a, b, rfl, ha⟩ := hcopy hm
    obtain ⟨k, rfl⟩ := Nat.exists_eq_add_of_le ho.1
    have hk : k < Text.size c.text := by omega
    rw [Nat.add_sub_cancel_left, ← ha, textAll_append, textAll_cons]
    refine ⟨by simp; omega, ?_⟩
    rw [Text.getElem?_bytes_append _ _ _ hk, Text.getElem?_bytes_append _ _ _ hk]

end Chunk

namespace Ran

variable {env : ExpandEnv} {root : Resource} {e : Expanded} {cs : List Chunk}

theorem exists_fits (h : Ran env root e cs) {c : Chunk} (hc : c ∈ cs) :
    ∃ content, e.contents.get? c.resource = some content ∧ c.Fits content := by
  obtain ⟨chain, r, hreach, hres, hfits⟩ :=
    h.unfolds.from_reached (.whole root) c hc
  exact ⟨r.content, by rw [hres]; exact h.known chain r hreach, hfits⟩

theorem textAll_ne_nil (h : Ran env root e cs) (hi : e.hadImports = true) :
    Chunk.textAll cs ≠ [] := by
  have hne : root.document.sites ≠ [] := by simpa [h.hadImports] using hi
  have hcs := h.unfolds
  generalize root.document.sites = ss at hne hcs
  cases hcs with
  | done => exact absurd rfl hne
  | failed | expanded => simp [Inline.header_ne_nil]

theorem map_eq (h : Ran env root e cs) :
    e.map.getD (.identity root.id e.document.size) = .ofChunks cs := by
  rw [h.map, h.document, Document.size_parse]
  cases hi : e.hadImports with
  | true => rfl
  | false =>
    have hsites : root.document.sites = [] := by simpa [h.hadImports] using hi
    have hcs := h.unfolds
    rw [hsites] at hcs
    cases hcs with
    | done =>
      have := SourceMap.identity_eq root.id root.content
      simpa [Chunk.copied] using this

theorem faithful (h : Ran env root e cs) (hi : e.hadImports = true) :
    (SourceMap.ofChunks cs).Faithful (Chunk.textAll cs) e.contents := by
  have htiles := SourceMap.tiles_ofChunks cs
  refine ⟨rfl, fun hnil => ?_, htiles, fun r hr => ?_⟩
  · rw [hnil] at htiles
    exact h.textAll_ne_nil hi (Text.size_eq_zero_iff.1 htiles.symm)
  · obtain ⟨cs₁, c, cs₂, hcs, -, rfl⟩ := Chunk.mem_rangesFrom.1 hr
    obtain ⟨content, hget, -⟩ := h.exists_fits (c := c) (by simp [hcs])
    refine ⟨content, hget, fun o ho => Chunk.traced hr ho fun d hd hres => ?_⟩
    obtain ⟨content', hget', hfits⟩ := h.exists_fits hd
    rw [hres] at hget'
    obtain rfl := Option.some.inj (hget.symm.trans hget')
    exact hfits

end Ran

namespace ExpandEnv

/-- The map of a run with imports covers the output and is right about all of it. -/
theorem run_faithful {env : ExpandEnv} {id : ResourceId} {t : Text} {e : Expanded}
    (h : env.run (.parse glsl id t) = .ok e) (hi : e.hadImports = true) :
    ∃ m, e.map = some m ∧ m.Faithful e.document.text e.contents := by
  obtain ⟨cs, hran⟩ := exists_ran (Resource.isGlsl_parse id t) h
  refine ⟨.ofChunks cs, by rw [hran.map, hi, if_pos rfl], ?_⟩
  rw [hran.document, Document.text_parse]
  exact hran.faithful hi

/-- A root that imports a resource twice, which itself has an import that fails and does not end
with a line break. -/
theorem run_faithful_nested :
    let root := Resource.parse glsl ⟨"s".toList, "m".toList⟩
      "é @import \"a\"\x7b\n@import \"a\"".toList
    let store : Store := fun i =>
      .ok (if i.path = "a".toList then some "float ü; @import \"b\"".toList else none)
    let env : ExpandEnv := ⟨store, ⟨"s".toList, []⟩, 3, none⟩
    ∃ e, env.run root = .ok e ∧ e.hadImports = true ∧
      ∃ m, e.map = some m ∧ m.Faithful e.document.text e.contents := by
  intro root store env
  have hroot : root.IsGlsl := Resource.isGlsl_parse _ _
  have hsites : root.document.sites.isEmpty = false := by decide +kernel
  obtain ⟨e, he⟩ : ∃ e, env.run root = .ok e := exists_run hroot rfl
  obtain ⟨cs, hran⟩ := exists_ran hroot he
  have hi : e.hadImports = true := by rw [hran.hadImports, hsites, Bool.not_false]
  exact ⟨e, he, hi, run_faithful he hi⟩

end ExpandEnv
end ShaderInline
