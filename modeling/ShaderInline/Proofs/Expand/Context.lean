import ShaderInline.Proofs.Expand.Inlining
import ShaderInline.Proofs.Expand.Sections

/-! # Expansions do not depend on where they stand

A run knows the resources above the present one, but only to tell which imports
lead back or too deep. If none does, each import is inlined by what a run from its
target yields, and the map of the importing resource has the map of that run in
its place.
-/

namespace ShaderInline

open Schema Piece

/-! ### Maps that are moved -/

def MapRange.shift (n : Nat) (r : MapRange) : MapRange :=
  { r with start := n + r.start, stop := n + r.stop }

theorem Chunk.range_add (n k : Nat) (c : Chunk) : c.range (n + k) = (c.range k).shift n := by
  rw [range, range, MapRange.shift, Nat.add_assoc]

theorem Chunk.rangesFrom_add (n k : Nat) (cs : List Chunk) :
    rangesFrom (n + k) cs = (rangesFrom k cs).map (.shift n) := by
  induction cs generalizing k with
  | nil => rfl
  | cons c cs ih =>
    rw [rangesFrom, rangesFrom]
    split
    next => exact ih k
    next => rw [List.map_cons, range_add, Nat.add_assoc, ih]

/-! ### Imports below other resources -/

/-- Whether an import failed for the resources above it, not for what it leads to. -/
def Diagnostic.IsAbove (d : Diagnostic) : Prop :=
  d.problem = .importCycle ∨ d.problem = .depthExceeded

namespace ExpandEnv

variable {env : ExpandEnv} {up chain : List ResourceId} {r child : Resource} {s : Site}

theorem target_ok (hfind : Resource.ofReference env.store env.options r.document.schema (some r.id)
      s.reference = .ok child) (hnew : child.id ∉ chain) (hl : chain.length ≤ env.maxDepth) :
    env.target chain r s = .ok child := by
  rw [target, hfind]
  exact (if_neg (by simpa using hnew)).trans (if_neg (Nat.not_lt.2 hl))

/-- Without the resources further up, an import leads to the same unless it failed for them. -/
theorem target_append (h : ∀ d, env.target (up ++ chain) r s = .error d → ¬ d.IsAbove) :
    env.target chain r s = env.target (up ++ chain) r s := by
  cases hfind : Resource.ofReference env.store env.options r.document.schema (some r.id)
    s.reference with
  | error d => rw [target, target, hfind]
  | ok child =>
    have hnew : child.id ∉ up ++ chain := by
      intro hc
      refine h ⟨s.reference, .importCycle, cycleMessage (up ++ chain ++ [child.id]), some r.id⟩ ?_
        (.inl rfl)
      rw [target, hfind]
      exact if_pos (by simpa using hc)
    have hl : (up ++ chain).length ≤ env.maxDepth := by
      by_contra hlt
      refine h ⟨s.reference, .depthExceeded, env.depthMessage child.id, some r.id⟩ ?_ (.inr rfl)
      rw [target, hfind]
      exact (if_neg (by simpa using hnew)).trans (if_pos (Nat.not_le.1 hlt))
    rw [target_ok hfind hnew hl]
    refine target_ok hfind (fun hc => hnew (List.mem_append_right up hc)) ?_
    exact (List.length_append ▸ Nat.le_add_left _ _).trans hl

theorem exists_target (hr : r.IsGlsl) (id : ResourceId) (t : Text)
    (h : (r.document.sites.any fun s =>
      (env.target chain r s).toOption.any fun x => x.id == id && x.content == t) = true) :
    ∃ s ∈ r.document.sites, env.target chain r s = .ok (.parse glsl id t) := by
  obtain ⟨s, hs, hx⟩ := List.any_eq_true.1 h
  refine ⟨s, hs, ?_⟩
  cases ht : env.target chain r s with
  | error d => simp [ht, Except.toOption] at hx
  | ok x =>
    obtain ⟨rfl, rfl⟩ : x.id = id ∧ x.content = t := by simpa [ht, Except.toOption] using hx
    have hx := (ofReference_eq_ok (target_eq_ok ht).1).1
    rw [hr.schema_eq] at hx
    rw [← hx]

end ExpandEnv

/-- Whether no import of a resource, or of one that it reaches, fails for the resources above. -/
def ExpandEnv.Clear (env : ExpandEnv) (chain : List ResourceId) (r : Resource) : Prop :=
  ∀ chain' r' s d, Reached env chain r chain' r' → s ∈ r'.document.sites →
    env.target chain' r' s = .error d → ¬ d.IsAbove

namespace Reached

variable {env : ExpandEnv} {chain chain' chain'' : List ResourceId} {r r' r'' : Resource}

theorem trans (h : Reached env chain r chain' r') (h' : Reached env chain' r' chain'' r'') :
    Reached env chain r chain'' r'' := by
  induction h with
  | refl => exact h'
  | step hs ht _ ih => exact .step hs ht (ih h')

theorem isGlsl (h : Reached env chain r chain' r') (hr : r.IsGlsl) : r'.IsGlsl := by
  induction h with
  | refl => exact hr
  | step _ ht _ ih => exact ih (ExpandEnv.isGlsl_target hr ht)

end Reached

namespace ExpandEnv.Clear

variable {env : ExpandEnv} {up chain chain' : List ResourceId} {r r' c : Resource} {s : Site}

theorem reached (h : env.Clear chain r) (hr : Reached env chain r chain' r') :
    env.Clear chain' r' :=
  fun _ _ _ _ hr' => h _ _ _ _ (hr.trans hr')

theorem child (h : env.Clear chain r) (hs : s ∈ r.document.sites)
    (ht : env.target chain r s = .ok c) : env.Clear (chain ++ [c.id]) c :=
  h.reached (.step hs ht (.refl _ _))

theorem target_eq (h : env.Clear (up ++ chain) r) (hs : s ∈ r.document.sites) :
    env.target chain r s = env.target (up ++ chain) r s :=
  target_append fun d hd => h _ r s d (.refl _ r) hs hd

theorem iff_of_run {root : Resource} {e : Expanded} (h : env.run root = .ok e) :
    env.Clear [root.id] root ↔ ∀ d ∈ e.diagnostics, ¬ d.IsAbove := by
  rw [diagnostics_of_run h]
  constructor
  · intro hclear d hd
    obtain ⟨chain', r', s, hr, hs, ht⟩ := mem_failures_iff.1 hd
    exact hclear chain' r' s d hr hs ht
  · intro hd chain' r' s d hr hs ht
    exact hd d (mem_failures_iff.2 ⟨chain', r', s, hr, hs, ht⟩)

theorem of_allReached (levels : Nat) (h : env.allReached (fun chain r =>
      r.document.sites.all fun s =>
        match env.target chain r s with
        | .ok _ => true
        | .error d => d.problem != .importCycle && d.problem != .depthExceeded)
      levels chain r = true) : env.Clear chain r := by
  intro chain' r' s d hr hs ht
  have hd := List.all_eq_true.1 (hr.of_allReached h) s hs
  rw [ht] at hd
  simpa [Diagnostic.IsAbove] using hd

end ExpandEnv.Clear

theorem Split.eq_of_site {n : Nat} {t rest rest' : Text} {gap gap' imp imp' : List Piece} {s : Site}
    (h : Split .start t gap imp rest) (hs : s = Site.ofPieces (n + Text.size (textAll gap)) imp)
    (h' : Split .start t gap' imp' rest')
    (hs' : s = Site.ofPieces (n + Text.size (textAll gap')) imp') :
    textAll gap' = textAll gap ∧ rest' = rest := by
  have hstart : n + Text.size (textAll gap') = n + Text.size (textAll gap) :=
    congrArg Site.start (hs'.symm.trans hs)
  have hstop : n + Text.size (textAll gap') + Text.size (textAll imp') =
      n + Text.size (textAll gap) + Text.size (textAll imp) :=
    congrArg Site.stop (hs'.symm.trans hs)
  have ht : textAll gap' ++ (textAll imp' ++ rest') = textAll gap ++ (textAll imp ++ rest) := by
    have := h'.cuts.eq_append.symm.trans h.cuts.eq_append
    simpa using this
  obtain ⟨hgap, himp⟩ := Text.append_inj_of_size ht (by omega)
  exact ⟨hgap, (Text.append_inj_of_size himp (by omega)).2⟩

namespace Unfolds

variable {env : ExpandEnv} {up chain : List ResourceId} {r child : Resource} {n : Nat} {t : Text}
  {s : Site} {ss : List Site} {cs ds : List Chunk}

/-- A resource has the same chunks without the resources further up. -/
theorem eq_of_append (h : Unfolds env (up ++ chain) r n t ss cs) (hc : env.Clear (up ++ chain) r)
    (hrest : Rest r n t ss) (h' : Unfolds env chain r n t ss ds) : ds = cs := by
  -- both recursions add the same resource at the end of their chains
  generalize hup : up ++ chain = full at h hc
  induction h generalizing chain ds with
  | done =>
    cases h' with
    | done => rfl
  | @failed full r n t rest gap imp s ss cs d hsplit hs ht _ ih =>
    subst hup
    have htarget := (hc.target_eq hrest.mem).trans ht
    cases h' with
    | failed hsplit' hs' ht' hcs' =>
      obtain ⟨hgap, rfl⟩ := hsplit.eq_of_site hs hsplit' hs'
      obtain rfl := Except.error.inj (ht'.symm.trans htarget)
      rw [hgap, ih (hrest.after hsplit hs) hcs' rfl hc]
    | expanded _ _ ht' => cases ht'.symm.trans htarget
  | @expanded full r child n t rest gap imp s ss cs ds hsplit hs ht _ _ ihd ih =>
    subst hup
    have htarget := (hc.target_eq hrest.mem).trans ht
    cases h' with
    | failed _ _ ht' => cases ht'.symm.trans htarget
    | expanded hsplit' hs' ht' hds' hcs' =>
      obtain ⟨hgap, rfl⟩ := hsplit.eq_of_site hs hsplit' hs'
      obtain rfl := Except.ok.inj (ht'.symm.trans htarget)
      have hbody := ihd (.whole _) hds' (List.append_assoc ..).symm (hc.child hrest.mem ht)
      rw [hgap, hbody, ih (hrest.after hsplit hs) hcs' rfl hc]

theorem exists_body (h : Unfolds env chain r n t ss cs) (hs : s ∈ ss)
    (ht : env.target chain r s = .ok child) : ∃ xs ds ys,
      cs = xs ++ .quote r s :: (ds ++ (Chunk.lineEnd child (Chunk.textAll ds) ++ ys)) ∧
      Unfolds env (chain ++ [child.id]) child 0 child.content child.document.sites ds := by
  induction h with
  | done => cases hs
  | @failed chain r n t rest gap imp s' ss cs d _ _ ht' _ ih =>
    rcases List.mem_cons.1 hs with rfl | hs
    · cases ht'.symm.trans ht
    · obtain ⟨xs, ds, ys, rfl, hds⟩ := ih hs ht
      exact ⟨.copied r n (textAll gap) :: .quote r s' :: .warning r s' d.problem :: xs, ds, ys,
        rfl, hds⟩
  | @expanded chain r child' n t rest gap imp s' ss cs ds' _ _ ht' hds' _ _ ih =>
    rcases List.mem_cons.1 hs with rfl | hs
    · obtain rfl := Except.ok.inj (ht'.symm.trans ht)
      exact ⟨[.copied r n (textAll gap)], ds', cs, rfl, hds'⟩
    · obtain ⟨xs, ds, ys, rfl, hds⟩ := ih hs ht
      refine ⟨.copied r n (textAll gap) :: .quote r s' ::
        (ds' ++ (Chunk.lineEnd child' (Chunk.textAll ds') ++ xs)), ds, ys, ?_, hds⟩
      simp

end Unfolds

/-! ### The output of a run inside another -/

def MapRange.lineEnd (n : Nat) (r : Resource) (t : Text) : List MapRange :=
  if t.getLast? = some '\n' then [] else [⟨n, n + 1, r.id, Text.size r.content, .synthetic⟩]

theorem Chunk.rangesFrom_lineEnd (n : Nat) (r : Resource) (t : Text) :
    rangesFrom n (lineEnd r t) = MapRange.lineEnd n r t := by
  unfold lineEnd MapRange.lineEnd
  split
  next => rfl
  next => simpa [rangesFrom, range] using Char.utf8Size_eq_one_iff.2 (by decide)

/-- Whether the expansion of a resource has the output of a run from another in the place of one of
its imports, after the comment that quotes it, and the map of that run in the map. -/
structure Expansion.Holds (e : Expansion) (r : Resource) (s : Site) (child : Resource)
    (out : Expanded) : Prop where
  tiles : Tiles 0 e.map.ranges (Text.size e.document.text)
  parts : ∃ x y before after,
    e.document.text = x ++ (Inline.header s ++ (Inline.endLine out.document.text ++ y)) ∧
    let body := Text.size (x ++ Inline.header s)
    e.map.ranges = before ++ ⟨Text.size x, body, r.id, s.start, .synthetic⟩ ::
      ((out.map.getD (.identity child.id out.document.size)).ranges.map (.shift body) ++
        (MapRange.lineEnd (body + out.document.size) child out.document.text ++ after))

/-- The chunks of a resource hold those of a run from the target of an import. -/
theorem Ran.holds {env : ExpandEnv} {r child : Resource} {s : Site} {out : Expanded}
    {xs ds ys cs : List Chunk} {b : Bool} (h : Ran env child out ds)
    (hcs : cs = xs ++ .quote r s :: (ds ++ (Chunk.lineEnd child (Chunk.textAll ds) ++ ys))) :
    Expansion.Holds ⟨.parse glsl (Chunk.textAll cs), .ofChunks cs, b⟩ r s child out := by
  have htext : Chunk.textAll cs = Chunk.textAll xs ++
      (Inline.header s ++ (Inline.endLine (Chunk.textAll ds) ++ Chunk.textAll ys)) := by
    rw [hcs, ← Chunk.textAll_lineEnd child]
    simp
  obtain ⟨after, hranges⟩ : ∃ after, Chunk.rangesFrom 0 cs =
      Chunk.rangesFrom 0 xs ++ (Chunk.quote r s).range (Text.size (Chunk.textAll xs)) ::
        ((Chunk.rangesFrom 0 ds).map (.shift (Text.size (Chunk.textAll xs ++ Inline.header s))) ++
          (MapRange.lineEnd (Text.size (Chunk.textAll xs ++ Inline.header s) +
            Text.size (Chunk.textAll ds)) child (Chunk.textAll ds) ++ after)) := by
    rw [hcs, Chunk.rangesFrom_append, Chunk.rangesFrom, Chunk.quote_text,
      if_neg (Inline.header_ne_nil s), Nat.zero_add, ← Text.size_append, Chunk.rangesFrom_append,
      Chunk.rangesFrom_append, Chunk.rangesFrom_lineEnd, ← Chunk.rangesFrom_add]
    exact ⟨_, rfl⟩
  refine ⟨?_, Chunk.textAll xs, Chunk.textAll ys, Chunk.rangesFrom 0 xs, after, ?_, ?_⟩
  · rw [Document.text_parse]
    exact SourceMap.tiles_ofChunks cs
  · rw [h.document, Document.text_parse, Document.text_parse, htext]
  · rw [h.map_eq, h.document, Document.text_parse, Document.size_parse, Text.size_append]
    rw [Text.size_append] at hranges
    exact hranges

namespace ExpandEnv

variable {env : ExpandEnv} {up : List ResourceId} {r child : Resource} {s : Site}

/-- What a run has done before makes no difference to an expansion. -/
theorem exists_expansion (hc : env.cancelAfter = none) (hr : r.IsGlsl)
    (hl : up.length ≤ env.maxDepth) (hclear : env.Clear (up ++ [r.id]) r) :
    ∃ cs, Unfolds env (up ++ [r.id]) r 0 r.content r.document.sites cs ∧
      ∀ p, (env.expand (env.maxDepth - up.length) up r p).1 =
        .ok ⟨.parse glsl (Chunk.textAll cs), .ofChunks cs, !r.document.sites.isEmpty⟩ := by
  have hexpand (p : Progress) : ∃ E, (env.expand (env.maxDepth - up.length) up r p).1 = .ok E ∧
      IsExpansion env (up ++ [r.id]) r E := by
    have hy := yields_expand (p := p) hr (Nat.sub_add_cancel hl)
    rcases hx : (env.expand (env.maxDepth - up.length) up r p).1 with f | E
    · rw [hx] at hy
      exact absurd hc hy
    · rw [hx] at hy
      exact ⟨E, rfl, hy⟩
  obtain ⟨-, -, cs, hcs, -⟩ := hexpand ⟨0, [], []⟩
  have hcs' : Unfolds env ([] ++ (up ++ [r.id])) r 0 r.content r.document.sites cs := hcs
  refine ⟨cs, hcs, fun p => ?_⟩
  obtain ⟨E, hE, ds, hds, rfl⟩ := hexpand p
  rw [hE, hcs'.eq_of_append hclear (.whole r) hds]

/-- If no import of a run leads back or too deep, then each import that is inlined in a resource, at
any depth, is inlined by the output of a run from its target. -/
theorem expand_holds_run {id : ResourceId} {t : Text} {e : Expanded}
    (hc : env.cancelAfter = none) (h : env.run (.parse glsl id t) = .ok e)
    (hd : ∀ d ∈ e.diagnostics, d.problem ≠ .importCycle ∧ d.problem ≠ .depthExceeded)
    (hr : Reached env [id] (.parse glsl id t) (up ++ [r.id]) r) (hs : s ∈ r.document.sites)
    (ht : env.target (up ++ [r.id]) r s = .ok child) :
    ∃ out E, env.run child = .ok out ∧
      (∀ p, (env.expand (env.maxDepth - up.length) up r p).1 = .ok E) ∧
      E.Holds r s child out := by
  have hclear : env.Clear (up ++ [r.id]) r := by
    refine ((Clear.iff_of_run h).2 fun d hmem => ?_).reached hr
    exact not_or.2 (hd d hmem)
  have hglsl : r.IsGlsl := hr.isGlsl (Resource.isGlsl_parse id t)
  have hdepth : (up ++ [r.id]).length ≤ env.maxDepth := (target_eq_ok ht).2.2
  obtain ⟨cs, hcs, hE⟩ := exists_expansion hc hglsl (by simp at hdepth; omega) hclear
  obtain ⟨xs, ds, ys, hparts, hds⟩ := hcs.exists_body hs ht
  have hchild : child.IsGlsl := isGlsl_target hglsl ht
  obtain ⟨out, hout⟩ : ∃ out, env.run child = .ok out := exists_run hchild hc
  obtain ⟨ds', hran⟩ := exists_ran hchild hout
  obtain rfl : ds' = ds := hds.eq_of_append (hclear.child hs ht) (.whole child) hran.unfolds
  exact ⟨out, _, hout, hE, hran.holds hparts⟩

/-- A resource that is imported twice, by the root and by another one. It has an import that leads
nowhere, and no line break at its end. -/
theorem expand_holds_run_shared :
    let root := Resource.parse glsl ⟨"s".toList, "m".toList⟩
      "@import \"b\"\n@import \"a\"\n".toList
    let a := Resource.parse glsl ⟨"s".toList, "a".toList⟩ "float é; @import \"b\"\n".toList
    let b := Resource.parse glsl ⟨"s".toList, "b".toList⟩ "int b; @import \"x\"".toList
    let store : Store := fun i =>
      .ok (if i.path = "a".toList then some a.content
        else if i.path = "b".toList then some b.content else none)
    let env : ExpandEnv := ⟨store, ⟨"s".toList, []⟩, 2, none⟩
    ∃ s ∈ a.document.sites, env.target [root.id, a.id] a s = .ok b ∧
      ∃ out E, env.run b = .ok out ∧ (∀ p, (env.expand 1 [root.id] a p).1 = .ok E) ∧
        E.Holds a s b out := by
  intro root a b store env
  have hglsl {id : ResourceId} {t : Text} : (Resource.parse glsl id t).IsGlsl :=
    Resource.isGlsl_parse id t
  obtain ⟨s', hs', ht'⟩ : ∃ s ∈ root.document.sites, env.target [root.id] root s = .ok a :=
    exists_target hglsl a.id a.content (by decide +kernel)
  obtain ⟨s, hs, ht⟩ : ∃ s ∈ a.document.sites, env.target [root.id, a.id] a s = .ok b :=
    exists_target hglsl b.id b.content (by decide +kernel)
  obtain ⟨e, he⟩ : ∃ e, env.run root = .ok e := exists_run hglsl rfl
  have hclear : env.Clear [root.id] root := Clear.of_allReached 2 (by decide +kernel)
  have hd (d : Diagnostic) (hmem : d ∈ e.diagnostics) :
      d.problem ≠ .importCycle ∧ d.problem ≠ .depthExceeded :=
    not_or.1 ((Clear.iff_of_run he).1 hclear d hmem)
  refine ⟨s, hs, ht, ?_⟩
  exact @expand_holds_run env [root.id] a b s root.id root.content e rfl he hd
    (.step hs' ht' (.refl _ a)) hs ht

end ExpandEnv
end ShaderInline
