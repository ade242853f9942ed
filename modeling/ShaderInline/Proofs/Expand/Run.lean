import ShaderInline.Proofs.Expand.Unfold

/-! # Runs and their contents

A run fails only by being cancelled. Each resource that it reaches is known by
its content at the end, for a store never changes its mind and nothing is loaded
in place of the root.
-/

namespace ShaderInline

open Schema

theorem Resource.inlineAll_eq {env : ExpandEnv} {chain : List ResourceId} {r : Resource}
    {parts : List (Site × Inline)} (hr : r.IsGlsl) (hchain : r.id ∈ chain)
    (hs : parts.map (·.1) = r.document.sites)
    (hp : ∀ x ∈ parts, Inlined env chain r x.1 x.2) :
    ∃ cs, Unfolds env chain r 0 r.content r.document.sites cs ∧
      r.inlineAll parts = .ok ⟨.parse glsl (Chunk.textAll cs), .ofChunks cs, true⟩ := by
  have hsize : r.document.size = 0 + Text.size r.content := by
    rw [show r.document = _ from hr, Document.size_parse, Nat.zero_add]
  obtain ⟨cs, hcs, hswept, hmap⟩ := Unfolds.exists_of_inlined hr.layout hs hp hsize
  have hcommit : r.document.commit (inlineEdits parts) =
      .ok (.parse glsl (Chunk.textAll cs)) := by
    rw [Document.commit, hr.schema_eq, show r.document = _ from hr, Document.text_parse,
      hswept.apply_eq]
    rfl
  have hmap' : r.inlineMap 0 parts .empty = .ofChunks cs := hmap [] (hcs.apart hchain)
  refine ⟨cs, hcs, ?_⟩
  rw [inlineAll, hcommit]
  simp only [hmap']
  rw [if_pos (by rw [Document.size_parse]; rfl)]

namespace ExpandEnv

variable {env : ExpandEnv} {below : Below} {chain : List ResourceId} {r : Resource} {s : Site}
  {p : Progress}

inductive SiteStep (env : ExpandEnv) (below : Below) (chain : List ResourceId) (r : Resource)
    (s : Site) (p : Progress) : Step Inline → Prop where
  | cancelled {f : Failure} : env.cancelAfter ≠ none → SiteStep env below chain r s p (.error f, p)
  | failed {d : Diagnostic} {p' : Progress} : env.target chain r s = .error d →
      p'.contents = p.contents → p'.diagnostics = p.diagnostics ++ [d] →
      SiteStep env below chain r s p (.ok (.failed d.problem), p')
  | expanded {child : Resource} {p₁ p' : Progress} {e : Expansion}
      {expand : List ResourceId → Resource → Progress → Step Expansion} :
      env.target chain r s = .ok child → below = some expand →
      p₁.contents = p.contents.insert child.id child.content → p₁.diagnostics = p.diagnostics →
      expand chain child p₁ = (.ok e, p') →
      SiteStep env below chain r s p (.ok (.expanded child.id child.document.size e), p')
  | broken {child : Resource} {p₁ p' : Progress} {f : Failure}
      {expand : List ResourceId → Resource → Progress → Step Expansion} :
      env.target chain r s = .ok child → below = some expand →
      expand chain child p₁ = (.error f, p') → SiteStep env below chain r s p (.error f, p')

theorem siteStep_inlineChild {child : Resource} {p₀ : Progress}
    (hb : below = none ↔ env.maxDepth < chain.length) (hp : p₀.contents = p.contents)
    (hd : p₀.diagnostics = p.diagnostics)
    (h : Resource.ofReference env.store env.options r.document.schema (some r.id) s.reference =
      .ok child) :
    SiteStep env below chain r s p (env.inlineChild below chain r.id s child p₀) := by
  have hreport (d : Diagnostic) : (p₀.report d).diagnostics = p.diagnostics ++ [d] := by
    rw [← hd]
    rfl
  unfold inlineChild
  split
  next hc => exact .failed (by rw [target, h]; exact if_pos hc) hp (hreport _)
  next hc =>
    cases below with
    | none =>
      have hdepth := hb.1 rfl
      exact .failed (by rw [target, h]; exact (if_neg hc).trans (if_pos hdepth)) hp (hreport _)
    | some expand =>
      have htarget : env.target chain r s = .ok child := by
        rw [target, h]
        exact (if_neg hc).trans (if_neg fun hlt => by cases hb.2 hlt)
      simp only
      split
      next e p' he =>
        refine .expanded htarget rfl ?_ ?_ he
        · rw [← hp]
        · exact hd
      next f p' hf => exact .broken htarget rfl hf

theorem siteStep_inlineSite (hb : below = none ↔ env.maxDepth < chain.length) :
    SiteStep env below chain r s p (env.inlineSite below chain r s p) := by
  rw [inlineSite]
  split
  next hc => exact .cancelled (by intro hn; simp [isCancelled, hn] at hc)
  next =>
    split
    next d hd => exact .failed (by simp [target, Resource.ofReference, hd]) rfl rfl
    next id hid =>
      simp only
      split
      next d hd => exact .failed (by simp [target, Resource.ofReference, hid, hd]) rfl rfl
      next content hcontent =>
        refine siteStep_inlineChild hb ?_ ?_ ?_
        · rfl
        · rfl
        · simp [Resource.ofReference, hid, hcontent]

/-- A result that satisfies a property, unless the run was cancelled. -/
def Yields {α : Type} (env : ExpandEnv) (P : α → Prop) : Except Failure α → Prop
  | .error _ => env.cancelAfter ≠ none
  | .ok a => P a

/-- The expansion of a resource. The chain ends with it. -/
def IsExpansion (env : ExpandEnv) (chain : List ResourceId) (r : Resource) (e : Expansion) : Prop :=
  ∃ cs, Unfolds env chain r 0 r.content r.document.sites cs ∧
    e = ⟨.parse glsl (Chunk.textAll cs), .ofChunks cs, !r.document.sites.isEmpty⟩

theorem yields_inlineSites {ss : List Site}
    (hs : ∀ s ∈ ss, ∀ p, env.Yields (Inlined env chain r s) (env.inlineSite below chain r s p).1) :
    env.Yields (fun parts => parts.map (·.1) = ss ∧ ∀ x ∈ parts, Inlined env chain r x.1 x.2)
      (env.inlineSites below chain r ss p).1 := by
  induction ss generalizing p with
  | nil => exact ⟨rfl, by simp⟩
  | cons s ss ih =>
    obtain ⟨hs, hss⟩ := List.forall_mem_cons.1 hs
    have hsite := hs p
    rw [inlineSites]
    rcases he : env.inlineSite below chain r s p with ⟨f | i, p₁⟩
    · rw [he] at hsite
      exact hsite
    rw [he] at hsite
    have hrest := @ih p₁ hss
    rcases he' : env.inlineSites below chain r ss p₁ with ⟨f | parts, p₂⟩
    · rw [he'] at hrest
      simp only [he']
      exact hrest
    rw [he'] at hrest
    simp only [he']
    exact ⟨by simp [hrest.1], List.forall_mem_cons.2 ⟨hsite, hrest.2⟩⟩

theorem yields_expandWith (hr : r.IsGlsl) (hs : ∀ s ∈ r.document.sites, ∀ p,
      env.Yields (Inlined env (chain ++ [r.id]) r s)
        (env.inlineSite below (chain ++ [r.id]) r s p).1) :
    env.Yields (IsExpansion env (chain ++ [r.id]) r) (env.expandWith below chain r p).1 := by
  have hparts := yields_inlineSites (p := p) hs
  rw [expandWith]
  split
  next hc => exact fun hn => by simp [isCancelled, hn] at hc
  next =>
    split
    next hn =>
      have hlayout := hr.layout
      rw [hn] at hlayout
      cases hlayout with
      | plain hrun =>
        refine ⟨[.copied r 0 r.content], hn ▸ .done hrun, ?_⟩
        rw [hn, show r.document = _ from hr, Document.size_parse, SourceMap.identity_eq]
        simp [Chunk.copied]
    next sites hne =>
      rcases he : env.inlineSites below (chain ++ [r.id]) r r.document.sites p with ⟨f | parts, p₁⟩
      · rw [he] at hparts
        exact hparts
      · rw [he] at hparts
        obtain ⟨cs, hcs, hall⟩ := Resource.inlineAll_eq hr (by simp) hparts.1 hparts.2
        have hsome : r.document.sites.isEmpty = false := by simpa using hne
        simp only [hall]
        exact ⟨cs, hcs, by rw [hsome, Bool.not_false]⟩

theorem yields_inlineSite (hr : r.IsGlsl) (hb : below = none ↔ env.maxDepth < chain.length)
    (h : ∀ expand, below = some expand → ∀ child p, child.IsGlsl →
      env.Yields (IsExpansion env (chain ++ [child.id]) child) (expand chain child p).1) :
    env.Yields (Inlined env chain r s) (env.inlineSite below chain r s p).1 := by
  have hstep := siteStep_inlineSite (r := r) (s := s) (p := p) hb
  generalize env.inlineSite below chain r s p = x at hstep
  cases hstep with
  | cancelled hc => exact hc
  | failed ht => exact .failed ht
  | @expanded child p₁ p' e expand ht hbelow _ _ he =>
    have hchild := isGlsl_target hr ht
    have hy := h expand hbelow child p₁ hchild
    rw [he] at hy
    obtain ⟨cs, hcs, rfl⟩ := hy
    rw [show child.document = _ from hchild, Document.size_parse]
    exact .expanded ht hcs
  | @broken child p₁ p' f expand ht hbelow he =>
    have hy := h expand hbelow child p₁ (isGlsl_target hr ht)
    rw [he] at hy
    exact hy

/-- A run fails only by being cancelled, and yields what the chunks say otherwise. -/
theorem yields_expand {levels : Nat} (hr : r.IsGlsl) (hl : levels + chain.length = env.maxDepth) :
    env.Yields (IsExpansion env (chain ++ [r.id]) r) (env.expand levels chain r p).1 := by
  induction levels generalizing chain r p with
  | zero =>
    exact yields_expandWith hr fun s _ p => yields_inlineSite hr (by simp; omega) (by simp)
  | succ levels ih =>
    refine yields_expandWith hr fun s _ p => yields_inlineSite hr (by simp; omega) ?_
    intro expand he child p hchild
    obtain rfl := Option.some.inj he
    exact ih hchild (by simp; omega)

/-! ### Progress -/

/-- How a run that succeeds gets on along imports of a resource. The chain ends with it. -/
inductive Visits (env : ExpandEnv) :
    List ResourceId → Resource → List Site → Progress → Progress → Prop where
  | done {chain : List ResourceId} {r : Resource} {p : Progress} : Visits env chain r [] p p
  | failed {chain : List ResourceId} {r : Resource} {s : Site} {ss : List Site} {d : Diagnostic}
      {p p₁ p' : Progress} : env.target chain r s = .error d →
      p₁.contents = p.contents → p₁.diagnostics = p.diagnostics ++ [d] →
      Visits env chain r ss p₁ p' → Visits env chain r (s :: ss) p p'
  | expanded {chain : List ResourceId} {r child : Resource} {s : Site} {ss : List Site}
      {p p₁ p₂ p' : Progress} : env.target chain r s = .ok child →
      p₁.contents = p.contents.insert child.id child.content → p₁.diagnostics = p.diagnostics →
      Visits env (chain ++ [child.id]) child child.document.sites p₁ p₂ →
      Visits env chain r ss p₂ p' → Visits env chain r (s :: ss) p p'

theorem visits_inlineSite (hb : below = none ↔ env.maxDepth < chain.length)
    (h : ∀ expand, below = some expand → ∀ child p e p', expand chain child p = (.ok e, p') →
      Visits env (chain ++ [child.id]) child child.document.sites p p')
    {i : Inline} {ss : List Site} {p₁ p' : Progress}
    (he : env.inlineSite below chain r s p = (.ok i, p₁)) (hv : Visits env chain r ss p₁ p') :
    Visits env chain r (s :: ss) p p' := by
  have hstep := siteStep_inlineSite (r := r) (s := s) (p := p) hb
  rw [he] at hstep
  generalize hx : ((.ok i, p₁) : Step Inline) = x at hstep
  cases hstep with
  | cancelled | broken => cases hx
  | failed ht hc hd =>
    obtain ⟨-, rfl⟩ := Prod.mk.inj hx
    exact .failed ht hc hd hv
  | @expanded child p₀ p₂ e expand ht hbelow hc hd hexp =>
    obtain ⟨-, rfl⟩ := Prod.mk.inj hx
    exact .expanded ht hc hd (h expand hbelow child p₀ e p₁ hexp) hv

theorem visits_inlineSites {ss : List Site} {parts : List (Site × Inline)} {p' : Progress}
    (hb : below = none ↔ env.maxDepth < chain.length)
    (hbelow : ∀ expand, below = some expand → ∀ child p e p', expand chain child p = (.ok e, p') →
      Visits env (chain ++ [child.id]) child child.document.sites p p')
    (h : env.inlineSites below chain r ss p = (.ok parts, p')) : Visits env chain r ss p p' := by
  induction ss generalizing p parts with
  | nil =>
    obtain ⟨-, rfl⟩ := Prod.mk.inj h
    exact .done
  | cons s ss ih =>
    rw [inlineSites] at h
    rcases he : env.inlineSite below chain r s p with ⟨f | i, p₁⟩
    · simp [he] at h
    rcases he' : env.inlineSites below chain r ss p₁ with ⟨f | parts', p₂⟩
    · simp [he, he'] at h
    obtain ⟨-, rfl⟩ := Prod.mk.inj (by simpa only [he, he'] using h)
    exact visits_inlineSite hb hbelow he (ih he')

theorem visits_expandWith {e : Expansion} {p' : Progress}
    (hb : below = none ↔ env.maxDepth < (chain ++ [r.id]).length)
    (h : ∀ expand, below = some expand → ∀ child p e p',
      expand (chain ++ [r.id]) child p = (.ok e, p') →
      Visits env (chain ++ [r.id] ++ [child.id]) child child.document.sites p p')
    (he : env.expandWith below chain r p = (.ok e, p')) :
    Visits env (chain ++ [r.id]) r r.document.sites p p' := by
  rw [expandWith] at he
  split at he
  · cases he
  split at he
  next hn =>
    obtain ⟨-, rfl⟩ := Prod.mk.inj he
    rw [hn]
    exact .done
  next =>
    rcases hx : env.inlineSites below (chain ++ [r.id]) r r.document.sites p with ⟨f | parts, p₁⟩
    · simp [hx] at he
    · obtain ⟨-, rfl⟩ := Prod.mk.inj (by simpa only [hx] using he)
      exact visits_inlineSites hb h hx

theorem visits_expand {levels : Nat} {e : Expansion} {p' : Progress}
    (hl : levels + chain.length = env.maxDepth) (he : env.expand levels chain r p = (.ok e, p')) :
    Visits env (chain ++ [r.id]) r r.document.sites p p' := by
  induction levels generalizing chain r p e p' with
  | zero => exact visits_expandWith (by simp; omega) (by simp) he
  | succ levels ih =>
    refine visits_expandWith (by simp; omega) ?_ he
    intro expand hexp child p e p' he
    obtain rfl := Option.some.inj hexp
    exact ih (by simp; omega) he

end ExpandEnv

/-! ### Contents -/

namespace Contents

variable {c : Contents} {id id' : ResourceId} {t u : Text}

theorem get?_insert (h : c.get? id' = none) :
    (c.insert id' u).get? id = if id' = id then some u else c.get? id := by
  have hnone : (c.find? fun e => e.1 == id') = none := by simpa [get?] using h
  rw [insert, if_neg (by simp [h]), get?, List.find?_append]
  split
  next he => simp [← he, hnone]
  next he => simp [get?, he]

theorem get?_insert_of_some (h : c.get? id = some t) : (c.insert id' u).get? id = some t := by
  cases hn : c.get? id' with
  | some t' => rwa [insert, if_pos (by simp [hn])]
  | none =>
    rw [get?_insert hn, if_neg (by rintro rfl; rw [h] at hn; cases hn), h]

/-- Contents that know the root by its own text and all else by that of the store. -/
structure Sound (env : ExpandEnv) (root : Resource) (c : Contents) : Prop where
  own : c.get? root.id = some root.content
  loaded : ∀ id t, id ≠ root.id → c.get? id = some t → env.store id = .ok (some t)

namespace Sound

variable {env : ExpandEnv} {root child : Resource}

theorem insert (h : Sound env root c) (hne : child.id ≠ root.id)
    (hs : env.store child.id = .ok (some child.content)) :
    Sound env root (c.insert child.id child.content) ∧
      (c.insert child.id child.content).get? child.id = some child.content := by
  cases hn : c.get? child.id with
  | some t =>
    have hc : c.insert child.id child.content = c := by rw [Contents.insert, if_pos (by simp [hn])]
    have ht := h.loaded child.id t hne hn
    rw [hs] at ht
    obtain rfl : child.content = t := by simpa using ht
    rw [hc]
    exact ⟨h, hn⟩
  | none =>
    refine ⟨⟨get?_insert_of_some h.own, fun id t hid hget => ?_⟩, by simp [get?_insert hn]⟩
    rw [get?_insert hn] at hget
    split at hget
    next he =>
      obtain rfl := Option.some.inj hget
      rw [← he, hs]
    next => exact h.loaded id t hid hget

end Sound
end Contents

namespace ExpandEnv

open Contents

variable {env : ExpandEnv} {root r : Resource} {chain : List ResourceId} {ss : List Site}
  {p p' : Progress}

structure Grown (env : ExpandEnv) (root : Resource) (P : Resource → Prop) (c c' : Contents) :
    Prop where
  sound : Sound env root c'
  keeps : ∀ id t, c.get? id = some t → c'.get? id = some t
  knows : ∀ r, P r → c'.get? r.id = some r.content

/-- The resources that an import leads to, directly or through others. -/
def Under (env : ExpandEnv) (chain : List ResourceId) (r : Resource) (s : Site) (r' : Resource) :
    Prop :=
  ∃ child chain', env.target chain r s = .ok child ∧
    Reached env (chain ++ [child.id]) child chain' r'

theorem Visits.grown (h : Visits env chain r ss p p') (hroot : root.id ∈ chain)
    (hp : Sound env root p.contents) :
    Grown env root (fun r' => ∃ s ∈ ss, env.Under chain r s r') p.contents p'.contents := by
  induction h with
  | done => exact ⟨hp, fun _ _ => id, by simp⟩
  | @failed chain r s ss d p p₁ p' ht hc _ _ ih =>
    rw [← hc] at hp ⊢
    have hg := ih hroot hp
    refine ⟨hg.sound, hg.keeps, ?_⟩
    rintro r' ⟨s', hs', hr'⟩
    rcases List.mem_cons.1 hs' with rfl | hs'
    · obtain ⟨child, chain', ht', -⟩ := hr'
      rw [ht] at ht'
      cases ht'
    · exact hg.knows r' ⟨s', hs', hr'⟩
  | @expanded chain r child s ss p p₁ p₂ p' ht hc _ _ _ ihd ih =>
    obtain ⟨href, hnew, -⟩ := target_eq_ok ht
    have hne : child.id ≠ root.id := fun heq => hnew (heq ▸ hroot)
    obtain ⟨hsound, hself⟩ := hp.insert hne (ofReference_eq_ok href).2
    rw [← hc] at hsound hself
    have h₁ := ihd (List.mem_append_left _ hroot) hsound
    have h₂ := ih hroot h₁.sound
    refine ⟨h₂.sound, fun id t hid => h₂.keeps id t (h₁.keeps id t ?_), ?_⟩
    · rw [hc]
      exact get?_insert_of_some hid
    rintro r' ⟨s', hs', hr'⟩
    rcases List.mem_cons.1 hs' with rfl | hs'
    · obtain ⟨child', chain', ht', hreach⟩ := hr'
      obtain rfl := Except.ok.inj (ht.symm.trans ht')
      apply h₂.keeps
      cases hreach with
      | refl => exact h₁.keeps _ _ hself
      | step hmem ht hreach => exact h₁.knows r' ⟨_, hmem, _, _, ht, hreach⟩
    · exact h₂.knows r' ⟨s', hs', hr'⟩

end ExpandEnv

/-! ### Whole runs -/

/-- What a run from a root has yielded, by the chunks of its output. -/
structure Ran (env : ExpandEnv) (root : Resource) (e : Expanded) (cs : List Chunk) : Prop where
  unfolds : Unfolds env [root.id] root 0 root.content root.document.sites cs
  document : e.document = .parse glsl (Chunk.textAll cs)
  hadImports : e.hadImports = !root.document.sites.isEmpty
  map : e.map = if e.hadImports then some (.ofChunks cs) else none
  known : ∀ chain r, Reached env [root.id] root chain r → e.contents.get? r.id = some r.content

namespace ExpandEnv

variable {env : ExpandEnv} {root : Resource}

theorem yields_trace (hr : root.IsGlsl) :
    env.Yields (IsExpansion env [root.id] root) (env.trace root).1 :=
  yields_expand hr (Nat.add_zero _)

theorem exists_ran {e : Expanded} (hr : root.IsGlsl) (h : env.run root = .ok e) :
    ∃ cs, Ran env root e cs := by
  have hy : env.Yields (IsExpansion env [root.id] root) (env.trace root).1 := yields_trace hr
  rw [run] at h
  rcases ht : env.trace root with ⟨f | x, p⟩
  · simp [ht] at h
  rw [ht] at hy
  obtain ⟨cs, hcs, rfl⟩ := hy
  obtain rfl := Except.ok.inj (by simpa only [ht] using h)
  have hstart : Contents.Sound env root [(root.id, root.content)] := by
    refine ⟨by simp [Contents.get?], fun id t hid hget => ?_⟩
    simp [Contents.get?, Ne.symm hid] at hget
  have hv : Visits env [root.id] root root.document.sites _ p := visits_expand (Nat.add_zero _) ht
  have hg := hv.grown (by simp) hstart
  refine ⟨cs, hcs, rfl, rfl, rfl, fun chain r hreach => ?_⟩
  cases hreach with
  | refl => exact hg.keeps _ _ hstart.own
  | step hmem ht hreach => exact hg.knows r ⟨_, hmem, _, _, ht, hreach⟩

theorem exists_run (hr : root.IsGlsl) (hc : env.cancelAfter = none) :
    ∃ e, env.run root = .ok e := by
  have hy : env.Yields (IsExpansion env [root.id] root) (env.trace root).1 := yields_trace hr
  rw [run]
  rcases ht : env.trace root with ⟨f | x, p⟩
  · rw [ht] at hy
    exact absurd hc hy
  · exact ⟨_, rfl⟩

end ExpandEnv
end ShaderInline
