import ShaderInline.Proofs.Edit
import ShaderInline.Proofs.Expand.Sites
import ShaderInline.Proofs.SourceMap

/-! # What a run yields

The expansion of a resource is described by the chunks of its output: its own
text between the imports, the comments that quote them, and for each import the
chunks of its target or a warning. Unless it is cancelled, a run yields the text
of these chunks and their map.
-/

namespace ShaderInline

open Schema Piece

/-- What an import leads to. The chain ends with the importing resource. -/
def ExpandEnv.target (env : ExpandEnv) (chain : List ResourceId) (r : Resource) (s : Site) :
    Except Diagnostic Resource :=
  match Resource.ofReference env.store env.options r.document.schema (some r.id) s.reference with
  | .error d => .error d
  | .ok child =>
    if chain.contains child.id then
      .error ⟨s.reference, .importCycle, cycleMessage (chain ++ [child.id]), some r.id⟩
    else if env.maxDepth < chain.length then
      .error ⟨s.reference, .depthExceeded, env.depthMessage child.id, some r.id⟩
    else .ok child

namespace Chunk

@[simps] def copied (r : Resource) (n : Nat) (t : Text) : Chunk := ⟨t, r.id, n, .verbatim⟩

@[simps] def quote (r : Resource) (s : Site) : Chunk :=
  ⟨Inline.header s, r.id, s.start, .synthetic⟩

@[simps] def warning (r : Resource) (s : Site) (p : Problem) : Chunk :=
  ⟨Inline.warning s p, r.id, s.start, .synthetic⟩

def lineEnd (r : Resource) (t : Text) : List Chunk :=
  if t.getLast? = some '\n' then [] else [⟨['\n'], r.id, Text.size r.content, .synthetic⟩]

theorem textAll_lineEnd (r : Resource) (t : Text) :
    t ++ textAll (lineEnd r t) = Inline.endLine t := by
  unfold lineEnd Inline.endLine
  split <;> simp

end Chunk

/-- The chunks of a resource from an offset on, where the rest of its text and the imports in it
are given. The chain ends with the resource. -/
inductive Unfolds (env : ExpandEnv) :
    List ResourceId → Resource → Nat → Text → List Site → List Chunk → Prop where
  | done {chain : List ResourceId} {r : Resource} {n : Nat} {t : Text} {s : Search} :
      Search.start.run (ofText glsl t) = some s →
      Unfolds env chain r n t [] [.copied r n t]
  | failed {chain : List ResourceId} {r : Resource} {n : Nat} {t rest : Text}
      {gap imp : List Piece} {s : Site} {ss : List Site} {cs : List Chunk} {d : Diagnostic} :
      Split .start t gap imp rest → s = Site.ofPieces (n + Text.size (textAll gap)) imp →
      env.target chain r s = .error d → Unfolds env chain r s.stop rest ss cs →
      Unfolds env chain r n t (s :: ss)
        (.copied r n (textAll gap) :: .quote r s :: .warning r s d.problem :: cs)
  | expanded {chain : List ResourceId} {r child : Resource} {n : Nat} {t rest : Text}
      {gap imp : List Piece} {s : Site} {ss : List Site} {cs ds : List Chunk} :
      Split .start t gap imp rest → s = Site.ofPieces (n + Text.size (textAll gap)) imp →
      env.target chain r s = .ok child →
      Unfolds env (chain ++ [child.id]) child 0 child.content child.document.sites ds →
      Unfolds env chain r s.stop rest ss cs →
      Unfolds env chain r n t (s :: ss)
        (.copied r n (textAll gap) :: .quote r s ::
          (ds ++ (Chunk.lineEnd child (Chunk.textAll ds) ++ cs)))

/-- The resources that are reached from one along imports, with the chains to them. -/
inductive Reached (env : ExpandEnv) :
    List ResourceId → Resource → List ResourceId → Resource → Prop where
  | refl (chain : List ResourceId) (r : Resource) : Reached env chain r chain r
  | step {chain chain' : List ResourceId} {r r' child : Resource} {s : Site} :
      s ∈ r.document.sites → env.target chain r s = .ok child →
      Reached env (chain ++ [child.id]) child chain' r' → Reached env chain r chain' r'

namespace Resource

def IsGlsl (r : Resource) : Prop := r.document = .parse glsl r.content

theorem isGlsl_parse (id : ResourceId) (t : Text) : (parse glsl id t).IsGlsl := rfl

theorem IsGlsl.schema_eq {r : Resource} (h : r.IsGlsl) : r.document.schema = glsl := by rw [h]; rfl

theorem IsGlsl.layout {r : Resource} (h : r.IsGlsl) :
    Layout .start 0 r.content r.document.sites := by
  rw [h]
  exact Document.layout_sites r.content

end Resource

namespace ExpandEnv

variable {env : ExpandEnv} {chain : List ResourceId} {r child : Resource} {s : Site}

theorem target_eq_ok (h : env.target chain r s = .ok child) :
    Resource.ofReference env.store env.options r.document.schema (some r.id) s.reference =
      .ok child ∧ child.id ∉ chain ∧ chain.length ≤ env.maxDepth := by
  rw [target] at h
  split at h
  · cases h
  next c hc =>
    split_ifs at h with h₁ h₂
    obtain rfl := Except.ok.inj h
    exact ⟨hc, by simpa using h₁, by omega⟩

theorem ofReference_eq_ok {schema : Schema} {importer : Option ResourceId} {reference : Text}
    (h : Resource.ofReference env.store env.options schema importer reference = .ok child) :
    child = .parse schema child.id child.content ∧
      env.store child.id = .ok (some child.content) := by
  rw [Resource.ofReference] at h
  split at h
  · cases h
  next id _ =>
    split at h
    · cases h
    next content hc =>
      obtain rfl := Except.ok.inj h
      refine ⟨rfl, ?_⟩
      rw [Store.fetch] at hc
      split at hc <;> simp_all [Resource.parse]

theorem isGlsl_target (hr : r.IsGlsl) (h : env.target chain r s = .ok child) : child.IsGlsl := by
  have hc := (ofReference_eq_ok (target_eq_ok h).1).1
  rw [hr.schema_eq] at hc
  rw [hc]
  rfl

end ExpandEnv

/-! ### No resource borders itself -/

theorem Inline.header_ne_nil (s : Site) : Inline.header s ≠ [] := by simp [Inline.header]

namespace Unfolds

variable {env : ExpandEnv} {chain : List ResourceId} {r : Resource} {n : Nat} {t : Text}
  {ss : List Site} {cs : List Chunk}

theorem not_mem_lineEnd {child : Resource} {u : Text} (h : child.id ∉ chain) :
    ∀ c ∈ Chunk.lineEnd child u, c.resource ∉ chain := by
  unfold Chunk.lineEnd
  split <;> simp [h]

/-- Text of an importing resource comes only from the resource itself. -/
theorem resource_eq (h : Unfolds env chain r n t ss cs) :
    ∀ c ∈ cs, c.resource ∈ chain → c.resource = r.id := by
  induction h with
  | done => simp
  | failed _ _ _ _ ih => simpa using ih
  | @expanded chain r child n t rest gap imp s ss cs ds _ _ ht _ _ ihd ih =>
    have hchild := (ExpandEnv.target_eq_ok ht).2.1
    intro c hc hm
    simp only [List.mem_cons, List.mem_append] at hc
    rcases hc with rfl | rfl | hc | hc | hc
    · rfl
    · rfl
    · have := ihd c hc (List.mem_append_left _ hm)
      exact absurd (this ▸ hm) hchild
    · exact absurd hm (not_mem_lineEnd hchild c hc)
    · exact ih c hc hm

theorem le_start (h : Unfolds env chain r n t ss cs) : ∀ s ∈ ss, n ≤ s.start := by
  induction h with
  | done => simp
  | failed _ hs _ _ ih =>
    subst hs
    rw [List.forall_mem_cons]
    refine ⟨Nat.le_add_right _ _, fun s' hs' => ?_⟩
    have := ih s' hs'
    simp only [Site.ofPieces] at this
    omega
  | expanded _ hs _ _ _ _ ih =>
    subst hs
    rw [List.forall_mem_cons]
    refine ⟨Nat.le_add_right _ _, fun s' hs' => ?_⟩
    have := ih s' hs'
    simp only [Site.ofPieces] at this
    omega

theorem head_eq (h : Unfolds env chain r n t ss cs) :
    ∀ c ∈ (cs.filter (·.text != [])).head?, c.mapping = .verbatim → c.resource = r.id := by
  cases h with
  | done => by_cases ht : t = [] <;> simp [ht]
  | @failed _ _ _ _ _ gap _ s =>
    by_cases hg : textAll gap = [] <;> simp [hg, Inline.header_ne_nil]
  | @expanded _ _ _ _ _ _ gap =>
    by_cases hg : textAll gap = [] <;> simp [hg, Inline.header_ne_nil]

theorem apart (h : Unfolds env chain r n t ss cs) (hr : r.id ∈ chain) : Chunk.Apart cs := by
  have hgap {gap : Text} {r : Resource} {n : Nat} {s : Site} {cs : List Chunk}
      (hcs : Chunk.Apart cs) : Chunk.Apart ([.copied r n gap] ++ .quote r s :: cs) := by
    exact .append (.singleton _) (hcs.cons rfl) (by simp [Inline.header_ne_nil])
  induction h with
  | done => exact .singleton _
  | failed _ _ _ _ ih => exact hgap ((ih hr).cons rfl)
  | @expanded chain r child n t rest gap imp s ss cs ds _ _ ht hd hrest ihd ih =>
    have hchild := (ExpandEnv.target_eq_ok ht).2.1
    refine hgap (.append (ihd (by simp)) ?_ ?_)
    · unfold Chunk.lineEnd
      split
      · exact ih hr
      · exact (ih hr).cons rfl
    · intro c hc d hd' hm
      have hout : c.resource ∉ chain := by
        intro hmem
        have := hd.resource_eq c hc (List.mem_append_left _ hmem)
        exact hchild (this ▸ hmem)
      have hres : d.resource = r.id := by
        unfold Chunk.lineEnd at hd'
        split at hd'
        · exact hrest.head_eq d hd' hm
        · obtain rfl : _ = d := by simpa using hd'
          cases hm
      exact fun he => hout (by rw [he, hres]; exact hr)

end Unfolds

/-! ### From a run to chunks -/

inductive Inlined (env : ExpandEnv) (chain : List ResourceId) (r : Resource) (s : Site) :
    Inline → Prop where
  | failed {d : Diagnostic} : env.target chain r s = .error d →
      Inlined env chain r s (.failed d.problem)
  | expanded {child : Resource} {ds : List Chunk} {b : Bool} : env.target chain r s = .ok child →
      Unfolds env (chain ++ [child.id]) child 0 child.content child.document.sites ds →
      Inlined env chain r s (.expanded child.id (Text.size child.content)
        ⟨.parse glsl (Chunk.textAll ds), .ofChunks ds, b⟩)

namespace Inlined

open SourceMap

variable {env : ExpandEnv} {chain : List ResourceId} {r : Resource} {s : Site} {i : Inline}

theorem exists_chunks (h : Inlined env chain r s i) : ∃ ms : List Chunk,
    i.body s = Chunk.textAll ms ∧
    (∀ bs, Chunk.Apart (bs ++ .quote r s :: ms) →
      i.extendMap r.id s (ofChunks bs) = ofChunks (bs ++ .quote r s :: ms)) ∧
    ∀ {n : Nat} {t rest : Text} {gap imp : List Piece} {ss : List Site} {cs : List Chunk},
      Split .start t gap imp rest → s = Site.ofPieces (n + Text.size (textAll gap)) imp →
      Unfolds env chain r s.stop rest ss cs →
      Unfolds env chain r n t (s :: ss)
        (.copied r n (textAll gap) :: .quote r s :: (ms ++ cs)) := by
  have hquote {bs ms : List Chunk} (hb : Chunk.Apart (bs ++ [.quote r s] ++ ms)) :
      (ofChunks bs).pushSynthetic (Text.size (Inline.header s)) r.id s.start =
        ofChunks (bs ++ [.quote r s]) := push_ofChunks (c := .quote r s) hb.left
  cases h with
  | @failed d ht =>
    refine ⟨[.warning r s d.problem], by simp [Inline.body], fun bs hb => ?_,
      fun hsplit hs hcs => .failed hsplit hs ht hcs⟩
    rw [List.append_cons] at hb ⊢
    rw [Inline.extendMap, hquote hb]
    exact push_ofChunks (c := .warning r s d.problem) hb
  | @expanded child ds b ht hds =>
    refine ⟨ds ++ Chunk.lineEnd child (Chunk.textAll ds), ?_, fun bs hb => ?_,
      fun hsplit hs hcs => by simpa using Unfolds.expanded hsplit hs ht hds hcs⟩
    · rw [Inline.body, Document.text_parse, Chunk.textAll_append, Chunk.textAll_lineEnd]
    · rw [List.append_cons, ← List.append_assoc] at hb ⊢
      rw [Inline.extendMap, hquote hb.left, append_ofChunks hb.left, Document.text_parse]
      unfold Chunk.lineEnd at hb ⊢
      split
      next => rw [List.append_nil]
      next hend =>
        rw [if_neg hend] at hb
        exact push_ofChunks (c := ⟨['\n'], child.id, Text.size child.content, .synthetic⟩) hb

end Inlined

theorem Unfolds.exists_of_inlined {env : ExpandEnv} {chain : List ResourceId} {r : Resource}
    {n : Nat} {t : Text} {ss : List Site} {parts : List (Site × Inline)}
    (hl : Layout .start n t ss) (hs : parts.map (·.1) = ss)
    (hp : ∀ x ∈ parts, Inlined env chain r x.1 x.2) (hn : r.document.size = n + Text.size t) :
    ∃ cs, Unfolds env chain r n t ss cs ∧
      Edit.Swept n t (Resource.inlineEdits parts) (Chunk.textAll cs) ∧
      ∀ bs, Chunk.Apart (bs ++ cs) →
        r.inlineMap n parts (.ofChunks bs) = .ofChunks (bs ++ cs) := by
  generalize hσ : Search.start = σ at hl
  induction hl generalizing parts with
  | @plain σ σ' n t hrun =>
    subst hσ
    obtain rfl : parts = [] := by simpa using hs
    refine ⟨[.copied r n t], .done hrun, by simpa using .done n t, fun bs hbs => ?_⟩
    rw [Resource.inlineMap, hn, Nat.add_sub_cancel_left]
    exact SourceMap.push_ofChunks (c := .copied r n t) hbs
  | @site σ n t rest gap imp ss hsplit _ ih =>
    subst hσ
    obtain ⟨⟨s, i⟩, parts, rfl⟩ :=
      List.exists_cons_of_ne_nil (l := parts) (by rintro rfl; simp at hs)
    obtain ⟨hsite, hs⟩ := List.cons_eq_cons.1 hs
    obtain ⟨hi, hp⟩ := List.forall_mem_cons.1 hp
    obtain ⟨ms, hbody, hextend, hunfold⟩ := hi.exists_chunks
    rw [← hsite]
    have hstart : s.start = n + Text.size (textAll gap) := by rw [show s = _ from hsite]; rfl
    have hstop : s.stop = s.start + Text.size (textAll imp) := by rw [show s = _ from hsite]; rfl
    have ht : t = textAll gap ++ (textAll imp ++ rest) := by simpa using hsplit.cuts.eq_append
    obtain ⟨cs, hcs, hswept, hmap⟩ := ih hs hp
      (by rw [hn, ht, Text.size_append, Text.size_append]; omega) rfl
    rw [← hstart, ← hstop] at hcs hswept hmap
    refine ⟨_, hunfold hsplit hsite hcs, ?_, fun bs hbs => ?_⟩
    · have hnext := Edit.Swept.next (e := .replace s.start s.stop (Inline.header s ++ i.body s))
        hstart hstop hswept
      rw [ht]
      simpa [Resource.inlineEdits, Edit.replace, hbody] using hnext
    · rw [List.append_cons, ← List.cons_append, ← List.append_assoc] at hbs ⊢
      have hgap : (SourceMap.ofChunks bs).pushVerbatim (s.start - n) r.id n =
          .ofChunks (bs ++ [.copied r n (textAll gap)]) := by
        rw [hstart, Nat.add_sub_cancel_left]
        exact SourceMap.push_ofChunks (c := .copied r n (textAll gap)) hbs.left.left
      rw [Resource.inlineMap, hgap, hextend _ hbs.left, hmap _ hbs]

end ShaderInline
