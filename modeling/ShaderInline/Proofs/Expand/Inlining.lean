import ShaderInline.Proofs.Expand.Provenance

/-! # Inlining by concatenation

A resource with its imports inlined can be written down directly: its text with
each import exchanged for the comment that quotes it and for the text of its
target or a warning. A run edits documents and carries its progress along all
chains of imports. It yields the same text, and reports the imports that fail in
the order in which this recursion meets them.
-/

namespace ShaderInline

open Schema Piece

def Resource.exchange (r : Resource) (f : Site → Text) : (cursor : Nat) → List Site → Text
  | cursor, [] => Text.dropBytes cursor r.content
  | cursor, s :: ss =>
    Text.takeBytes (s.start - cursor) (Text.dropBytes cursor r.content) ++
      (f s ++ r.exchange f s.stop ss)

namespace ExpandEnv

variable {env : ExpandEnv} {chain : List ResourceId} {r child : Resource} {s : Site}

theorem depth_target (h : env.target (chain ++ [r.id]) r s = .ok child) :
    env.maxDepth + 1 - (chain ++ [r.id]).length < env.maxDepth + 1 - chain.length := by
  have := (target_eq_ok h).2.2
  rw [List.length_append, List.length_singleton] at this ⊢
  omega

/-- A resource with its imports inlined. The chain leads from the root to its importer. -/
def inlined (env : ExpandEnv) (chain : List ResourceId) (r : Resource) : Text :=
  r.exchange (fun s => Inline.header s ++
    match _h : env.target (chain ++ [r.id]) r s with
    | .error d => Inline.warning s d.problem
    | .ok child => Inline.endLine (env.inlined (chain ++ [r.id]) child)) 0 r.document.sites
termination_by env.maxDepth + 1 - chain.length
decreasing_by exact depth_target _h

/-- The failures of the imports of a resource from left to right. One that leads to a resource has
those of its imports. -/
def failures (env : ExpandEnv) (chain : List ResourceId) (r : Resource) : List Diagnostic :=
  r.document.sites.flatMap fun s =>
    match _h : env.target (chain ++ [r.id]) r s with
    | .error d => [d]
    | .ok child => env.failures (chain ++ [r.id]) child
termination_by env.maxDepth + 1 - chain.length
decreasing_by exact depth_target _h

/-- What an import is exchanged for. The chain ends with the importing resource. -/
def replacement (env : ExpandEnv) (chain : List ResourceId) (r : Resource) (s : Site) : Text :=
  Inline.header s ++
    match env.target chain r s with
    | .error d => Inline.warning s d.problem
    | .ok child => Inline.endLine (env.inlined chain child)

def siteFailures (env : ExpandEnv) (chain : List ResourceId) (r : Resource) (s : Site) :
    List Diagnostic :=
  match env.target chain r s with
  | .error d => [d]
  | .ok child => env.failures chain child

theorem replacement_error {d : Diagnostic} (h : env.target chain r s = .error d) :
    env.replacement chain r s = Inline.header s ++ Inline.warning s d.problem := by
  rw [replacement, h]

theorem replacement_ok (h : env.target chain r s = .ok child) :
    env.replacement chain r s = Inline.header s ++ Inline.endLine (env.inlined chain child) := by
  rw [replacement, h]

theorem siteFailures_error {d : Diagnostic} (h : env.target chain r s = .error d) :
    env.siteFailures chain r s = [d] := by
  rw [siteFailures, h]

theorem siteFailures_ok (h : env.target chain r s = .ok child) :
    env.siteFailures chain r s = env.failures chain child := by
  rw [siteFailures, h]

theorem inlined_eq (env : ExpandEnv) (chain : List ResourceId) (r : Resource) :
    env.inlined chain r =
      r.exchange (env.replacement (chain ++ [r.id]) r) 0 r.document.sites := by
  rw [inlined]
  congr 1
  funext s
  rw [replacement]
  split <;> simp_all

theorem failures_eq (env : ExpandEnv) (chain : List ResourceId) (r : Resource) :
    env.failures chain r =
      r.document.sites.flatMap (env.siteFailures (chain ++ [r.id]) r) := by
  rw [failures]
  congr 1
  funext s
  rw [siteFailures]
  split <;> simp_all

theorem mem_failures_iff {d : Diagnostic} : d ∈ env.failures chain r ↔
    ∃ chain' r' s, Reached env (chain ++ [r.id]) r chain' r' ∧ s ∈ r'.document.sites ∧
      env.target chain' r' s = .error d := by
  constructor
  · intro h
    induction hn : env.maxDepth + 1 - chain.length using Nat.strongRecOn generalizing chain r with
    | ind n ih =>
      rw [failures_eq] at h
      obtain ⟨s, hs, hd⟩ := List.mem_flatMap.1 h
      cases ht : env.target (chain ++ [r.id]) r s with
      | error d' =>
        rw [siteFailures_error ht] at hd
        obtain rfl := List.mem_singleton.1 hd
        exact ⟨_, r, s, .refl _ r, hs, ht⟩
      | ok child =>
        rw [siteFailures_ok ht] at hd
        obtain ⟨chain', r', s', hreach, hs', ht'⟩ := ih _ (hn ▸ depth_target ht) hd rfl
        exact ⟨chain', r', s', .step hs ht hreach, hs', ht'⟩
  · rintro ⟨chain', r', s, hreach, hs, ht⟩
    generalize hup : chain ++ [r.id] = up at hreach
    induction hreach generalizing chain with
    | refl up r =>
      subst hup
      rw [failures_eq]
      exact List.mem_flatMap.2 ⟨s, hs, by simp [siteFailures_error ht]⟩
    | @step up chain' r r' child s' hs' ht' _ ih =>
      subst hup
      rw [failures_eq]
      refine List.mem_flatMap.2 ⟨s', hs', ?_⟩
      rw [siteFailures_ok ht']
      exact ih hs ht rfl

end ExpandEnv

/-- The chunks of a resource put together are its text with the imports exchanged. -/
theorem Unfolds.textAll_eq {env : ExpandEnv} {chain : List ResourceId} {r : Resource} {n : Nat}
    {t : Text} {ss : List Site} {cs : List Chunk} (h : Unfolds env chain r n t ss cs)
    (hrest : Rest r n t ss) : Chunk.textAll cs = r.exchange (env.replacement chain r) n ss := by
  -- An import takes off the text before it, and the rest starts at its end.
  have hcons {r : Resource} {n : Nat} {t rest : Text} {gap imp : List Piece} {s : Site}
      {ss : List Site} (f : Site → Text) (hrest : Rest r n t (s :: ss))
      (hsplit : Split .start t gap imp rest)
      (hs : s = Site.ofPieces (n + Text.size (textAll gap)) imp) :
      r.exchange f n (s :: ss) = textAll gap ++ (f s ++ r.exchange f s.stop ss) := by
    obtain ⟨a, hc, rfl, hstart, -⟩ := hrest.locate hsplit hs
    rw [Resource.exchange, hc, Text.dropBytes_size_append, ← hstart, Text.size_append,
      Nat.add_sub_cancel_left, Text.takeBytes_size_append]
  induction h with
  | done =>
    obtain ⟨a, hc, rfl⟩ := hrest.content
    rw [Resource.exchange, hc, Text.dropBytes_size_append]
    simp
  | @failed chain r n t rest gap imp s ss cs d hsplit hs ht _ ih =>
    rw [hcons _ hrest hsplit hs, ← ih (hrest.after hsplit hs), ExpandEnv.replacement_error ht]
    simp
  | @expanded chain r child n t rest gap imp s ss cs ds hsplit hs ht _ _ ihd ih =>
    have hchild : Chunk.textAll ds = env.inlined chain child := by
      rw [ihd (.whole child), ExpandEnv.inlined_eq]
    rw [hcons _ hrest hsplit hs, ← ih (hrest.after hsplit hs), ExpandEnv.replacement_ok ht,
      ← hchild, ← Chunk.textAll_lineEnd child]
    simp

namespace ExpandEnv

variable {env : ExpandEnv} {chain : List ResourceId} {r : Resource} {ss : List Site}
  {p p' : Progress}

theorem Visits.diagnostics_eq (h : Visits env chain r ss p p') :
    p'.diagnostics = p.diagnostics ++ ss.flatMap (env.siteFailures chain r) := by
  induction h with
  | done => simp
  | failed ht _ hd _ ih =>
    rw [ih, hd, List.flatMap_cons, siteFailures_error ht, List.append_assoc]
  | expanded ht _ hd _ _ ihd ih =>
    rw [ih, ihd, hd, List.flatMap_cons, siteFailures_ok ht, failures_eq, List.append_assoc]

theorem diagnostics_of_run {root : Resource} {e : Expanded} (h : env.run root = .ok e) :
    e.diagnostics = env.failures [] root := by
  rw [run] at h
  rcases ht : env.trace root with ⟨f | x, p⟩
  · simp [ht] at h
  obtain rfl := Except.ok.inj (by simpa only [ht] using h)
  have hv : Visits env [root.id] root root.document.sites _ p := visits_expand (Nat.add_zero _) ht
  rw [failures_eq]
  exact hv.diagnostics_eq

end ExpandEnv
end ShaderInline
