import ShaderInline.Expand

/-! # A run step by step

A run is made of steps of which each goes on where the last one stopped, unless
it failed. The steps of an import are to look it up, which may take a load, and
then to report what is wrong with it or to expand what it leads to.
-/

namespace ShaderInline

namespace Step

variable {α β : Type}

def andThen (x : Step α) (k : α → Progress → Step β) : Step β :=
  match x with
  | (.error f, p) => (.error f, p)
  | (.ok a, p) => k a p

@[simp] theorem andThen_error (f : Failure) (p : Progress) (k : α → Progress → Step β) :
    andThen (.error f, p) k = (.error f, p) := rfl

@[simp] theorem andThen_ok (a : α) (p : Progress) (k : α → Progress → Step β) :
    andThen (.ok a, p) k = k a p := rfl

end Step

namespace ExpandEnv

open Step (andThen)

def find (env : ExpandEnv) (r : Resource) (s : Site) : Except Diagnostic Resource :=
  Resource.ofReference env.store env.options r.document.schema (some r.id) s.reference

/-- What a run has done when it has looked up an import. A reference that stands for no resource
takes no load. -/
def looked (env : ExpandEnv) (r : Resource) (s : Site) (p : Progress) : Progress :=
  match Reference.resolve env.options (some r.id) s.reference with
  | .error _ => p
  | .ok _ => { p with loads := p.loads + 1 }

def below (env : ExpandEnv) : (levels : Nat) → Below
  | 0 => none
  | levels + 1 => some (env.expand levels)

variable {env : ExpandEnv} {below : Below} {chain : List ResourceId} {r : Resource} {s : Site}
  {ss : List Site} {p : Progress}

theorem expand_eq (levels : Nat) :
    env.expand levels chain r p = env.expandWith (env.below levels) chain r p := by
  cases levels <;> rfl

theorem inlineSite_eq : env.inlineSite below chain r s p =
    if env.isCancelled p then (.error (.cancelled r.id.display), p)
    else
      match env.find r s with
      | .error d => fail d (env.looked r s p)
      | .ok child => env.inlineChild below chain r.id s child (env.looked r s p) := by
  rw [inlineSite, find, looked, Resource.ofReference]
  split
  next => rfl
  next =>
    cases Reference.resolve env.options (some r.id) s.reference with
    | error d => rfl
    | ok id =>
      dsimp only
      cases env.store.fetch s.reference (some r.id) id <;> rfl

section InlineChild

variable {importer : ResourceId} {child : Resource}

theorem inlineChild_of_mem (hc : child.id ∈ chain) :
    env.inlineChild below chain importer s child p =
    fail ⟨s.reference, .importCycle, cycleMessage (chain ++ [child.id]), some importer⟩ p := by
  unfold inlineChild
  exact if_pos (by simpa using hc)

theorem inlineChild_none (hc : child.id ∉ chain) : env.inlineChild none chain importer s child p =
    fail ⟨s.reference, .depthExceeded, env.depthMessage child.id, some importer⟩ p := by
  unfold inlineChild
  exact if_neg (by simpa using hc)

theorem inlineChild_some {expand : List ResourceId → Resource → Progress → Step Expansion}
    (hc : child.id ∉ chain) : env.inlineChild (some expand) chain importer s child p =
      andThen (expand chain child { p with contents := p.contents.insert child.id child.content })
        fun e p => (.ok (.expanded child.id child.document.size e), p) := by
  rw [inlineChild, if_neg (by simp [hc])]
  rcases expand chain child _ with ⟨f | e, q⟩ <;> rfl

end InlineChild

theorem inlineSites_cons : env.inlineSites below chain r (s :: ss) p =
    andThen (env.inlineSite below chain r s p) fun i p =>
      andThen (env.inlineSites below chain r ss p) fun parts p => (.ok ((s, i) :: parts), p) := by
  rw [inlineSites]
  rcases env.inlineSite below chain r s p with ⟨f | i, q⟩
  · rfl
  · simp only [Step.andThen_ok]
    rcases env.inlineSites below chain r ss q with ⟨f | parts, q'⟩ <;> rfl

theorem expandWith_of_isCancelled (hc : env.isCancelled p = true) :
    env.expandWith below chain r p = (.error (.cancelled r.id.display), p) := by
  rw [expandWith, if_pos hc]

theorem expandWith_nil (hc : env.isCancelled p = false) (hs : r.document.sites = []) :
    env.expandWith below chain r p =
      (.ok ⟨r.document, .identity r.id r.document.size, false⟩, p) := by
  rw [expandWith, if_neg (by simp [hc]), hs]

theorem expandWith_cons (hc : env.isCancelled p = false) (hs : r.document.sites ≠ []) :
    env.expandWith below chain r p =
      andThen (env.inlineSites below (chain ++ [r.id]) r r.document.sites p) fun parts p =>
        (r.inlineAll parts, p) := by
  rw [expandWith, if_neg (by simp [hc])]
  split
  next hnil => exact absurd hnil hs
  next =>
    rcases env.inlineSites below (chain ++ [r.id]) r r.document.sites p with ⟨f | parts, q⟩ <;> rfl

end ExpandEnv
end ShaderInline
