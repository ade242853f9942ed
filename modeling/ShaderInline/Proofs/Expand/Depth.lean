import Mathlib
import ShaderInline.Proofs.Expand.Unfold
import ShaderInline.Proofs.Expand.Step

/-! # The limit of depth

A run can log the imports that it comes to, with the resources above each and
what took its place. The log tells how deep a resource is inlined: never deeper
than the limit allows, and what is reported to exceed it are imports of resources
right at the limit. A run that never comes to its limit is the same with any
higher one.
-/

namespace ShaderInline

/-- An import that a run came to: the resources from the root down to above the importing one, and
the resource that was inlined or what was reported. -/
structure Visit where
  above : List ResourceId
  importer : Resource
  site : Site
  outcome : Except Diagnostic Resource

namespace Visit

def chain (v : Visit) : List ResourceId := v.above ++ [v.importer.id]

def reported? (v : Visit) : Option Diagnostic :=
  match v.outcome with
  | .ok _ => none
  | .error d => some d

theorem reported?_eq_some {v : Visit} {d : Diagnostic} :
    v.reported? = some d ↔ v.outcome = .error d := by
  unfold reported?
  cases v.outcome with
  | ok child => simp
  | error d' => simp

/-- Add the resource that was inlined to contents. -/
def addTo (c : Contents) (v : Visit) : Contents :=
  match v.outcome with
  | .ok child => c.insert child.id child.content
  | .error _ => c

end Visit

/-- The outcome of a step of a run, and the imports that it came to. -/
abbrev Logged (α : Type) := Step α × List Visit

namespace Logged

variable {α β : Type}

def silent (x : Step α) : Logged α := (x, [])

def note (v : Visit) (x : Logged α) : Logged α := (x.1, v :: x.2)

def andThen (x : Logged α) (k : α → Progress → Logged β) : Logged β :=
  match x with
  | ((.error f, p), vs) => ((.error f, p), vs)
  | ((.ok a, p), vs) => ((k a p).1, vs ++ (k a p).2)

@[simp] theorem fst_silent (x : Step α) : (silent x).1 = x := rfl
@[simp] theorem fst_note (v : Visit) (x : Logged α) : (note v x).1 = x.1 := rfl
@[simp] theorem fst_andThen (x : Logged α) (k : α → Progress → Logged β) :
    (andThen x k).1 = Step.andThen x.1 fun a p => (k a p).1 := by
  rcases x with ⟨⟨f | a, p⟩, vs⟩ <;> rfl

end Logged

namespace ExpandEnv

/-- How a resource below others is expanded, with a log; `none` where the limit of depth is
reached. -/
abbrev LoggedBelow := Option (List ResourceId → Resource → Progress → Logged Expansion)

def loggedFail (above : List ResourceId) (r : Resource) (s : Site) (d : Diagnostic) (p : Progress) :
    Logged Inline :=
  .note ⟨above, r, s, .error d⟩ (.silent (fail d p))

def loggedChild (env : ExpandEnv) (below : LoggedBelow) (above : List ResourceId) (r : Resource)
    (s : Site) (child : Resource) (p : Progress) : Logged Inline :=
  if child.id ∈ above ++ [r.id] then
    loggedFail above r s ⟨s.reference, .importCycle,
      cycleMessage (above ++ [r.id] ++ [child.id]), some r.id⟩ p
  else
    match below with
    | none =>
      loggedFail above r s ⟨s.reference, .depthExceeded, env.depthMessage child.id, some r.id⟩ p
    | some expand =>
      .note ⟨above, r, s, .ok child⟩
        ((expand (above ++ [r.id]) child
            { p with contents := p.contents.insert child.id child.content }).andThen
          fun e p => .silent (.ok (.expanded child.id child.document.size e), p))

def loggedSite (env : ExpandEnv) (below : LoggedBelow) (above : List ResourceId) (r : Resource)
    (s : Site) (p : Progress) : Logged Inline :=
  if env.isCancelled p then .silent (.error (.cancelled r.id.display), p)
  else
    match env.find r s with
    | .error d => loggedFail above r s d (env.looked r s p)
    | .ok child => env.loggedChild below above r s child (env.looked r s p)

def loggedSites (env : ExpandEnv) (below : LoggedBelow) (above : List ResourceId) (r : Resource) :
    List Site → Progress → Logged (List (Site × Inline))
  | [], p => .silent (.ok [], p)
  | s :: ss, p =>
    (env.loggedSite below above r s p).andThen fun i p =>
      (loggedSites env below above r ss p).andThen fun parts p =>
        .silent (.ok ((s, i) :: parts), p)

def loggedWith (env : ExpandEnv) (below : LoggedBelow) (above : List ResourceId) (r : Resource)
    (p : Progress) : Logged Expansion :=
  if env.isCancelled p then .silent (.error (.cancelled r.id.display), p)
  else if r.document.sites = [] then
    .silent (.ok ⟨r.document, .identity r.id r.document.size, false⟩, p)
  else
    (env.loggedSites below above r r.document.sites p).andThen fun parts p =>
      .silent (r.inlineAll parts, p)

def loggedExpand (env : ExpandEnv) :
    (levels : Nat) → List ResourceId → Resource → Progress → Logged Expansion
  | 0, above, r, p => env.loggedWith none above r p
  | levels + 1, above, r, p => env.loggedWith (some (env.loggedExpand levels)) above r p

/-- A run from a root, with the imports that it comes to. -/
def logged (env : ExpandEnv) (root : Resource) : Logged Expansion :=
  env.loggedExpand env.maxDepth [] root ⟨0, [], [(root.id, root.content)]⟩

def loggedBelow (env : ExpandEnv) : (levels : Nat) → LoggedBelow
  | 0 => none
  | levels + 1 => some (env.loggedExpand levels)

variable {env : ExpandEnv} {levels : Nat} {above : List ResourceId} {r child : Resource} {s : Site}
  {ss : List Site} {p : Progress}

theorem loggedExpand_eq (levels : Nat) : env.loggedExpand levels above r p =
    env.loggedWith (env.loggedBelow levels) above r p := by
  cases levels <;> rfl

/-! ### The log of a run -/

section Erase

def ErasesBelow (env : ExpandEnv) (levels : Nat) : Prop :=
  ∀ l, levels = l + 1 → ∀ above r p, (env.loggedExpand l above r p).1 = env.expand l above r p

theorem fst_loggedChild (ih : env.ErasesBelow levels) :
    (env.loggedChild (env.loggedBelow levels) above r s child p).1 =
      env.inlineChild (env.below levels) (above ++ [r.id]) r.id s child p := by
  unfold loggedChild
  split
  next hc => rw [inlineChild_of_mem hc]; rfl
  next hc =>
    cases levels with
    | zero => rw [below, inlineChild_none hc]; rfl
    | succ l =>
      rw [below, inlineChild_some hc, ← ih l rfl]
      exact Logged.fst_andThen _ _

theorem fst_loggedSite (ih : env.ErasesBelow levels) :
    (env.loggedSite (env.loggedBelow levels) above r s p).1 =
      env.inlineSite (env.below levels) (above ++ [r.id]) r s p := by
  rw [inlineSite_eq, loggedSite]
  split
  · rfl
  cases env.find r s with
  | error d => rfl
  | ok child => exact fst_loggedChild ih

theorem fst_loggedSites (ih : env.ErasesBelow levels) :
    (env.loggedSites (env.loggedBelow levels) above r ss p).1 =
      env.inlineSites (env.below levels) (above ++ [r.id]) r ss p := by
  induction ss generalizing p with
  | nil => rfl
  | cons s ss ihs =>
    rw [inlineSites_cons, loggedSites, Logged.fst_andThen, fst_loggedSite ih]
    congr 1
    funext i q
    rw [Logged.fst_andThen, ihs]
    rfl

theorem fst_loggedWith (ih : env.ErasesBelow levels) :
    (env.loggedWith (env.loggedBelow levels) above r p).1 =
      env.expandWith (env.below levels) above r p := by
  rw [loggedWith]
  split
  next hc => rw [expandWith_of_isCancelled hc]; rfl
  next hc =>
    have hc : env.isCancelled p = false := by simpa using hc
    split
    next hs => rw [expandWith_nil hc hs]; rfl
    next hs =>
      rw [expandWith_cons hc hs, Logged.fst_andThen, fst_loggedSites ih]
      rfl

theorem fst_loggedExpand : (env.loggedExpand levels above r p).1 = env.expand levels above r p := by
  induction levels generalizing above r p with
  | zero =>
    rw [loggedExpand_eq, expand_eq]
    exact fst_loggedWith fun l hl => by cases hl
  | succ levels ih =>
    rw [loggedExpand_eq, expand_eq]
    refine fst_loggedWith fun l hl above r p => ?_
    obtain rfl := Nat.succ.inj hl
    exact ih

theorem fst_logged (env : ExpandEnv) (root : Resource) : (env.logged root).1 = env.trace root :=
  fst_loggedExpand

end Erase

end ExpandEnv

namespace Logged

variable {α β : Type} {env : ExpandEnv} {above : List ResourceId} {r child : Resource} {s : Site}
  {ss ss' : List Site} {p : Progress} {x : Logged α} {k : α → Progress → Logged β}

/-- Whether the log of a step says what it does. It reports what the log says and adds what is
inlined to the contents. The imports that it comes to are those of a resource or of one that is
inlined, each with what it leads to, and unless it fails it comes to all of them. -/
structure Faithful (env : ExpandEnv) (above : List ResourceId) (r : Resource) (ss : List Site)
    (p : Progress) (x : Logged α) : Prop where
  diagnostics : x.1.2.diagnostics = p.diagnostics ++ x.2.filterMap Visit.reported?
  contents : x.1.2.contents = x.2.foldl Visit.addTo p.contents
  outcome : ∀ v ∈ x.2, v.outcome = env.target v.chain v.importer v.site
  site_mem : ∀ v ∈ x.2, v.site ∈ v.importer.document.sites
  inlined : ∀ v ∈ x.2, v.above = above ∧ v.importer = r ∨
    ∃ w ∈ x.2, w.outcome = .ok v.importer ∧ v.above = w.chain
  sites : ∀ a, x.1.1 = .ok a → ∀ s ∈ ss, ∃ v ∈ x.2, v.above = above ∧ v.importer = r ∧ v.site = s
  below : ∀ a, x.1.1 = .ok a → ∀ v ∈ x.2, ∀ child, v.outcome = .ok child →
    ∀ s ∈ child.document.sites, ∃ w ∈ x.2, w.above = v.chain ∧ w.importer = child ∧ w.site = s

namespace Faithful

theorem silent (e : Except Failure α) : Faithful env above r [] p (Logged.silent (e, p)) := by
  constructor <;> simp [Logged.silent]

theorem error (f : Failure) :
    Faithful env above r ss p (Logged.silent ((.error f, p) : Step α)) := by
  constructor <;> simp [Logged.silent]

theorem looked (h : Faithful env above r ss (env.looked r s p) x) :
    Faithful env above r ss p x := by
  have hp : (env.looked r s p).diagnostics = p.diagnostics ∧
      (env.looked r s p).contents = p.contents := by
    unfold ExpandEnv.looked
    split
    · exact ⟨rfl, rfl⟩
    · exact ⟨rfl, rfl⟩
  exact { h with diagnostics := hp.1 ▸ h.diagnostics, contents := hp.2 ▸ h.contents }

theorem fail {d : Diagnostic} (hs : s ∈ r.document.sites)
    (ht : env.target (above ++ [r.id]) r s = .error d) :
    Faithful env above r [s] p (ExpandEnv.loggedFail above r s d p) where
  diagnostics := rfl
  contents := rfl
  outcome := List.forall_mem_singleton.2 ht.symm
  site_mem := List.forall_mem_singleton.2 hs
  inlined := List.forall_mem_singleton.2 (.inl ⟨rfl, rfl⟩)
  sites _ _ := List.forall_mem_singleton.2 ⟨_, List.mem_singleton_self _, rfl, rfl, rfl⟩
  below _ _ := List.forall_mem_singleton.2 fun c hc => by cases hc

theorem note (hs : s ∈ r.document.sites) (ht : env.target (above ++ [r.id]) r s = .ok child)
    (hx : Faithful env (above ++ [r.id]) child child.document.sites
      { p with contents := p.contents.insert child.id child.content } x) :
    Faithful env above r [s] p (Logged.note ⟨above, r, s, .ok child⟩ x) where
  diagnostics := hx.diagnostics
  contents := hx.contents
  outcome := List.forall_mem_cons.2 ⟨ht.symm, hx.outcome⟩
  site_mem := List.forall_mem_cons.2 ⟨hs, hx.site_mem⟩
  inlined := by
    refine List.forall_mem_cons.2 ⟨.inl ⟨rfl, rfl⟩, fun v hv => .inr ?_⟩
    obtain ⟨habove, rfl⟩ | ⟨w, hw, hout, habove⟩ := hx.inlined v hv
    · exact ⟨_, List.mem_cons_self, rfl, habove⟩
    · exact ⟨w, List.mem_cons_of_mem _ hw, hout, habove⟩
  sites _ _ := List.forall_mem_singleton.2 ⟨_, List.mem_cons_self, rfl, rfl, rfl⟩
  below a ha := by
    refine List.forall_mem_cons.2 ⟨fun c hc s' hs' => ?_, fun v hv c hc s' hs' => ?_⟩
    · obtain rfl := Except.ok.inj hc
      obtain ⟨w, hw, h⟩ := hx.sites a ha s' hs'
      exact ⟨w, List.mem_cons_of_mem _ hw, h⟩
    · obtain ⟨w, hw, h⟩ := hx.below a ha v hv c hc s' hs'
      exact ⟨w, List.mem_cons_of_mem _ hw, h⟩

theorem andThen (hx : Faithful env above r ss p x)
    (hk : ∀ a q, Faithful env above r ss' q (k a q)) :
    Faithful env above r (ss ++ ss') p (Logged.andThen x k) := by
  rcases x with ⟨⟨f | a, q⟩, vs⟩
  · refine ⟨hx.diagnostics, hx.contents, hx.outcome, hx.site_mem, hx.inlined, ?_, ?_⟩
    · intro b hb
      cases hb
    · intro b hb
      cases hb
  have hk := hk a q
  have hleft {P : Visit → Prop} (h : ∃ w ∈ vs, P w) : ∃ w ∈ vs ++ (k a q).2, P w :=
    h.imp fun w hw => ⟨List.mem_append_left _ hw.1, hw.2⟩
  have hright {P : Visit → Prop} (h : ∃ w ∈ (k a q).2, P w) : ∃ w ∈ vs ++ (k a q).2, P w :=
    h.imp fun w hw => ⟨List.mem_append_right _ hw.1, hw.2⟩
  constructor
  · rw [Logged.andThen, hk.diagnostics, hx.diagnostics, List.filterMap_append, List.append_assoc]
  · rw [Logged.andThen, hk.contents, hx.contents, List.foldl_append]
  · exact List.forall_mem_append.2 ⟨hx.outcome, hk.outcome⟩
  · exact List.forall_mem_append.2 ⟨hx.site_mem, hk.site_mem⟩
  · exact List.forall_mem_append.2
      ⟨fun v hv => (hx.inlined v hv).imp_right hleft,
        fun v hv => (hk.inlined v hv).imp_right hright⟩
  · intro b hb
    exact List.forall_mem_append.2
      ⟨fun s hs => hleft (hx.sites a rfl s hs), fun s hs => hright (hk.sites b hb s hs)⟩
  · intro b hb
    exact List.forall_mem_append.2
      ⟨fun v hv c hc s hs => hleft (hx.below a rfl v hv c hc s hs),
        fun v hv c hc s hs => hright (hk.below b hb v hv c hc s hs)⟩

end Faithful
end Logged

namespace ExpandEnv

open Logged (Faithful)

variable {env : ExpandEnv} {levels : Nat} {chain above : List ResourceId} {r child : Resource}
  {s : Site} {ss : List Site} {p : Progress} {d : Diagnostic}

theorem target_of_find_error (hfind : env.find r s = .error d) :
    env.target chain r s = .error d := by
  rw [find] at hfind
  rw [target, hfind]

theorem target_of_find_ok (hfind : env.find r s = .ok child) : env.target chain r s =
    if child.id ∈ chain then
      .error ⟨s.reference, .importCycle, cycleMessage (chain ++ [child.id]), some r.id⟩
    else if env.maxDepth < chain.length then
      .error ⟨s.reference, .depthExceeded, env.depthMessage child.id, some r.id⟩
    else .ok child := by
  rw [find] at hfind
  rw [target, hfind]
  simp only [List.contains_iff_mem]

section Faithful

def FaithfulBelow (env : ExpandEnv) (levels : Nat) : Prop :=
  ∀ l, levels = l + 1 → ∀ above r p, l + above.length = env.maxDepth →
    Faithful env above r r.document.sites p (env.loggedExpand l above r p)

theorem faithful_loggedChild (ih : env.FaithfulBelow levels)
    (hl : levels + above.length = env.maxDepth) (hs : s ∈ r.document.sites)
    (hfind : env.find r s = .ok child) :
    Faithful env above r [s] p (env.loggedChild (env.loggedBelow levels) above r s child p) := by
  have htarget : env.target (above ++ [r.id]) r s = _ := target_of_find_ok hfind
  unfold loggedChild
  split
  next hc => exact .fail hs (by rw [htarget, if_pos hc])
  next hc =>
    rw [if_neg hc] at htarget
    cases levels with
    | zero => exact .fail hs (by rw [htarget, if_pos (by simp; omega)])
    | succ l =>
      refine .note hs (by rw [htarget, if_neg (by simp; omega)]) ?_
      have hbelow := ih l rfl (above ++ [r.id]) child
        { p with contents := p.contents.insert child.id child.content } (by simp; omega)
      simpa using hbelow.andThen fun e q =>
        .silent (.ok (Inline.expanded child.id child.document.size e))

theorem faithful_loggedSite (ih : env.FaithfulBelow levels)
    (hl : levels + above.length = env.maxDepth) (hs : s ∈ r.document.sites) :
    Faithful env above r [s] p (env.loggedSite (env.loggedBelow levels) above r s p) := by
  rw [loggedSite]
  split
  · exact .error _
  cases hfind : env.find r s with
  | error d => exact .looked (.fail hs (target_of_find_error hfind))
  | ok child => exact .looked (faithful_loggedChild ih hl hs hfind)

theorem faithful_loggedSites (ih : env.FaithfulBelow levels)
    (hl : levels + above.length = env.maxDepth) (hs : ∀ s ∈ ss, s ∈ r.document.sites) :
    Faithful env above r ss p (env.loggedSites (env.loggedBelow levels) above r ss p) := by
  induction ss generalizing p with
  | nil => exact .silent _
  | cons s ss ihs =>
    obtain ⟨hs, hss⟩ := List.forall_mem_cons.1 hs
    rw [loggedSites, ← List.singleton_append]
    refine .andThen (faithful_loggedSite ih hl hs) fun i q => ?_
    simpa using (ihs hss).andThen fun parts q => .silent (.ok ((s, i) :: parts))

theorem faithful_loggedWith (ih : env.FaithfulBelow levels)
    (hl : levels + above.length = env.maxDepth) :
    Faithful env above r r.document.sites p
      (env.loggedWith (env.loggedBelow levels) above r p) := by
  rw [loggedWith]
  split
  · exact .error _
  split
  next hs =>
    rw [hs]
    exact .silent _
  next =>
    simpa using (faithful_loggedSites ih hl fun s hs => hs).andThen fun parts q =>
      .silent (r.inlineAll parts)

theorem faithful_loggedExpand (hl : levels + above.length = env.maxDepth) :
    Faithful env above r r.document.sites p (env.loggedExpand levels above r p) := by
  induction levels generalizing above r p with
  | zero =>
    rw [loggedExpand_eq]
    exact faithful_loggedWith (fun l hl => by cases hl) hl
  | succ levels ih =>
    rw [loggedExpand_eq]
    refine faithful_loggedWith (fun l hl above r p hl' => ?_) hl
    obtain rfl := Nat.succ.inj hl
    exact ih hl'

end Faithful

end ExpandEnv

/-! ### Higher limits -/

def Visit.Exceeds (v : Visit) : Prop := ∃ d, v.outcome = .error d ∧ d.problem = .depthExceeded

/-- Whether a step does the same as another one that never comes to its limit. -/
def Logged.Keeps {α : Type} (x y : Logged α) : Prop := (∀ v ∈ x.2, ¬v.Exceeds) → y = x

namespace Logged.Keeps

variable {α β : Type} {x y : Logged α} {k k' : α → Progress → Logged β}

theorem refl (x : Logged α) : Keeps x x := fun _ => rfl

theorem note (v : Visit) (h : Keeps x y) : Keeps (Logged.note v x) (Logged.note v y) := by
  intro hv
  rw [h (List.forall_mem_cons.1 hv).2]

theorem andThen (h : Keeps x y) (hk : ∀ a p, Keeps (k a p) (k' a p)) :
    Keeps (Logged.andThen x k) (Logged.andThen y k') := by
  intro hv
  rcases x with ⟨⟨f | a, p⟩, vs⟩
  · rw [h hv]
    rfl
  · obtain ⟨hx, hv⟩ := List.forall_mem_append.1 hv
    rw [h hx, Logged.andThen, Logged.andThen, hk a p hv]

end Logged.Keeps

namespace ExpandEnv

open Logged (Keeps)

def withDepth (env : ExpandEnv) (depth : Nat) : ExpandEnv := { env with maxDepth := depth }

section Keeps

variable {env : ExpandEnv} {depth levels levels' : Nat} {above : List ResourceId}
  {r child : Resource} {s : Site} {ss : List Site} {p : Progress}

def KeepsBelow (env : ExpandEnv) (depth levels levels' : Nat) : Prop :=
  ∀ l l', levels = l + 1 → levels' = l' + 1 → ∀ above r p,
    Keeps (env.loggedExpand l above r p) ((env.withDepth depth).loggedExpand l' above r p)

theorem keeps_loggedChild (hle : levels ≤ levels') (ih : env.KeepsBelow depth levels levels') :
    Keeps (env.loggedChild (env.loggedBelow levels) above r s child p)
      ((env.withDepth depth).loggedChild ((env.withDepth depth).loggedBelow levels') above r s child
        p) := by
  unfold loggedChild
  split
  · exact .refl _
  cases levels with
  | zero =>
    intro hv
    exact absurd ⟨_, rfl, rfl⟩ (hv _ List.mem_cons_self)
  | succ l =>
    cases levels' with
    | zero => omega
    | succ l' => exact .note _ (.andThen (ih l l' rfl rfl _ _ _) fun e q => .refl _)

theorem keeps_loggedSite (hle : levels ≤ levels') (ih : env.KeepsBelow depth levels levels') :
    Keeps (env.loggedSite (env.loggedBelow levels) above r s p)
      ((env.withDepth depth).loggedSite ((env.withDepth depth).loggedBelow levels') above r s
        p) := by
  have hcancel : (env.withDepth depth).isCancelled p = env.isCancelled p := rfl
  have hfind : (env.withDepth depth).find r s = env.find r s := rfl
  rw [loggedSite, loggedSite, hcancel, hfind]
  split
  · exact .refl _
  cases env.find r s with
  | error d => exact .refl _
  | ok child => exact keeps_loggedChild hle ih

theorem keeps_loggedSites (hle : levels ≤ levels') (ih : env.KeepsBelow depth levels levels') :
    Keeps (env.loggedSites (env.loggedBelow levels) above r ss p)
      ((env.withDepth depth).loggedSites ((env.withDepth depth).loggedBelow levels') above r ss
        p) := by
  induction ss generalizing p with
  | nil =>
    rw [loggedSites, loggedSites]
    exact .refl _
  | cons s ss ihs =>
    rw [loggedSites, loggedSites]
    exact .andThen (keeps_loggedSite hle ih) fun i q => .andThen ihs fun parts q => .refl _

theorem keeps_loggedWith (hle : levels ≤ levels') (ih : env.KeepsBelow depth levels levels') :
    Keeps (env.loggedWith (env.loggedBelow levels) above r p)
      ((env.withDepth depth).loggedWith ((env.withDepth depth).loggedBelow levels') above r p) := by
  have hcancel : (env.withDepth depth).isCancelled p = env.isCancelled p := rfl
  rw [loggedWith, loggedWith, hcancel]
  split
  · exact .refl _
  split
  · exact .refl _
  exact .andThen (keeps_loggedSites hle ih) fun parts q => .refl _

theorem keeps_loggedExpand (hle : levels ≤ levels') :
    Keeps (env.loggedExpand levels above r p)
      ((env.withDepth depth).loggedExpand levels' above r p) := by
  induction levels generalizing levels' above r p with
  | zero =>
    rw [loggedExpand_eq, loggedExpand_eq]
    exact keeps_loggedWith hle fun l l' hl => by cases hl
  | succ levels ih =>
    rw [loggedExpand_eq, loggedExpand_eq]
    refine keeps_loggedWith hle fun l l' hl hl' above r p => ?_
    obtain rfl := Nat.succ.inj hl
    exact ih (by omega)

end Keeps

/-! ### Whole runs -/

theorem resolve_problem {options : Reference.Options} {importer : Option ResourceId}
    {reference : Text} {d : Diagnostic}
    (h : Reference.resolve options importer reference = .error d) :
    d.problem ≠ .depthExceeded := by
  have hlocate {reference : Text} (h : Reference.locate options importer reference = .error d) :
      d.problem ≠ .depthExceeded := by
    unfold Reference.locate at h
    split at h
    next =>
      split at h
      next => cases h
      next => rw [← Except.error.inj h]; exact Problem.noConfusion
    next =>
      split at h
      · split at h <;> cases h
      · split at h
        · split at h <;> cases h
        · cases h
  rw [Reference.resolve] at h
  split at h
  next => rw [← Except.error.inj h]; exact Problem.noConfusion
  next =>
    split at h
    next d' hd =>
      obtain rfl := Except.error.inj h
      exact hlocate hd
    next =>
      split at h
      next => cases h
      next => rw [← Except.error.inj h]; exact Problem.noConfusion

theorem fetch_problem {store : Store} {importer : Option ResourceId} {id : ResourceId}
    {reference : Text} {d : Diagnostic} (h : store.fetch reference importer id = .error d) :
    d.problem ≠ .depthExceeded := by
  rw [Store.fetch] at h
  split at h
  next => rw [← Except.error.inj h]; exact Problem.noConfusion
  next => cases h
  next => rw [← Except.error.inj h]; exact Problem.noConfusion
  next => rw [← Except.error.inj h]; exact Problem.noConfusion

theorem find_problem {env : ExpandEnv} {r : Resource} {s : Site} {d : Diagnostic}
    (h : env.find r s = .error d) : d.problem ≠ .depthExceeded := by
  rw [find, Resource.ofReference] at h
  split at h
  next d' hd =>
    obtain rfl := Except.error.inj h
    exact resolve_problem hd
  next id _ =>
    split at h
    next d' hd =>
      obtain rfl := Except.error.inj h
      exact fetch_problem hd
    next => cases h

/-- Whether a resource is inlined below others along a run from a root. The root is below none. -/
def InlinedBelow (root : Resource) (log : List Visit) (above : List ResourceId) (r : Resource) :
    Prop :=
  above = [] ∧ r = root ∨ ∃ v ∈ log, v.outcome = .ok r ∧ above = v.chain

variable {env : ExpandEnv} {root r : Resource} {above : List ResourceId} {d : Diagnostic}

theorem faithful_logged (env : ExpandEnv) (root : Resource) :
    Logged.Faithful env [] root root.document.sites ⟨0, [], [(root.id, root.content)]⟩
      (env.logged root) :=
  faithful_loggedExpand rfl

theorem diagnostics_trace (env : ExpandEnv) (root : Resource) :
    (env.trace root).2.diagnostics = (env.logged root).2.filterMap Visit.reported? := by
  rw [← fst_logged]
  exact (faithful_logged env root).diagnostics

theorem InlinedBelow.length_le (h : InlinedBelow root (env.logged root).2 above r) :
    above.length ≤ env.maxDepth := by
  obtain ⟨rfl, -⟩ | ⟨v, hv, hout, rfl⟩ := h
  · exact Nat.zero_le _
  · rw [(faithful_logged env root).outcome v hv] at hout
    exact (target_eq_ok hout).2.2

theorem inlinedBelow_of_mem {v : Visit} (hv : v ∈ (env.logged root).2) :
    InlinedBelow root (env.logged root).2 v.above v.importer :=
  (faithful_logged env root).inlined v hv

/-- An import that exceeds the limit of depth belongs to a resource right at it. -/
theorem length_of_exceeds {v : Visit} (hv : v ∈ (env.logged root).2) (hd : v.Exceeds) :
    v.above.length = env.maxDepth := by
  refine (inlinedBelow_of_mem hv).length_le.antisymm ?_
  obtain ⟨d, hout, hproblem⟩ := hd
  rw [(faithful_logged env root).outcome v hv] at hout
  cases hfind : env.find v.importer v.site with
  | error d' =>
    rw [target_of_find_error hfind] at hout
    obtain rfl := Except.error.inj hout
    exact absurd hproblem (find_problem hfind)
  | ok child =>
    rw [target_of_find_ok hfind] at hout
    split_ifs at hout with hc hl
    · rw [← Except.error.inj hout] at hproblem
      cases hproblem
    · simpa [Visit.chain] using hl

theorem trace_withDepth {depth : Nat} (hdepth : env.maxDepth ≤ depth)
    (h : ∀ d ∈ (env.trace root).2.diagnostics, d.problem ≠ .depthExceeded) :
    (env.withDepth depth).trace root = env.trace root := by
  rw [diagnostics_trace] at h
  have hkeeps : Logged.Keeps (env.logged root) ((env.withDepth depth).logged root) :=
    keeps_loggedExpand hdepth
  rw [← fst_logged, ← fst_logged, hkeeps]
  rintro v hv ⟨d, hout, hproblem⟩
  exact h d (List.mem_filterMap.2 ⟨v, hv, Visit.reported?_eq_some.2 hout⟩) hproblem

/-- A run comes to the imports of its log. What they lead to is inlined no deeper than the limit
allows, and all that is reported to exceed it are imports of resources inlined right at the limit.
Unless it fails, the run comes to all imports of all resources that it inlines. A run that reports
no import to exceed the limit is the same with any higher limit. -/
theorem depth_limit_exact (env : ExpandEnv) (root : Resource) :
    let log := (env.logged root).2
    (env.logged root).1 = env.trace root ∧
    (env.trace root).2.diagnostics = log.filterMap Visit.reported? ∧
    (env.trace root).2.contents = log.foldl Visit.addTo [(root.id, root.content)] ∧
    (∀ v ∈ log, v.site ∈ v.importer.document.sites ∧ InlinedBelow root log v.above v.importer ∧
      v.outcome = env.target v.chain v.importer v.site) ∧
    (∀ above r, InlinedBelow root log above r → above.length ≤ env.maxDepth ∧
      ∀ e, (env.trace root).1 = .ok e → ∀ s ∈ r.document.sites,
        ∃ v ∈ log, v.above = above ∧ v.importer = r ∧ v.site = s) ∧
    (∀ d ∈ (env.trace root).2.diagnostics, d.problem = .depthExceeded →
      ∃ v ∈ log, v.outcome = .error d ∧ v.above.length = env.maxDepth) ∧
    ∀ depth, env.maxDepth ≤ depth →
      (∀ d ∈ (env.trace root).2.diagnostics, d.problem ≠ .depthExceeded) →
      (env.withDepth depth).trace root = env.trace root ∧
        (env.withDepth depth).run root = env.run root := by
  intro log
  have hlog := faithful_logged env root
  refine ⟨fst_logged env root, diagnostics_trace env root, ?_, ?_, ?_, ?_, ?_⟩
  · rw [← fst_logged]
    exact hlog.contents
  · exact fun v hv => ⟨hlog.site_mem v hv, inlinedBelow_of_mem hv, hlog.outcome v hv⟩
  · intro above r hr
    refine ⟨hr.length_le, fun e he s hs => ?_⟩
    rw [← fst_logged] at he
    obtain ⟨rfl, rfl⟩ | ⟨v, hv, hout, rfl⟩ := hr
    · exact hlog.sites e he s hs
    · exact hlog.below e he v hv r hout s hs
  · intro d hd hproblem
    rw [diagnostics_trace] at hd
    obtain ⟨v, hv, hreported⟩ := List.mem_filterMap.1 hd
    have hout := Visit.reported?_eq_some.1 hreported
    exact ⟨v, hv, hout, length_of_exceeds hv ⟨d, hout, hproblem⟩⟩
  · intro depth hdepth h
    have htrace := trace_withDepth hdepth h
    exact ⟨htrace, by rw [run, run, htrace]⟩

/-- A root that imports a resource with an import. One level is not enough for it, and two are as
good as five. -/
theorem depth_limit_exact_chain :
    let root := Resource.parse Schema.glsl ⟨"s".toList, "m".toList⟩ "@import \"a\"\n".toList
    let store : Store := fun i => .ok (some
      (if i.path = "a".toList then "@import \"b\"\n".toList else "float x;\n".toList))
    let env : ExpandEnv := ⟨store, ⟨"s".toList, []⟩, 1, none⟩
    ((env.trace root).2.diagnostics.map (·.problem) = [.depthExceeded] ∧
      ∃ v ∈ (env.logged root).2, v.above.length = 1 ∧ ∃ d, v.outcome = .error d) ∧
    ((env.withDepth 2).trace root).2.diagnostics.map (·.problem) = [] ∧
      ((env.withDepth 2).withDepth 5).run root = (env.withDepth 2).run root := by
  intro root store env
  have hone : (env.trace root).2.diagnostics.map (·.problem) = [.depthExceeded] := by
    decide +kernel
  have htwo : ((env.withDepth 2).trace root).2.diagnostics.map (·.problem) = [] := by
    decide +kernel
  obtain ⟨-, -, -, -, -, hexceeds, -⟩ := depth_limit_exact env root
  obtain ⟨-, -, -, -, -, -, hhigher⟩ := depth_limit_exact (env.withDepth 2) root
  refine ⟨⟨hone, ?_⟩, htwo, ?_⟩
  · obtain ⟨d, hd, hproblem⟩ :=
      List.mem_map.1 (hone ▸ List.mem_singleton_self Problem.depthExceeded)
    obtain ⟨v, hv, hout, hlength⟩ := hexceeds d hd hproblem
    exact ⟨v, hv, hlength, d, hout⟩
  · refine (hhigher 5 (by decide) fun d hd => ?_).2
    rw [List.map_eq_nil_iff.1 htwo] at hd
    cases hd

end ExpandEnv
end ShaderInline
