import Mathlib
import ShaderInline.Proofs.Expand.Step
import ShaderInline.Schema.Glsl

/-! # Runs that are cancelled

A run counts its loads, and what it comes to depends on no more entries of the
store than it has loaded. Cancelled after some loads, it does the same as the run
that nobody cancels until it looks whether it goes on. So it ends there or yields
the same, and it loads nothing more.
-/

namespace ShaderInline

/-! ### What is looked up -/

namespace Step

variable {α β : Type} {store : Store} {n : Nat}

/-- Whether a step that is made after some loads depends on no entries of a store but those that it
loads. -/
def Reads (f : Store → Step α) (store : Store) (n : Nat) : Prop :=
  ∃ ids : List ResourceId, n + ids.length = (f store).2.loads ∧
    ∀ store', (∀ id ∈ ids, store' id = store id) → f store' = f store

namespace Reads

variable {f : Store → Step α}

theorem le (h : Reads f store n) : n ≤ (f store).2.loads := by
  obtain ⟨ids, hids, -⟩ := h
  omega

theorem of_forall (hn : (f store).2.loads = n) (h : ∀ s, f s = f store) : Reads f store n :=
  ⟨[], hn.symm, fun s _ => h s⟩

theorem andThen {k : Store → α → Progress → Step β} (hf : Reads f store n)
    (hk : ∀ a p, Reads (fun s => k s a p) store p.loads) :
    Reads (fun s => Step.andThen (f s) (k s)) store n := by
  obtain ⟨ids, hids, hf⟩ := hf
  rcases hx : f store with ⟨e | a, q⟩
  · refine ⟨ids, by simpa [hx] using hids, fun store' h => ?_⟩
    simp only [hf store' h, hx, andThen_error]
  · obtain ⟨ids', hids', hk⟩ := hk a q
    refine ⟨ids ++ ids', ?_, fun store' h => ?_⟩
    · rw [hx] at hids
      simp only [hx, andThen_ok]
      rw [← hids', List.length_append, ← Nat.add_assoc, hids]
    · obtain ⟨h, h'⟩ := List.forall_mem_append.1 h
      simp only [hf store' h, hx, andThen_ok]
      exact hk store' h'

end Reads

theorem le_andThen {x : Step α} {k : α → Progress → Step β} (hx : n ≤ x.2.loads)
    (hk : ∀ a p, p.loads ≤ (k a p).2.loads) : n ≤ (Step.andThen x k).2.loads := by
  rcases x with ⟨f | a, p⟩
  · exact hx
  · exact hx.trans (hk a p)

end Step

theorem Store.fetch_congr {store store' : Store} {reference : Text} {importer : Option ResourceId}
    {id : ResourceId} (h : store' id = store id) :
    store'.fetch reference importer id = store.fetch reference importer id := by
  rw [fetch, fetch, h]

namespace ExpandEnv

open Step (andThen Reads)

def onStore (env : ExpandEnv) (store : Store) : ExpandEnv := { env with store := store }

section Reads

variable {env : ExpandEnv} {store : Store} {levels : Nat} {chain : List ResourceId}
  {r child : Resource} {s : Site} {ss : List Site} {p : Progress}

def ReadsBelow (env : ExpandEnv) (store : Store) (levels : Nat) : Prop :=
  ∀ l, levels = l + 1 → ∀ chain r p,
    Reads (fun st => (env.onStore st).expand l chain r p) store p.loads

theorem reads_inlineChild {importer : ResourceId} (ih : env.ReadsBelow store levels) :
    Reads (fun st => (env.onStore st).inlineChild ((env.onStore st).below levels) chain importer s
      child p) store p.loads := by
  by_cases hc : child.id ∈ chain
  · simp only [inlineChild_of_mem hc]
    exact .of_forall rfl fun _ => rfl
  · cases levels with
    | zero =>
      simp only [below, inlineChild_none hc]
      exact .of_forall rfl fun _ => rfl
    | succ l =>
      simp only [below, inlineChild_some hc]
      refine .andThen (ih l rfl _ _ _) fun e q => ?_
      exact .of_forall rfl fun _ => rfl

theorem reads_inlineSite (ih : env.ReadsBelow store levels) :
    Reads (fun st => (env.onStore st).inlineSite ((env.onStore st).below levels) chain r s p)
      store p.loads := by
  have hcancel (st : Store) : (env.onStore st).isCancelled p = env.isCancelled p := rfl
  have hoptions (st : Store) : (env.onStore st).options = env.options := rfl
  have hstore (st : Store) : (env.onStore st).store = st := rfl
  simp only [inlineSite, hcancel, hoptions, hstore]
  split
  · exact .of_forall rfl fun _ => rfl
  split
  · exact .of_forall rfl fun _ => rfl
  next id _ =>
    -- one load settles which of the two ways the step goes on
    cases hfetch : store.fetch s.reference (some r.id) id with
    | error d =>
      refine ⟨[id], by simp [hfetch, fail, Progress.report], fun store' h => ?_⟩
      simp only [Store.fetch_congr (h id List.mem_cons_self), hfetch]
    | ok content =>
      obtain ⟨ids, hids, hread⟩ : Reads (fun st => (env.onStore st).inlineChild
          ((env.onStore st).below levels) chain r.id s (.parse r.document.schema id content)
          { p with loads := p.loads + 1 }) store (p.loads + 1) := reads_inlineChild ih
      refine ⟨id :: ids, ?_, fun store' h => ?_⟩
      · simp only [hfetch]
        rw [← hids, List.length_cons]
        omega
      · obtain ⟨hid, h⟩ := List.forall_mem_cons.1 h
        simp only [Store.fetch_congr hid, hfetch]
        exact hread store' h

theorem reads_inlineSites (ih : env.ReadsBelow store levels) :
    Reads (fun st => (env.onStore st).inlineSites ((env.onStore st).below levels) chain r ss p)
      store p.loads := by
  induction ss generalizing p with
  | nil => exact .of_forall rfl fun _ => rfl
  | cons s ss ihs =>
    simp only [inlineSites_cons]
    refine .andThen (reads_inlineSite ih) fun i q => .andThen ihs fun parts q => ?_
    exact .of_forall rfl fun _ => rfl

theorem reads_expandWith (ih : env.ReadsBelow store levels) :
    Reads (fun st => (env.onStore st).expandWith ((env.onStore st).below levels) chain r p)
      store p.loads := by
  have hcancel (st : Store) : (env.onStore st).isCancelled p = env.isCancelled p := rfl
  cases hc : env.isCancelled p with
  | true =>
    simp only [expandWith_of_isCancelled ((hcancel _).trans hc)]
    exact .of_forall rfl fun _ => rfl
  | false =>
    by_cases hs : r.document.sites = []
    · simp only [expandWith_nil ((hcancel _).trans hc) hs]
      exact .of_forall rfl fun _ => rfl
    · simp only [expandWith_cons ((hcancel _).trans hc) hs]
      refine .andThen (reads_inlineSites ih) fun parts q => ?_
      exact .of_forall rfl fun _ => rfl

/-- A run depends on the entries of the store that it loads, and on no others. -/
theorem reads_expand :
    Reads (fun st => (env.onStore st).expand levels chain r p) store p.loads := by
  induction levels generalizing chain r p with
  | zero =>
    simp only [expand_eq]
    exact reads_expandWith fun l hl => by cases hl
  | succ levels ih =>
    simp only [expand_eq (levels + 1)]
    refine reads_expandWith fun l hl chain r p => ?_
    obtain rfl := Nat.succ.inj hl
    exact ih

theorem loads_le_inlineSite :
    p.loads ≤ (env.inlineSite (env.below levels) chain r s p).2.loads := by
  have h : Reads (fun st => (env.onStore st).inlineSite ((env.onStore st).below levels) chain r s p)
      env.store p.loads := reads_inlineSite fun _ _ _ _ _ => reads_expand
  exact h.le

theorem loads_le_inlineSites :
    p.loads ≤ (env.inlineSites (env.below levels) chain r ss p).2.loads := by
  have h : Reads
      (fun st => (env.onStore st).inlineSites ((env.onStore st).below levels) chain r ss p)
      env.store p.loads := reads_inlineSites fun _ _ _ _ _ => reads_expand
  exact h.le

theorem loads_le_expand : p.loads ≤ (env.expand levels chain r p).2.loads := by
  have h : Reads (fun st => (env.onStore st).expand levels chain r p) env.store p.loads :=
    reads_expand
  exact h.le

end Reads

/-! ### Beside the run that nobody cancels -/

def cancelledAfter (env : ExpandEnv) (n : Nat) : ExpandEnv := { env with cancelAfter := some n }

def uncancelled (env : ExpandEnv) : ExpandEnv := { env with cancelAfter := none }

end ExpandEnv

/-- A step of a run that is cancelled after some loads, beside that of the run which nobody
cancels: they are the same, or the first run has made its last load and found itself cancelled. -/
inductive Step.Follows {α : Type} (n : Nat) : Step α → Step α → Prop where
  | same {x : Step α} : x.2.loads ≤ n → Follows n x x
  | cancelled {name : Text} {p : Progress} {x : Step α} : p.loads = n → n ≤ x.2.loads →
      Follows n (.error (.cancelled name), p) x

theorem Step.Follows.andThen {α β : Type} {n : Nat} {x y : Step α}
    {k k' : α → Progress → Step β} (h : Follows n x y)
    (hk : ∀ a p, p.loads ≤ n → Follows n (k a p) (k' a p))
    (hl : ∀ a p, p.loads ≤ (k' a p).2.loads) :
    Follows n (Step.andThen x k) (Step.andThen y k') := by
  cases h with
  | same hx =>
    rcases x with ⟨f | a, p⟩
    · exact .same hx
    · exact hk a p hx
  | cancelled hp hx => exact .cancelled hp (le_andThen hx hl)

namespace ExpandEnv

open Step (Follows Reads)

section Follows

variable {env : ExpandEnv} {n levels : Nat} {chain : List ResourceId} {r child : Resource}
  {s : Site}
  {ss : List Site} {p : Progress}

theorem isCancelled_uncancelled : env.uncancelled.isCancelled p = false := rfl

theorem looked_loads_le : (env.looked r s p).loads ≤ p.loads + 1 := by
  unfold looked
  split <;> simp

def FollowsBelow (env : ExpandEnv) (n levels : Nat) : Prop :=
  ∀ l, levels = l + 1 → ∀ chain r p, p.loads ≤ n →
    Follows n ((env.cancelledAfter n).expand l chain r p) (env.uncancelled.expand l chain r p)

theorem follows_inlineChild {importer : ResourceId} (ih : env.FollowsBelow n levels)
    (hp : p.loads ≤ n) :
    Follows n ((env.cancelledAfter n).inlineChild ((env.cancelledAfter n).below levels) chain
        importer s child p)
      (env.uncancelled.inlineChild (env.uncancelled.below levels) chain importer s child p) := by
  by_cases hc : child.id ∈ chain
  · simp only [inlineChild_of_mem hc]
    exact .same hp
  · cases levels with
    | zero =>
      simp only [below, inlineChild_none hc]
      exact .same hp
    | succ l =>
      simp only [below, inlineChild_some hc]
      refine .andThen (ih l rfl _ _ _ hp) (fun e q hq => .same hq) fun e q => le_rfl

theorem follows_inlineSite (ih : env.FollowsBelow n levels) (hp : p.loads ≤ n) :
    Follows n ((env.cancelledAfter n).inlineSite ((env.cancelledAfter n).below levels) chain r s p)
      (env.uncancelled.inlineSite (env.uncancelled.below levels) chain r s p) := by
  by_cases hc : n ≤ p.loads
  · have hcancel : (env.cancelledAfter n).isCancelled p = true := decide_eq_true hc
    rw [inlineSite, if_pos hcancel]
    exact .cancelled (hp.antisymm hc) (hc.trans loads_le_inlineSite)
  · have hcancel : (env.cancelledAfter n).isCancelled p = false := decide_eq_false hc
    have hlooked : (env.looked r s p).loads ≤ n := looked_loads_le.trans (by omega)
    have hfind : (env.cancelledAfter n).find r s = env.uncancelled.find r s := rfl
    rw [inlineSite_eq, inlineSite_eq, hcancel, isCancelled_uncancelled, if_neg (by simp),
      if_neg (by simp), hfind]
    cases env.uncancelled.find r s with
    | error d => exact .same hlooked
    | ok child => exact follows_inlineChild ih hlooked

theorem follows_inlineSites (ih : env.FollowsBelow n levels) (hp : p.loads ≤ n) :
    Follows n
      ((env.cancelledAfter n).inlineSites ((env.cancelledAfter n).below levels) chain r ss p)
      (env.uncancelled.inlineSites (env.uncancelled.below levels) chain r ss p) := by
  induction ss generalizing p with
  | nil => exact .same hp
  | cons s ss ihs =>
    rw [inlineSites_cons, inlineSites_cons]
    refine .andThen (follows_inlineSite ih hp) (fun i q hq => ?_) fun i q => ?_
    · exact .andThen (ihs hq) (fun parts q hq => .same hq) fun parts q => le_rfl
    · exact Step.le_andThen loads_le_inlineSites fun parts q => le_rfl

theorem follows_expandWith (ih : env.FollowsBelow n levels) (hp : p.loads ≤ n) :
    Follows n ((env.cancelledAfter n).expandWith ((env.cancelledAfter n).below levels) chain r p)
      (env.uncancelled.expandWith (env.uncancelled.below levels) chain r p) := by
  by_cases hc : n ≤ p.loads
  · have hcancel : (env.cancelledAfter n).isCancelled p = true := decide_eq_true hc
    rw [expandWith_of_isCancelled hcancel, ← expand_eq]
    exact .cancelled (hp.antisymm hc) (hc.trans loads_le_expand)
  · have hcancel : (env.cancelledAfter n).isCancelled p = false := decide_eq_false hc
    by_cases hs : r.document.sites = []
    · rw [expandWith_nil hcancel hs, expandWith_nil isCancelled_uncancelled hs]
      exact .same hp
    · rw [expandWith_cons hcancel hs, expandWith_cons isCancelled_uncancelled hs]
      exact .andThen (follows_inlineSites ih hp) (fun parts q hq => .same hq) fun parts q => le_rfl

/-- A run that is cancelled follows the one that is not. -/
theorem follows_expand (hp : p.loads ≤ n) :
    Follows n ((env.cancelledAfter n).expand levels chain r p)
      (env.uncancelled.expand levels chain r p) := by
  induction levels generalizing chain r p with
  | zero =>
    rw [expand_eq, expand_eq]
    exact follows_expandWith (fun l hl => by cases hl) hp
  | succ levels ih =>
    rw [expand_eq, expand_eq]
    refine follows_expandWith (fun l hl chain r p hp => ?_) hp
    obtain rfl := Nat.succ.inj hl
    exact ih hp

end Follows

/-! ### Whole runs -/

/-- A run that is cancelled after some loads is cancelled or yields what the run yields that nobody
cancels. It loads as much as that run does, but not more than it may, and depends on no more entries
of the store. If that run loads more, it is cancelled. -/
theorem run_cancelledAfter (env : ExpandEnv) (n : Nat) (root : Resource) :
    ((∃ name, (env.cancelledAfter n).run root = .error (.cancelled name)) ∨
      (env.cancelledAfter n).run root = env.uncancelled.run root) ∧
    ((env.cancelledAfter n).trace root).2.loads = min n (env.uncancelled.trace root).2.loads ∧
    (∃ ids : List ResourceId, ids.length ≤ n ∧ ∀ store, (∀ id ∈ ids, store id = env.store id) →
      ((env.onStore store).cancelledAfter n).trace root = (env.cancelledAfter n).trace root) ∧
    (n < (env.uncancelled.trace root).2.loads →
      ∃ name, (env.cancelledAfter n).run root = .error (.cancelled name)) := by
  have hfollows : Follows n ((env.cancelledAfter n).trace root) (env.uncancelled.trace root) :=
    follows_expand (Nat.zero_le n)
  have hreads : Reads (fun st => ((env.cancelledAfter n).onStore st).expand env.maxDepth [] root
      ⟨0, [], [(root.id, root.content)]⟩) env.store 0 := reads_expand
  obtain ⟨ids, hids, hread⟩ : Reads (fun st => ((env.onStore st).cancelledAfter n).trace root)
      env.store 0 := hreads
  have hloads : ((env.cancelledAfter n).trace root).2.loads =
      min n (env.uncancelled.trace root).2.loads := by
    generalize (env.cancelledAfter n).trace root = x at hfollows
    generalize env.uncancelled.trace root = y at hfollows
    cases hfollows with
    | same hy => exact (min_eq_right hy).symm
    | cancelled hp hy => exact hp.trans (min_eq_left hy).symm
  have hlength : ids.length = ((env.cancelledAfter n).trace root).2.loads := by
    rw [Nat.zero_add] at hids
    exact hids
  have hrun : (∃ name, (env.cancelledAfter n).run root = .error (.cancelled name)) ∨
      (env.cancelledAfter n).trace root = env.uncancelled.trace root := by
    generalize hx : (env.cancelledAfter n).trace root = x at hfollows
    generalize env.uncancelled.trace root = y at hfollows
    cases hfollows with
    | same hy => exact .inr rfl
    | cancelled hp hy => exact .inl ⟨_, by rw [run, hx]⟩
  refine ⟨hrun.imp id fun h => by rw [run, run, h], hloads, ⟨ids, ?_, hread⟩, fun hn => ?_⟩
  · rw [hlength, hloads]
    exact min_le_left _ _
  · refine hrun.resolve_right fun h => ?_
    rw [← h, hloads] at hn
    exact absurd hn (by omega)

/-- A root with two imports, of which the second leads nowhere, cancelled after the first. -/
theorem run_cancelledAfter_first :
    let root := Resource.parse Schema.glsl ⟨"s".toList, "m".toList⟩
      "@import \"a\"\n@import \"b\"\n".toList
    let store : Store := fun i =>
      .ok (if i.path = "a".toList then some "float é;".toList else none)
    let env : ExpandEnv := ⟨store, ⟨"s".toList, []⟩, 3, none⟩
    (env.uncancelled.trace root).2.loads = 2 ∧ ((env.cancelledAfter 1).trace root).2.loads = 1 ∧
      ∃ name, (env.cancelledAfter 1).run root = .error (.cancelled name) := by
  intro root store env
  have hloads : (env.uncancelled.trace root).2.loads = 2 := by decide +kernel
  obtain ⟨-, hmin, -, hcancelled⟩ := run_cancelledAfter env 1 root
  refine ⟨hloads, ?_, hcancelled ?_⟩
  · rw [hmin, hloads]
    rfl
  · rw [hloads]
    decide

end ExpandEnv
end ShaderInline
