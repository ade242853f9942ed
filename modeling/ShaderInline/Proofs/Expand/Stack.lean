import Mathlib
import ShaderInline.Proofs.Expand.Step
import ShaderInline.Proofs.Expand.Unfold

/-! # Runs that keep one chain

A run can keep a single chain, to which a resource is added before its imports are
inlined and from which it is taken off behind them, and need not count levels. That
this recursion ends is not seen from its form. It does end, for no chain has a
resource twice and all but the first are in the store. With a limit of depth it
yields what a run yields that is handed its chain and its levels.
-/

namespace ShaderInline

/-- A recursive call: the chain at that time, and what is expanded below it. -/
structure Call where
  chain : List ResourceId
  child : ResourceId

structure Stack where
  chain : List ResourceId
  progress : Progress
  calls : List Call

/-- Steps that share a stack and may fail, or be cut off. -/
abbrev StackM := ExceptT Failure (StateT Stack Option)

def StackM.cut {α : Type} : StackM α := fun _ => none

namespace Stack

def start (root : Resource) : Stack := ⟨[], ⟨0, [], [(root.id, root.content)]⟩, []⟩

def push (id : ResourceId) (w : Stack) : Stack := { w with chain := w.chain ++ [id] }

def pop (w : Stack) : Stack := { w with chain := w.chain.dropLast }

def look (env : ExpandEnv) (r : Resource) (s : Site) (w : Stack) : Stack :=
  { w with progress := env.looked r s w.progress }

def enter (child : Resource) (w : Stack) : Stack :=
  { w with
    progress :=
      { w.progress with contents := w.progress.contents.insert child.id child.content }
    calls := w.calls ++ [⟨w.chain, child.id⟩] }

def fail (d : Diagnostic) : StackM Inline := do
  modify fun w => { w with progress := w.progress.report d }
  return .failed d.problem

end Stack

namespace ExpandEnv

/-- Inline an import that leads to a resource, with a limit of depth or without one, given how
resources are expanded. The chain ends with the importing resource. -/
def walkChild (env : ExpandEnv) (limited : Bool) (expand : Resource → StackM Expansion)
    (importer : ResourceId) (s : Site) (child : Resource) : StackM Inline := do
  let chain := (← get).chain
  if child.id ∈ chain then
    Stack.fail ⟨s.reference, .importCycle, cycleMessage (chain ++ [child.id]), some importer⟩
  else if limited ∧ env.maxDepth < chain.length then
    Stack.fail ⟨s.reference, .depthExceeded, env.depthMessage child.id, some importer⟩
  else
    modify (Stack.enter child)
    let e ← expand child
    return .expanded child.id child.document.size e

def walkSite (env : ExpandEnv) (limited : Bool) (expand : Resource → StackM Expansion)
    (r : Resource) (s : Site) : StackM Inline := do
  if env.isCancelled (← get).progress then throw (.cancelled r.id.display)
  else
    modify (Stack.look env r s)
    match env.find r s with
    | .error d => Stack.fail d
    | .ok child => env.walkChild limited expand r.id s child

def walkSites (env : ExpandEnv) (limited : Bool) (expand : Resource → StackM Expansion)
    (r : Resource) : List Site → StackM (List (Site × Inline))
  | [] => return []
  | s :: ss => do
    let i ← env.walkSite limited expand r s
    let parts ← walkSites env limited expand r ss
    return (s, i) :: parts

/-- Expand a resource, which is on the chain while its imports are inlined. -/
def walkWith (env : ExpandEnv) (limited : Bool) (expand : Resource → StackM Expansion)
    (r : Resource) : StackM Expansion := do
  if env.isCancelled (← get).progress then throw (.cancelled r.id.display)
  else if r.document.sites = [] then
    return ⟨r.document, .identity r.id r.document.size, false⟩
  else
    modify (Stack.push r.id)
    let parts ← env.walkSites limited expand r r.document.sites
    modify Stack.pop
    liftExcept (r.inlineAll parts)

/-- The recursion, cut off where calls are nested deeper than a number. -/
def walk (env : ExpandEnv) (limited : Bool) : (nesting : Nat) → Resource → StackM Expansion
  | 0, _ => StackM.cut
  | nesting + 1, r => env.walkWith limited (walk env limited nesting) r

end ExpandEnv

namespace StackM

variable {α β : Type}

/-- What comes of steps; nothing if they do not end. -/
def exec (m : StackM α) (w : Stack) : Option (Except Failure α × Stack) := m.run.run w

theorem exec_bind (m : StackM α) (k : α → StackM β) (w : Stack) : exec (m >>= k) w =
    (exec m w).bind fun
      | (.ok a, w') => exec (k a) w'
      | (.error f, w') => some (.error f, w') := by
  unfold exec
  rw [ExceptT.run_bind, StateT.run_bind, Option.bind_eq_bind]
  congr 1
  funext x
  rcases x with ⟨f | a, w'⟩ <;> rfl

@[simp] theorem exec_liftExcept (x : Except Failure α) (w : Stack) :
    exec (liftExcept x) w = some (x, w) := by
  cases x <;> rfl

@[simp] theorem exec_get_bind (k : Stack → StackM β) (w : Stack) :
    exec (get >>= k) w = exec (k w) w := rfl

@[simp] theorem exec_modify_bind (g : Stack → Stack) (k : PUnit → StackM β) (w : Stack) :
    exec (modify g >>= k) w = exec (k ⟨⟩) (g w) := rfl

/-- Whether steps come to the same as others unless they are cut off. -/
def Le (m m' : StackM α) : Prop := ∀ w x, exec m w = some x → exec m' w = some x

theorem Le.refl (m : StackM α) : Le m m := fun _ _ => id

theorem Le.bind {m m' : StackM α} {k k' : α → StackM β} (h : Le m m') (hk : ∀ a, Le (k a) (k' a)) :
    Le (m >>= k) (m' >>= k') := by
  intro w x hx
  rw [exec_bind] at hx ⊢
  obtain ⟨⟨f | a, w'⟩, hm, hx⟩ := Option.bind_eq_some_iff.1 hx
  · rw [h w _ hm]
    exact hx
  · rw [h w _ hm]
    exact hk a w' x hx

end StackM

/-! ### Deeper nesting -/

namespace ExpandEnv

open StackM (Le)

variable {env : ExpandEnv} {limited : Bool} {f g : Resource → StackM Expansion} {r : Resource}
  {s : Site}

theorem le_walkChild {importer : ResourceId} {child : Resource} (h : ∀ r, Le (f r) (g r)) :
    Le (env.walkChild limited f importer s child) (env.walkChild limited g importer s child) := by
  refine .bind (.refl _) fun w => ?_
  dsimp only
  split
  · exact .refl _
  split
  · exact .refl _
  exact .bind (.refl _) fun _ => .bind (h child) fun _ => .refl _

theorem le_walkSite (h : ∀ r, Le (f r) (g r)) :
    Le (env.walkSite limited f r s) (env.walkSite limited g r s) := by
  refine .bind (.refl _) fun w => ?_
  split
  · exact .refl _
  refine .bind (.refl _) fun _ => ?_
  cases env.find r s with
  | error d => exact .refl _
  | ok child => exact le_walkChild h

theorem le_walkSites {ss : List Site} (h : ∀ r, Le (f r) (g r)) :
    Le (env.walkSites limited f r ss) (env.walkSites limited g r ss) := by
  induction ss with
  | nil => exact .refl _
  | cons s ss ih => exact .bind (le_walkSite h) fun _ => .bind ih fun _ => .refl _

theorem le_walkWith (h : ∀ r, Le (f r) (g r)) :
    Le (env.walkWith limited f r) (env.walkWith limited g r) := by
  refine .bind (.refl _) fun w => ?_
  split
  · exact .refl _
  split
  · exact .refl _
  exact .bind (.refl _) fun _ => .bind (le_walkSites h) fun _ => .refl _

/-- What comes of an expansion does not change if calls may be nested deeper. -/
theorem le_walk {n m : Nat} (h : n ≤ m) : Le (env.walk limited n r) (env.walk limited m r) := by
  induction n generalizing m r with
  | zero =>
    intro w x hx
    cases hx
  | succ n ih =>
    obtain ⟨m, rfl⟩ := Nat.exists_eq_add_of_le' (Nat.le_of_add_left_le h)
    exact le_walkWith fun r => ih (by omega)

end ExpandEnv

/-! ### Calls -/

def Store.ids (store : Store) : Set ResourceId := {id | ∃ t, store id = .ok (some t)}

/-- Whether a call is made below a chain, along resources of the store that are on no chain
twice. -/
structure Call.Descends (env : ExpandEnv) (limited : Bool) (base path : List ResourceId)
    (c : Call) : Prop where
  chain_eq : c.chain = base ++ path
  nodup : (path ++ [c.child]).Nodup
  fresh : ∀ id ∈ path ++ [c.child], id ∉ base ∧ id ∈ env.store.ids
  length_le : limited = true → c.chain.length ≤ env.maxDepth

namespace Call

variable {env : ExpandEnv} {limited : Bool} {base path : List ResourceId} {id : ResourceId}
  {c : Call}

theorem descends_self (hb : id ∉ base) (hid : id ∈ env.store.ids)
    (hl : limited = true → base.length ≤ env.maxDepth) :
    Descends env limited base [] ⟨base, id⟩ where
  chain_eq := (List.append_nil base).symm
  nodup := List.nodup_singleton id
  fresh := by simpa using ⟨hb, hid⟩
  length_le := hl

theorem Descends.cons (hb : id ∉ base) (hid : id ∈ env.store.ids)
    (h : Descends env limited (base ++ [id]) path c) :
    Descends env limited base (id :: path) c where
  chain_eq := by simpa using h.chain_eq
  nodup := by
    refine List.nodup_cons.2 ⟨fun hmem => ?_, h.nodup⟩
    exact (h.fresh id hmem).1 (by simp)
  fresh := by
    refine List.forall_mem_cons.2 ⟨⟨hb, hid⟩, fun i hi => ?_⟩
    obtain ⟨hnot, hi⟩ := h.fresh i hi
    exact ⟨fun hmem => hnot (List.mem_append_left _ hmem), hi⟩
  length_le := h.length_le

/-- The resources on the way to a call are so many different ones of the store. -/
theorem Descends.length_le_ncard (h : Descends env limited base path c)
    (hfin : env.store.ids.Finite) : path.length + 1 ≤ env.store.ids.ncard := by
  have hsub : {id | id ∈ path ++ [c.child]} ⊆ env.store.ids := fun id hid => (h.fresh id hid).2
  calc path.length + 1 = (path ++ [c.child]).length := by simp
    _ = (path ++ [c.child]).toFinset.card := (List.toFinset_card_of_nodup h.nodup).symm
    _ = ({id | id ∈ path ++ [c.child]} : Set ResourceId).ncard := by
      rw [← Set.ncard_coe_finset, List.coe_toFinset]
    _ ≤ env.store.ids.ncard := Set.ncard_le_ncard hsub hfin

end Call

def Call.Adds (P : Call → Prop) (calls calls' : List Call) : Prop :=
  ∃ new, calls' = calls ++ new ∧ ∀ c ∈ new, P c

namespace Call.Adds

variable {P Q : Call → Prop} {calls calls₁ calls₂ : List Call}

theorem refl (calls : List Call) : Adds P calls calls := ⟨[], by simp, by simp⟩

theorem trans (h : Adds P calls calls₁) (h' : Adds P calls₁ calls₂) : Adds P calls calls₂ := by
  obtain ⟨new, rfl, hP⟩ := h
  obtain ⟨new', rfl, hP'⟩ := h'
  exact ⟨new ++ new', List.append_assoc .., List.forall_mem_append.2 ⟨hP, hP'⟩⟩

theorem imp (h : Adds P calls calls₁) (hPQ : ∀ c, P c → Q c) : Adds Q calls calls₁ := by
  obtain ⟨new, hnew, hP⟩ := h
  exact ⟨new, hnew, fun c hc => hPQ c (hP c hc)⟩

end Call.Adds

/-! ### Steps with a stack beside steps of a run -/

/-- What comes of steps with a stack: they end, leave a chain as it was unless they fail, and make
calls with a property. If some condition holds they do the same as a step of a run. -/
inductive Walks {α : Type} (P : Call → Prop) (same : Prop) (chain : List ResourceId)
    (calls : List Call) : Option (Except Failure α × Stack) → Step α → Prop where
  | ok {a : α} {w : Stack} {y : Step α} : w.chain = chain → Call.Adds P calls w.calls →
      (same → y = (.ok a, w.progress)) → Walks P same chain calls (some (.ok a, w)) y
  | error {f : Failure} {w : Stack} {y : Step α} : Call.Adds P calls w.calls →
      (same → y = (.error f, w.progress)) → Walks P same chain calls (some (.error f, w)) y

open StackM (exec exec_bind exec_get_bind exec_modify_bind exec_liftExcept)

namespace Walks

variable {α β : Type} {P Q : Call → Prop} {same same' : Prop} {chain chain' : List ResourceId}
  {calls calls₁ : List Call} {o : Option (Except Failure α × Stack)} {y y' : Step α}

theorem exists_eq_some (h : Walks P same chain calls o y) : ∃ x w, o = some (x, w) ∧
    (∀ a, x = .ok a → w.chain = chain) ∧ Call.Adds P calls w.calls ∧
    (same → y = (x, w.progress)) := by
  cases h with
  | @ok a w y hchain hcalls hy => exact ⟨.ok a, w, rfl, fun _ _ => hchain, hcalls, hy⟩
  | @error f w y hcalls hy =>
    refine ⟨.error f, w, rfl, fun a ha => ?_, hcalls, hy⟩
    cases ha

theorem congr (h : Walks P same chain calls o y) (hs : same' → same ∧ y' = y) :
    Walks P same' chain calls o y' := by
  cases h with
  | ok hchain hcalls hy => exact .ok hchain hcalls fun hs' => (hs hs').2.trans (hy (hs hs').1)
  | error hcalls hy => exact .error hcalls fun hs' => (hs hs').2.trans (hy (hs hs').1)

theorem imp (h : Walks P same chain calls₁ o y) (hcalls : Call.Adds Q calls calls₁)
    (hPQ : ∀ c, P c → Q c) : Walks Q same chain calls o y := by
  cases h with
  | ok hchain hcalls' hy => exact .ok hchain (hcalls.trans (hcalls'.imp hPQ)) hy
  | error hcalls' hy => exact .error (hcalls.trans (hcalls'.imp hPQ)) hy

/-- Steps after others. Only where both succeed does it matter which chain they leave. -/
theorem bind {m : StackM α} {k : α → StackM β} {k' : α → Progress → Step β} {w : Stack}
    (h : Walks P same chain calls (exec m w) y)
    (hk : ∀ a w', w'.chain = chain →
      Walks P same chain' w'.calls (exec (k a) w') (k' a w'.progress)) :
    Walks P same chain' calls (exec (m >>= k) w) (y.andThen k') := by
  rw [exec_bind]
  generalize exec m w = o at h
  cases h with
  | @ok a w' y hchain hcalls hy =>
    refine ((hk a w' hchain).imp hcalls fun _ => id).congr fun hs => ⟨hs, ?_⟩
    rw [hy hs, Step.andThen_ok]
  | error hcalls hy =>
    refine .error hcalls fun hs => ?_
    rw [hy hs, Step.andThen_error]

end Walks

namespace ExpandEnv

section Walks

variable {env : ExpandEnv} {limited : Bool} {f : Resource → StackM Expansion}
  {chain : List ResourceId} {r child : Resource} {s : Site} {ss : List Site} {w : Stack}

def Sound (env : ExpandEnv) (limited : Bool) (base : List ResourceId) (c : Call) : Prop :=
  ∃ path, c.Descends env limited base path

def Ends (env : ExpandEnv) (limited : Bool) (f : Resource → StackM Expansion)
    (chain : List ResourceId) (r : Resource) (w : Stack) : Prop :=
  Walks (env.Sound limited (chain ++ [r.id])) (limited = true ∧ chain.length ≤ env.maxDepth)
    chain w.calls (exec (f r) w) (env.expand (env.maxDepth - chain.length) chain r w.progress)

def EndsBelow (env : ExpandEnv) (limited : Bool) (f : Resource → StackM Expansion)
    (chain : List ResourceId) : Prop :=
  ∀ child w, child.id ∈ env.store.ids → child.id ∉ chain → w.chain = chain →
    env.Ends limited f chain child w

theorem walks_fail {P : Call → Prop} {same : Prop} {d : Diagnostic} (hw : w.chain = chain) :
    Walks P same chain w.calls (exec (Stack.fail d) w) (fail d w.progress) :=
  .ok hw (.refl _) fun _ => rfl

theorem mem_ids_of_find (h : env.find r s = .ok child) : child.id ∈ env.store.ids :=
  ⟨child.content, (ofReference_eq_ok h).2⟩

theorem walks_walkChild {importer : ResourceId} (ih : env.EndsBelow limited f chain)
    (hid : child.id ∈ env.store.ids) (hw : w.chain = chain) :
    Walks (env.Sound limited chain) (limited = true ∧ chain.length ≤ env.maxDepth + 1) chain w.calls
      (exec (env.walkChild limited f importer s child) w)
      (env.inlineChild (env.below (env.maxDepth + 1 - chain.length)) chain importer s child
        w.progress) := by
  rw [walkChild, exec_get_bind, hw]
  by_cases hc : child.id ∈ chain
  · rw [inlineChild_of_mem hc, if_pos hc]
    exact walks_fail hw
  rw [if_neg hc]
  by_cases hdepth : limited = true ∧ env.maxDepth < chain.length
  · rw [if_pos hdepth, Nat.sub_eq_zero_of_le hdepth.2, below, inlineChild_none hc]
    exact walks_fail hw
  rw [if_neg hdepth, exec_modify_bind]
  have hle (hl : limited = true) : chain.length ≤ env.maxDepth :=
    Nat.le_of_not_lt fun hlt => hdepth ⟨hl, hlt⟩
  have hself : Call.Adds (env.Sound limited chain) w.calls (w.enter child).calls := by
    refine ⟨[⟨w.chain, child.id⟩], rfl, List.forall_mem_singleton.2 ⟨[], ?_⟩⟩
    rw [hw]
    exact Call.descends_self hc hid hle
  have hbelow (c : Call) (h : env.Sound limited (chain ++ [child.id]) c) :
      env.Sound limited chain c := by
    obtain ⟨path, hpath⟩ := h
    exact ⟨child.id :: path, hpath.cons hc hid⟩
  have hwalk : env.Ends limited f chain child (w.enter child) := ih child _ hid hc hw
  refine .congr (.bind (hwalk.imp hself hbelow) fun e w' hw' => .ok hw' (.refl _) fun _ => rfl) ?_
  rintro ⟨hl, -⟩
  refine ⟨⟨hl, hle hl⟩, ?_⟩
  rw [Nat.sub_add_comm (hle hl), below, inlineChild_some hc]
  rfl

theorem walks_walkSite (ih : env.EndsBelow limited f chain) (hw : w.chain = chain) :
    Walks (env.Sound limited chain) (limited = true ∧ chain.length ≤ env.maxDepth + 1) chain w.calls
      (exec (env.walkSite limited f r s) w)
      (env.inlineSite (env.below (env.maxDepth + 1 - chain.length)) chain r s w.progress) := by
  rw [walkSite, exec_get_bind, inlineSite_eq]
  split
  next => exact .error (.refl _) fun _ => rfl
  rw [exec_modify_bind]
  have hlook : (w.look env r s).chain = chain := hw
  cases hfind : env.find r s with
  | error d => exact walks_fail hlook
  | ok child => exact walks_walkChild ih (mem_ids_of_find hfind) hlook

theorem walks_walkSites (ih : env.EndsBelow limited f chain) (hw : w.chain = chain) :
    Walks (env.Sound limited chain) (limited = true ∧ chain.length ≤ env.maxDepth + 1) chain w.calls
      (exec (env.walkSites limited f r ss) w)
      (env.inlineSites (env.below (env.maxDepth + 1 - chain.length)) chain r ss w.progress) := by
  induction ss generalizing w with
  | nil =>
    rw [walkSites]
    exact .ok hw (.refl _) fun _ => rfl
  | cons s ss ihs =>
    rw [walkSites, inlineSites_cons]
    refine .bind (walks_walkSite ih hw) fun i w₁ h₁ => .bind (ihs h₁) fun parts w₂ h₂ => ?_
    exact .ok h₂ (.refl _) fun _ => rfl

theorem ends_of_endsBelow (ih : env.EndsBelow limited f (chain ++ [r.id])) (hw : w.chain = chain) :
    env.Ends limited (env.walkWith limited f) chain r w := by
  unfold Ends
  rw [walkWith, exec_get_bind, expand_eq]
  cases hc : env.isCancelled w.progress with
  | true =>
    rw [expandWith_of_isCancelled hc]
    exact .error (.refl _) fun _ => rfl
  | false =>
    rw [if_neg (by simp)]
    by_cases hs : r.document.sites = []
    · rw [if_pos hs, expandWith_nil hc hs]
      exact .ok hw (.refl _) fun _ => rfl
    rw [if_neg hs, exec_modify_bind, expandWith_cons hc hs]
    have hpush : (w.push r.id).chain = chain ++ [r.id] := by rw [← hw]; rfl
    have hsites : Walks (env.Sound limited (chain ++ [r.id])) _ (chain ++ [r.id]) w.calls
        (exec (env.walkSites limited f r r.document.sites) (w.push r.id)) _ :=
      walks_walkSites ih hpush
    rw [List.length_append, List.length_singleton, Nat.add_sub_add_right, Nat.add_le_add_iff_right]
      at hsites
    refine hsites.bind fun parts w' hw' => ?_
    rw [exec_modify_bind, exec_liftExcept]
    have hpop : w'.pop.chain = chain := by rw [Stack.pop, hw', List.dropLast_concat]
    cases r.inlineAll parts with
    | ok e => exact .ok hpop (.refl _) fun _ => rfl
    | error f => exact .error (.refl _) fun _ => rfl

end Walks

section Ends

variable {env : ExpandEnv} {limited : Bool} {chain : List ResourceId} {r : Resource} {w : Stack}

/-- Each resource that is added to a chain leaves fewer that can be added. -/
theorem ncard_diff_lt (hfin : env.store.ids.Finite) {id : ResourceId} (hid : id ∈ env.store.ids)
    (hc : id ∉ chain) : (env.store.ids \ {i | i ∈ chain ++ [id]}).ncard <
      (env.store.ids \ {i | i ∈ chain}).ncard := by
  refine Set.ncard_lt_ncard ?_ hfin.sdiff
  refine (Set.ssubset_iff_of_subset ?_).2 ⟨id, ⟨hid, hc⟩, fun hmem => hmem.2 (by simp)⟩
  exact Set.sdiff_subset_sdiff_right fun i hi => List.mem_append_left _ hi

theorem ends_walk (hfin : env.store.ids.Finite) {nesting : Nat} (hw : w.chain = chain)
    (hn : (env.store.ids \ {i | i ∈ chain ++ [r.id]}).ncard < nesting) :
    env.Ends limited (env.walk limited nesting) chain r w := by
  induction nesting generalizing chain r w with
  | zero => cases hn
  | succ nesting ih =>
    -- what is called is in the store and not on the chain, so one resource fewer is left
    refine ends_of_endsBelow (fun child w' hid hc hw' => ih hw' ?_) hw
    exact (ncard_diff_lt hfin hid hc).trans_le (Nat.le_of_lt_succ hn)

/-- Calls are nested no deeper than the store is large. -/
theorem exists_walk (hfin : env.store.ids.Finite) (r : Resource) (w : Stack) : ∃ out w',
    (∀ nesting, env.store.ids.ncard < nesting →
      exec (env.walk limited nesting r) w = some (out, w')) ∧
    (∀ e, out = .ok e → w'.chain = w.chain) ∧
    Call.Adds (env.Sound limited (w.chain ++ [r.id])) w.calls w'.calls ∧
    (limited = true ∧ w.chain.length ≤ env.maxDepth →
      env.expand (env.maxDepth - w.chain.length) w.chain r w.progress = (out, w'.progress)) := by
  have hends : env.Ends limited (env.walk limited (env.store.ids.ncard + 1)) w.chain r w := by
    refine ends_walk hfin rfl (Nat.lt_succ_of_le ?_)
    exact Set.ncard_le_ncard Set.sdiff_subset hfin
  obtain ⟨out, w', hout, hends⟩ := hends.exists_eq_some
  exact ⟨out, w', fun nesting hn => le_walk hn w _ hout, hends⟩

theorem Sound.root {root : Resource} {c : Call} (hfin : env.store.ids.Finite)
    (h : env.Sound limited [root.id] c) :
    c.chain.Nodup ∧ c.chain.head? = some root.id ∧ c.child ∉ c.chain ∧
      (limited = true → c.chain.length ≤ env.maxDepth) ∧ c.chain.length ≤ env.store.ids.ncard := by
  obtain ⟨path, h⟩ := h
  have hchain : c.chain = root.id :: path := h.chain_eq
  have hroot (id : ResourceId) (hid : id ∈ path ++ [c.child]) : id ≠ root.id := by
    simpa using (h.fresh id hid).1
  obtain ⟨hpath, -, hchild⟩ := List.nodup_append.1 h.nodup
  refine ⟨?_, ?_, ?_, h.length_le, ?_⟩
  · rw [hchain]
    exact List.nodup_cons.2 ⟨fun hmem => hroot root.id (by simp [hmem]) rfl, hpath⟩
  · rw [hchain, List.head?_cons]
  · rw [hchain]
    intro hmem
    rcases List.mem_cons.1 hmem with heq | hmem
    · exact hroot c.child (by simp) heq
    · exact hchild c.child hmem c.child (by simp) rfl
  · rw [hchain]
    exact h.length_le_ncard hfin

/-- With a finite store, an expansion that keeps one chain ends, be its depth limited or not: no
call is nested deeper than the store is large. With a limit it yields what a run yields. Each call
is made with a chain that starts with the root, has nothing twice nor what is called, and is not
longer than the limit. An expansion that succeeds leaves the chain as it was, whatever that is. -/
theorem walk_ends (env : ExpandEnv) (limited : Bool) (root : Resource)
    (hfin : env.store.ids.Finite) :
    (∃ out w, (∀ nesting, env.store.ids.ncard < nesting →
        exec (env.walk limited nesting root) (.start root) = some (out, w)) ∧
      (limited = true → env.trace root = (out, w.progress)) ∧
      ∀ c ∈ w.calls, c.chain.Nodup ∧ c.chain.head? = some root.id ∧ c.child ∉ c.chain ∧
        (limited = true → c.chain.length ≤ env.maxDepth) ∧
        c.chain.length ≤ env.store.ids.ncard) ∧
    ∀ r w, ∃ out w', (∀ nesting, env.store.ids.ncard < nesting →
        exec (env.walk limited nesting r) w = some (out, w')) ∧
      ∀ e, out = .ok e → w'.chain = w.chain := by
  constructor
  · obtain ⟨out, w, hout, -, ⟨new, hnew, hsound⟩, hsame⟩ := exists_walk hfin root (.start root)
    refine ⟨out, w, hout, fun hl => hsame ⟨hl, Nat.zero_le _⟩, fun c hc => ?_⟩
    rw [hnew] at hc
    exact Sound.root hfin (hsound c hc)
  · intro r w
    obtain ⟨out, w', hout, hchain, -⟩ := exists_walk hfin r w
    exact ⟨out, w', hout, hchain⟩

/-- A root that imports two resources, each of which imports itself, the other one and the root. -/
theorem walk_ends_tangled :
    let text := "@import \"a\"\n@import \"b\"\n@import \"m\"\n".toList
    let root := Resource.parse Schema.glsl ⟨"s".toList, "m".toList⟩ text
    let store : Store := fun i =>
      .ok (if i ∈ [⟨"s".toList, "a".toList⟩, ⟨"s".toList, "b".toList⟩, root.id] then some text
        else none)
    let env : ExpandEnv := ⟨store, ⟨"s".toList, []⟩, 18446744073709551615, none⟩
    env.store.ids.Finite ∧
      (root.document.sites.map fun s => (env.find root s).isOk) = [true, true, true] ∧
      ∃ out w, exec (env.walk true 4 root) (.start root) = some (out, w) ∧
        env.trace root = (out, w.progress) ∧ ∀ c ∈ w.calls, c.chain.Nodup ∧ c.chain.length ≤ 3 := by
  intro text root store env
  have hids : env.store.ids ⊆
      {i | i ∈ [⟨"s".toList, "a".toList⟩, ⟨"s".toList, "b".toList⟩, root.id]} := by
    rintro i ⟨t, ht⟩
    by_contra hi
    have hnone : store i = .ok none := congrArg Except.ok (if_neg hi)
    cases hnone.symm.trans ht
  have hfin : env.store.ids.Finite := (List.finite_toSet _).subset hids
  have hcard : env.store.ids.ncard ≤ 3 := by
    refine (Set.ncard_le_ncard hids (List.finite_toSet _)).trans ?_
    rw [← List.coe_toFinset, Set.ncard_coe_finset]
    exact List.toFinset_card_le _
  refine ⟨hfin, by decide +kernel, ?_⟩
  obtain ⟨⟨out, w, hout, htrace, hcalls⟩, -⟩ := walk_ends env true root hfin
  refine ⟨out, w, hout 4 (Nat.lt_succ_of_le hcard), htrace rfl, fun c hc => ?_⟩
  obtain ⟨hnodup, -, -, -, hle⟩ := hcalls c hc
  exact ⟨hnodup, hle.trans hcard⟩

end Ends
end ExpandEnv
end ShaderInline
