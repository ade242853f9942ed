import ShaderInline.Files.Tree
import ShaderInline.Proofs.Files.Path

/-! # What operations do to a tree

Where a path leads is told by its segments alone; the tree only decides whether
it can be followed. An operation keeps all directories, and all files but those
it writes, so a path that has been read can be read afterwards.
-/

namespace ShaderInline.FileTree

variable {t t' t'' : FileTree} {path : Path} {place q : Place} {bytes : Utf8.Bytes}
  {admits : Place → Bool} {segments : List Utf8.Bytes}

/-! ### Where a path leads -/

def goTo (place : Place) : List Utf8.Bytes → Place
  | [] => place
  | s :: ss =>
    if s = [] || s = [Path.dot] then goTo place ss
    else if s = [Path.dot, Path.dot] then goTo place.dropLast ss
    else goTo (place ++ [s]) ss

def target (t : FileTree) (path : Path) : Place :=
  goTo (if Path.isAbsolute path then [] else t.cwd) (Text.split Path.slash path)

theorem goTo_append (place : Place) (ss ss' : List Utf8.Bytes) :
    goTo place (ss ++ ss') = goTo (goTo place ss) ss' := by
  fun_induction goTo place ss with
  | case1 => rfl
  | case2 place s ss h ih => rw [List.cons_append, goTo, if_pos h, ih]
  | case3 place ss h ih => rw [List.cons_append, goTo, if_neg h, if_pos rfl, ih]
  | case4 place s ss h h' ih => rw [List.cons_append, goTo, if_neg h, if_neg h', ih]

theorem goTo_nil_segment (place : Place) : goTo place [[]] = place := rfl

theorem goTo_name (place : Place) {s : Utf8.Bytes} (h : Path.IsName s) :
    goTo place [s] = place ++ [s] := by
  obtain ⟨h₁, h₂, h₃⟩ := h
  simp [goTo, h₁, h₂, h₃]

theorem target_join_name (t : FileTree) (path : Path) {s : Utf8.Bytes} (hs : Path.slash ∉ s)
    (hn : Path.IsName s) : t.target (Path.join path s) = t.target path ++ [s] := by
  have habs := Path.isAbsolute_of_not_mem hs
  rw [Path.join, habs, if_neg Bool.false_ne_true]
  rcases List.eq_nil_or_concat path with rfl | ⟨p, c, rfl⟩
  · simp only [target, List.nil_append, List.isEmpty_nil, Bool.true_or, if_true, habs,
      Text.split_of_not_mem hs, goTo_name _ hn]
    rfl
  rw [List.concat_eq_append]
  by_cases hc : c = Path.slash
  · have hroot : Path.isAbsolute (p ++ Path.slash :: s) = Path.isAbsolute (p ++ [Path.slash]) := by
      cases p <;> rfl
    have hnil : Text.split Path.slash [] = [[]] := rfl
    rw [if_pos (by simp [hc]), hc, List.append_assoc, List.singleton_append, target, target, hroot,
      Text.split_append_sep, Text.split_append_sep, Text.split_of_not_mem hs, hnil, goTo_append,
      goTo_append, goTo_name _ hn, goTo_nil_segment]
  · have hroot : Path.isAbsolute (p ++ [c] ++ Path.slash :: s) = Path.isAbsolute (p ++ [c]) := by
      cases p <;> rfl
    rw [if_neg (by simp [hc]), target, target, hroot, Text.split_append_sep,
      Text.split_of_not_mem hs, goTo_append, goTo_name _ hn]

theorem target_foldl_join (t : FileTree) (path : Path) (hs : ∀ s ∈ segments, Path.slash ∉ s)
    (hn : ∀ s ∈ segments, Path.IsName s) :
    t.target (segments.foldl Path.join path) = t.target path ++ segments := by
  induction segments generalizing path with
  | nil => simp
  | cons s ss ih =>
    obtain ⟨hs, hss⟩ := List.forall_mem_cons.1 hs
    obtain ⟨hn, hns⟩ := List.forall_mem_cons.1 hn
    rw [List.foldl_cons, ih _ hss hns, target_join_name t path hs hn, List.append_assoc]
    rfl

/-! ### Places of names -/

/-- A place whose names can be segments of a path. -/
def IsNamed (place : Place) : Prop := ∀ s ∈ place, Path.IsName s ∧ Path.slash ∉ s

instance (place : Place) : Decidable (IsNamed place) :=
  inferInstanceAs (Decidable (∀ s ∈ place, Path.IsName s ∧ Path.slash ∉ s))

theorem isNamed_goTo (hp : IsNamed place) (hs : ∀ s ∈ segments, Path.slash ∉ s) :
    IsNamed (goTo place segments) := by
  fun_induction goTo place segments with
  | case1 => exact hp
  | case2 place s ss h ih => exact ih hp (List.forall_mem_cons.1 hs).2
  | case3 place ss h ih =>
    exact ih (fun s hm => hp s (List.dropLast_subset _ hm)) (List.forall_mem_cons.1 hs).2
  | case4 place s ss h h' ih =>
    obtain ⟨hs, hss⟩ := List.forall_mem_cons.1 hs
    have hn : Path.IsName s := by simp_all [Path.IsName]
    refine ih (fun s' hm => ?_) hss
    rcases List.mem_append.1 hm with hm | hm
    · exact hp s' hm
    · exact List.mem_singleton.1 hm ▸ ⟨hn, hs⟩

theorem isNamed_target (hcwd : IsNamed t.cwd) (path : Path) : IsNamed (t.target path) := by
  refine isNamed_goTo ?_ fun s => Text.not_mem_of_mem_split
  split
  · exact fun s hs => absurd hs List.not_mem_nil
  · exact hcwd

theorem components_display (h : IsNamed place) :
    Path.components (display place) = .root :: place.map .name := by
  have hsplit : (Text.split Path.slash (display place)).filterMap (Path.component? false) =
      place.map .name := by
    rw [display, Text.split_cons_sep]
    cases place with
    | nil => rfl
    | cons s ss =>
      rw [Text.split_join (List.cons_ne_nil _ _) fun s hs => (h s hs).2]
      exact Path.filterMap_component? (fun s hs => (h s hs).1) false
  rw [Path.components, if_pos (by rfl), hsplit]

/-! ### Following a path -/

theorem walk_eq_ok (h : t.walk admits place segments = .ok q) : q = goTo place segments := by
  fun_induction walk t admits place segments with
  | case1 => exact (Except.ok.inj h).symm
  | case2 | case3 | case6 => cases h
  | case4 place s ss _ hs ih => rw [goTo, if_pos hs, ih h]
  | case5 place ss _ hs ih => rw [goTo, if_neg hs, if_pos rfl, ih h]
  | case7 place s ss _ hs hs' _ ih => rw [goTo, if_neg hs, if_neg hs', ih h]

/-- A path stays open as long as the directories stay. -/
theorem walk_mono (hd : ∀ p, t.at? p = some .directory → t'.at? p = some .directory)
    (h : t.walk admits place segments = .ok q) : t'.walk admits place segments = .ok q := by
  fun_induction walk t admits place segments with
  | case1 => exact h
  | case2 | case3 | case6 => cases h
  | case4 place s ss hat hs ih => rw [walk, hd _ hat]; exact (if_pos hs).trans (ih h)
  | case5 place ss hat hs ih =>
    rw [walk, hd _ hat]
    exact (if_neg hs).trans ((if_pos rfl).trans (ih h))
  | case7 place s ss hat hs hs' ha ih =>
    rw [walk, hd _ hat]
    exact (if_neg hs).trans ((if_neg hs').trans ((if_neg ha).trans (ih h)))

theorem follow_eq_ok {new : Bool} (h : t.follow admits new path = .ok q) :
    q = t.target path ∧ (new = false → (t.at? q).isSome = true) := by
  unfold follow at h
  split at h
  · cases h
  split at h
  · cases h
  split at h
  next => cases h
  next place hw =>
    have hplace := walk_eq_ok hw
    split at h
    next hat =>
      obtain rfl := Except.ok.inj h
      exact ⟨hplace, fun _ => by rw [hat]; rfl⟩
    next hat =>
      split at h
      next hnew =>
        obtain rfl := Except.ok.inj h
        exact ⟨hplace, fun hf => by rw [hnew] at hf; cases hf⟩
      next => cases h

theorem resolve_eq_ok {new : Bool} (h : t.resolve new path = .ok q) : q = t.target path := by
  unfold resolve at h
  split at h
  · cases h
  · exact (follow_eq_ok h).1

theorem canonical_eq_ok {p : Path} (h : t.canonical path = .ok p) :
    p = display (t.target path) := by
  unfold canonical at h
  split at h
  next hl =>
    rw [← (follow_eq_ok hl).1]
    exact (Except.ok.inj h).symm
  next => cases h

theorem follow_mono {new : Bool} (hcwd : t'.cwd = t.cwd)
    (hd : ∀ p, t.at? p = some .directory → t'.at? p = some .directory)
    (h : t.follow admits new path = .ok q) (hat : (t'.at? q).isSome = true) :
    t'.follow admits false path = .ok q := by
  unfold follow at h ⊢
  split at h
  · cases h
  next hnul =>
    split at h
    · cases h
    next hempty =>
      rw [if_neg hnul, if_neg hempty, hcwd]
      split at h
      next => cases h
      next place hw =>
        have hq : place = q := by
          split at h
          · exact Except.ok.inj h
          · split at h
            · exact Except.ok.inj h
            · cases h
        obtain ⟨node, hnode⟩ := Option.isSome_iff_exists.1 hat
        simp only [walk_mono hd hw, hq, hnode]

/-! ### What stays -/

theorem at?_put_of_ne {p : Place} (node : FileNode) (h : p ≠ place) :
    (t.put place node).at? p = t.at? p := by
  have hfind : (t.entries.filter (fun e => e.1 != place)).find? (fun e => e.1 == p) =
      t.entries.find? fun e => e.1 == p := by
    rw [List.find?_filter]
    refine congrArg (List.find? · t.entries) (funext fun e => ?_)
    by_cases he : e.1 = p
    · simp [he, h]
    · simp [he]
  rw [at?, at?, put, List.find?_append, hfind]
  simp [Ne.symm h]

theorem at?_put_self (node : FileNode) (h : place ≠ []) :
    (t.put place node).at? place = some node := by
  have hfind : (t.entries.filter (fun e => e.1 != place)).find? (fun e => e.1 == place) = none := by
    simp
  rw [at?, put, if_neg h, List.find?_append, hfind]
  simp

/-- A tree after another, with files written at some places only. Elsewhere there may be new
directories, but everything else is as before. -/
structure After (t t' : FileTree) (places : List Place) : Prop where
  cwd : t'.cwd = t.cwd
  directory : ∀ p, t.at? p = some .directory → t'.at? p = some .directory
  file : ∀ p bytes, p ∉ places → t.at? p = some (.file bytes) → t'.at? p = some (.file bytes)
  fresh : ∀ p, p ∉ places → t.at? p = none → t'.at? p = none ∨ t'.at? p = some .directory

namespace After

variable {places places' : List Place}

theorem refl (t : FileTree) : After t t [] :=
  ⟨rfl, fun _ => id, fun _ _ _ => id, fun _ _ => .inl⟩

theorem trans (h : After t t' places) (h' : After t' t'' places') :
    After t t'' (places ++ places') where
  cwd := h'.cwd.trans h.cwd
  directory := fun p hp => h'.directory p (h.directory p hp)
  file := fun p bytes hp hat => by
    obtain ⟨hp, hp'⟩ := not_or.1 (mt List.mem_append.2 hp)
    exact h'.file p bytes hp' (h.file p bytes hp hat)
  fresh := fun p hp hat => by
    obtain ⟨hp, hp'⟩ := not_or.1 (mt List.mem_append.2 hp)
    rcases h.fresh p hp hat with hat | hat
    · exact h'.fresh p hp' hat
    · exact .inr (h'.directory p hat)

theorem put {node : FileNode} (hd : t.at? place ≠ some .directory)
    (hnew : place ∈ places ∨ node = .directory ∧ t.at? place = none) :
    After t (t.put place node) places where
  cwd := rfl
  directory := fun p hp => by
    have hne : p ≠ place := fun he => hd (he ▸ hp)
    rw [at?_put_of_ne node hne, hp]
  file := fun p bytes hp hat => by
    have hne : p ≠ place := fun he => by
      rcases hnew with hnew | ⟨-, hnone⟩
      · exact hp (he ▸ hnew)
      · rw [he, hnone] at hat
        cases hat
    rw [at?_put_of_ne node hne, hat]
  fresh := fun p hp hat => by
    by_cases he : p = place
    · obtain ⟨rfl, -⟩ := hnew.resolve_left (he ▸ hp)
      have hne : place ≠ [] := fun hnil => hd (by rw [hnil]; rfl)
      exact .inr (by rw [he, at?_put_self .directory hne])
    · exact .inl (by rw [at?_put_of_ne node he, hat])

theorem target_eq (h : After t t' places) (path : Path) : t'.target path = t.target path := by
  rw [target, target, h.cwd]

end After

theorem after_makeDir (h : t.makeDir path = .ok t') : After t t' [] := by
  unfold makeDir at h
  split at h
  next => cases h
  next place _ =>
    split at h
    next => cases h
    next hnone =>
      obtain rfl := Except.ok.inj h
      rw [Option.not_isSome_iff_eq_none] at hnone
      exact .put (by simp [hnone]) (.inr ⟨rfl, hnone⟩)

theorem after_makeDirs (fuel : Nat) (t : FileTree) (path : Path) :
    After t (makeDirs fuel t path).2 [] := by
  induction fuel generalizing path with
  | zero => exact .refl t
  | succ fuel ih =>
    rw [makeDirs]
    split
    next => exact .refl t
    next =>
      split
      next hmade => exact after_makeDir hmade
      next =>
        split
        next => exact .refl t
        next parent _ =>
          have hparent := ih parent
          split
          next hm => exact hm ▸ hparent
          next t₁ hm =>
            rw [hm] at hparent
            split
            next hmade => exact hparent.trans (after_makeDir hmade)
            next => split <;> exact hparent
      next => split <;> exact .refl t

/-! ### Reading and writing -/

theorem read_eq_ok_iff : t.read path = .ok bytes ↔
    t.resolve false path = .ok (t.target path) ∧ t.at? (t.target path) = some (.file bytes) := by
  unfold read stat
  constructor
  · intro h
    rcases hr : t.resolve false path with p | q
    · simp [hr] at h
    obtain rfl := resolve_eq_ok hr
    cases hat : t.at? (t.target path) with
    | none => simp [hr, hat] at h
    | some node => cases node <;> simp_all
  · rintro ⟨hr, hat⟩
    simp [hr, hat]

theorem resolve_mono {new : Bool} {places : List Place} (h : After t t' places)
    (hr : t.resolve new path = .ok q) (hat : (t'.at? q).isSome = true) :
    t'.resolve false path = .ok q := by
  unfold resolve at hr ⊢
  split at hr
  · cases hr
  next hlen => rw [if_neg hlen, follow_mono h.cwd h.directory hr hat]

/-- What has been read can be read again, unless it has been written. -/
theorem After.read {places : List Place} (h : After t t' places) (hr : t.read path = .ok bytes)
    (hp : t.target path ∉ places) : t'.read path = .ok bytes := by
  obtain ⟨hres, hat⟩ := read_eq_ok_iff.1 hr
  have hat' := h.file _ _ hp hat
  refine read_eq_ok_iff.2 ?_
  rw [h.target_eq]
  exact ⟨resolve_mono h hres (by rw [hat']; rfl), hat'⟩

theorem write_eq_ok (h : t.write path bytes = .ok t') :
    t.resolve true path = .ok (t.target path) ∧ t.at? (t.target path) ≠ some .directory ∧
      t' = t.put (t.target path) (.file bytes) := by
  unfold write at h
  rcases hr : t.resolve true path with p | q
  · simp [hr] at h
  obtain rfl := resolve_eq_ok hr
  refine ⟨rfl, ?_⟩
  rw [hr] at h
  dsimp only at h
  split at h
  next => cases h
  next hat => exact ⟨by simp [hat], (Except.ok.inj h).symm⟩
  next hat =>
    split at h
    · cases h
    · exact ⟨by simp [hat], (Except.ok.inj h).symm⟩

/-- Only a directory is reached by a path with a slash at its end. -/
theorem walk_concat_nil (h : t.walk admits place (segments ++ [[]]) = .ok q) :
    t.at? q = some .directory := by
  induction segments generalizing place with
  | nil =>
    rw [List.nil_append, walk] at h
    split at h
    next => cases h
    next => cases h
    next hat => exact Except.ok.inj h ▸ hat
  | cons s ss ih =>
    rw [List.cons_append, walk] at h
    split at h
    next => cases h
    next => cases h
    next =>
      split at h
      · exact ih h
      split at h
      · exact ih h
      split at h
      · cases h
      · exact ih h

theorem getLast?_of_write (h : t.write path bytes = .ok t') :
    ∃ c, path.getLast? = some c ∧ c ≠ Path.slash := by
  obtain ⟨hres, hd, -⟩ := write_eq_ok h
  unfold resolve at hres
  split at hres
  · cases hres
  unfold follow at hres
  split at hres
  · cases hres
  rcases List.eq_nil_or_concat path with rfl | ⟨p, c, rfl⟩
  · cases hres
  rw [List.concat_eq_append] at hres hd ⊢
  refine ⟨c, List.getLast?_concat, ?_⟩
  rintro rfl
  have hnil : Text.split Path.slash [] = [[]] := rfl
  rw [if_neg (by simp), Text.split_append_sep, hnil] at hres
  split at hres
  next => cases hres
  next place hw =>
    have hplace : place = t.target (p ++ [Path.slash]) := by
      rw [walk_eq_ok hw, target, Text.split_append_sep, hnil]
    exact hd (hplace ▸ walk_concat_nil hw)

theorem after_write (h : t.write path bytes = .ok t') : After t t' [t.target path] := by
  obtain ⟨-, hd, rfl⟩ := write_eq_ok h
  exact .put hd (.inl (List.mem_singleton.2 rfl))

theorem read_write (h : t.write path bytes = .ok t') : t'.read path = .ok bytes := by
  have hafter := after_write h
  obtain ⟨hres, hd, rfl⟩ := write_eq_ok h
  have hne : t.target path ≠ [] := fun hnil => hd (by rw [hnil]; rfl)
  have hat := at?_put_self (t := t) (.file bytes) hne
  refine read_eq_ok_iff.2 ?_
  rw [hafter.target_eq]
  exact ⟨resolve_mono hafter hres (by rw [hat]; rfl), hat⟩

end ShaderInline.FileTree
