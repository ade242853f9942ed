import ShaderInline.Proofs.Resource.Reference

/-! # Normalization in steps

A walk along a path can stop after some of its segments and go on from the
normal form of what it has passed. So a directory may be exchanged for its normal
form before anything is looked up in it, and importers whose directories are
written in two ways see the same resources.
-/

namespace ShaderInline.Reference

variable {a b n path : Text} {behind segments more : List Text}

/-! ### Walks -/

theorem walk_append (behind segments more : List Text) :
    walk behind (segments ++ more) = walk (walk behind segments).reverse more := by
  fun_induction walk behind segments with
  | case1 behind => rw [List.nil_append, List.reverse_reverse]
  | case2 behind segment rest h ih => rw [List.cons_append, walk, if_pos h, ih]
  | case3 behind rest h ih => rw [List.cons_append, walk, if_neg h, if_pos rfl, ih]
  | case4 behind segment rest h h' ih => rw [List.cons_append, walk, if_neg h, if_neg h', ih]

theorem walk_names (h : ∀ s ∈ segments, IsName s) :
    walk behind segments = behind.reverse ++ segments := by
  induction segments generalizing behind with
  | nil => rw [walk, List.append_nil]
  | cons s ss ih =>
    obtain ⟨⟨hempty, hdot, hdots⟩, hss⟩ := List.forall_mem_cons.1 h
    rw [walk, if_neg (by simp [hempty, hdot]), if_neg hdots, ih hss, List.reverse_cons,
      List.append_assoc, List.singleton_append]

/-! ### Normal forms -/

theorem normalize_of_invalid {c : Char} (h : path.find? isInvalid = some c) :
    normalize path = .error (.invalidChar c) := by
  unfold normalize
  rw [h]

theorem normalize_of_valid (h : path.find? isInvalid = none) :
    normalize path = if walk [] (Text.split '/' path) = [] then .error .empty
      else .ok (Text.join ['/'] (walk [] (Text.split '/' path))) := by
  unfold normalize
  rw [h]
  simp only [List.isEmpty_iff]

theorem valid_of_normalize (h : normalize path = .ok n) : path.find? isInvalid = none := by
  unfold normalize at h
  split at h
  · cases h
  · assumption

/-- The segments of a normal form are those that the walk along the path has kept. -/
theorem split_of_normalize (h : normalize path = .ok n) :
    Text.split '/' n = walk [] (Text.split '/' path) := by
  rw [normalize_of_valid (valid_of_normalize h)] at h
  split at h
  · cases h
  next hne =>
    obtain rfl := Except.ok.inj h
    apply Text.split_join hne
    intro s hs
    rcases mem_walk hs with hs | ⟨hs, -⟩
    · cases hs
    · exact Text.not_mem_of_mem_split hs

theorem Normal.find?_isInvalid (h : Normal n) : n.find? isInvalid = none := by
  rw [List.find?_eq_none]
  intro c hc
  simp [h.valid c hc]

theorem Normal.walk_split (h : Normal n) : walk [] (Text.split '/' n) = Text.split '/' n :=
  walk_names h.names

theorem Normal.normalize_eq (h : Normal n) : normalize n = .ok n := by
  obtain ⟨s, ss, hs⟩ := Text.exists_split '/' n
  rw [normalize_of_valid h.find?_isInvalid, h.walk_split, if_neg (by simp [hs]), Text.join_split]

theorem find?_append_slash (ha : a.find? isInvalid = none) (b : Text) :
    (a ++ '/' :: b).find? isInvalid = b.find? isInvalid := by
  have hslash : isInvalid '/' = false := by decide
  rw [List.find?_append, ha, Option.none_or, List.find?_cons_of_neg (by simp [hslash])]

/-- The first part of a path may be exchanged for its normal form. -/
theorem normalize_append_congr (h : normalize a = .ok n) (b : Text) :
    normalize (a ++ '/' :: b) = normalize (n ++ '/' :: b) := by
  have hn : Normal n := normalize_eq_ok h
  have hfa := find?_append_slash (valid_of_normalize h) b
  have hfn := find?_append_slash hn.find?_isInvalid b
  cases hb : b.find? isInvalid with
  | some c => rw [normalize_of_invalid (hfa.trans hb), normalize_of_invalid (hfn.trans hb)]
  | none =>
    have hwalk : walk [] (Text.split '/' (a ++ '/' :: b)) =
        walk [] (Text.split '/' (n ++ '/' :: b)) := by
      rw [Text.split_append_sep, Text.split_append_sep, walk_append, walk_append, hn.walk_split,
        split_of_normalize h]
    rw [normalize_of_valid (hfa.trans hb), normalize_of_valid (hfn.trans hb), hwalk]

/-! ### Importers -/

def toldTo (importer : ResourceId) (d : Diagnostic) : Diagnostic := { d with importer := importer }

variable {options : Options} {x y : ResourceId}

/-- Two importers of one namespace find a reference at the same place, or each in its own
directory. -/
theorem locate_importers (hns : x.ns = y.ns) (options : Options) (reference : Text) :
    locate options (some y) reference =
        (locate options (some x) reference).mapError (toldTo y) ∨
      locate options (some x) reference = .ok (x.ns, x.dir ++ '/' :: reference) ∧
        locate options (some y) reference = .ok (x.ns, y.dir ++ '/' :: reference) := by
  unfold locate
  split
  · split
    · exact .inl rfl
    · exact .inl rfl
  · split
    · split
      · exact .inl rfl
      · exact .inl rfl
    · dsimp only
      split
      · exact .inr ⟨rfl, by rw [hns]⟩
      · exact .inl rfl

theorem resolve_importers (hns : x.ns = y.ns) (hx : normalize x.dir = .ok n)
    (hy : normalize y.dir = .ok n) (reference : Text) :
    resolve options (some y) reference =
      (resolve options (some x) reference).mapError (toldTo y) := by
  unfold resolve
  dsimp only
  split
  · rfl
  · rcases locate_importers hns options (Text.trim reference) with h | ⟨h, h'⟩
    · rw [h]
      cases locate options (some x) (Text.trim reference) with
      | error d => rfl
      | ok found =>
        dsimp only [Except.mapError]
        cases normalize found.2 with
        | error p => rfl
        | ok path => rfl
    · rw [h, h']
      dsimp only
      rw [normalize_append_congr hx, ← normalize_append_congr hy]
      cases normalize (y.dir ++ '/' :: Text.trim reference) with
      | error p => rfl
      | ok path => rfl

/-- Normalization is a congruence. A normal form is normal, and it may stand for the path at the
start of any longer one, errors included. So importers of one namespace whose directories have one
normal form resolve each reference, relative or not, to the same id or with the same error. -/
theorem normalize_congruence :
    (∀ a n, normalize a = .ok n → normalize n = .ok n ∧
      ∀ b, normalize (a ++ '/' :: b) = normalize (n ++ '/' :: b)) ∧
    ∀ (x y : ResourceId) (n : Text), x.ns = y.ns → normalize x.dir = .ok n →
      normalize y.dir = .ok n → ∀ (options : Options) (reference : Text),
        resolve options (some y) reference =
          (resolve options (some x) reference).mapError (toldTo y) := by
  constructor
  · intro a n h
    exact ⟨(normalize_eq_ok h).normalize_eq, normalize_append_congr h⟩
  · intro x y n hns hx hy options reference
    exact resolve_importers hns hx hy reference

/-- A path that climbs above its root in the middle, and two importers in one directory, of which
a reference climbs above the root and another one is refused. -/
theorem normalize_congruence_climbing :
    let x : ResourceId := ⟨"lib".toList, "y/./z/m".toList⟩
    let y : ResourceId := ⟨"lib".toList, "q/../../y//z/k".toList⟩
    normalize "x/../../y/./z//".toList = .ok "y/z".toList ∧
      normalize "y/z".toList = .ok "y/z".toList ∧
      normalize "x/../../y/./z///../../../w".toList = normalize "y/z/../../../w".toList ∧
      normalize x.dir = .ok "y/z".toList ∧ normalize y.dir = .ok "y/z".toList ∧
      resolve .standard (some x) " ../../../w:".toList =
        .error (.malformed "../../../w:".toList x "invalid namespace '../../../w'".toList) ∧
      resolve .standard (some y) " ../../../w:".toList =
        .error (.malformed "../../../w:".toList y "invalid namespace '../../../w'".toList) ∧
      resolve .standard (some y) " ../../../w".toList = .ok ⟨"lib".toList, "w".toList⟩ := by
  intro x y
  have ha : normalize "x/../../y/./z//".toList = .ok "y/z".toList := by rfl
  have hx : normalize x.dir = .ok "y/z".toList := by rfl
  have hy : normalize y.dir = .ok "y/z".toList := by rfl
  obtain ⟨hpath, himporter⟩ := normalize_congruence
  obtain ⟨hn, hb⟩ := hpath _ _ ha
  have hr := himporter x y _ rfl hx hy .standard
  exact ⟨ha, hn, hb "../../../w".toList, hx, hy, rfl, hr _, hr _⟩

end ShaderInline.Reference
