import ShaderInline.Files.Store
import ShaderInline.Proofs.Files.Path

/-! # Where a reference can lead

A normalized path is made of names between slashes. It holds no dot segment
and no character that a path must not hold, so the file of a resource stands
below the root of its namespace, whatever the reference and the importing
resource look like.
-/

namespace ShaderInline.Reference

/-- A segment that is neither empty nor made of one or two dots. -/
def IsName (s : Text) : Prop := s ≠ [] ∧ s ≠ ['.'] ∧ s ≠ ['.', '.']

structure Normal (path : Text) : Prop where
  valid : ∀ c ∈ path, isInvalid c = false
  names : ∀ s ∈ Text.split '/' path, IsName s

theorem Normal.ne_nil {path : Text} (h : Normal path) : path ≠ [] := by
  rintro rfl
  exact (h.names [] (List.mem_singleton.2 rfl)).1 rfl

/-! ### Normalization -/

theorem mem_walk {behind segments : List Text} {s : Text} (h : s ∈ walk behind segments) :
    s ∈ behind ∨ s ∈ segments ∧ IsName s := by
  fun_induction walk behind segments with
  | case1 behind => exact .inl (List.mem_reverse.1 h)
  | case2 behind segment rest _ ih => exact (ih h).imp_right (.imp_left (List.mem_cons_of_mem _))
  | case3 behind rest _ ih =>
    exact (ih h).imp (List.mem_of_mem_tail ·) (.imp_left (List.mem_cons_of_mem _))
  | case4 behind segment rest h₁ h₂ ih =>
    rcases ih h with h | h
    · rcases List.mem_cons.1 h with rfl | h
      · have hn : IsName s := by simp_all [IsName]
        exact .inr ⟨List.mem_cons_self, hn⟩
      · exact .inl h
    · exact .inr (h.imp_left (List.mem_cons_of_mem _))

theorem normalize_eq_ok {path p : Text} (h : normalize path = .ok p) : Normal p := by
  unfold normalize at h
  split at h
  next => cases h
  next hfind =>
    have hvalid : ∀ c ∈ path, isInvalid c = false := by simpa using hfind
    dsimp only at h
    split at h
    next => cases h
    next hne =>
      obtain rfl := Except.ok.inj h
      have hmem : ∀ s ∈ walk [] (Text.split '/' path),
          s ∈ Text.split '/' path ∧ IsName s := fun s hs => by
        simpa using mem_walk hs
      constructor
      case valid =>
        intro c hc
        rcases Text.mem_join hc with rfl | ⟨s, hs, hc⟩
        · decide
        · exact hvalid c (Text.mem_of_mem_split (hmem s hs).1 hc)
      case names =>
        have hsep : ∀ s ∈ walk [] (Text.split '/' path), '/' ∉ s := fun s hs =>
          Text.not_mem_of_mem_split (hmem s hs).1
        rw [Text.split_join (by simpa using hne) hsep]
        exact fun s hs => (hmem s hs).2

/-! ### Resolution -/

theorem locate_eq_ok {options : Options} {importer : Option ResourceId} {reference ns path : Text}
    (h : locate options importer reference = .ok (ns, path)) :
    ns = options.ns ∨ (∃ i, importer = some i ∧ ns = i.ns) ∨ isNamespace ns = true := by
  unfold locate at h
  repeat' split at h
  all_goals simp_all

theorem resolve_eq_ok {options : Options} {importer : Option ResourceId} {reference : Text}
    {id : ResourceId} (h : resolve options importer reference = .ok id) :
    ∃ path, locate options importer (Text.trim reference) = .ok (id.ns, path) ∧
      normalize path = .ok id.path := by
  unfold resolve at h
  dsimp only at h
  split at h
  next => cases h
  next =>
    split at h
    next => cases h
    next ns path hl =>
      split at h
      next p hp =>
        obtain rfl := Except.ok.inj h
        exact ⟨path, hl, hp⟩
      next => cases h

theorem isNamespace_iff {t : Text} :
    isNamespace t = true ↔
      t ≠ [] ∧ ∀ c ∈ t, c.isAlphanum = true ∨ c = '_' ∨ c = '-' ∨ c = '.' := by
  simp [isNamespace, isNamespaceChar, or_assoc]

theorem isInvalid_eq_false_iff {c : Char} :
    isInvalid c = false ↔ Text.isControl c = false ∧ c ∉ forbidden := by
  simp [isInvalid]

theorem Normal.components_path? {id : ResourceId} {r : Roots Path} {root : Path}
    (h : Normal id.path) (hr : r.get? id.ns = some root) :
    ∃ path, r.path? id = some path ∧
      Path.components path =
        Path.components root ++ (Text.split '/' id.path).map fun s => .name (Utf8.encode s) := by
  refine ⟨Path.descend root id.path, by rw [Roots.path?, hr]; rfl, ?_⟩
  exact Path.components_descend root fun s hs => Path.isName_encode_iff.2 (h.names s hs)

/-- References cannot escape: the path of the resource is made of names, the namespace is one of
the two that are given or a word, and the file stands below the root of the namespace, at
exactly these names. -/
theorem resolve_confined {options : Options} {importer : Option ResourceId} {reference : Text}
    {id : ResourceId} (h : resolve options importer reference = .ok id) :
    id.path ≠ [] ∧ (∀ c ∈ id.path, Text.isControl c = false ∧ c ∉ forbidden) ∧
      (∀ s ∈ Text.split '/' id.path, s ≠ [] ∧ s ≠ ['.'] ∧ s ≠ ['.', '.']) ∧
      (id.ns = options.ns ∨ (∃ i, importer = some i ∧ id.ns = i.ns) ∨
        id.ns ≠ [] ∧ ∀ c ∈ id.ns, c.isAlphanum = true ∨ c = '_' ∨ c = '-' ∨ c = '.') ∧
      ∀ (r : Roots Path) (root : Path), r.get? id.ns = some root →
        ∃ path, r.path? id = some path ∧
          Path.components path = Path.components root ++
            (Text.split '/' id.path).map fun s => .name (Utf8.encode s) := by
  obtain ⟨path, hl, hn⟩ := resolve_eq_ok h
  have hid : Normal id.path := normalize_eq_ok hn
  refine ⟨hid.ne_nil, fun c hc => isInvalid_eq_false_iff.1 (hid.valid c hc), hid.names, ?_,
    fun r root => hid.components_path?⟩
  rw [← isNamespace_iff]
  exact locate_eq_ok hl

/-- A relative reference from an importer whose own path climbs above its root. -/
theorem resolve_confined_climbing :
    resolve .standard (some ⟨"lib".toList, "../../a/./b".toList⟩) " ../../..//x/./y ".toList =
        .ok ⟨"lib".toList, "x/y".toList⟩ ∧
      ∃ path, (Roots.ofList [("lib".toList, Utf8.encode "/r/".toList)]).path?
          ⟨"lib".toList, "x/y".toList⟩ = some path ∧
        Path.components path =
          [.root, .name (Utf8.encode ['r']), .name (Utf8.encode ['x']),
            .name (Utf8.encode ['y'])] := by
  have h : resolve .standard (some ⟨"lib".toList, "../../a/./b".toList⟩)
      " ../../..//x/./y ".toList = .ok ⟨"lib".toList, "x/y".toList⟩ := rfl
  obtain ⟨path, hp, hc⟩ :=
    (resolve_confined h).2.2.2.2 (.ofList [("lib".toList, Utf8.encode "/r/".toList)])
      (Utf8.encode "/r/".toList) (by decide)
  exact ⟨h, path, hp, hc.trans (by decide)⟩

end ShaderInline.Reference
