import ShaderInline.Files.Path
import ShaderInline.Proofs.Files.Utf8
import ShaderInline.Proofs.Text.Split

/-! # Paths by their components

A segment that is a name, joined to a path, is one more component at the end,
however the path is written: empty, with a slash at its end or without one. The
text that stands for a name is a name, too, even if bytes of it were replaced.
-/

namespace ShaderInline.Path

/-- A segment that is neither empty nor made of one or two dots. -/
def IsName (s : Utf8.Bytes) : Prop := s ≠ [] ∧ s ≠ [dot] ∧ s ≠ [dot, dot]

instance (s : Utf8.Bytes) : Decidable (IsName s) :=
  inferInstanceAs (Decidable (s ≠ [] ∧ s ≠ [dot] ∧ s ≠ [dot, dot]))

theorem isName_encode_iff {s : Text} :
    IsName (Utf8.encode s) ↔ s ≠ [] ∧ s ≠ ['.'] ∧ s ≠ ['.', '.'] := by
  have hne (t : Text) : Utf8.encode s ≠ Utf8.encode t ↔ s ≠ t := not_congr Utf8.encode_inj
  exact and_congr (hne []) (and_congr (hne ['.']) (hne ['.', '.']))

theorem not_mem_encode {s : Text} (h : '/' ∉ s) : slash ∉ Utf8.encode s := fun hs =>
  h (Utf8.mem_of_mem_encode hs (by decide))

theorem not_mem_lossyText {s : Utf8.Bytes} (h : slash ∉ s) : '/' ∉ Utf8.lossyText s := fun hs =>
  h (Utf8.mem_of_mem_lossyText hs (by decide))

theorem isName_lossyText {s : Utf8.Bytes} (h : IsName s) :
    IsName (Utf8.encode (Utf8.lossyText s)) := by
  have hback {t : Text} (ht : ∀ c ∈ t, c.toNat < 0x80) (hs : s ≠ Utf8.encode t) :
      Utf8.lossyText s ≠ t := by
    rintro rfl
    exact hs (Utf8.encode_lossyText ht).symm
  exact isName_encode_iff.2
    ⟨hback (by simp) h.1, hback (by simp) h.2.1, hback (by simp) h.2.2⟩

theorem component?_of_isName {s : Utf8.Bytes} (h : IsName s) (first : Bool) :
    component? first s = some (.name s) := by
  obtain ⟨h₁, h₂, h₃⟩ := h
  rw [component?, if_neg h₁, if_neg h₂, if_neg h₃]

theorem filterMap_component? {segments : List Utf8.Bytes} (h : ∀ s ∈ segments, IsName s)
    (first : Bool) :
    segments.filterMap (component? first) = segments.map .name := by
  induction segments with
  | nil => rfl
  | cons s ss ih =>
    obtain ⟨hs, hss⟩ := List.forall_mem_cons.1 h
    rw [List.filterMap_cons_some (component?_of_isName hs first), ih hss, List.map_cons]

theorem components_append_slash (path more : Path) :
    components (path ++ slash :: more) =
      components (path ++ [slash]) ++ (Text.split slash more).filterMap (component? false) := by
  have ha : isAbsolute (path ++ slash :: more) = isAbsolute (path ++ [slash]) := by
    cases path <;> rfl
  have hs : Text.split slash [] = [[]] := rfl
  rw [components, components, ha, Text.split_append_sep, Text.split_append_sep, hs]
  split
  next => simp [component?]
  next =>
    obtain ⟨s, ss, hp⟩ := Text.exists_split slash path
    simp [hp, component?]

/-- A slash at the end of a path means nothing. -/
theorem components_append_singleton {path : Path} (h : path ≠ []) :
    components (path ++ [slash]) = components path := by
  have ha : isAbsolute (path ++ [slash]) = isAbsolute path := by
    cases path with
    | nil => exact absurd rfl h
    | cons c cs => rfl
  have hs : Text.split slash [] = [[]] := rfl
  rw [components, components, ha, Text.split_append_sep, hs]
  split
  next => simp [component?]
  next =>
    obtain ⟨s, ss, hp⟩ := Text.exists_split slash path
    simp [hp, component?]

theorem isAbsolute_of_not_mem {s : Utf8.Bytes} (h : slash ∉ s) : isAbsolute s = false := by
  cases s with
  | nil => rfl
  | cons c cs => simpa [isAbsolute] using (List.ne_of_not_mem_cons h).symm

theorem components_name {s : Utf8.Bytes} (hs : slash ∉ s) (hn : IsName s) :
    components s = [.name s] := by
  simp [components, isAbsolute_of_not_mem hs, Text.split_of_not_mem hs, component?_of_isName hn]

theorem components_join_name (path : Path) {s : Utf8.Bytes} (hs : slash ∉ s) (hn : IsName s) :
    components (join path s) = components path ++ [.name s] := by
  have hsplit : (Text.split slash s).filterMap (component? false) = [.name s] := by
    simp [Text.split_of_not_mem hs, component?_of_isName hn]
  rw [join, isAbsolute_of_not_mem hs, if_neg Bool.false_ne_true]
  rcases List.eq_nil_or_concat path with rfl | ⟨p, c, rfl⟩
  · exact components_name hs hn
  rw [List.concat_eq_append]
  by_cases hc : c = slash
  · have hlast : (p ++ [c]).getLast? = some slash := by simp [hc]
    rw [hlast, decide_eq_true rfl, Bool.or_true, if_pos rfl, hc, List.append_assoc,
      List.singleton_append, components_append_slash, hsplit]
  · have hlast : ((p ++ [c]).isEmpty || decide ((p ++ [c]).getLast? = some slash)) = false := by
      simp [hc]
    rw [hlast, if_neg Bool.false_ne_true, components_append_slash, hsplit,
      components_append_singleton (by simp)]

theorem components_foldl_join {segments : List Utf8.Bytes} (path : Path)
    (hs : ∀ s ∈ segments, slash ∉ s) (hn : ∀ s ∈ segments, IsName s) :
    components (segments.foldl join path) = components path ++ segments.map .name := by
  induction segments generalizing path with
  | nil => simp
  | cons s ss ih =>
    obtain ⟨hs, hss⟩ := List.forall_mem_cons.1 hs
    obtain ⟨hn, hns⟩ := List.forall_mem_cons.1 hn
    rw [List.foldl_cons, ih _ hss hns, components_join_name path hs hn, List.append_assoc]
    rfl

def IsNamed (path : Text) : Prop := ∀ s ∈ Text.split '/' path, IsName (Utf8.encode s)

theorem not_mem_segments (path : Text) :
    ∀ s ∈ (Text.split '/' path).map Utf8.encode, slash ∉ s :=
  List.forall_mem_map.2 fun _ hs => not_mem_encode (Text.not_mem_of_mem_split hs)

theorem components_descend (dir : Path) {path : Text} (h : IsNamed path) :
    components (descend dir path) =
      components dir ++ (Text.split '/' path).map fun s => .name (Utf8.encode s) := by
  rw [descend, components_foldl_join dir (not_mem_segments path) (List.forall_mem_map.2 h),
    List.map_map]
  rfl

end ShaderInline.Path
