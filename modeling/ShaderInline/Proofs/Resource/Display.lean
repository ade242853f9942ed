import ShaderInline.Proofs.Resource.Normalize
import ShaderInline.Proofs.Text.Trim

/-! # Reading the canonical form of an id

Reading trims the form before it divides it at its first colon. The namespace and
the start of the path take no harm from that, but the path may end with a blank: a
reference is trimmed before its path is normalized, and the segment that comes
last in the end need not have come last in the reference. Such a path is read as a
shorter one or not at all.
-/

namespace ShaderInline

namespace Text

theorem breakAt?_append {sep : Char} {a : Text} (h : sep ∉ a) (b : Text) :
    breakAt? sep (a ++ sep :: b) = some (a, b) := by
  induction a with
  | nil => exact if_pos rfl
  | cons c a ih =>
    have hc : c ≠ sep := (List.ne_of_not_mem_cons h).symm
    rw [List.cons_append, breakAt?, if_neg hc, ih (List.not_mem_of_not_mem_cons h)]
    rfl

theorem length_join (sep : Char) {parts : List Text} (h : parts ≠ []) :
    (join [sep] parts).length + 1 = (parts.map (·.length + 1)).sum := by
  induction parts with
  | nil => exact absurd rfl h
  | cons p ps ih =>
    cases ps with
    | nil => simp [join]
    | cons q qs =>
      have hrest := ih (List.cons_ne_nil q qs)
      rw [join_cons_cons, List.map_cons, List.sum_cons, ← hrest]
      simp only [List.length_append, List.length_singleton]
      omega

end Text

namespace Reference

variable {ns path n : Text} {c : Char}

/-! ### Lengths -/

theorem walk_sublist (behind segments : List Text) :
    List.Sublist (walk behind segments) (behind.reverse ++ segments) := by
  fun_induction walk behind segments with
  | case1 behind => simp
  | case2 behind segment rest _ ih =>
    exact ih.trans (.append_left (List.sublist_cons_self _ _) _)
  | case3 behind rest _ ih =>
    refine ih.trans (.append ?_ (List.sublist_cons_self _ _))
    exact List.reverse_sublist.2 (List.tail_sublist behind)
  | case4 behind segment rest _ _ ih => simpa using ih

theorem length_of_normalize (h : normalize path = .ok n) : n.length ≤ path.length := by
  obtain ⟨part, parts, hparts⟩ := Text.exists_split '/' path
  obtain ⟨name, names, hnames⟩ := Text.exists_split '/' n
  have hkept : List.Sublist (Text.split '/' n) (Text.split '/' path) := by
    rw [split_of_normalize h]
    exact walk_sublist [] _
  have hsum := (hkept.map (·.length + 1)).sum_le_sum fun k _ => Nat.zero_le k
  rw [← Text.length_join '/' (by simp [hnames]),
    ← Text.length_join '/' (by simp [hparts]), Text.join_split, Text.join_split] at hsum
  omega

/-! ### Namespaces -/

theorem isBlank_namespaceChar (h : isNamespaceChar c = true) : Text.isBlank c = false := by
  by_cases hw : Text.isWordPart c = true
  · exact Text.isBlank_wordPart hw
  · obtain rfl | rfl : c = '-' ∨ c = '.' := by
      simp_all [isNamespaceChar, Text.isWordPart]
    · decide
    · decide

theorem isNamespaceChar_of_mem (h : isNamespace ns = true) (hc : c ∈ ns) :
    isNamespaceChar c = true := by
  unfold isNamespace at h
  rw [Bool.and_eq_true, List.all_eq_true] at h
  exact h.2 c hc

theorem colon_not_mem (h : isNamespace ns = true) : ':' ∉ ns := by
  intro hc
  have := isNamespaceChar_of_mem h hc
  revert this
  decide

theorem ne_nil_of_isNamespace (h : isNamespace ns = true) : ns ≠ [] := by
  rintro rfl
  cases h

/-- Of a reference with a namespace just the end of the path is trimmed. -/
theorem trim_namespaced (h : isNamespace ns = true) (path : Text) :
    Text.trim (ns ++ ':' :: path) = ns ++ ':' :: Text.trimEnd path := by
  have hstart : Text.trimStart (ns ++ ':' :: path) = ns ++ ':' :: path := by
    apply Text.trimStart_eq_self
    intro c hc
    obtain ⟨d, ds, rfl⟩ := List.exists_cons_of_ne_nil (ne_nil_of_isNamespace h)
    obtain rfl : d = c := by simpa using hc
    exact isBlank_namespaceChar (isNamespaceChar_of_mem h List.mem_cons_self)
  rw [Text.trim, hstart, Text.trimEnd_append (by decide)]

theorem resolve_namespaced (h : isNamespace ns = true) (options : Options)
    (importer : Option ResourceId) (path : Text) :
    resolve options importer (ns ++ ':' :: path) =
      match normalize (Text.trimEnd path) with
      | .ok p => .ok ⟨ns, p⟩
      | .error e => .error (.malformed (ns ++ ':' :: Text.trimEnd path) importer e.message) := by
  have hlocate : locate options importer (ns ++ ':' :: Text.trimEnd path) =
      .ok (ns, Text.trimEnd path) := by
    unfold locate
    rw [Text.breakAt?_append (colon_not_mem h)]
    exact if_pos h
  unfold resolve
  rw [trim_namespaced h]
  dsimp only
  rewrite [if_neg (by simp), hlocate]
  rfl

theorem resolve_isNamespace {options : Options} {importer : Option ResourceId} {reference : Text}
    {id : ResourceId} (ho : isNamespace options.ns = true)
    (hi : ∀ i, importer = some i → isNamespace i.ns = true)
    (h : resolve options importer reference = .ok id) : isNamespace id.ns = true := by
  obtain ⟨path, hl, -⟩ := resolve_eq_ok h
  rcases locate_eq_ok hl with hns | ⟨i, hsome, hns⟩ | hns
  · rw [hns]
    exact ho
  · rw [hns]
    exact hi i hsome
  · exact hns

end Reference

namespace ResourceId

open Reference

variable {id id' : ResourceId}

theorem parse_display (h : isNamespace id.ns = true) :
    parse id.display = resolve .standard none id.display := by
  unfold parse display
  rw [Text.breakAt?_append (colon_not_mem h)]
  exact if_neg (by simpa using ne_nil_of_isNamespace h)

theorem parse_display_eq_ok_iff (h : isNamespace id.ns = true) :
    parse id.display = .ok id' ↔
      id'.ns = id.ns ∧ normalize (Text.trimEnd id.path) = .ok id'.path := by
  rw [parse_display h, display, resolve_namespaced h]
  cases normalize (Text.trimEnd id.path) with
  | error e => simp
  | ok p =>
    obtain ⟨ns', path'⟩ := id'
    simp [eq_comm]

/-- A form that is not read as the id it is of is read as a shorter path in the same namespace. -/
theorem length_of_parse_display (h : isNamespace id.ns = true) (hn : Normal id.path)
    (hread : parse id.display = .ok id') (hne : id' ≠ id) :
    id'.ns = id.ns ∧ id'.path.length < id.path.length := by
  obtain ⟨hns, hpath⟩ := (parse_display_eq_ok_iff h).1 hread
  refine ⟨hns, (length_of_normalize hpath).trans_lt ?_⟩
  by_contra hlen
  have htrim := (Text.trimEnd_prefix id.path).eq_of_length_le (Nat.le_of_not_lt hlen)
  rw [htrim, hn.normalize_eq] at hpath
  apply hne
  obtain ⟨ns, path⟩ := id
  obtain ⟨ns', path'⟩ := id'
  exact congrArg₂ mk hns (Except.ok.inj hpath).symm

/-- A resolved id is read back just if its path does not end with a blank. If it does, the form is
refused or read as a shorter path in the same namespace. -/
theorem parse_display_iff {options : Options} {importer : Option ResourceId} {reference : Text}
    (ho : isNamespace options.ns = true) (hi : ∀ i, importer = some i → isNamespace i.ns = true)
    (h : resolve options importer reference = .ok id) :
    (parse id.display = .ok id ↔ ∀ c, id.path.getLast? = some c → Text.isBlank c = false) ∧
      ∀ id', parse id.display = .ok id' → id' ≠ id →
        id'.ns = id.ns ∧ id'.path.length < id.path.length := by
  have hns := resolve_isNamespace ho hi h
  have hnormal : Normal id.path := by
    obtain ⟨path, -, hn⟩ := resolve_eq_ok h
    exact normalize_eq_ok hn
  refine ⟨?_, fun id' => length_of_parse_display hns hnormal⟩
  change _ ↔ ∀ c ∈ id.path.getLast?, _
  rw [parse_display_eq_ok_iff hns, ← Text.trimEnd_eq_self_iff]
  constructor
  · rintro ⟨-, hread⟩
    exact (Text.trimEnd_prefix id.path).eq_of_length_le (length_of_normalize hread)
  · intro hend
    rw [hend]
    exact ⟨rfl, hnormal.normalize_eq⟩

/-- A path that starts with a blank, holds colons and ends with a dot segment in the reference. -/
theorem parse_display_iff_colons :
    let options : Options := ⟨"game-1.x".toList, [' ']⟩
    let importer : ResourceId := ⟨"lib".toList, "a /m".toList⟩
    let id : ResourceId := ⟨"n_0".toList, " c.:d/ e".toList⟩
    resolve options (some importer) " n_0:b /../ c.:d/ e/. ".toList = .ok id ∧
      id.display = "n_0: c.:d/ e".toList ∧ parse "n_0: c.:d/ e".toList = .ok id := by
  intro options importer id
  have h : resolve options (some importer) " n_0:b /../ c.:d/ e/. ".toList = .ok id := by rfl
  have hi : ∀ i, some importer = some i → isNamespace i.ns = true := by
    rintro i ⟨⟩
    rfl
  refine ⟨h, rfl, (parse_display_iff rfl hi h).1.2 ?_⟩
  rintro c ⟨⟩
  rfl

/-- The blank before the last slash is not trimmed with the reference, but with the form of the id
that the reference leads to. -/
theorem parse_display_blank :
    resolve .standard none "lib:x /.".toList = .ok ⟨"lib".toList, "x ".toList⟩ ∧
      display ⟨"lib".toList, "x ".toList⟩ = "lib:x ".toList ∧
      parse "lib:x ".toList = .ok ⟨"lib".toList, "x".toList⟩ ∧
      parse "lib:x ".toList ≠ .ok ⟨"lib".toList, "x ".toList⟩ := by
  have h : parse "lib:x ".toList = .ok ⟨"lib".toList, "x".toList⟩ := by rfl
  refine ⟨rfl, rfl, h, ?_⟩
  rw [h]
  decide

end ResourceId
end ShaderInline
