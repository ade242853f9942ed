import ShaderInline.Command.Build
import Mathlib.Data.List.Basic
import ShaderInline.Proofs.Files.Tree

/-! # The files that a build writes

An artifact is written below the output directory at the path of its resource.
What is written there is read back, and stays if nothing later is written at the
same path. The path is made of the names of the file inside the root directory,
or of its last name if it lies elsewhere, with what encodes no text replaced. So
two files come to the same path just if they clash.
-/

namespace ShaderInline

/-! ### Paths below the output directory -/

namespace Path

theorem below?_eq_some_iff {lead path rest : List Component} :
    below? lead path = some rest ↔ path = lead ++ rest := by
  induction lead generalizing path with
  | nil => simp [below?, eq_comm]
  | cons l lead ih =>
    cases path with
    | nil => simp [below?]
    | cons c path =>
      rw [below?]
      split
      next h => simp [ih, h]
      next h => simp [Ne.symm h]

theorem names_map_name (ss : List Utf8.Bytes) : names (ss.map .name) = ss := by
  induction ss with
  | nil => rfl
  | cons s ss ih => exact congrArg (s :: ·) ih

theorem mem_names {s : Utf8.Bytes} {cs : List Component} (h : s ∈ names cs) : .name s ∈ cs := by
  obtain ⟨c, hc, hs⟩ := List.mem_filterMap.1 h
  cases c with
  | name n => exact Option.some.inj hs ▸ hc
  | root | here | up => cases hs

theorem component?_eq_name {first : Bool} {segment s : Utf8.Bytes}
    (h : component? first segment = some (.name s)) : segment = s ∧ IsName s := by
  unfold component? at h
  split at h
  · cases h
  split at h
  · split at h <;> cases h
  split at h
  · cases h
  · cases h
    exact ⟨rfl, by assumption, by assumption, by assumption⟩

theorem isName_of_mem_components {path : Path} {s : Utf8.Bytes} (h : .name s ∈ components path) :
    IsName s ∧ slash ∉ s := by
  have hsegment : ∃ first, ∃ segment ∈ Text.split slash path,
      component? first segment = some (.name s) := by
    unfold components at h
    split at h
    · obtain ⟨segment, hs, hc⟩ := List.mem_filterMap.1 (List.mem_of_ne_of_mem (by simp) h)
      exact ⟨false, segment, hs, hc⟩
    · split at h
      · exact absurd h List.not_mem_nil
      next first ss hsplit =>
        rw [hsplit]
        rcases List.mem_append.1 h with h | h
        · exact ⟨true, first, List.mem_cons_self, Option.mem_toList.1 h⟩
        · obtain ⟨segment, hs, hc⟩ := List.mem_filterMap.1 h
          exact ⟨false, segment, List.mem_cons_of_mem _ hs, hc⟩
  obtain ⟨first, segment, hs, hc⟩ := hsegment
  obtain ⟨rfl, hn⟩ := component?_eq_name hc
  exact ⟨hn, Text.not_mem_of_mem_split hs⟩

/-- What is put to the end of a path belongs to its last segment. -/
theorem join_append {path s : Path} (hs : s ≠ []) (more : Path) :
    join path s ++ more = join path (s ++ more) := by
  have ha : isAbsolute (s ++ more) = isAbsolute s := by
    cases s with
    | nil => exact absurd rfl hs
    | cons c cs => rfl
  rw [join, join, ha]
  split
  · rfl
  · split <;> simp

theorem split_append_of_not_mem (path : Text) {more : Text} (h : '/' ∉ more) :
    ∃ ss s, Text.split '/' path = ss ++ [s] ∧
      Text.split '/' (path ++ more) = ss ++ [s ++ more] := by
  induction path with
  | nil => exact ⟨[], [], rfl, Text.split_of_not_mem h⟩
  | cons c path ih =>
    obtain ⟨ss, s, hs, hm⟩ := ih
    by_cases hc : c = '/'
    · refine ⟨[] :: ss, s, ?_, ?_⟩
      · rw [hc, Text.split_cons_sep, hs]
        rfl
      · rw [hc, List.cons_append, Text.split_cons_sep, hm]
        rfl
    · cases ss with
      | nil => exact ⟨[], c :: s, Text.split_cons_of_ne hc hs, Text.split_cons_of_ne hc hm⟩
      | cons s' ss =>
        exact ⟨(c :: s') :: ss, s, Text.split_cons_of_ne hc hs, Text.split_cons_of_ne hc hm⟩

theorem split_inj {p q : Text} : Text.split '/' p = Text.split '/' q ↔ p = q :=
  (Function.LeftInverse.injective (g := Text.join ['/']) Text.join_split).eq_iff

theorem descend_append (dir : Path) {path more : Text} (h : IsNamed path) (hmore : '/' ∉ more) :
    descend dir path ++ Utf8.encode more = descend dir (path ++ more) := by
  obtain ⟨ss, s, hs, hm⟩ := split_append_of_not_mem path hmore
  have hne : Utf8.encode s ≠ [] := (h s (by simp [hs])).1
  rw [descend, descend, hs, hm, List.map_append, List.map_append, List.foldl_append,
    List.foldl_append, List.map_singleton, List.map_singleton, List.foldl_cons, List.foldl_nil,
    List.foldl_cons, List.foldl_nil, join_append hne, Utf8.encode_append]

theorem components_descend_nil (dir : Path) : components (descend dir []) = components dir := by
  have hdescend : descend dir [] = join dir [] := rfl
  rw [hdescend, join, if_neg (by decide), List.append_nil]
  split
  next => rfl
  next hne =>
    refine components_append_singleton fun hnil => ?_
    simp [hnil] at hne

end Path

theorem Pipeline.id_of_build {p : Pipeline} {id : ResourceId} {text : Text} {b : Artifact}
    (h : p.build id text = .ok b) : b.id = id := by
  unfold build at h
  dsimp only at h
  split at h
  · cases h
  split at h
  · cases h
  split at h
  · cases h
  split at h
  · cases h
  · obtain rfl := Except.ok.inj h
    rfl

namespace BuildArgs

variable {t t' t₁ : FileTree} {dir root file : Path} {b : Artifact} {bs : List Artifact} {m : Bool}

/-! ### Writing artifacts -/

/-- The files that an artifact is written to: their paths below the output directory and their
texts. -/
def writtenFiles (m : Bool) (b : Artifact) : List (Text × Text) :=
  (b.id.path, b.text) ::
    if m then [(b.id.path ++ manifestSuffix, b.manifest.pretty 0)] else []

def writtenPaths (m : Bool) (b : Artifact) : List Text := (writtenFiles m b).map (·.1)

theorem mem_writtenPaths_iff {path : Text} : path ∈ writtenPaths m b ↔
    path = b.id.path ∨ m = true ∧ path = b.id.path ++ manifestSuffix := by
  cases m <;> simp [writtenPaths, writtenFiles]

/-- The directory that a path lies in is made, with those above it. -/
def MakesParent (t : FileTree) (path : Path) (t' : FileTree) : Prop :=
  match Path.parent? path with
  | none => t' = t
  | some parent => FileTree.makeDirs (parent.length + 1) t parent = (.ok (), t')

/-- An artifact can be written: its directory is made, then its text is written and, if asked for,
what is known about it. -/
def WritesOne (dir : Path) (m : Bool) (t : FileTree) (b : Artifact) (t' : FileTree) : Prop :=
  ∃ t₁ t₂, MakesParent t (outputPath dir b) t₁ ∧
    t₁.write (outputPath dir b) (Utf8.encode b.text) = .ok t₂ ∧
    if m then
      t₂.write (outputPath dir b ++ Utf8.encode manifestSuffix)
        (Utf8.encode (b.manifest.pretty 0)) = .ok t'
    else t' = t₂

theorem makeParent_eq_ok_iff {path : Path} :
    makeParent t path = (.ok (), t') ↔ MakesParent t path t' := by
  unfold makeParent MakesParent
  cases Path.parent? path with
  | none => simp [eq_comm]
  | some parent =>
    dsimp only
    split
    next t₁ hdirs => simp [hdirs]
    next p t₁ hdirs => simp [hdirs]

theorem writeText_eq_ok_iff {path : Path} {text : Text} :
    writeText t path text = (.ok (), t') ↔ t.write path (Utf8.encode text) = .ok t' := by
  unfold writeText
  cases t.write path (Utf8.encode text) with
  | error p => simp
  | ok t₁ => simp

theorem writeArtifact_eq_ok_iff :
    writeArtifact t dir b m = (.ok (), t') ↔ WritesOne dir m t b t' := by
  unfold writeArtifact WritesOne
  simp only [← makeParent_eq_ok_iff, ← writeText_eq_ok_iff]
  split
  next f t₁ hmade => simp [hmade]
  next t₁ hmade =>
    split
    next f t₂ hw => simp [hmade, hw]
    next t₂ hw =>
      cases m with
      | false => simp [hmade, hw, eq_comm]
      | true => simp [hmade, hw]

theorem MakesParent.after {path : Path} (h : MakesParent t path t') : FileTree.After t t' [] := by
  unfold MakesParent at h
  split at h
  next => exact h ▸ .refl t
  next parent _ =>
    have hdirs := FileTree.after_makeDirs (parent.length + 1) t parent
    rwa [h] at hdirs

def outputPlace (t : FileTree) (dir : Path) (path : Text) : FileTree.Place :=
  t.target dir ++ (Text.split '/' path).map Utf8.encode

theorem outputPlace_inj {p q : Text} (h : outputPlace t dir p = outputPlace t dir q) : p = q :=
  Path.split_inj.1 (List.map_injective_iff.2 (fun _ _ => Utf8.encode_inj.1)
    (List.append_cancel_left h))

theorem target_descend {path : Text} (h : Path.IsNamed path) :
    t.target (Path.descend dir path) = outputPlace t dir path :=
  FileTree.target_foldl_join t dir (Path.not_mem_segments path) (List.forall_mem_map.2 h)

theorem isNamed_manifest {path : Text} (h : Path.IsNamed path) :
    Path.IsNamed (path ++ manifestSuffix) := by
  obtain ⟨ss, s, hs, hm⟩ := Path.split_append_of_not_mem path (by decide : '/' ∉ manifestSuffix)
  rw [Path.IsNamed, hs, List.forall_mem_append, List.forall_mem_singleton] at h
  rw [Path.IsNamed, hm, List.forall_mem_append, List.forall_mem_singleton]
  refine ⟨h.1, Path.isName_encode_iff.2 ?_⟩
  have hlen : 9 ≤ (s ++ manifestSuffix).length := by
    rw [List.length_append]
    exact Nat.le_add_left _ _
  refine ⟨?_, ?_, ?_⟩ <;> intro he <;> simp [he] at hlen

theorem readText_of_read {path : Path} {text : Text}
    (h : t.read path = .ok (Utf8.encode text)) : t.readText path = .ok text := by
  unfold FileTree.readText
  rw [h]
  dsimp only
  rw [Utf8.text?_encode]

theorem isNamed_writtenPaths (h : Path.IsNamed b.id.path) :
    ∀ path ∈ writtenPaths m b, Path.IsNamed path := by
  intro path hpath
  rcases mem_writtenPaths_iff.1 hpath with rfl | ⟨-, rfl⟩
  · exact h
  · exact isNamed_manifest h

namespace WritesOne

theorem path_ne_nil (h : WritesOne dir m t b t') : b.id.path ≠ [] := by
  obtain ⟨t₁, t₂, -, hw, -⟩ := h
  intro hnil
  obtain ⟨c, hc, hne⟩ := FileTree.getLast?_of_write hw
  have hpath : outputPath dir b = Path.join dir [] := by rw [outputPath, hnil]; rfl
  rw [hpath, Path.join, if_neg (by decide), List.append_nil] at hc
  split at hc
  next hend =>
    rcases Bool.or_eq_true_iff.1 hend with hd | hd
    · simp [List.isEmpty_iff.1 hd] at hc
    · rw [of_decide_eq_true hd] at hc
      exact hne (Option.some.inj hc).symm
  next => exact hne (by simpa using hc.symm)

/-- What is written is read back, and no other file is touched. -/
theorem after (h : WritesOne dir m t b t') (hb : Path.IsNamed b.id.path) :
    FileTree.After t t' ((writtenPaths m b).map (outputPlace t dir)) ∧
      ∀ f ∈ writtenFiles m b, t'.read (Path.descend dir f.1) = .ok (Utf8.encode f.2) := by
  obtain ⟨t₁, t₂, hmade, hw, hm⟩ := h
  have htarget : t.target (outputPath dir b) = outputPlace t dir b.id.path := target_descend hb
  have h₂ := hmade.after.trans (FileTree.after_write hw)
  have hread := FileTree.read_write hw
  rw [hmade.after.target_eq, htarget, List.nil_append] at h₂
  cases m with
  | false =>
    obtain rfl : t' = t₂ := hm
    exact ⟨h₂, List.forall_mem_singleton.2 hread⟩
  | true =>
    have hw' : t₂.write (Path.descend dir (b.id.path ++ manifestSuffix))
        (Utf8.encode (b.manifest.pretty 0)) = .ok t' := by
      rw [← Path.descend_append dir hb (by decide)]
      exact hm
    have h₃ := FileTree.after_write hw'
    rw [h₂.target_eq, target_descend (isNamed_manifest hb)] at h₃
    refine ⟨h₂.trans h₃, List.forall_mem_cons.2 ⟨h₃.read hread ?_,
      List.forall_mem_singleton.2 (FileTree.read_write hw')⟩⟩
    rw [h₂.target_eq, target_descend hb, List.mem_singleton]
    intro he
    have hself := congrArg List.length (outputPlace_inj he)
    rw [List.length_append] at hself
    exact absurd hself (Nat.ne_of_lt (Nat.lt_add_of_pos_right (by decide)))

end WritesOne

/-- Artifacts that are written one after another. -/
inductive Writes (dir : Path) (m : Bool) : FileTree → List Artifact → FileTree → Prop where
  | done (t : FileTree) : Writes dir m t [] t
  | next {t t₁ t' : FileTree} {b : Artifact} {bs : List Artifact} :
      WritesOne dir m t b t₁ → Writes dir m t₁ bs t' → Writes dir m t (b :: bs) t'

namespace Writes

theorem append_iff {bs' : List Artifact} : Writes dir m t (bs ++ bs') t' ↔
    ∃ t₁, Writes dir m t bs t₁ ∧ Writes dir m t₁ bs' t' := by
  induction bs generalizing t with
  | nil =>
    constructor
    · exact fun h => ⟨t, .done t, h⟩
    · rintro ⟨_, ⟨⟩, h⟩
      exact h
  | cons b bs ih =>
    constructor
    · rintro (_ | ⟨hw, h⟩)
      obtain ⟨t₁, h₁, h₂⟩ := ih.1 h
      exact ⟨t₁, .next hw h₁, h₂⟩
    · rintro ⟨t₁, _ | ⟨hw, h₁⟩, h₂⟩
      exact .next hw (ih.2 ⟨t₁, h₁, h₂⟩)

theorem path_ne_nil (h : Writes dir m t bs t') : ∀ b ∈ bs, b.id.path ≠ [] := by
  induction h with
  | done => simp
  | next hw _ ih => exact List.forall_mem_cons.2 ⟨hw.path_ne_nil, ih⟩

theorem after (h : Writes dir m t bs t') (hb : ∀ b ∈ bs, Path.IsNamed b.id.path) :
    FileTree.After t t' ((bs.flatMap (writtenPaths m)).map (outputPlace t dir)) := by
  induction h with
  | done t => exact .refl t
  | @next t t₁ t' b bs hw _ ih =>
    obtain ⟨hb, hbs⟩ := List.forall_mem_cons.1 hb
    have h₁ := (hw.after hb).1
    have hplace : outputPlace t₁ dir = outputPlace t dir := by
      funext path
      rw [outputPlace, outputPlace, h₁.target_eq]
    rw [List.flatMap_cons, List.map_append]
    exact h₁.trans (hplace ▸ ih hbs)

end Writes

/-- What artifacts leave that are written in turn. Right after its turn each is read back from its
files. So it is in the end, unless something later was written there, and no other file is
touched. -/
structure Leaves (dir : Path) (m : Bool) (t : FileTree) (bs : List Artifact) (t' : FileTree) :
    Prop where
  inTurn : ∀ before b after, bs = before ++ b :: after →
    ∃ t₁, Writes dir m t (before ++ [b]) t₁ ∧ Writes dir m t₁ after t' ∧
      ∀ f ∈ writtenFiles m b, t₁.readText (Path.descend dir f.1) = .ok f.2
  atEnd : ∀ before b after, bs = before ++ b :: after →
    ∀ f ∈ writtenFiles m b, (∀ b' ∈ after, f.1 ∉ writtenPaths m b') →
      t'.readText (Path.descend dir f.1) = .ok f.2
  others : FileTree.After t t' ((bs.flatMap (writtenPaths m)).map (outputPlace t dir))

theorem Writes.leaves (h : Writes dir m t bs t') (hb : ∀ b ∈ bs, Path.IsNamed b.id.path) :
    Leaves dir m t bs t' := by
  have hturn : ∀ before b after, bs = before ++ b :: after →
      ∃ t₁, Writes dir m t (before ++ [b]) t₁ ∧ Writes dir m t₁ after t' ∧
        ∀ f ∈ writtenFiles m b, t₁.read (Path.descend dir f.1) = .ok (Utf8.encode f.2) := by
    rintro before b after rfl
    obtain ⟨t₀, hbefore, _ | ⟨hw, hafter⟩⟩ := append_iff.1 h
    refine ⟨_, append_iff.2 ⟨t₀, hbefore, .next hw (.done _)⟩, hafter, ?_⟩
    exact (hw.after (hb b (by simp))).2
  refine ⟨fun before b after hbs => ?_, fun before b after hbs f hf hlater => ?_, h.after hb⟩
  · obtain ⟨t₁, hbefore, hafter, hread⟩ := hturn before b after hbs
    exact ⟨t₁, hbefore, hafter, fun f hf => readText_of_read (hread f hf)⟩
  · obtain ⟨t₁, hbefore, hafter, hread⟩ := hturn before b after hbs
    subst hbs
    have hfiles := hafter.after fun b' hb' => hb b' (by simp [hb'])
    refine readText_of_read (hfiles.read (hread f hf) ?_)
    have hpath := isNamed_writtenPaths (m := m) (hb b (by simp)) f.1 (List.mem_map_of_mem hf)
    rw [target_descend hpath, List.mem_map]
    rintro ⟨path, hmem, he⟩
    obtain rfl := outputPlace_inj he
    obtain ⟨b', hb', hmem⟩ := List.mem_flatMap.1 hmem
    exact hlater b' hb' hmem

/-! ### The paths of resources -/

theorem isName_of_mem_resourceNames {s : Utf8.Bytes} (h : s ∈ resourceNames root file) :
    Path.IsName s ∧ Path.slash ∉ s := by
  suffices hmem : .name s ∈ Path.components file from Path.isName_of_mem_components hmem
  unfold resourceNames at h
  split at h
  next below hb =>
    rw [Path.below?_eq_some_iff.1 hb]
    exact List.mem_append_right _ (Path.mem_names h)
  next =>
    have hlast := Option.mem_toList.1 h
    unfold Path.fileName? at hlast
    split at hlast
    next hc => exact List.mem_of_getLast? (Option.some.inj hlast ▸ hc)
    next => cases hlast

def resourceTexts (root file : Path) : List Text := (resourceNames root file).map Utf8.lossyText

theorem isName_of_mem_resourceTexts {s : Text} (h : s ∈ resourceTexts root file) :
    Path.IsName (Utf8.encode s) ∧ '/' ∉ s := by
  obtain ⟨n, hn, rfl⟩ := List.mem_map.1 h
  obtain ⟨hname, hslash⟩ := isName_of_mem_resourceNames hn
  exact ⟨Path.isName_lossyText hname, Path.not_mem_lossyText hslash⟩

theorem split_resourcePath (h : resourceTexts root file ≠ []) :
    Text.split '/' (resourcePath root file) = resourceTexts root file :=
  Text.split_join h fun _ hs => (isName_of_mem_resourceTexts hs).2

theorem isNamed_resourcePath (h : resourceTexts root file ≠ []) :
    Path.IsNamed (resourcePath root file) := by
  rw [Path.IsNamed, split_resourcePath h]
  exact fun s hs => (isName_of_mem_resourceTexts hs).1

theorem components_resourcePath (dir root file : Path) :
    Path.components (Path.descend dir (resourcePath root file)) =
      Path.components dir ++ (resourceTexts root file).map fun s => .name (Utf8.encode s) := by
  by_cases hnil : resourceTexts root file = []
  · have hpath : resourcePath root file = [] := congrArg (Text.join ['/']) hnil
    rw [hpath, Path.components_descend_nil, hnil, List.map_nil, List.append_nil]
  · rw [Path.components_descend dir (isNamed_resourcePath hnil), split_resourcePath hnil]

section

variable {f g : Path} {p q : List Utf8.Bytes}

theorem same_descend_iff (dir : Path) :
    Path.same (Path.descend dir (resourcePath root f))
        (Path.descend dir (resourcePath root g)) = true ↔
      resourceTexts root f = resourceTexts root g := by
  rw [Path.same, beq_iff_eq, components_resourcePath, components_resourcePath,
    List.append_cancel_left_eq]
  refine ⟨fun h => List.map_injective_iff.2 (fun s s' hs => ?_) h, congrArg _⟩
  exact Utf8.encode_inj.1 (Path.Component.name.inj hs)

theorem resourcePath_eq_iff :
    resourcePath root f = resourcePath root g ↔ resourceTexts root f = resourceTexts root g := by
  refine ⟨fun h => (same_descend_iff []).1 ?_, congrArg (Text.join ['/'])⟩
  rw [h, Path.same, beq_self_eq_true]

/-! ### Files that clash -/

/-- The absolute path of a file, made of names. -/
def IsCanonical (file : Path) : Prop :=
  ∃ p : List Utf8.Bytes, p ≠ [] ∧ Path.components file = .root :: p.map .name

/-- The texts that stand for the names of a file inside the root directory, if it lies there. -/
def inside? (root file : Path) : Option (List Text) :=
  (Path.below? (Path.components root) (Path.components file)).map fun below =>
    (Path.names below).map Utf8.lossyText

def lastText? (file : Path) : Option Text := (Path.fileName? file).map Utf8.lossyText

def isOutside (root file : Path) : Bool := (inside? root file).isNone

def isDirectlyIn (root file : Path) : Bool :=
  Path.below? (Path.components root) (Path.components file) ==
    (Path.fileName? file).map fun name => [.name name]

/-- Two files that are known by the same texts. Either both lie inside the root directory and
their names there are equal up to bytes that encode no text, or one of them lies outside of it and
the other one, of the same last name up to such bytes, lies outside, too, or directly in it. -/
def Clash (root f g : Path) : Prop :=
  isOutside root f = false ∧ inside? root f = inside? root g ∨
    lastText? f = lastText? g ∧
      (isOutside root f = true ∧ (isOutside root g = true ∨ isDirectlyIn root g = true) ∨
        isOutside root g = true ∧ isDirectlyIn root f = true)

instance (root f g : Path) : Decidable (Clash root f g) :=
  inferInstanceAs (Decidable (_ ∨ _))

theorem exists_of_below? {lead below : List Path.Component}
    (h : Path.below? lead (.root :: p.map .name) = some below) :
    ∃ l, p = l ++ Path.names below ∧
      (lead = [] ∧ l = [] ∨
        lead = .root :: l.map .name ∧ below = (Path.names below).map .name) := by
  have happ := Path.below?_eq_some_iff.1 h
  cases lead with
  | nil =>
    obtain rfl : _ = below := happ
    exact ⟨[], (Path.names_map_name p).symm, .inl ⟨rfl, rfl⟩⟩
  | cons c lead =>
    obtain ⟨rfl, hmap⟩ := List.cons_eq_cons.1 (happ.trans (List.cons_append))
    obtain ⟨l, ns, rfl, rfl, rfl⟩ := List.map_eq_append_iff.1 hmap
    rw [Path.names_map_name]
    exact ⟨l, rfl, .inr ⟨rfl, rfl⟩⟩

theorem isOutside_iff :
    isOutside root f = true ↔ Path.below? (Path.components root) (Path.components f) = none := by
  rw [isOutside, inside?, Option.isNone_map, Option.isNone_iff_eq_none]

theorem inside?_eq_some {texts : List Text} (h : inside? root f = some texts) :
    resourceTexts root f = texts := by
  obtain ⟨below, hb, rfl⟩ := Option.map_eq_some_iff.1 h
  rw [resourceTexts, resourceNames, hb]

theorem resourceTexts_of_outside (h : isOutside root f = true) :
    resourceTexts root f = (lastText? f).toList := by
  rw [resourceTexts, resourceNames, isOutside_iff.1 h, lastText?]
  cases Path.fileName? f <;> rfl

theorem IsCanonical.exists_fileName? (h : IsCanonical f) :
    ∃ p s, Path.components f = .root :: (p ++ [s]).map .name ∧ Path.fileName? f = some s := by
  obtain ⟨p, hp, hf⟩ := h
  obtain ⟨p, s, rfl⟩ := (List.eq_nil_or_concat p).resolve_left hp
  rw [List.concat_eq_append] at hf
  refine ⟨p, s, hf, ?_⟩
  have hlast : (Path.Component.root :: (p ++ [s]).map .name).getLast? = some (.name s) := by
    rw [List.map_append, ← List.cons_append]
    exact List.getLast?_concat
  rw [Path.fileName?, hf, hlast]

/-- A file outside the root is known by the texts of another one just if both have the same last
text and the other lies outside, too, or directly in the root. -/
theorem resourceTexts_eq_iff_of_outside (hf : IsCanonical f) (hg : IsCanonical g)
    (hout : isOutside root f = true) : resourceTexts root f = resourceTexts root g ↔
      lastText? f = lastText? g ∧ (isOutside root g = true ∨ isDirectlyIn root g = true) := by
  obtain ⟨p, s, hf, hs⟩ := hf.exists_fileName?
  obtain ⟨q, u, hg, hu⟩ := hg.exists_fileName?
  rw [resourceTexts_of_outside hout, lastText?, lastText?, hs, hu]
  by_cases hgout : isOutside root g = true
  · rw [resourceTexts_of_outside hgout, lastText?, hu]
    simp [hgout]
  obtain ⟨below, hb⟩ := Option.ne_none_iff_exists'.1 (mt isOutside_iff.2 hgout)
  have hnames : resourceTexts root g = (Path.names below).map Utf8.lossyText :=
    inside?_eq_some (by rw [inside?, hb]; rfl)
  obtain ⟨l, hl, ⟨hlead, -⟩ | ⟨-, hbelow⟩⟩ := exists_of_below? (hg ▸ hb)
  · -- nothing lies outside the empty path
    rw [isOutside_iff, hlead] at hout
    cases hout
  rw [hnames, isDirectlyIn, hb, hu]
  simp only [hgout, Bool.false_eq_true, Option.map_some, Option.toList_some, false_or, beq_iff_eq,
    Option.some.injEq]
  constructor
  · intro htexts
    obtain ⟨v, hv, hvs⟩ := List.map_eq_singleton_iff.1 htexts.symm
    rw [hv] at hl hbelow
    obtain rfl : u = v := by simpa using congrArg List.getLast? hl
    exact ⟨hvs.symm, hbelow⟩
  · rintro ⟨hsu, hdirect⟩
    rw [hdirect, hsu]
    rfl

theorem clash_iff (hf : IsCanonical f) (hg : IsCanonical g) :
    Clash root f g ↔ resourceTexts root f = resourceTexts root g := by
  rw [Clash]
  by_cases hfout : isOutside root f = true
  · rw [resourceTexts_eq_iff_of_outside hf hg hfout]
    simp only [hfout, Bool.true_eq_false, false_and, false_or, true_and]
    refine and_congr_right fun _ => ⟨fun h => ?_, .inl⟩
    exact h.elim id fun h => .inl h.1
  by_cases hgout : isOutside root g = true
  · have hne : inside? root f ≠ inside? root g := fun he =>
      hfout (by rw [isOutside, he]; exact hgout)
    rw [eq_comm (a := resourceTexts root f), resourceTexts_eq_iff_of_outside hg hf hgout,
      eq_comm (a := lastText? g)]
    simp [hfout, hgout, hne]
  · obtain ⟨texts, hf⟩ := Option.ne_none_iff_exists'.1 (mt Option.isNone_iff_eq_none.2 hfout)
    obtain ⟨texts', hg⟩ := Option.ne_none_iff_exists'.1 (mt Option.isNone_iff_eq_none.2 hgout)
    rw [inside?_eq_some hf, inside?_eq_some hg]
    simp [hfout, hgout, hf, hg]

/-- Files that are known by their canonical paths have different resource paths, and different
output paths, just if no two of them clash. -/
theorem pairwise_resourcePath_iff (root dir : Path) {fs : List Path}
    (h : ∀ f ∈ fs, IsCanonical f) :
    ((fs.map (resourcePath root)).Nodup ↔ fs.Pairwise fun f g => ¬ Clash root f g) ∧
      ((fs.map fun f => Path.descend dir (resourcePath root f)).Pairwise
          (fun p q => Path.same p q = false) ↔
        fs.Pairwise fun f g => ¬ Clash root f g) := by
  rw [List.Nodup, List.pairwise_map, List.pairwise_map]
  refine ⟨List.Pairwise.iff_of_mem fun {f g} hf hg => ?_,
    List.Pairwise.iff_of_mem fun {f g} hf hg => ?_⟩
  · rw [clash_iff (h f hf) (h g hg), Ne, resourcePath_eq_iff]
  · rw [clash_iff (h f hf) (h g hg), ← Bool.not_eq_true, same_descend_iff]

-- two files of one directory, whose names differ in what encodes no text
example : resourcePath (Utf8.encode "/w".toList) (Utf8.encode "/w/s/a".toList ++ [0xff]) =
    resourcePath (Utf8.encode "/w".toList) (Utf8.encode "/w/s/a".toList ++ [0xfe]) := by decide

end

/-! ### Whole builds -/

def inputs (a : BuildArgs) : List Path := if a.paths.isEmpty then [[Path.dot]] else a.paths

def plan (a : BuildArgs) (t : FileTree) (config : Option Path) :
    Except Failure (BuildSettings × List Path) :=
  match a.settings t config a.inputs with
  | .error f => .error f
  | .ok s =>
    match Discovery.ofPatterns s.config.files with
    | .error f => .error f
    | .ok d =>
      match d.expand t a.inputs with
      | .error f => .error f
      | .ok files => .ok (s, files)

theorem place_perm {α : Type} (x : α × Nat) (ys : List (α × Nat)) :
    (place x ys).Perm (x :: ys) := by
  induction ys with
  | nil => exact .refl _
  | cons y ys ih =>
    rw [place]
    split
    · exact .refl _
    · exact (ih.cons y).trans (.swap x y ys)

theorem pairwise_place {α : Type} {x : α × Nat} {ys : List (α × Nat)}
    (h : ys.Pairwise fun y z => y.2 ≤ z.2) : (place x ys).Pairwise fun y z => y.2 ≤ z.2 := by
  induction ys with
  | nil => exact List.pairwise_singleton _ x
  | cons y ys ih =>
    obtain ⟨hy, hys⟩ := List.pairwise_cons.1 h
    rw [place]
    split
    next hle =>
      refine List.pairwise_cons.2 ⟨?_, h⟩
      rintro z (_ | ⟨_, hz⟩)
      · exact hle
      · exact Nat.le_trans hle (hy z hz)
    next hlt =>
      refine List.pairwise_cons.2 ⟨fun z hz => ?_, ih hys⟩
      rcases List.mem_cons.1 ((place_perm x ys).mem_iff.1 hz) with rfl | hz
      · exact Nat.le_of_not_le hlt
      · exact hy z hz

/-- Whatever the order in which builds are finished, their results come in the order of the
files. -/
theorem inOrder_of_perm {α : Type} {results : List α} {done : List (α × Nat)}
    (h : done.Perm results.zipIdx) : inOrder done = results := by
  have hplaced (xs : List (α × Nat)) : (xs.foldr place []).Perm xs ∧
      (xs.foldr place []).Pairwise fun y z => y.2 ≤ z.2 := by
    induction xs with
    | nil => exact ⟨.refl _, .nil⟩
    | cons x xs ih => exact ⟨(place_perm x _).trans (ih.1.cons x), pairwise_place ih.2⟩
  have hnumbers : results.zipIdx.Pairwise fun y z => y.2 ≤ z.2 := by
    rw [← List.pairwise_map (f := Prod.snd) (R := (· ≤ ·)), List.zipIdx_map_snd]
    exact List.pairwise_le_range'
  obtain ⟨hperm, hsorted⟩ := hplaced done
  have heq : done.foldr place [] = results.zipIdx := by
    refine List.Perm.eq_of_pairwise ?_ hsorted hnumbers (hperm.trans h)
    intro x y hx hy hxy hyx
    -- a number belongs to one result only
    have hx := List.mem_zipIdx_iff_getElem?.1 ((hperm.trans h).mem_iff.1 hx)
    have hy := List.mem_zipIdx_iff_getElem?.1 hy
    have hnumber : x.2 = y.2 := Nat.le_antisymm hxy hyx
    rw [hnumber, hy] at hx
    exact Prod.ext (Option.some.inj hx).symm hnumber
  rw [inOrder, heq, List.zipIdx_map_fst]

theorem runWith_eq (finish : List (Except Failure Artifact × Nat) →
      List (Except Failure Artifact × Nat))
    (hfinish : ∀ results, (finish results).Perm results) (a : BuildArgs) (t : FileTree)
    (config : Option Path) : a.runWith finish t config = match a.plan t config with
      | .error f => (.error f, ⟨t, []⟩)
      | .ok (s, files) => a.emit (1 < files.length) (files.map (buildFile t s)) ⟨t, []⟩ := by
  rw [runWith, plan, inputs]
  cases a.settings t config (if a.paths.isEmpty then [[Path.dot]] else a.paths) with
  | error f => rfl
  | ok s =>
    dsimp only
    cases Discovery.ofPatterns s.config.files with
    | error f => rfl
    | ok d =>
      dsimp only
      cases d.expand t (if a.paths.isEmpty then [[Path.dot]] else a.paths) with
      | error f => rfl
      | ok files =>
        dsimp only
        rw [inOrder_of_perm (hfinish _)]

theorem run_eq (a : BuildArgs) (t : FileTree) (config : Option Path) :
    a.run t config = match a.plan t config with
      | .error f => (.error f, ⟨t, []⟩)
      | .ok (s, files) => a.emit (1 < files.length) (files.map (buildFile t s)) ⟨t, []⟩ :=
  runWith_eq id (fun _ => .refl _) a t config

variable {a : BuildArgs} {config : Option Path} {s : BuildSettings} {files : List Path}

theorem buildFile_eq_ok (h : buildFile t s file = .ok b) :
    b.id = ⟨s.config.ns, resourcePath s.root (t.canonicalOr file)⟩ ∧
      ∃ bytes, t.read file = .ok bytes := by
  unfold buildFile FileTree.readText at h
  rcases hread : t.read file with p | bytes
  · rw [hread] at h
    cases h
  refine ⟨?_, bytes, rfl⟩
  split at h
  · cases h
  · exact Pipeline.id_of_build h

theorem isNamed_of_buildFile (h : buildFile t s file = .ok b) (hb : b.id.path ≠ []) :
    Path.IsNamed b.id.path := by
  rw [(buildFile_eq_ok h).1] at hb ⊢
  exact isNamed_resourcePath fun hnil => hb (congrArg (Text.join ['/']) hnil)

/-- A file that can be built is no directory, so its canonical path is not that of the root. -/
theorem isCanonical_of_buildFile {p : Path} (hcwd : FileTree.IsNamed t.cwd)
    (h : buildFile t s file = .ok b) (hp : t.canonical file = .ok p) :
    IsCanonical p ∧ b.id = ⟨s.config.ns, resourcePath s.root p⟩ := by
  obtain ⟨hid, bytes, hread⟩ := buildFile_eq_ok h
  rw [FileTree.canonicalOr, hp] at hid
  refine ⟨⟨t.target file, fun hnil => ?_, ?_⟩, hid⟩
  · have hat := (FileTree.read_eq_ok_iff.1 hread).2
    rw [hnil] at hat
    cases hat
  · rw [FileTree.canonical_eq_ok hp]
    exact FileTree.components_display (FileTree.isNamed_target hcwd file)

theorem canonical_of_builds (hcwd : FileTree.IsNamed t.cwd) {ps : List Path}
    (hps : files.map t.canonical = ps.map .ok) (hbs : files.map (buildFile t s) = bs.map .ok) :
    (∀ p ∈ ps, IsCanonical p) ∧
      bs.map (·.id) = ps.map fun p => ⟨s.config.ns, resourcePath s.root p⟩ := by
  induction files generalizing ps bs with
  | nil =>
    obtain rfl : ps = [] := by simpa using hps
    obtain rfl : bs = [] := by simpa using hbs
    exact ⟨by simp, rfl⟩
  | cons f files ih =>
    obtain ⟨p, ps, rfl⟩ := List.exists_cons_of_ne_nil (l := ps) (by rintro rfl; simp at hps)
    obtain ⟨b, bs, rfl⟩ := List.exists_cons_of_ne_nil (l := bs) (by rintro rfl; simp at hbs)
    obtain ⟨hp, hps⟩ := List.cons_eq_cons.1 hps
    obtain ⟨hb, hbs⟩ := List.cons_eq_cons.1 hbs
    obtain ⟨hcanonical, hid⟩ := isCanonical_of_buildFile hcwd hb hp
    obtain ⟨hps, hids⟩ := ih hps hbs
    exact ⟨List.forall_mem_cons.2 ⟨hcanonical, hps⟩, List.cons_eq_cons.2 ⟨hid, hids⟩⟩

theorem leaves_of_builds {t₀ : FileTree} (hbuilt : ∀ b ∈ bs, ∃ file, buildFile t₀ s file = .ok b)
    (hw : Writes dir m t bs t') : Leaves dir m t bs t' :=
  hw.leaves fun b hb => by
    obtain ⟨file, hfile⟩ := hbuilt b hb
    exact isNamed_of_buildFile hfile (hw.path_ne_nil b hb)

theorem writes_of_emit {many : Bool} {results : List (Except Failure Artifact)} {e e' : Effects}
    (hout : a.stdout = false) (h : a.emit many results e = (.ok 0, e')) :
    ∃ bs, results = bs.map .ok ∧
      Writes (a.output.getD defaultOutputDir) a.emitMap e.files bs e'.files := by
  induction results generalizing e with
  | nil =>
    obtain ⟨-, rfl⟩ := Prod.mk.inj h
    exact ⟨[], rfl, .done _⟩
  | cons result rest ih =>
    rw [emit] at h
    cases result with
    | error f =>
      rw [Failure.recover] at h
      by_cases hf : f.isRecoverable = true
      · rw [if_pos hf] at h
        dsimp only at h
        split at h <;> simp at h
      · rw [if_neg hf] at h
        simp at h
    | ok b =>
      rw [Failure.recover] at h
      dsimp only at h
      rw [hout, if_neg Bool.false_ne_true] at h
      split at h
      next => simp at h
      next t₁ hw =>
        obtain ⟨bs, rfl, hbs⟩ := ih h
        exact ⟨b :: bs, rfl, .next (writeArtifact_eq_ok_iff.1 hw) hbs⟩

/-- Files, told by their canonical paths in whatever file system, have different resource paths
and different output paths just if no two of them clash, wherever the root and the output
directory are. A build without failures gives these paths to its artifacts. If no two of its files
clash, each artifact stands in its own file in the end, unless what is known about another is
written there. -/
theorem run_outputs {ps : List Path} {e : Effects} (hcwd : FileTree.IsNamed t.cwd)
    (hplan : a.plan t config = .ok (s, files)) (hps : files.map t.canonical = ps.map .ok)
    (hout : a.stdout = false) (hrun : a.run t config = (.ok 0, e)) :
    let dir := a.output.getD defaultOutputDir
    (∀ (root out : Path) (fs : List Path), (∀ f ∈ fs, IsCanonical f) →
      ((fs.map (resourcePath root)).Nodup ↔ fs.Pairwise fun f g => ¬ Clash root f g) ∧
      ((fs.map fun f => Path.descend out (resourcePath root f)).Pairwise
          (fun p q => Path.same p q = false) ↔
        fs.Pairwise fun f g => ¬ Clash root f g)) ∧
    ∃ bs : List Artifact, files.map (buildFile t s) = bs.map .ok ∧
      bs.map (·.id) = ps.map (fun p => ⟨s.config.ns, resourcePath s.root p⟩) ∧
      ((bs.map (·.id)).Nodup ↔ ps.Pairwise fun p q => ¬ Clash s.root p q) ∧
      ((bs.map (outputPath dir)).Pairwise (fun p q => Path.same p q = false) ↔
        ps.Pairwise fun p q => ¬ Clash s.root p q) ∧
      ((ps.Pairwise fun p q => ¬ Clash s.root p q) → ∀ b ∈ bs,
        (a.emitMap = true → ∀ b' ∈ bs, b.id.path ≠ b'.id.path ++ manifestSuffix) →
        e.files.readText (outputPath dir b) = .ok b.text) := by
  intro dir
  refine ⟨fun root out fs => pairwise_resourcePath_iff root out, ?_⟩
  rw [run_eq, hplan] at hrun
  obtain ⟨bs, hbs, hw⟩ := writes_of_emit hout hrun
  obtain ⟨hcanonical, hids⟩ := canonical_of_builds hcwd hps hbs
  obtain ⟨hpaths, houtputs⟩ := pairwise_resourcePath_iff s.root dir hcanonical
  have hmap : bs.map (·.id.path) = ps.map (resourcePath s.root) := by
    simpa [Function.comp_def] using congrArg (List.map ResourceId.path) hids
  refine ⟨bs, hbs, hids, ?_, ?_, fun hclash b hb hmanifest => ?_⟩
  · rw [hids, ← hpaths, List.Nodup, List.Nodup, List.pairwise_map, List.pairwise_map]
    simp
  · have houtput : bs.map (outputPath dir) = (bs.map (·.id.path)).map (Path.descend dir) :=
      List.map_map.symm
    rw [houtput, hmap, List.map_map]
    exact houtputs
  · have hleaves : Leaves dir a.emitMap t bs e.files := leaves_of_builds (fun b hb => by
      obtain ⟨file, -, hfile⟩ := List.mem_map.1 (hbs ▸ List.mem_map_of_mem hb)
      exact ⟨file, hfile⟩) hw
    have hdiff : (bs.map (·.id.path)).Nodup := hmap ▸ hpaths.2 hclash
    obtain ⟨before, after, rfl⟩ := List.append_of_mem hb
    refine hleaves.atEnd before b after rfl (b.id.path, b.text) List.mem_cons_self ?_
    intro b' hb' hmem
    rcases mem_writtenPaths_iff.1 hmem with he | ⟨hm, he⟩
    · rw [List.map_append, List.map_cons] at hdiff
      have hfresh := (List.nodup_cons.1 (List.nodup_append.1 hdiff).2.1).1
      exact hfresh (List.mem_map.2 ⟨b', hb', he.symm⟩)
    · exact hmanifest hm b' (by simp [hb']) he

theorem exists_of_toOption {ε α β : Type} {x : Except ε α} {f : α → β} {y : β}
    (h : x.toOption.map f = some y) : ∃ z, x = .ok z ∧ f z = y := by
  cases x with
  | error => cases h
  | ok z => exact ⟨z, rfl, Option.some.inj h⟩

theorem exists_of_fst_toOption {ε α β : Type} {x : Except ε α × β} {z : α}
    (h : x.1.toOption = some z) : ∃ y, x = (.ok z, y) := by
  obtain ⟨f | z', y⟩ := x
  · cases h
  · exact ⟨y, by rw [Option.some.inj h]⟩

/-- Files of one name in the root directory and below it, one whose name is no text, and one
elsewhere. -/
theorem run_outputs_apart :
    let path (t : String) : Path := Utf8.encode t.toList
    let t : FileTree := ⟨[path "w"], [([path "w"], .directory), ([path "w", path "a"], .directory),
      ([path "w", path "a", path "x"], .file [49]), ([path "w", path "a", path "s"], .directory),
      ([path "w", path "a", path "s", path "x"], .file [50]),
      ([path "w", path "a", [0xff]], .file [51]), ([path "w", path "y"], .file [52])]⟩
    let a : BuildArgs :=
      { paths := [path "a/x", path "./a/s/x", path "a/" ++ [0xff], path "a/../y"] }
    ∃ (s : BuildSettings) (files : List Path) (e : Effects) (bs : List Artifact),
      a.plan t none = .ok (s, files) ∧ a.run t none = (.ok 0, e) ∧
      files.map (buildFile t s) = bs.map .ok ∧
      (bs.map (outputPath defaultOutputDir)).Pairwise (fun p q => Path.same p q = false) ∧
      ∀ b ∈ bs, e.files.readText (outputPath defaultOutputDir b) = .ok b.text := by
  intro path t a
  have hplan : ((a.plan t none).toOption.map fun x => (x.1.root, x.2)) =
      some (path "/w/a", a.paths) := by decide +kernel
  have hrun : (a.run t none).1.toOption = some 0 := by decide +kernel
  obtain ⟨⟨s, files⟩, hp, hfiles⟩ := exists_of_toOption hplan
  obtain ⟨hroot, rfl⟩ : s.root = path "/w/a" ∧ files = a.paths := Prod.mk.inj hfiles
  have hcanonical : a.paths.map t.canonical =
      [path "/w/a/x", path "/w/a/s/x", path "/w/a/" ++ [0xff], path "/w/y"].map .ok := rfl
  obtain ⟨e, hr⟩ := exists_of_fst_toOption hrun
  have hclash : [path "/w/a/x", path "/w/a/s/x", path "/w/a/" ++ [0xff], path "/w/y"].Pairwise
      fun p q => ¬ Clash s.root p q := by
    rw [hroot]
    decide +kernel
  obtain ⟨-, bs, hbs, -, -, hpaths, hread⟩ := run_outputs (by decide) hp hcanonical rfl hr
  exact ⟨s, _, e, bs, hp, hr, hbs, hpaths.2 hclash, fun b hb => hread hclash b hb (by simp [a])⟩

/-- Two files of one name, of which only the first lies in the root directory. -/
theorem run_outputs_clash :
    let path (t : String) : Path := Utf8.encode t.toList
    let t : FileTree := ⟨[path "w"], [([path "w"], .directory), ([path "w", path "a"], .directory),
      ([path "w", path "a", path "x"], .file [49]), ([path "w", path "b"], .directory),
      ([path "w", path "b", path "x"], .file [50])]⟩
    let a : BuildArgs := { paths := [path "a/x", path "b/x"] }
    ∃ (s : BuildSettings) (files ps : List Path) (e : Effects) (b b' : Artifact),
      a.plan t none = .ok (s, files) ∧ files.map t.canonical = ps.map .ok ∧ ps.Nodup ∧
      a.stdout = false ∧ a.run t none = (.ok 0, e) ∧
      files.map (buildFile t s) = [.ok b, .ok b'] ∧
      outputPath defaultOutputDir b = outputPath defaultOutputDir b' ∧ b.text ≠ b'.text := by
  intro path t a
  have hplan : ((a.plan t none).toOption.map fun x => (x.1.root, x.2,
      (buildFile t x.1 (path "a/x")).toOption.map (·.text),
      (buildFile t x.1 (path "b/x")).toOption.map (·.text))) =
      some (path "/w/a", a.paths, some "#line 1 0\n1".toList, some "#line 1 0\n2".toList) := by
    decide +kernel
  have hrun : (a.run t none).1.toOption = some 0 := by decide +kernel
  obtain ⟨⟨s, files⟩, hp, hx⟩ := exists_of_toOption hplan
  obtain ⟨hroot, hx⟩ := Prod.mk.inj hx
  obtain ⟨rfl, hx⟩ := Prod.mk.inj hx
  obtain ⟨hb, hb'⟩ := Prod.mk.inj hx
  obtain ⟨b, hb, htext⟩ := exists_of_toOption hb
  obtain ⟨b', hb', htext'⟩ := exists_of_toOption hb'
  have hcanonical : a.paths.map t.canonical = [path "/w/a/x", path "/w/b/x"].map .ok := rfl
  obtain ⟨e, hr⟩ := exists_of_fst_toOption hrun
  refine ⟨s, _, _, e, b, b', hp, hcanonical, by decide, rfl, hr, ?_, ?_, ?_⟩
  · exact List.cons_eq_cons.2 ⟨hb, List.cons_eq_cons.2 ⟨hb', rfl⟩⟩
  · have hpath : resourcePath (path "/w/a") (t.canonicalOr (path "a/x")) =
        resourcePath (path "/w/a") (t.canonicalOr (path "b/x")) := by decide
    rw [outputPath, outputPath, (buildFile_eq_ok hb).1, (buildFile_eq_ok hb').1, hroot, hpath]
  · rw [htext, htext']
    decide

end BuildArgs
end ShaderInline
