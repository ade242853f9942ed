import ShaderInline.Command.Run
import ShaderInline.Proofs.Command.Outputs
import ShaderInline.Proofs.Pipeline

/-! # One shader does not touch another

Whatever fails while a file is built concerns that file only. So all the others
are emitted, in the order of the files and in whatever order they are finished,
with the texts that they have when each is built by itself. Where they are written
to files, these are read back with the same texts.
-/

namespace ShaderInline

open Schema

/-- With accepted defines, a build that is not cancelled fails for its own shader only. -/
theorem Pipeline.isRecoverable_of_build {p : Pipeline} {id : ResourceId} {t : Text} {f : Failure}
    (hschema : p.schema = glsl) (hd : Defines.checkAll p.config.defines.entries = .ok ())
    (hcancel : p.cancelAfter = none) (h : p.build id t = .error f) : f.isRecoverable = true := by
  by_cases hu : p.config.defines.Unversioned (.parse glsl t)
  · rw [build_unversioned hd (hschema ▸ hu)] at h
    obtain rfl := Except.error.inj h
    rfl
  · obtain ⟨e, he⟩ : ∃ e, p.expandEnv.run (.parse glsl id t) = .ok e :=
      ExpandEnv.exists_run (Resource.isGlsl_parse id t) hcancel
    obtain ⟨document, hbuild⟩ := exists_build hschema hd hu he
    rw [hbuild] at h
    split at h
    · cases h
    · obtain rfl := Except.error.inj h
      rfl

/-! ### Settings and files -/

theorem Discovery.exists_compile {ts us : List Text}
    (h : Config.checkPatterns (ts ++ us) = .ok ()) :
    (∃ gs, compile ts = .ok gs) ∧ Config.checkPatterns us = .ok () := by
  induction ts with
  | nil => exact ⟨⟨[], rfl⟩, h⟩
  | cons t ts ih =>
    rw [List.cons_append, Config.checkPatterns] at h
    cases ht : Glob.parse t with
    | error p => simp [ht] at h
    | ok g =>
      rw [ht] at h
      obtain ⟨⟨gs, hgs⟩, hus⟩ := ih h
      exact ⟨⟨g :: gs, by simp only [compile, ht, hgs]⟩, hus⟩

theorem Discovery.exists_ofPatterns {c : Config} (h : c.validate = .ok ()) :
    ∃ d, ofPatterns c.files = .ok d := by
  have hpatterns : Config.checkPatterns (c.files.includes ++ c.files.excludes) = .ok () := by
    unfold Config.validate at h
    split at h
    · cases h
    · split at h
      · cases h
      · split at h
        · cases h
        next hcheck => exact hcheck
  obtain ⟨⟨includes, hi⟩, hrest⟩ := exists_compile hpatterns
  rw [← List.append_nil c.files.excludes] at hrest
  obtain ⟨⟨excludes, he⟩, -⟩ := exists_compile hrest
  exact ⟨⟨includes, excludes⟩, by simp only [ofPatterns, hi, he]⟩

theorem Discovery.exists_expandFrom (d : Discovery) {t : FileTree} {inputs : List Path}
    (h : ∀ p ∈ inputs, t.isDir p = true ∨ t.isFile p = true) (found : List Path) :
    ∃ files, d.expandFrom t found inputs = .ok files := by
  induction inputs generalizing found with
  | nil => exact ⟨found, rfl⟩
  | cons p inputs ih =>
    obtain ⟨hp, hinputs⟩ := List.forall_mem_cons.1 h
    rw [expandFrom]
    split
    · exact ih hinputs _
    next hdir =>
      rw [if_pos (hp.resolve_left hdir)]
      exact ih hinputs _

theorem FileTree.not_isDir {t : FileTree} {path : Path} (h : t.isFile path = true) :
    ¬ t.isDir path = true := by
  unfold isFile at h
  unfold isDir
  split at h
  next hstat => simp [hstat]
  next => cases h

namespace BuildArgs

variable {a : BuildArgs} {t : FileTree} {config : Option Path} {s : BuildSettings}
  {files : List Path} {many : Bool} {e e' : Effects} {n : Nat}

theorem validate_of_settings {paths : List Path} (h : a.settings t config paths = .ok s) :
    s.config.validate = .ok () := by
  unfold settings at h
  dsimp only at h
  split at h
  · cases h
  · split at h
    · cases h
    next hvalid =>
      obtain rfl := Except.ok.inj h
      exact hvalid

theorem exists_plan (hsettings : a.settings t config a.inputs = .ok s)
    (hinputs : ∀ p ∈ a.inputs, t.isDir p = true ∨ t.isFile p = true) :
    ∃ files, a.plan t config = .ok (s, files) := by
  obtain ⟨d, hd⟩ := Discovery.exists_ofPatterns (validate_of_settings hsettings)
  obtain ⟨files, hfiles⟩ := d.exists_expandFrom hinputs []
  refine ⟨files, ?_⟩
  rw [plan, hsettings]
  simp only [hd, Discovery.expand, hfiles]

theorem settings_of_plan (h : a.plan t config = .ok (s, files)) :
    a.settings t config a.inputs = .ok s := by
  unfold plan at h
  split at h
  · cases h
  next hsettings =>
    split at h
    · cases h
    · split at h
      · cases h
      · obtain ⟨rfl, -⟩ := Prod.mk.inj (Except.ok.inj h)
        exact hsettings

theorem isRecoverable_of_buildFile {file : Path} {f : Failure} (hc : s.config.validate = .ok ())
    (h : buildFile t s file = .error f) : f.isRecoverable = true := by
  unfold buildFile at h
  split at h
  · obtain rfl := Except.error.inj h
    rfl
  · exact Pipeline.isRecoverable_of_build rfl (Config.checkAll_defines hc) rfl h

/-! ### Emitting -/

/-- An artifact as it is printed; with others it stands under a line that names it. -/
def printed (many : Bool) (b : Artifact) : Text :=
  (if many then "// ".toList ++ b.id.display ++ ['\n'] else []) ++ b.text

/-- What is there after artifacts have been emitted one after another and all writes have
succeeded. -/
def Emits (a : BuildArgs) (many : Bool) (e : Effects) (bs : List Artifact) (e' : Effects) : Prop :=
  if a.stdout then e' = { e with stdout := e.stdout ++ bs.flatMap (printed many) }
  else e'.stdout = e.stdout ∧
    Writes (a.output.getD defaultOutputDir) a.emitMap e.files bs e'.files

section Emits

variable {b : Artifact} {bs : List Artifact}

theorem emits_nil : a.Emits many e [] e' ↔ e' = e := by
  rw [Emits]
  split
  · rw [List.flatMap_nil, List.append_nil]
  · constructor
    · rintro ⟨hout, hw⟩
      cases e
      cases e'
      cases hw
      exact congrArg (Effects.mk _) hout
    · rintro rfl
      exact ⟨rfl, .done _⟩

theorem emits_stdout (h : a.stdout = true) : a.Emits many e bs e' ↔
    e' = { e with stdout := e.stdout ++ bs.flatMap (printed many) } := by
  rw [Emits, if_pos h]

theorem emits_print (h : a.stdout = true) : a.Emits many e (b :: bs) e' ↔
    a.Emits many { e with stdout := e.stdout ++ printed many b } bs e' := by
  rw [emits_stdout h, emits_stdout h, List.flatMap_cons, List.append_assoc]

theorem emits_write (h : a.stdout = false) : a.Emits many e (b :: bs) e' ↔
    ∃ t, writeArtifact e.files (a.output.getD defaultOutputDir) b a.emitMap = (.ok (), t) ∧
      a.Emits many { e with files := t } bs e' := by
  simp only [Emits, h, Bool.false_eq_true, if_false, writeArtifact_eq_ok_iff]
  constructor
  · rintro ⟨hout, _ | ⟨hw, hrest⟩⟩
    exact ⟨_, hw, hout, hrest⟩
  · rintro ⟨t, hw, hout, hrest⟩
    exact ⟨hout, .next hw hrest⟩

end Emits

/-- Results that all fail for their own file only, if they fail, are emitted but for those that
fail, and these are counted. -/
theorem emit_eq_ok_iff {results : List (Except Failure Artifact)}
    (h : ∀ f, .error f ∈ results → f.isRecoverable = true) :
    a.emit many results e = (.ok n, e') ↔
      n = results.countP (!·.isOk) ∧ a.Emits many e (results.filterMap Except.toOption) e' := by
  induction results generalizing e n with
  | nil =>
    rw [emit, List.filterMap_nil, emits_nil, List.countP_nil]
    simp [eq_comm]
  | cons result results ih =>
    have ih {e : Effects} {n : Nat} := ih (e := e) (n := n)
      fun f hf => h f (List.mem_cons_of_mem _ hf)
    rw [emit]
    cases result with
    | error f =>
      have hf : f.isRecoverable = true := h f List.mem_cons_self
      rw [Failure.recover, if_pos hf, List.filterMap_cons_none (f := Except.toOption) rfl,
        List.countP_cons_of_pos rfl]
      dsimp only
      split
      next failed e₁ hemit =>
        rw [Prod.mk.injEq, Except.ok.injEq]
        constructor
        · rintro ⟨rfl, rfl⟩
          obtain ⟨rfl, hemits⟩ := ih.1 hemit
          exact ⟨rfl, hemits⟩
        · rintro ⟨rfl, hemits⟩
          obtain ⟨hfailed, rfl⟩ := Prod.mk.inj (hemit.symm.trans (ih.2 ⟨rfl, hemits⟩))
          exact ⟨congrArg (· + 1) (Except.ok.inj hfailed), rfl⟩
      next f' e₁ hemit =>
        refine iff_of_false (by simp) ?_
        rintro ⟨-, hemits⟩
        cases hemit.symm.trans (ih.2 ⟨rfl, hemits⟩)
    | ok b =>
      rw [Failure.recover, List.filterMap_cons_some (f := Except.toOption) rfl,
        List.countP_cons_of_neg Bool.false_ne_true]
      dsimp only
      cases hout : a.stdout with
      | true =>
        rw [if_pos rfl, emits_print hout, List.append_assoc]
        exact ih
      | false =>
        rw [if_neg Bool.false_ne_true, emits_write hout]
        split
        next f t hw => simp [hw]
        next t hw =>
          rw [ih]
          simp [hw]

/-! ### Whole builds -/

def artifacts (t : FileTree) (s : BuildSettings) (files : List Path) : List Artifact :=
  files.filterMap fun f => (buildFile t s f).toOption

def failures (t : FileTree) (s : BuildSettings) (files : List Path) : Nat :=
  files.countP fun f => !(buildFile t s f).isOk

theorem exists_of_mem_artifacts {b : Artifact} (h : b ∈ artifacts t s files) :
    ∃ file, buildFile t s file = .ok b := by
  obtain ⟨file, -, hfile⟩ := List.mem_filterMap.1 h
  cases hb : buildFile t s file with
  | error f =>
    rw [hb] at hfile
    cases hfile
  | ok b' =>
    rw [hb] at hfile
    exact ⟨file, hb.trans (congrArg _ (Option.some.inj hfile))⟩

/-- How a build ends without a failed write: all the artifacts are emitted, and the other files
are counted. -/
theorem runWith_eq_ok_iff (finish : List (Except Failure Artifact × Nat) →
      List (Except Failure Artifact × Nat))
    (hfinish : ∀ results, (finish results).Perm results)
    (hplan : a.plan t config = .ok (s, files)) :
    a.runWith finish t config = (.ok n, e) ↔ n = failures t s files ∧
      a.Emits (1 < files.length) ⟨t, []⟩ (artifacts t s files) e := by
  have hrecover : ∀ f, .error f ∈ files.map (buildFile t s) → f.isRecoverable = true := by
    intro f hf
    obtain ⟨file, -, hbuild⟩ := List.mem_map.1 hf
    exact isRecoverable_of_buildFile (validate_of_settings (settings_of_plan hplan)) hbuild
  rw [runWith_eq finish hfinish, hplan]
  dsimp only
  rw [emit_eq_ok_iff hrecover, List.countP_map, List.filterMap_map]
  rfl

theorem run_eq_ok_iff (hplan : a.plan t config = .ok (s, files)) :
    a.run t config = (.ok n, e) ↔ n = failures t s files ∧
      a.Emits (1 < files.length) ⟨t, []⟩ (artifacts t s files) e :=
  runWith_eq_ok_iff id (fun _ => .refl _) hplan

def alone (a : BuildArgs) (file : Path) : BuildArgs := { a with paths := [file] }

/-- A file by itself has the settings of a build that starts from its directory. -/
theorem plan_alone {file : Path} (hplan : a.plan t config = .ok (s, files))
    (hfile : t.isFile file = true) (hstart : searchStart t [file] = searchStart t a.inputs) :
    (a.alone file).plan t config = .ok (s, [file]) := by
  have hsettings : (a.alone file).settings t config [file] = .ok s := by
    rw [← settings_of_plan hplan]
    unfold settings
    rw [hstart]
    rfl
  obtain ⟨d, hd⟩ := Discovery.exists_ofPatterns (validate_of_settings hsettings)
  have hexpand : d.expand t [file] = .ok [file] := by
    rw [Discovery.expand, Discovery.expandFrom, if_neg (FileTree.not_isDir hfile), if_pos hfile]
    rfl
  have hinputs : (a.alone file).inputs = [file] := rfl
  rw [plan, hinputs, hsettings]
  simp only [hd, hexpand]

theorem failures_eq_zero_iff :
    failures t s files = 0 ↔ ¬ ∃ file ∈ files, ∃ f, buildFile t s file = .error f := by
  have hfails (file : Path) :
      (!(buildFile t s file).isOk) = true ↔ ∃ f, buildFile t s file = .error f := by
    cases buildFile t s file with
    | error f => simp [Except.isOk, Except.toBool]
    | ok b => simp [Except.isOk, Except.toBool]
  rw [failures, List.countP_eq_zero]
  push Not
  simp only [hfails, not_exists, ne_eq]

theorem exitCode_of_run {args : List Utf8.Bytes}
    (hargs : Invocation.parse args = .ok ⟨.build a, config⟩) (h : a.run t config = (.ok n, e)) :
    runCommandLine args t = (if n = 0 then 0 else 1, e) := by
  rw [runCommandLine, hargs]
  dsimp only
  rw [h]
  cases n with
  | zero => rfl
  | succ n => rfl

theorem Emits.leaves {bs : List Artifact} (h : a.Emits many ⟨t, []⟩ bs e)
    (hbuilt : ∀ b ∈ bs, ∃ file, buildFile t s file = .ok b) (hout : a.stdout = false) :
    Leaves (a.output.getD defaultOutputDir) a.emitMap t bs e.files := by
  rw [Emits, hout, if_neg Bool.false_ne_true] at h
  exact leaves_of_builds hbuilt h.2

/-- Files that fail do not touch the others. A build whose writes succeed emits the artifacts of
all other files, in order, whichever are finished first, and its exit code tells whether a file
failed. What it writes to files is read back from them. A file that is built alone with the same
settings yields the same artifact, or fails too. -/
theorem build_isolates {args : List Utf8.Bytes}
    (hargs : Invocation.parse args = .ok ⟨.build a, config⟩)
    (hsettings : a.settings t config a.inputs = .ok s)
    (hinputs : ∀ p ∈ a.inputs, t.isDir p = true ∨ t.isFile p = true) :
    let dir := a.output.getD defaultOutputDir
    ∃ files, a.plan t config = .ok (s, files) ∧
      (∀ e, a.Emits (1 < files.length) ⟨t, []⟩ (artifacts t s files) e →
        (∃ code, runCommandLine args t = (code, e) ∧ (code = 0 ∨ code = 1) ∧
          (code = 1 ↔ ∃ file ∈ files, ∃ f, buildFile t s file = .error f)) ∧
        (a.stdout = false → Leaves dir a.emitMap t (artifacts t s files) e.files) ∧
        ∀ finish, (∀ results, (finish results).Perm results) →
          a.runWith finish t config = a.run t config) ∧
      ∀ file ∈ files, (a.alone file).plan t config = .ok (s, [file]) →
        (∀ b, buildFile t s file = .ok b → ∀ e, (a.alone file).Emits false ⟨t, []⟩ [b] e →
          (a.alone file).run t config = (.ok 0, e) ∧
            (a.stdout = false → Leaves dir a.emitMap t [b] e.files)) ∧
        ∀ f, buildFile t s file = .error f →
          (a.alone file).run t config = (.ok 1, ⟨t, []⟩) := by
  intro dir
  obtain ⟨files, hplan⟩ := exists_plan hsettings hinputs
  refine ⟨files, hplan, fun e hemits => ⟨?_, ?_, ?_⟩, fun file hfile halone => ⟨?_, ?_⟩⟩
  · refine ⟨_, exitCode_of_run hargs ((run_eq_ok_iff hplan).2 ⟨rfl, hemits⟩), ?_, ?_⟩
    · split <;> simp
    · rw [← not_iff_not, ← failures_eq_zero_iff]
      simp
  · exact hemits.leaves fun b => exists_of_mem_artifacts
  · intro finish hfinish
    rw [runWith_eq finish hfinish, run_eq]
  · intro b hb e hemits
    refine ⟨(run_eq_ok_iff halone).2 ?_, hemits.leaves (List.forall_mem_singleton.2 ⟨file, hb⟩)⟩
    rw [failures, artifacts]
    simpa [hb, Except.toOption, Except.isOk, Except.toBool] using hemits
  · intro f hf
    apply (run_eq_ok_iff halone).2
    rw [failures, artifacts]
    simp [hf, Except.toOption, Except.isOk, Except.toBool, emits_nil]

/-- Three files, of which the first lacks a version line and the last is no text. The other one is
written, with its text when it is built alone. -/
theorem build_isolates_mixed :
    let path (t : String) : Path := Utf8.encode t.toList
    let t : FileTree := ⟨[path "w"], [([path "w"], .directory),
      ([path "w", path "a"], .file (path "x")),
      ([path "w", path "b"], .file (path "#version 1\n")), ([path "w", path "c"], .file [0xff])]⟩
    let args := ["build", "-DA", "a", "b", "c"].map path
    let a : BuildArgs := { paths := ["a", "b", "c"].map path, defines := [("A".toList, none)] }
    let text := "#version 1\n#define A\n".toList
    Invocation.parse args = .ok ⟨.build a, none⟩ ∧
      (∃ e, runCommandLine args t = (1, e) ∧
        e.files.readText (path "splice-generated/b") = .ok text) ∧
      ∃ e, (a.alone (path "b")).run t none = (.ok 0, e) ∧
        e.files.readText (path "splice-generated/b") = .ok text := by
  intro path t args a text
  have hargs : Invocation.parse args = .ok ⟨.build a, none⟩ := rfl
  have hplan : ((a.plan t none).toOption.map fun x => (x.2, (buildFile t x.1 (path "a")).isOk)) =
      some (a.paths, false) := by decide +kernel
  have hbuild : ((a.plan t none).toOption.map fun x =>
      ((artifacts t x.1 x.2).map fun b => (b.id.path, b.text),
        (buildFile t x.1 (path "b")).toOption.map fun b => (b.id.path, b.text))) =
      some ([("b".toList, text)], some ("b".toList, text)) := by decide +kernel
  have hcounts : (a.run t none).1.toOption = some 2 ∧
      ((a.alone (path "b")).run t none).1.toOption = some 0 := by decide +kernel
  have hinputs : ∀ p ∈ a.inputs, t.isDir p = true ∨ t.isFile p = true := by decide +kernel
  obtain ⟨⟨s, names⟩, hp, hx⟩ := exists_of_toOption hplan
  obtain ⟨rfl, ha⟩ := Prod.mk.inj hx
  rw [hp] at hbuild
  obtain ⟨hbs, hb⟩ := Prod.mk.inj (Option.some.inj hbuild)
  obtain ⟨b, hbs, hfile⟩ := List.map_eq_singleton_iff.1 hbs
  obtain ⟨b', hb', hfile'⟩ := exists_of_toOption hb
  obtain ⟨e, hrun⟩ := exists_of_fst_toOption hcounts.1
  obtain ⟨e', hrun'⟩ := exists_of_fst_toOption hcounts.2
  obtain ⟨files, hplan, hemitted, halone⟩ := build_isolates hargs (settings_of_plan hp) hinputs
  obtain rfl : a.paths = files := (Prod.mk.inj (Except.ok.inj (hp.symm.trans hplan))).2
  -- the file of an artifact, by what is known about its path and its text
  have hread {b : Artifact} {e : Effects} (h : Leaves defaultOutputDir false t [b] e.files)
      (hb : (b.id.path, b.text) = ("b".toList, text)) :
      e.files.readText (path "splice-generated/b") = .ok text := by
    have hend := h.atEnd [] b [] rfl (b.id.path, b.text) List.mem_cons_self (by simp)
    rw [hb] at hend
    exact hend
  refine ⟨hargs, ⟨e, ?_, ?_⟩, e', hrun', ?_⟩
  · obtain ⟨⟨code, hcode, -, hone⟩, -⟩ := hemitted e ((run_eq_ok_iff hp).1 hrun).2
    have hfailed : ∃ f, buildFile t s (path "a") = .error f := by
      cases hbuild : buildFile t s (path "a") with
      | error f => exact ⟨f, rfl⟩
      | ok b =>
        rw [hbuild] at ha
        cases ha
    rw [hcode, hone.2 ⟨path "a", by decide, hfailed⟩]
  · have hleaves := (hemitted e ((run_eq_ok_iff hp).1 hrun).2).2.1 rfl
    rw [hbs] at hleaves
    exact hread hleaves hfile
  · have hsame := plan_alone hp (by decide +kernel : t.isFile (path "b") = true) (by decide +kernel)
    have hemits := ((run_eq_ok_iff hsame).1 hrun').2
    have hone : artifacts t s [path "b"] = [b'] := by
      rw [artifacts, List.filterMap_cons_some (by rw [hb']; rfl), List.filterMap_nil]
    rw [hone] at hemits
    exact hread (((halone (path "b") (by decide) hsame).1 b' hb' e' hemits).2 rfl) hfile'

end BuildArgs
end ShaderInline
