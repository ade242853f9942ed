import ShaderInline.Pipeline
import ShaderInline.Proofs.Define
import ShaderInline.Proofs.Expand.FirstLine
import ShaderInline.Proofs.Expand.Inlining
import ShaderInline.Proofs.Expand.Sections

/-! # What a build comes to

A build fails for a missing version line or for a store that fails, and for
nothing else: its edits never clash, and defines that fit the root still fit the
document with all imports and line directives in it. Defines change nothing in
an artifact but the text after the version line.
-/

namespace ShaderInline

open Schema

theorem Problem.isFatal_iff {p : Problem} : p.isFatal = true ↔ p = .storeFailure := by
  cases p <;> simp [isFatal]

namespace ExpandEnv

def storeFailsAt (env : ExpandEnv) (chain : List ResourceId) (r : Resource) : Bool :=
  r.document.sites.any fun s =>
    match env.target chain r s with
    | .error d => d.problem == .storeFailure
    | .ok _ => false

/-- Whether the store fails for an import of a root or of a resource below it. -/
def StoreFails (env : ExpandEnv) (root : Resource) : Prop :=
  ∃ chain r, Reached env [root.id] root chain r ∧ env.storeFailsAt chain r = true

theorem storeFailsAt_iff {env : ExpandEnv} {chain : List ResourceId} {r : Resource} :
    env.storeFailsAt chain r = true ↔ ∃ s ∈ r.document.sites, ∃ d,
      env.target chain r s = .error d ∧ d.problem = .storeFailure := by
  rw [storeFailsAt, List.any_eq_true]
  constructor
  · rintro ⟨s, hs, h⟩
    split at h
    next d ht => exact ⟨s, hs, d, ht, eq_of_beq h⟩
    next => cases h
  · rintro ⟨s, hs, d, ht, hd⟩
    exact ⟨s, hs, by rw [ht]; exact beq_iff_eq.2 hd⟩

theorem not_storeFails {env : ExpandEnv} {root : Resource} (levels : Nat)
    (h : env.allReached (fun chain r => !env.storeFailsAt chain r) levels [root.id] root = true) :
    ¬ env.StoreFails root := by
  rintro ⟨chain, r, hreach, hf⟩
  have hcheck := hreach.of_allReached h
  rw [hf] at hcheck
  cases hcheck

theorem success_iff {env : ExpandEnv} {root : Resource} {e : Expanded}
    (h : env.run root = .ok e) : e.success = true ↔ ¬ env.StoreFails root := by
  have hsuccess : e.success = !e.diagnostics.any fun d => d.problem.isFatal := by
    rw [run] at h
    rcases ht : env.trace root with ⟨f | x, p⟩
    · simp [ht] at h
    · obtain rfl := Except.ok.inj (by simpa only [ht] using h)
      rfl
  have hfatal : (∃ d ∈ e.diagnostics, d.problem.isFatal = true) ↔ env.StoreFails root := by
    rw [diagnostics_of_run h]
    constructor
    · rintro ⟨d, hd, hf⟩
      obtain ⟨chain, r, s, hreach, hs, ht⟩ := mem_failures_iff.1 hd
      exact ⟨chain, r, hreach, storeFailsAt_iff.2 ⟨s, hs, d, ht, Problem.isFatal_iff.1 hf⟩⟩
    · rintro ⟨chain, r, hreach, hf⟩
      obtain ⟨s, hs, d, ht, hd⟩ := storeFailsAt_iff.1 hf
      exact ⟨d, mem_failures_iff.2 ⟨chain, r, s, hreach, hs, ht⟩, Problem.isFatal_iff.2 hd⟩
  rw [hsuccess, ← hfatal, Bool.not_eq_true', ← Bool.not_eq_true, List.any_eq_true]

end ExpandEnv

theorem Config.checkAll_defines {c : Config} (h : c.validate = .ok ()) :
    Defines.checkAll c.defines.entries = .ok () := by
  unfold validate at h
  split at h
  next => cases h
  next =>
    split at h
    next => cases h
    next =>
      split at h
      next => cases h
      next => exact h

namespace Pipeline

variable {p : Pipeline} {id : ResourceId} {t : Text} {root : Resource} {e : Expanded}

/-- The document that the defines are put into is the output of the run, with line directives or
without. -/
theorem exists_withLines {cs : List Chunk} (p : Pipeline) (h : Ran p.expandEnv root e cs) :
    ∃ u, (p.withLines root e).1 = .parse glsl u ∧
      (u = Chunk.textAll cs ∨ ∃ w : LineDirective, w.version = Defines.versionName ∧
        Edit.Swept 0 (Chunk.textAll cs)
          (w.plan (.parse glsl (Chunk.textAll cs)) (.ofChunks cs) e.contents).edits u) := by
  unfold withLines Config.lineDirective?
  cases p.config.lines.enabled with
  | false => exact ⟨_, h.document, .inl rfl⟩
  | true =>
    obtain ⟨u, hu, hinj⟩ := (LineDirective.ofMarker p.config.lines.marker).inject_eq h.covers
    refine ⟨u, ?_, .inr ⟨.ofMarker p.config.lines.marker, rfl, hu⟩⟩
    simp only [if_true, h.map_eq]
    rw [h.document, hinj]

theorem leading_withLines (p : Pipeline) (hroot : root.IsGlsl)
    (h : p.expandEnv.run root = .ok e) : ∃ u, (p.withLines root e).1 = .parse glsl u ∧
      ∀ v, root.document.leadingDirective? Defines.versionName = some v →
        (Document.parse glsl u).leadingDirective? Defines.versionName = some v := by
  obtain ⟨cs, hran⟩ := ExpandEnv.exists_ran hroot h
  obtain ⟨u, hdoc, hu⟩ := p.exists_withLines hran
  refine ⟨u, hdoc, fun v hv => ?_⟩
  rw [hroot] at hv
  have hleading := hran.unfolds.leading Defines.versionName_ne hv
  rcases hu with rfl | ⟨w, hw, hu⟩
  · exact hleading
  · rw [← hw] at hleading ⊢
    exact LineDirective.leading_inject hran.covers (hw ▸ Defines.versionName_ne) hu hleading

theorem firstLine_withLines {a q b : Text} {v : Node} (p : Pipeline) (hroot : root.IsGlsl)
    (h : p.expandEnv.run root = .ok e) (hc : root.content = a ++ (q ++ b))
    (hf : FirstLine Defines.versionName v a q) :
    ∃ b', (p.withLines root e).1 = .parse glsl (a ++ (q ++ b')) := by
  obtain ⟨cs, hran⟩ := ExpandEnv.exists_ran hroot h
  obtain ⟨u, hdoc, hu⟩ := p.exists_withLines hran
  have hcs := hran.unfolds
  rw [hc] at hcs
  obtain ⟨b', hb'⟩ := hcs.exists_firstLine Defines.versionName_ne hf
  rw [hdoc]
  rcases hu with rfl | ⟨w, hw, hu⟩
  · exact ⟨b', by rw [hb']⟩
  · have hcovers := hran.covers
    rw [hb'] at hu hcovers
    obtain ⟨b'', rfl⟩ := LineDirective.exists_firstLine hcovers (hw ▸ hf) hu
    exact ⟨b'', rfl⟩

def artifact (p : Pipeline) (root : Resource) (e : Expanded) (document : Document) : Artifact where
  id := root.id
  text := if p.config.stripNonAscii then Text.stripNonAscii document.text else document.text
  document := document
  hadImports := e.hadImports
  diagnostics := e.diagnostics.map Diagnostic.display
  map := e.map
  paths := (p.withLines root e).2

/-! ### How a build ends -/

theorem build_unversioned (hd : Defines.checkAll p.config.defines.entries = .ok ())
    (hu : p.config.defines.Unversioned (.parse p.schema t)) :
    p.build id t = .error (.missingVersion id.display) := by
  rw [build]
  simp only [Resource.parse, Defines.validate_unversioned hd hu]

theorem build_eq {document : Document} (hschema : p.schema = glsl)
    (hd : Defines.checkAll p.config.defines.entries = .ok ())
    (hu : ¬ p.config.defines.Unversioned (.parse glsl t))
    (h : p.expandEnv.run (.parse glsl id t) = .ok e)
    (hi : p.config.defines.inject (p.withLines (.parse glsl id t) e).1 id.display = .ok document) :
    p.build id t =
      if e.success then .ok (p.artifact (.parse glsl id t) e document)
      else .error (.preprocess id.display e.report) := by
  have hvalidate : p.config.defines.validate (Resource.parse glsl id t).document id.display =
    .ok () := Defines.validate_versioned hd hu id.display
  rw [build, hschema]
  simp only [hvalidate, h]
  cases e.success with
  | false => rfl
  | true =>
    simp only [hi]
    rfl

/-- Once the root has been checked, only a failed run fails a build. -/
theorem exists_build (hschema : p.schema = glsl)
    (hd : Defines.checkAll p.config.defines.entries = .ok ())
    (hu : ¬ p.config.defines.Unversioned (.parse glsl t))
    (h : p.expandEnv.run (.parse glsl id t) = .ok e) :
    ∃ document, p.build id t =
      if e.success then .ok (p.artifact (.parse glsl id t) e document)
      else .error (.preprocess id.display e.report) := by
  obtain ⟨u, hdoc, hleading⟩ := p.leading_withLines (Resource.isGlsl_parse id t) h
  have hu' : ¬ p.config.defines.Unversioned (.parse glsl u) := by
    rintro ⟨hne, hnone⟩
    refine hu ⟨hne, Option.eq_none_iff_forall_ne_some.2 fun v hv => ?_⟩
    cases hnone.symm.trans (hleading v hv)
  obtain ⟨document, hi⟩ := Defines.exists_inject hd hu' id.display
  rw [← hdoc] at hi
  exact ⟨document, build_eq hschema hd hu h hi⟩

/-- A build that is not cancelled ends in one of three ways: defines lack a version line, the store
fails for an import, or there is an artifact. -/
theorem build_outcome (p : Pipeline) (hschema : p.schema = glsl)
    (hconfig : p.config.validate = .ok ()) (hcancel : p.cancelAfter = none) (id : ResourceId)
    (t : Text) :
    let root := Resource.parse glsl id t
    (p.build id t = .error (.missingVersion id.display) ↔
        p.config.defines.Unversioned root.document) ∧
      ((∃ report, p.build id t = .error (.preprocess id.display report)) ↔
        ¬ p.config.defines.Unversioned root.document ∧ p.expandEnv.StoreFails root) ∧
      ((∃ a, p.build id t = .ok a) ↔
        ¬ p.config.defines.Unversioned root.document ∧ ¬ p.expandEnv.StoreFails root) ∧
      ∀ f, p.build id t = .error f → f = .missingVersion id.display ∨
        ∃ report, f = .preprocess id.display report := by
  intro root
  have hd := Config.checkAll_defines hconfig
  by_cases hu : p.config.defines.Unversioned root.document
  · have hbuild : p.build id t = .error (.missingVersion id.display) :=
      build_unversioned hd (by rw [hschema]; exact hu)
    simp [hbuild, hu]
  · obtain ⟨e, he⟩ : ∃ e, p.expandEnv.run root = .ok e :=
      ExpandEnv.exists_run (Resource.isGlsl_parse id t) hcancel
    obtain ⟨document, hbuild⟩ := exists_build hschema hd hu he
    by_cases hs : p.expandEnv.StoreFails root
    · have hfail : e.success = false := by
        rw [← Bool.not_eq_true, ExpandEnv.success_iff he]
        exact not_not_intro hs
      rw [hfail] at hbuild
      simp [hbuild, hu, hs]
    · rw [(ExpandEnv.success_iff he).2 hs] at hbuild
      simp [hbuild, hu, hs]

/-- A root without a version line, one that imports what the store fails for, and one that imports
what is not there. -/
theorem build_outcome_each :
    let config := { Config.standard with
      defines := .ofList [("A".toList, some "1".toList)] }
    let store : Store := fun i =>
      if i.path = "a".toList then .error (.io "a".toList "denied".toList) else .ok none
    let p : Pipeline := ⟨glsl, config, store, none⟩
    let id : ResourceId := ⟨"s".toList, "m".toList⟩
    p.config.validate = .ok () ∧
      p.build id "// é\nint x;".toList = .error (.missingVersion id.display) ∧
      (∃ report, p.build id "#version 330\n@import \"s:b\"\n@import \"s:a\"\n".toList =
        .error (.preprocess id.display report)) ∧
      ∃ a, p.build id "#version 330\n@import \"s:b\"".toList = .ok a := by
  intro config store p id
  have hconfig : p.config.validate = .ok () := by decide +kernel
  have h := build_outcome p rfl hconfig rfl id
  have hversion {t : Text} (hv : ((Document.parse glsl t).leadingDirective?
      Defines.versionName).isSome = true) : ¬ config.defines.Unversioned (.parse glsl t) := by
    obtain ⟨v, hv⟩ := Option.isSome_iff_exists.1 hv
    exact Defines.versioned hv
  refine ⟨hconfig, (h _).1.2 ⟨by decide +kernel, ?_⟩, (h _).2.1.2 ⟨?_, ?_⟩, (h _).2.2.1.2 ⟨?_, ?_⟩⟩
  · exact Option.isNone_iff_eq_none.1 (by decide +kernel)
  · exact hversion (by decide +kernel)
  · exact ⟨_, _, .refl _ _, by decide +kernel⟩
  · exact hversion (by decide +kernel)
  · exact ExpandEnv.not_storeFails 0 (by decide +kernel)

/-! ### The version line -/

theorem exists_run_of_build {a : Artifact} (hschema : p.schema = glsl) (h : p.build id t = .ok a) :
    ∃ e, p.expandEnv.run (.parse glsl id t) = .ok e ∧
      p.config.defines.inject (p.withLines (.parse glsl id t) e).1 id.display = .ok a.document := by
  rw [build, hschema] at h
  simp only at h
  split at h
  next => cases h
  next =>
    split at h
    next => cases h
    next e he =>
      split at h
      next => cases h
      next =>
        split at h
        next => cases h
        next document hi =>
          rw [← Except.ok.inj h]
          exact ⟨e, he, hi⟩

/-- An artifact starts with the version line of its root, up to the line break right after it. -/
theorem build_firstLine (p : Pipeline) (hschema : p.schema = glsl) (id : ResourceId) (t : Text)
    (v : Node) (l : Leaf)
    (hv : (Document.parse glsl t).leadingDirective? Defines.versionName = some v)
    (hl : l ∈ (Document.parse glsl t).leaves) (hk : l.kind = .newline) (hs : l.start = v.stop)
    (a : Artifact) (h : p.build id t = .ok a) :
    (LineDirective.ofMarker p.config.lines.marker).minOffset (.parse glsl t) = l.stop ∧
      (∃ x y z, t = x ++ y ∧ Text.size x = l.stop ∧ a.document.text = x ++ z) ∧
      a.document.leadingDirective? Defines.versionName = some v := by
  obtain ⟨hend, x, q, b, rfl, hsize, hf⟩ :=
    Document.exists_firstLine Defines.versionName_ne hv hl hk hs
  obtain ⟨e, he, hi⟩ := exists_run_of_build hschema h
  obtain ⟨b', hdoc⟩ := p.firstLine_withLines (Resource.isGlsl_parse id _) he rfl hf
  rw [hdoc] at hi
  obtain ⟨b'', hdoc'⟩ := Defines.exists_firstLine hf hi
  refine ⟨?_, ⟨x ++ q, b, b'', by simp, hsize, ?_⟩, ?_⟩
  · have hversion : (LineDirective.ofMarker p.config.lines.marker).version =
      Defines.versionName := rfl
    rw [LineDirective.minOffset, hversion, hv, ← hend]
  · rw [hdoc', Document.text_parse, List.append_assoc]
  · rw [hdoc']
    exact hf.leading b''

/-- A version line that a carriage return ends, after a comment, with a marker that starts with a
line feed and an import of a resource that has a version line of its own. -/
theorem build_firstLine_return :
    let config := { Config.standard with
      lines := ⟨true, "\n#line".toList⟩
      defines := .ofList [("A".toList, some "1".toList)] }
    let store : Store := fun i =>
      .ok (if i.path = "a".toList then some "#version 100\nfloat y;".toList else none)
    let p : Pipeline := ⟨glsl, config, store, none⟩
    let id : ResourceId := ⟨"s".toList, "m".toList⟩
    let t := "/* é */ #version 330\r@import \"s:a\"\n".toList
    ∃ v l a, (Document.parse glsl t).leadingDirective? Defines.versionName = some v ∧
      l ∈ (Document.parse glsl t).leaves ∧ l.kind = .newline ∧ l.start = v.stop ∧
      p.build id t = .ok a ∧
      (∃ x y z, t = x ++ y ∧ Text.size x = l.stop ∧ a.document.text = x ++ z) ∧
      a.document.leadingDirective? Defines.versionName = some v := by
  intro config store p id t
  have hline : ((Document.parse glsl t).leadingDirective? Defines.versionName).any (fun v =>
      (Document.parse glsl t).leaves.any fun l => l.kind == .newline && l.start == v.stop) =
        true := by
    decide +kernel
  obtain ⟨v, hv, hany⟩ := (Option.any_eq_true _ _).1 hline
  obtain ⟨l, hl, hleaf⟩ := List.any_eq_true.1 hany
  rw [Bool.and_eq_true, beq_iff_eq, beq_iff_eq] at hleaf
  obtain ⟨e, he⟩ : ∃ e, p.expandEnv.run (.parse glsl id t) = .ok e :=
    ExpandEnv.exists_run (Resource.isGlsl_parse id t) rfl
  have hsuccess : e.success = true :=
    (ExpandEnv.success_iff he).2 (ExpandEnv.not_storeFails 1 (by decide +kernel))
  obtain ⟨document, hbuild⟩ : ∃ document, p.build id t = _ :=
    exists_build rfl (by decide +kernel) (Defines.versioned hv) he
  rw [hsuccess, if_pos rfl] at hbuild
  obtain ⟨-, hkept⟩ := build_firstLine p rfl id t v l hv hl hleaf.1 hleaf.2 _ hbuild
  exact ⟨v, l, _, hv, hl, hleaf.1, hleaf.2, hbuild, hkept⟩

end Pipeline

/-! ### Two builds that differ in their defines -/

/-- An artifact that differs from another by defines after its version line. -/
structure Artifact.AddsDefines (before : Artifact) (d : Defines) (after : Artifact) : Prop where
  map_eq : after.map = before.map
  diagnostics_eq : after.diagnostics = before.diagnostics
  hadImports_eq : after.hadImports = before.hadImports
  paths_eq : after.paths = before.paths
  text_eq : ∃ v x y, before.document.leadingDirective? Defines.versionName = some v ∧
    before.document.endOfLine v.stop = Text.size x ∧ before.document.text = x ++ y ∧
    after.document.text = x ++ (d.render ++ y)

namespace Pipeline

def withDefines (p : Pipeline) (d : Defines) : Pipeline :=
  { p with config := { p.config with defines := d } }

@[simp] theorem defines_withDefines (p : Pipeline) (d : Defines) :
    (p.withDefines d).config.defines = d := rfl

@[simp] theorem withLines_withDefines (p : Pipeline) (d : Defines) :
    (p.withDefines d).withLines = p.withLines := rfl

/-- Builds with defines and without them fail alike, or yield artifacts that differ only by the
defines after the version line. -/
theorem build_withDefines (p : Pipeline) (hschema : p.schema = glsl)
    (hcancel : p.cancelAfter = none) (d : Defines) (hd : Defines.checkAll d.entries = .ok ())
    (id : ResourceId) (t : Text) (v : Node)
    (hv : (Document.parse glsl t).leadingDirective? Defines.versionName = some v) :
    (∃ report, (p.withDefines .empty).build id t = .error (.preprocess id.display report) ∧
      (p.withDefines d).build id t = .error (.preprocess id.display report)) ∨
    ∃ before after, (p.withDefines .empty).build id t = .ok before ∧
      (p.withDefines d).build id t = .ok after ∧ before.AddsDefines d after := by
  obtain ⟨e, he⟩ : ∃ e, p.expandEnv.run (.parse glsl id t) = .ok e :=
    ExpandEnv.exists_run (Resource.isGlsl_parse id t) hcancel
  obtain ⟨u, hdoc, hleading⟩ := p.leading_withLines (Resource.isGlsl_parse id t) he
  obtain ⟨v', x, y, hv', hend, hplace⟩ := Defines.exists_place (hleading v hv) id.display
  -- The run and the line directives are the same whatever the defines are.
  have hbuild (d : Defines) (hd : Defines.checkAll d.entries = .ok ()) :
      (p.withDefines d).build id t =
        if e.success then
          .ok ((p.withDefines d).artifact (.parse glsl id t) e (.parse glsl (x ++ (d.render ++ y))))
        else .error (.preprocess id.display e.report) := by
    refine build_eq hschema hd (Defines.versioned hv) he ?_
    rw [defines_withDefines, withLines_withDefines, hdoc]
    exact hplace d hd
  have hempty := hbuild .empty rfl
  have hfull := hbuild d hd
  cases hs : e.success with
  | false =>
    rw [hs] at hempty hfull
    exact .inl ⟨e.report, hempty, hfull⟩
  | true =>
    rw [hs] at hempty hfull
    refine .inr ⟨_, _, hempty, hfull, rfl, rfl, rfl, rfl, v', x, y, hv', hend, ?_, ?_⟩
    · exact Document.text_parse glsl _
    · exact Document.text_parse glsl _

/-- A version line after a comment that goes on in the next line, and two imports of which one
fails. -/
theorem build_withDefines_continued :
    let store : Store := fun i =>
      .ok (if i.path = "a".toList then some "float y;".toList else none)
    let p : Pipeline := ⟨glsl, Config.standard, store, none⟩
    let id : ResourceId := ⟨"s".toList, "m".toList⟩
    let t := "/* é */ #version 330 \\\n core\n@import \"s:a\"\n@import \"s:b\"".toList
    let d := Defines.ofList [("B".toList, none), ("A".toList, some "1".toList)]
    Defines.checkAll d.entries = .ok () ∧
      ((Document.parse glsl t).leadingDirective? Defines.versionName).isSome = true ∧
      ∃ before after, (p.withDefines .empty).build id t = .ok before ∧
        (p.withDefines d).build id t = .ok after ∧ before.AddsDefines d after := by
  intro store p id t d
  have hd : Defines.checkAll d.entries = .ok () := by decide +kernel
  have hsome : ((Document.parse glsl t).leadingDirective? Defines.versionName).isSome = true := by
    decide +kernel
  obtain ⟨v, hv⟩ := Option.isSome_iff_exists.1 hsome
  refine ⟨hd, hsome, ?_⟩
  rcases build_withDefines p rfl rfl d hd id t v hv with ⟨report, -, hfail⟩ | hok
  · -- The store does not fail, so the builds do not either.
    obtain ⟨e, he⟩ : ∃ e, p.expandEnv.run (.parse glsl id t) = .ok e :=
      ExpandEnv.exists_run (Resource.isGlsl_parse id t) rfl
    have hs : e.success = true :=
      (ExpandEnv.success_iff he).2 (ExpandEnv.not_storeFails 1 (by decide +kernel))
    obtain ⟨document, hbuild⟩ : ∃ document, (p.withDefines d).build id t = _ :=
      exists_build rfl hd (Defines.versioned hv) he
    rw [hs, if_pos rfl] at hbuild
    cases hfail.symm.trans hbuild
  · exact hok

end Pipeline
end ShaderInline
