import ShaderInline.Proofs.Expand.ImportFree
import ShaderInline.Proofs.Pipeline

/-! # Builds that change nothing

Without defines a document is left as it is, unless it has a version line that no
line break ends. Such a line is ended even though nothing is put after it.
-/

namespace ShaderInline

open Schema

namespace Document

/-- Whether a text ends in its leading version line, with no line break after it. -/
def endsInVersion (d : Document) : Bool :=
  (d.leadingDirective? Defines.versionName).any fun v =>
    d.leaves.all (fun l => l.kind != .newline || l.start < v.stop) &&
      !d.text.getLast?.any Text.isLineBreak

theorem exists_endOfLine (s : Schema) (t : Text) (n : Nat) :
    ∃ x y, t = x ++ y ∧ (parse s t).endOfLine n = Text.size x ∧
      (x.getLast?.any Text.isLineBreak = true ∧
          (∃ l ∈ (parse s t).leaves, l.kind = .newline ∧ n ≤ l.start) ∨
        y = [] ∧ ∀ l ∈ (parse s t).leaves, l.kind = .newline → l.start < n) := by
  rw [endOfLine]
  split
  next l hl =>
    have hmem := List.mem_of_find?_eq_some hl
    have hcond := List.find?_some hl
    rw [Bool.and_eq_true, decide_eq_true_eq, beq_iff_eq] at hcond
    obtain ⟨hle, hkind⟩ := hcond
    obtain ⟨as, p, bs, he, hs, ht, hk⟩ := exists_piece_of_mem_leaves hmem
    have hpk : p.kind = .newline := by
      rcases hk with hk | hk
      · exact hk.symm.trans hkind
      · cases hk.symm.trans hkind
    have hp : p ∈ Piece.ofText s t := by
      rw [he]
      exact List.mem_append_right as List.mem_cons_self
    have hne := (Piece.cuts_ofText s t).text_ne_nil hp
    have hbreak := (Piece.cuts_ofText s t).newline_isLineBreak hp hpk
    refine ⟨Piece.textAll as ++ p.text, Piece.textAll bs, ?_, ?_, .inl ⟨?_, l, hmem, hkind, hle⟩⟩
    · rw [← Piece.textAll_ofText s t, he]
      simp
    · rw [Leaf.stop, hs, ht, Text.size_append]
    · rw [List.getLast?_append_of_ne_nil _ hne, List.getLast?_eq_some_getLast hne, Option.any_some]
      exact hbreak _ (List.getLast_mem hne)
  next hnone =>
    refine ⟨t, [], (List.append_nil t).symm, size_parse s t, .inr ⟨rfl, fun l hl hk => ?_⟩⟩
    have hcond := List.find?_eq_none.1 hnone l hl
    simpa [hk] using hcond

end Document

namespace Defines

theorem blockAfter_empty (a : Text) :
    empty.blockAfter a = if a.getLast?.any Text.isLineBreak then [] else ['\n'] := rfl

/-- Without defines, a version line that no line break ends gets one, and nothing else changes. -/
theorem inject_empty_eq (s : Schema) (t source : Text) :
    empty.inject (.parse s t) source =
      .ok (.parse s (if (Document.parse s t).endsInVersion then t ++ ['\n'] else t)) := by
  cases hv : (Document.parse s t).leadingDirective? versionName with
  | none =>
    rw [inject_of_nil rfl hv, Document.endsInVersion, hv]
    rfl
  | some v =>
    obtain ⟨x, y, ht, hend, hline⟩ := Document.exists_endOfLine s t v.stop
    have hinject : empty.inject (.parse s t) source =
        .ok (.parse s (x ++ (empty.blockAfter x ++ y))) := by
      subst ht
      exact inject_eq rfl hv hend source
    rw [hinject, blockAfter_empty, Document.endsInVersion, hv, Option.any_some, Document.text_parse]
    rcases hline with ⟨hbreak, l, hl, hk, hle⟩ | ⟨rfl, hnone⟩
    · -- a line break ends the line
      have hall : (Document.parse s t).leaves.all
          (fun l => l.kind != .newline || l.start < v.stop) = false := by
        rw [List.all_eq_false]
        exact ⟨l, hl, by simpa [hk] using hle⟩
      rw [hbreak, hall, Bool.false_and, if_pos rfl, if_neg Bool.false_ne_true, List.nil_append, ht]
    · -- the line is the last one
      have hall : (Document.parse s t).leaves.all
          (fun l => l.kind != .newline || l.start < v.stop) = true := by
        rw [List.all_eq_true]
        intro l hl
        by_cases hk : l.kind = .newline
        · simp [hnone l hl hk]
        · simp [hk]
      rw [List.append_nil] at ht
      rw [hall, Bool.true_and, ← ht]
      cases t.getLast?.any Text.isLineBreak with
      | true => simp
      | false => simp

end Defines

theorem ExpandEnv.not_storeFails_of_nil {env : ExpandEnv} {root : Resource}
    (h : root.document.sites = []) : ¬ env.StoreFails root := by
  rintro ⟨chain, r, hreach, hf⟩
  cases hreach with
  | refl =>
    rw [storeFailsAt, h] at hf
    cases hf
  | step hs =>
    rw [h] at hs
    cases hs

namespace Pipeline

theorem build_plain {p : Pipeline} {t : Text} (hschema : p.schema = glsl)
    (hlines : p.config.lines.enabled = false) (hstrip : p.config.stripNonAscii = false)
    (hdefines : p.config.defines = .empty) (hcancel : p.cancelAfter ≠ some 0)
    (himports : (Document.parse glsl t).imports = []) (id : ResourceId) :
    ∃ a, p.build id t = .ok a ∧
      a.text = if (Document.parse glsl t).endsInVersion then t ++ ['\n'] else t := by
  have hsites : (Resource.parse glsl id t).document.sites = [] := List.map_eq_nil_iff.2 himports
  have hunversioned : ¬ p.config.defines.Unversioned (.parse glsl t) := by
    rw [hdefines]
    exact fun h => h.1 rfl
  have hchecked : Defines.checkAll p.config.defines.entries = .ok () := by
    rw [hdefines]
    rfl
  obtain ⟨e, he, hdoc, -⟩ : ∃ e, p.expandEnv.run (.parse glsl id t) = .ok e ∧ _ :=
    ExpandEnv.run_plain hcancel hsites
  have hsuccess : e.success = true :=
    (ExpandEnv.success_iff he).2 (ExpandEnv.not_storeFails_of_nil hsites)
  have hwith : (p.withLines (.parse glsl id t) e).1 = .parse glsl t := by
    rw [withLines, Config.lineDirective?, hlines]
    exact hdoc
  have hinject := Defines.inject_empty_eq glsl t id.display
  rw [← hdefines, ← hwith] at hinject
  refine ⟨_, (build_eq hschema hchecked hunversioned he hinject).trans (if_pos hsuccess), ?_⟩
  rw [artifact, hstrip, hwith]
  exact Document.text_parse glsl _

/-- Without defines, putting them in leaves every text as it is but for one that ends in its
version line. So does a build that puts in nothing else. -/
theorem build_unchanged (t : Text) :
    (∀ (s : Schema) (source : Text), ∃ doc, Defines.empty.inject (.parse s t) source = .ok doc ∧
      (doc.text = t ↔ (Document.parse s t).endsInVersion = false) ∧
      ((Document.parse s t).endsInVersion = true → doc.text = t ++ ['\n'])) ∧
    ∀ (p : Pipeline) (id : ResourceId), p.schema = glsl → p.config.lines.enabled = false →
      p.config.stripNonAscii = false → p.config.defines = .empty → p.cancelAfter ≠ some 0 →
      (Document.parse glsl t).imports = [] → ∃ a, p.build id t = .ok a ∧
        (a.text = t ↔ (Document.parse glsl t).endsInVersion = false) ∧
        ((Document.parse glsl t).endsInVersion = true → a.text = t ++ ['\n']) := by
  have hexact {b : Bool} {u : Text} (hu : u = if b then t ++ ['\n'] else t) :
      (u = t ↔ b = false) ∧ (b = true → u = t ++ ['\n']) := by
    cases b with
    | true => simp [hu]
    | false => simp [hu]
  constructor
  · intro s source
    exact ⟨_, Defines.inject_empty_eq s t source, hexact (Document.text_parse s _)⟩
  · intro p id hschema hlines hstrip hdefines hcancel himports
    obtain ⟨a, hbuild, htext⟩ :=
      build_plain hschema hlines hstrip hdefines hcancel himports id
    exact ⟨a, hbuild, hexact htext⟩

def plainConfig : Config :=
  { Config.standard with
    lines := { LineSettings.standard with enabled := false }
    stripNonAscii := false }

/-- A version line behind a comment, whose line break belongs to it because of a backslash. -/
theorem build_unchanged_continued :
    let t := "/* é */ #version 330 \\\n".toList
    let p : Pipeline := ⟨glsl, plainConfig, fun _ => .ok none, none⟩
    (Document.parse glsl t).imports = [] ∧
      (∃ doc, Defines.empty.inject (.parse glsl t) [] = .ok doc ∧ doc.text = t) ∧
      ∃ a, p.build ⟨"s".toList, "m".toList⟩ t = .ok a ∧ a.text = t := by
  intro t p
  have himports : (Document.parse glsl t).imports = [] := by
    rw [← List.isEmpty_iff]
    decide +kernel
  have hends : (Document.parse glsl t).endsInVersion = false := by decide +kernel
  obtain ⟨hinject, hbuild⟩ := build_unchanged t
  obtain ⟨doc, hdoc, hkept, -⟩ := hinject glsl []
  obtain ⟨a, ha, hsame, -⟩ :=
    hbuild p ⟨"s".toList, "m".toList⟩ rfl rfl rfl rfl (Option.some_ne_none 0).symm himports
  exact ⟨himports, ⟨doc, hdoc, hkept.2 hends⟩, a, ha, hsame.2 hends⟩

/-- A version line that is the whole of a text gets a line break. -/
theorem build_unchanged_ends :
    let t := "#version 330".toList
    let p : Pipeline := ⟨glsl, plainConfig, fun _ => .ok none, none⟩
    (∃ doc, Defines.empty.inject (.parse glsl t) [] = .ok doc ∧ doc.text ≠ t) ∧
      ∃ a, p.build ⟨"s".toList, "m".toList⟩ t = .ok a ∧ a.text = "#version 330\n".toList := by
  intro t p
  have himports : (Document.parse glsl t).imports = [] := by
    rw [← List.isEmpty_iff]
    decide +kernel
  have hends : (Document.parse glsl t).endsInVersion = true := by decide +kernel
  obtain ⟨a, hbuild, htext⟩ := build_plain (p := p) rfl rfl rfl rfl
    (Option.some_ne_none 0).symm himports ⟨"s".toList, "m".toList⟩
  have hinject := Defines.inject_empty_eq glsl t []
  rw [hends] at hinject htext
  refine ⟨⟨_, hinject, ?_⟩, a, hbuild, htext⟩
  rw [Document.text_parse]
  decide

end Pipeline
end ShaderInline
