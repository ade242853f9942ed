import ShaderInline.Define
import ShaderInline.Proofs.LineDirective
import ShaderInline.Proofs.Tree.Leading

/-! # Where defines go

Defines that are accepted can always be put into a document that starts with a
version line. All of them go to the same place, which is the end of that line in
the document without defines.
-/

namespace ShaderInline

open Schema

theorem Document.commit_insert (s : Schema) (a b block : Text) :
    (parse s (a ++ b)).commit [.insert (.offset (Text.size a)) block] =
      .ok (parse s (a ++ (block ++ b))) := by
  have hswept : Edit.Swept 0 (a ++ ([] ++ b)) [.insert (.offset (Text.size a)) block]
      (a ++ (block ++ b)) :=
    .next (Nat.zero_add _).symm rfl (.done _ b)
  rw [List.nil_append] at hswept
  rw [commit, text_parse, hswept.apply_eq]
  rfl

namespace Defines

variable {d : Defines} {doc : Document} {source t a b : Text} {v : Node}

theorem versionName_ne : versionName ≠ "import".toList := by decide

/-- Whether there are defines but no version line to put them after. -/
def Unversioned (d : Defines) (doc : Document) : Prop :=
  d.entries ≠ [] ∧ doc.leadingDirective? versionName = none

theorem validate_unversioned (hd : checkAll d.entries = .ok ()) (hu : d.Unversioned doc)
    (source : Text) : d.validate doc source = .error (.missingVersion source) := by
  obtain ⟨hne, hnone⟩ := hu
  rw [validate, if_neg (by simpa using hne), hd, hnone]

theorem validate_versioned (hd : checkAll d.entries = .ok ()) (hu : ¬ d.Unversioned doc)
    (source : Text) : d.validate doc source = .ok () := by
  by_cases hne : d.entries = []
  · rw [validate, hne]
    rfl
  · obtain ⟨v, hv⟩ := Option.ne_none_iff_exists'.1 fun hnone => hu ⟨hne, hnone⟩
    rw [validate, if_neg (by simpa using hne), hd, hv]

theorem versioned (hv : doc.leadingDirective? versionName = some v) : ¬ d.Unversioned doc := by
  rintro ⟨-, hnone⟩
  cases hv.symm.trans hnone

theorem inject_of_nil (hd : d.entries = []) (hv : doc.leadingDirective? versionName = none)
    (source : Text) : d.inject doc source = .ok doc := by
  simp [inject, validate, hd, hv]

def blockAfter (d : Defines) (a : Text) : Text :=
  if a.getLast?.any Text.isLineBreak then d.render else '\n' :: d.render

theorem inject_eq {s : Schema} (hd : checkAll d.entries = .ok ())
    (hv : (Document.parse s (a ++ b)).leadingDirective? versionName = some v)
    (ha : (Document.parse s (a ++ b)).endOfLine v.stop = Text.size a) (source : Text) :
    d.inject (.parse s (a ++ b)) source = .ok (.parse s (a ++ (d.blockAfter a ++ b))) := by
  rw [inject, validate_versioned hd (versioned hv), hv]
  simp only [ha, Document.text_parse, Text.takeBytes_size_append]
  exact Document.commit_insert s a b (d.blockAfter a)

/-- All accepted defines go to one place of a document with a version line, and without defines
that place is the end of the version line. -/
theorem exists_place (hv : (Document.parse glsl t).leadingDirective? versionName = some v)
    (source : Text) : ∃ v' x y,
      (Document.parse glsl (x ++ y)).leadingDirective? versionName = some v' ∧
      (Document.parse glsl (x ++ y)).endOfLine v'.stop = Text.size x ∧
      ∀ d : Defines, checkAll d.entries = .ok () →
        d.inject (.parse glsl t) source = .ok (.parse glsl (x ++ (d.render ++ y))) := by
  obtain ⟨a, b, rfl, ha⟩ := (Document.isCut_endOfLine t v.stop).exists_append
  have hinject (d : Defines) (hd : checkAll d.entries = .ok ()) := inject_eq hd hv ha.symm source
  cases hlast : a.getLast?.any Text.isLineBreak with
  | true =>
    refine ⟨v, a, b, hv, ha.symm, fun d hd => ?_⟩
    rw [hinject d hd, blockAfter, if_pos hlast]
  | false =>
    -- A line that no line break ends goes to the end of the text.
    rcases Document.leading_cases versionName_ne hv with
      ⟨hstop, hend⟩ | ⟨a', q, b', heq, hend, hfirst⟩
    · obtain rfl : b = [] := by
        rw [← Text.size_eq_zero_iff]
        rw [← ha, Text.size_append] at hend
        omega
      rw [List.append_nil] at hv hstop
      obtain ⟨v', hv', hend'⟩ := Document.leading_append_newline versionName_ne hv hstop hlast
      refine ⟨v', a ++ ['\n'], [], ?_, ?_, fun d hd => ?_⟩
      · rwa [List.append_nil]
      · rwa [List.append_nil]
      · rw [hinject d hd, blockAfter, hlast]
        simp
    · rw [← List.append_assoc] at heq
      obtain ⟨rfl, -⟩ := Text.append_inj_of_size heq (ha.trans hend)
      obtain ⟨c, hc, hbreak⟩ := (Option.any_eq_true _ _).1 hfirst.ended
      rw [List.getLast?_append, hc, Option.some_or, Option.any_some, hbreak] at hlast
      cases hlast

theorem checkAll_of_validate (h : d.validate doc source = .ok ()) :
    checkAll d.entries = .ok () := by
  rw [validate] at h
  split at h
  next hempty =>
    rw [List.isEmpty_iff.1 hempty]
    rfl
  next =>
    split at h
    next => cases h
    next hd => exact hd

theorem exists_firstLine {q : Text} (hf : FirstLine versionName v a q)
    (h : d.inject (.parse glsl (a ++ (q ++ b))) source = .ok doc) :
    ∃ b', doc = .parse glsl (a ++ (q ++ b')) := by
  have hd : checkAll d.entries = .ok () := by
    rw [inject] at h
    split at h
    next => cases h
    next hvalidate => exact checkAll_of_validate hvalidate
  have hv := hf.leading b
  have hle := hf.le_endOfLine b
  obtain ⟨x, y, hxy, hx⟩ := (Document.isCut_endOfLine (a ++ (q ++ b)) v.stop).exists_append
  obtain ⟨z, rfl, -⟩ := Text.exists_append_of_size_le
    ((List.append_assoc ..).trans hxy) (hle.trans hx.ge)
  rw [hxy] at h hv hx
  rw [inject_eq hd hv hx.symm] at h
  refine ⟨z ++ (d.blockAfter (a ++ q ++ z) ++ y), ?_⟩
  rw [← Except.ok.inj h]
  simp

theorem exists_inject (hd : checkAll d.entries = .ok ()) (hu : ¬ d.Unversioned (.parse glsl t))
    (source : Text) : ∃ doc, d.inject (.parse glsl t) source = .ok doc := by
  cases hv : (Document.parse glsl t).leadingDirective? versionName with
  | none =>
    have hnil : d.entries = [] := by
      by_contra hne
      exact hu ⟨hne, hv⟩
    exact ⟨_, inject_of_nil hnil hv source⟩
  | some v =>
    obtain ⟨-, x, y, -, -, hplace⟩ := exists_place hv source
    exact ⟨_, hplace d hd⟩

end Defines
end ShaderInline
