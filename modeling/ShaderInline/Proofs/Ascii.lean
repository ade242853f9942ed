import Mathlib
import ShaderInline.Pipeline
import ShaderInline.Proofs.LineIndex
import ShaderInline.Proofs.Text.Decimal
import ShaderInline.Schema.Glsl

/-! # Lines of a stripped text

Dropping characters outside ASCII changes no line break, but it can bring a CR
and an LF together that stood apart. They end one line where they ended two, and
all that follows moves up by a line.
-/

namespace ShaderInline

namespace Text

/-- The number of CRs that come to stand right before an LF when the characters outside ASCII are
dropped. -/
def joins : Text → Nat
  | [] => 0
  | c :: cs =>
    (if c = '\r' ∧ cs.head? ≠ some '\n' ∧ cs.find? isAscii = some '\n' then 1 else 0) + joins cs

variable {a b t : Text} {c : Char}

theorem stripNonAscii_append (a b : Text) :
    stripNonAscii (a ++ b) = stripNonAscii a ++ stripNonAscii b := List.filter_append ..

theorem stripNonAscii_cons (hc : isAscii c = true) (t : Text) :
    stripNonAscii (c :: t) = c :: stripNonAscii t := List.filter_cons_of_pos hc

theorem stripNonAscii_cons_drop (hc : isAscii c = false) (t : Text) :
    stripNonAscii (c :: t) = stripNonAscii t := List.filter_cons_of_neg (by simp [hc])

theorem head?_stripNonAscii (t : Text) : (stripNonAscii t).head? = t.find? isAscii :=
  List.head?_filter ..

/-- The next ASCII character is an LF just if nothing but dropped characters comes before one. -/
theorem find?_isAscii_eq_feed : t.find? isAscii = some '\n' ↔
    ∃ m y, t = m ++ '\n' :: y ∧ ∀ d ∈ m, isAscii d = false := by
  rw [List.find?_eq_some_iff_append]
  constructor
  · rintro ⟨-, m, y, rfl, hm⟩
    exact ⟨m, y, rfl, by simpa using hm⟩
  · rintro ⟨m, y, rfl, hm⟩
    exact ⟨rfl, m, y, rfl, by simpa using hm⟩

/-- Whether a CR and an LF are kept apart by characters outside ASCII alone. -/
def KeepsApart (t : Text) : Prop :=
  ∃ x m y, t = x ++ '\r' :: (m ++ '\n' :: y) ∧ m ≠ [] ∧ ∀ d ∈ m, isAscii d = false

theorem keepsApart_cons : KeepsApart (c :: t) ↔
    (c = '\r' ∧ t.head? ≠ some '\n' ∧ t.find? isAscii = some '\n') ∨ KeepsApart t := by
  constructor
  · rintro ⟨x, m, y, he, hne, hm⟩
    cases x with
    | nil =>
      obtain ⟨rfl, rfl⟩ := List.cons_eq_cons.1 he
      obtain ⟨d, m, rfl⟩ := List.exists_cons_of_ne_nil hne
      have hd : d ≠ '\n' := by
        rintro rfl
        cases hm '\n' List.mem_cons_self
      exact .inl ⟨rfl, by simpa using hd, find?_isAscii_eq_feed.2 ⟨_, y, rfl, hm⟩⟩
    | cons _ x =>
      obtain ⟨rfl, rfl⟩ := List.cons_eq_cons.1 he
      exact .inr ⟨x, m, y, rfl, hne, hm⟩
  · rintro (⟨rfl, hhead, hfind⟩ | ⟨x, m, y, rfl, hne, hm⟩)
    · obtain ⟨m, y, rfl, hm⟩ := find?_isAscii_eq_feed.1 hfind
      refine ⟨[], m, y, rfl, ?_, hm⟩
      rintro rfl
      exact hhead rfl
    · exact ⟨c :: x, m, y, rfl, hne, hm⟩

theorem joins_eq_zero_iff : joins t = 0 ↔ ¬ KeepsApart t := by
  induction t with
  | nil => simp [joins, KeepsApart]
  | cons c t ih =>
    rw [joins, Nat.add_eq_zero_iff, ih, ite_eq_right_iff, keepsApart_cons, not_or]
    simp

open LineIndex (endsLine lineBreaks_cons)

theorem endsLine_of_not_isAscii (hc : isAscii c = false) (next : Option Char) :
    endsLine c next = false := by
  have hfeed : c ≠ '\n' := by
    rintro rfl
    cases hc
  have hreturn : c ≠ '\r' := by
    rintro rfl
    cases hc
  simp [endsLine, hfeed, hreturn]

/-- Each time a CR and an LF come together, one line break is lost. -/
theorem lineBreaks_stripNonAscii (t : Text) :
    lineBreaks (stripNonAscii t) + joins t = lineBreaks t := by
  induction t with
  | nil => rfl
  | cons c t ih =>
    rw [joins, lineBreaks_cons c t]
    cases hc : isAscii c with
    | false =>
      have hreturn : c ≠ '\r' := by
        rintro rfl
        cases hc
      rw [stripNonAscii_cons_drop hc, endsLine_of_not_isAscii hc, if_neg fun h => hreturn h.1]
      simpa using ih
    | true =>
      rw [stripNonAscii_cons hc, lineBreaks_cons, head?_stripNonAscii]
      -- an LF that comes next stays next, so a CR can only cease to end its line
      have hnext : t.head? = some '\n' → t.find? isAscii = some '\n' := by
        intro h
        obtain ⟨u, rfl⟩ := List.head?_eq_some_iff.1 h
        rfl
      have hlost : (if endsLine c (t.find? isAscii) then 1 else 0) +
          (if c = '\r' ∧ t.head? ≠ some '\n' ∧ t.find? isAscii = some '\n' then 1 else 0) =
            if endsLine c t.head? then 1 else 0 := by
        grind [endsLine]
      omega

end Text

namespace LineIndex

open Text

theorem line_eq_lineBreaks {c : Char} (hc : isLineBreak c = false) (a b : Text) :
    (ofText (a ++ c :: b)).line (Text.size a) = 1 + lineBreaks a := by
  have hne : (c :: b).head? ≠ some '\n' := by
    rintro h
    obtain rfl : c = '\n' := by simpa using h
    cases hc
  have hline := line_lineBreaks [] a hne
  have hstart : (ofText (a ++ c :: b)).line 0 = 1 := by
    rw [line, ofText, List.takeWhile_cons_of_pos (by simp), takeWhile_startsFrom le_rfl]
    rfl
  simpa [hstart] using hline

end LineIndex

theorem Pipeline.text_build {p : Pipeline} {id : ResourceId} {s : Text} {out : Artifact}
    (h : p.build id s = .ok out) : out.text =
      if p.config.stripNonAscii then Text.stripNonAscii out.document.text
      else out.document.text := by
  rw [build] at h
  split at h
  · cases h
  split at h
  · cases h
  split at h
  · cases h
  dsimp only at h
  split at h
  · cases h
  · obtain rfl := Except.ok.inj h
    rfl

namespace LineDirective

open Text

theorem stripNonAscii_render {w : LineDirective} (hw : ∀ c ∈ w.marker, isAscii c = true)
    (b : Bool) (line id : Nat) : stripNonAscii (w.render b line id) = w.render b line id := by
  have hdecimal (n : Nat) (c : Char) (hc : c ∈ decimal n) : isAscii c = true := by
    have := toNat_of_isDigit (isDigit_of_mem_decimal hc)
    exact decide_eq_true (by omega)
  rw [stripNonAscii, List.filter_eq_self]
  intro c hc
  simp only [render, List.mem_append, List.mem_cons, List.not_mem_nil, or_false] at hc
  rcases hc with (((hc | hc) | rfl | hc) | rfl | hc) | rfl
  · split at hc
    · cases hc
    · obtain rfl := List.mem_singleton.1 hc
      rfl
  · exact hw c hc
  · rfl
  · exact hdecimal line c hc
  · rfl
  · exact hdecimal id c hc
  · rfl

end LineDirective

namespace LineIndex

open Text

/-- Stripping keeps just the ASCII characters. One that is no line break moves up by as many lines
as CRs and LFs come together before it, so it stays on its line unless some are kept apart by
dropped characters. In the text of an artifact, a line directive is wrong about a character by as
many lines as come together between the two. -/
theorem line_stripNonAscii (t : Text) :
    (∀ c ∈ stripNonAscii t, isAscii c = true) ∧
    (∀ a c b, t = a ++ c :: b → isAscii c = true →
      stripNonAscii t = stripNonAscii a ++ c :: stripNonAscii b ∧
      (isLineBreak c = false →
        (ofText (stripNonAscii t)).line (Text.size (stripNonAscii a)) + joins a =
          (ofText t).line (Text.size a) ∧
        ((ofText (stripNonAscii t)).line (Text.size (stripNonAscii a)) =
          (ofText t).line (Text.size a) ↔ ¬ KeepsApart a))) ∧
    ∀ (p : Pipeline) (id : ResourceId) (s : Text) (out : Artifact),
      p.config.stripNonAscii = true → p.build id s = .ok out → out.document.text = t →
      out.text = stripNonAscii t ∧
      ∀ (w : LineDirective) (x m b : Text) (c : Char) (line n : Nat),
        (∀ c ∈ w.marker, isAscii c = true) → isAscii c = true →
        t = x ++ (w.render true line n ++ (m ++ c :: b)) →
        out.text = stripNonAscii x ++ (w.render true line n ++
          (stripNonAscii m ++ c :: stripNonAscii b)) ∧
        line + lineBreaks (stripNonAscii m) + joins m = line + lineBreaks m ∧
        (line + lineBreaks (stripNonAscii m) = line + lineBreaks m ↔ ¬ KeepsApart m) := by
  have hkept (a b : Text) {c : Char} (hc : isAscii c = true) :
      stripNonAscii (a ++ c :: b) = stripNonAscii a ++ c :: stripNonAscii b := by
    rw [stripNonAscii_append, stripNonAscii_cons hc]
  refine ⟨fun c hc => (List.mem_filter.1 hc).2, ?_, ?_⟩
  · rintro a c b rfl hc
    refine ⟨hkept a b hc, fun hbreak => ?_⟩
    have hlines := lineBreaks_stripNonAscii a
    rw [hkept a b hc, line_eq_lineBreaks hbreak, line_eq_lineBreaks hbreak, ← joins_eq_zero_iff]
    exact ⟨by omega, by omega⟩
  · rintro p id s out hp hbuild rfl
    have htext : out.text = stripNonAscii out.document.text := by
      rw [Pipeline.text_build hbuild, if_pos hp]
    refine ⟨htext, fun w x m b c line n hw hc ht => ?_⟩
    have hlines := lineBreaks_stripNonAscii m
    refine ⟨?_, by omega, by rw [← joins_eq_zero_iff]; omega⟩
    rw [htext, ht, stripNonAscii_append, stripNonAscii_append, hkept m b hc,
      LineDirective.stripNonAscii_render hw]

/-- A build of a text in which one character keeps a CR and an LF apart: the directive tells the
second line for the last character, which came from the third. -/
theorem line_stripNonAscii_build :
    let p : Pipeline := ⟨.glsl, .standard, fun _ => .ok none, none⟩
    let w := LineDirective.ofMarker LineDirective.standardMarker
    KeepsApart "a\ré\n".toList ∧
    ∃ out, p.build ⟨"s".toList, "m".toList⟩ "a\ré\nb".toList = .ok out ∧
      out.document.text = w.render true 1 0 ++ ("a\ré\n".toList ++ ['b']) ∧
      out.text = w.render true 1 0 ++ ("a\r\n".toList ++ ['b']) ∧
      1 + lineBreaks "a\r\n".toList + 1 = 1 + lineBreaks "a\ré\n".toList ∧
      (ofText out.text).line 13 + 1 = (ofText out.document.text).line 15 := by
  intro p w
  obtain ⟨out, hok, htext⟩ : ∃ out, p.build ⟨"s".toList, "m".toList⟩ "a\ré\nb".toList = .ok out ∧
      out.document.text = w.render true 1 0 ++ ("a\ré\n".toList ++ ['b']) := by
    have hbuild : (p.build ⟨"s".toList, "m".toList⟩ "a\ré\nb".toList).toOption.map
        (·.document.text) = some (w.render true 1 0 ++ ("a\ré\n".toList ++ ['b'])) := by
      decide +kernel
    generalize p.build _ _ = x at hbuild ⊢
    cases x with
    | error f => cases hbuild
    | ok out => exact ⟨out, rfl, Option.some.inj hbuild⟩
  have hstrip : stripNonAscii "a\ré\n".toList = "a\r\n".toList := by decide
  have hjoins : joins "a\ré\n".toList = 1 := by decide
  have hmarker : ∀ c ∈ w.marker, isAscii c = true := List.all_eq_true.1 rfl
  obtain ⟨-, hkept, hstripped⟩ := line_stripNonAscii out.document.text
  obtain ⟨hout, hdirective⟩ := hstripped p _ _ out rfl hok rfl
  obtain ⟨hresult, hlines, -⟩ := hdirective w [] "a\ré\n".toList [] 'b' 1 0 hmarker rfl htext
  rw [hstrip] at hresult hlines
  rw [hjoins] at hlines
  obtain ⟨-, hline⟩ := hkept (w.render true 1 0 ++ "a\ré\n".toList) 'b' []
    (by rw [htext, List.append_assoc]) rfl
  have hmoved := (hline rfl).1
  rw [← hout, show joins (w.render true 1 0 ++ "a\ré\n".toList) = 1 by decide +kernel] at hmoved
  have hapart : KeepsApart "a\ré\n".toList :=
    ⟨['a'], ['é'], [], rfl, List.cons_ne_nil _ _, List.forall_mem_singleton.2 rfl⟩
  exact ⟨hapart, out, hok, htext, hresult, hlines, hmoved⟩

/-- An ASCII character that is no line break need not stay on its line. -/
theorem line_stripNonAscii_moves :
    ¬ ∀ (a : Text) (c : Char) (b : Text), isAscii c = true → isLineBreak c = false →
      (ofText (stripNonAscii (a ++ c :: b))).line (Text.size (stripNonAscii a)) =
        (ofText (a ++ c :: b)).line (Text.size a) := by
  intro h
  exact absurd (h "a\ré\n".toList 'b' [] rfl rfl) (by decide)

end LineIndex
end ShaderInline
