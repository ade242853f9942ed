import Mathlib
import ShaderInline.SourceMap

/-! # Segments of text

A map is built from segments of text that are appended one after another. To
append a segment adds a range or, where copied text goes on with the last range,
lengthens it.
-/

namespace ShaderInline

/-- A part of a generated text that is appended at once, and where it comes from. -/
structure Segment where
  len : Nat
  resource : ResourceId
  source : Nat
  mapping : Mapping
  deriving DecidableEq, Repr

namespace Segment

def place (s : Segment) (n : Nat) : Location :=
  match s.mapping with
  | .verbatim => ⟨s.resource, s.source + n⟩
  | .synthetic => ⟨s.resource, s.source⟩

def placeAll : List Segment → Nat → Option Location
  | [], _ => none
  | s :: ss, n => if n < s.len then some (s.place n) else placeAll ss (n - s.len)

def lenAll (ss : List Segment) : Nat := (ss.map len).sum

@[simp] theorem lenAll_nil : lenAll [] = 0 := rfl
@[simp] theorem lenAll_cons (s : Segment) (ss : List Segment) :
    lenAll (s :: ss) = s.len + lenAll ss := by simp [lenAll]
@[simp] theorem lenAll_append (ss ts : List Segment) :
    lenAll (ss ++ ts) = lenAll ss + lenAll ts := by simp [lenAll]

variable {s : Segment} {ss ss' : List Segment}

theorem placeAll_append (ss ts : List Segment) (n : Nat) : placeAll (ss ++ ts) n =
    if n < lenAll ss then placeAll ss n else placeAll ts (n - lenAll ss) := by
  induction ss generalizing n with
  | nil => simp
  | cons s ss ih =>
    rw [List.cons_append, placeAll, placeAll, lenAll_cons]
    rcases Nat.lt_or_ge n s.len with hn | hn
    · rw [if_pos hn, if_pos hn, if_pos (by omega)]
    · have hlt : n - s.len < lenAll ss ↔ n < s.len + lenAll ss := by omega
      rw [if_neg hn.not_gt, if_neg hn.not_gt, ih, Nat.sub_add_eq]
      simp only [hlt]

theorem isSome_placeAll (ss : List Segment) (n : Nat) :
    (placeAll ss n).isSome = true ↔ n < lenAll ss := by
  induction ss generalizing n with
  | nil => simp [placeAll]
  | cons s ss ih =>
    rw [placeAll, lenAll_cons]
    split
    next h => simp; omega
    next h => rw [ih]; omega

theorem lenAll_eq_of_placeAll (h : ∀ n, placeAll ss n = placeAll ss' n) :
    lenAll ss = lenAll ss' := by
  refine eq_of_forall_lt_iff fun n => ?_
  rw [← isSome_placeAll, ← isSome_placeAll, h]

theorem placeAll_append_congr {ts ts' : List Segment} (h : ∀ n, placeAll ss n = placeAll ss' n)
    (h' : ∀ n, placeAll ts n = placeAll ts' n) (n : Nat) :
    placeAll (ss ++ ts) n = placeAll (ss' ++ ts') n := by
  rw [placeAll_append, placeAll_append, h, h', lenAll_eq_of_placeAll h]

theorem placeAll_concat_empty (hs : s.len = 0) (ss : List Segment) (n : Nat) :
    placeAll (ss ++ [s]) n = placeAll ss n := by
  induction ss generalizing n with
  | nil => simp [placeAll, hs]
  | cons t ss ih => simp [placeAll, ih]

def range (n : Nat) (s : Segment) : MapRange := ⟨n, n + s.len, s.resource, s.source, s.mapping⟩

theorem placeAll_divide (a b : Nat) (r : ResourceId) (o n : Nat) :
    placeAll [⟨a, r, o, .verbatim⟩, ⟨b, r, o + a, .verbatim⟩] n =
      placeAll [⟨a + b, r, o, .verbatim⟩] n := by
  simp only [placeAll, place]
  rcases Nat.lt_or_ge n a with ha | ha
  · rw [if_pos ha, if_pos (by omega)]
  · rw [if_neg ha.not_gt]
    rcases Nat.lt_or_ge n (a + b) with hb | hb
    · rw [if_pos (by omega), if_pos hb]
      congr 2
      omega
    · rw [if_neg (by omega), if_neg hb.not_gt]

end Segment

namespace MapRange

def segment (r : MapRange) : Segment := ⟨r.size, r.resource, r.source, r.mapping⟩

theorem len_segment (r : MapRange) : r.segment.len = r.stop - r.start := rfl

@[simp] theorem segment_range (n : Nat) (s : Segment) : (s.range n).segment = s := by
  simp [segment, Segment.range, size]

/-- A segment goes on where a range stops: both are copied text of one resource, and what the one
ends with comes right before what the other begins with. -/
def GoesOn (r : MapRange) (s : Segment) : Prop :=
  r.mapping = .verbatim ∧ s.mapping = .verbatim ∧ r.resource = s.resource ∧
    r.source + r.size = s.source

theorem goesOn_iff {r : MapRange} {s : Segment} :
    (s.mapping == .verbatim && r.continues s.resource s.source) = true ↔ r.GoesOn s := by
  simp only [continues, GoesOn, Bool.and_eq_true, beq_iff_eq]
  tauto

theorem GoesOn.divides {r : MapRange} {s : Segment} (h : r.GoesOn s) (hr : r.start < r.stop) :
    segment { r with stop := r.stop + s.len } = ⟨r.size + s.len, r.resource, r.source, .verbatim⟩ ∧
      r.segment = ⟨r.size, r.resource, r.source, .verbatim⟩ ∧
      s = ⟨s.len, r.resource, r.source + r.size, .verbatim⟩ := by
  obtain ⟨hv, hv', hid, ho⟩ := h
  refine ⟨?_, ?_, ?_⟩
  · simp only [segment, size, hv, Segment.mk.injEq, and_true]
    omega
  · rw [segment, hv]
  · rw [hid, ho, ← hv']

theorem place_segment {r : MapRange} (o : Nat) :
    r.segment.place (o - r.start) = ⟨r.resource, r.sourceOffset o⟩ := by
  unfold Segment.place sourceOffset segment
  cases r.mapping <;> rfl

end MapRange

namespace SourceMap

variable {m : SourceMap} {s : Segment} {r : MapRange} {rs : List MapRange}

/-! ### One segment -/

def pushSegment (m : SourceMap) (s : Segment) : SourceMap :=
  m.push s.len s.resource s.source s.mapping

theorem pushSegment_empty (hs : s.len = 0) : m.pushSegment s = m := by
  rw [pushSegment, push, if_pos hs]

theorem pushSegment_merge (hs : 0 < s.len) (hm : m.ranges = rs ++ [r]) (h : r.GoesOn s) :
    m.pushSegment s = ⟨rs ++ [{ r with stop := m.size + s.len }], m.size + s.len⟩ := by
  rw [pushSegment, push, if_neg hs.ne']
  simp only [hm, List.getLast?_concat, List.dropLast_concat, if_pos (MapRange.goesOn_iff.2 h)]

theorem pushSegment_new (hs : 0 < s.len) (h : ∀ r ∈ m.ranges.getLast?, ¬ r.GoesOn s) :
    m.pushSegment s = ⟨m.ranges ++ [s.range m.size], m.size + s.len⟩ := by
  rw [pushSegment, push, if_neg hs.ne']
  cases hl : m.ranges.getLast? with
  | none => simp [List.getLast?_eq_none_iff.1 hl, Segment.range]
  | some r =>
    simp only [if_neg (MapRange.goesOn_iff.not.2 (h r hl))]
    rfl

theorem pushSegment_cases (m : SourceMap) (s : Segment) :
    (s.len = 0 ∧ m.pushSegment s = m) ∨
    (∃ rs r, m.ranges = rs ++ [r] ∧ 0 < s.len ∧ r.GoesOn s ∧
      m.pushSegment s = ⟨rs ++ [{ r with stop := m.size + s.len }], m.size + s.len⟩) ∨
    (0 < s.len ∧ (∀ r ∈ m.ranges.getLast?, ¬ r.GoesOn s) ∧
      m.pushSegment s = ⟨m.ranges ++ [s.range m.size], m.size + s.len⟩) := by
  rcases Nat.eq_zero_or_pos s.len with hs | hs
  · exact .inl ⟨hs, pushSegment_empty hs⟩
  · by_cases h : ∀ r ∈ m.ranges.getLast?, ¬ r.GoesOn s
    · exact .inr (.inr ⟨hs, h, pushSegment_new hs h⟩)
    · push Not at h
      obtain ⟨r, hr, h⟩ := h
      obtain ⟨rs, hm⟩ := List.getLast?_eq_some_iff.1 hr
      exact .inr (.inl ⟨rs, r, hm, hs, h, pushSegment_merge hs hm h⟩)

@[simp] theorem size_pushSegment (m : SourceMap) (s : Segment) :
    (m.pushSegment s).size = m.size + s.len := by
  rcases pushSegment_cases m s with ⟨hs, h⟩ | ⟨rs, r, -, -, -, h⟩ | ⟨-, -, h⟩
  · rw [h, hs, Nat.add_zero]
  · rw [h]
  · rw [h]

def segments (m : SourceMap) : List Segment := m.ranges.map MapRange.segment

theorem segments_concat (hm : m.ranges = rs ++ [r]) :
    m.segments = rs.map MapRange.segment ++ [r.segment] := by
  simp [segments, hm]

theorem append_eq (m nested : SourceMap) :
    m.append nested = nested.segments.foldl pushSegment m := by
  rw [segments, List.foldl_map]
  rfl

end SourceMap
end ShaderInline
