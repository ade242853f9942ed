import ShaderInline.Proofs.SourceMap.Lookup
import ShaderInline.Proofs.SourceMap.Segments
import ShaderInline.Proofs.Text.Offset

/-! # Maps that cover their text

The ranges of a map that is built by appending follow one another without gaps,
so bisection finds the range of an offset. Such a map is known by the chunks of
text that were appended, as long as copied text never borders copied text of the
same resource.
-/

namespace ShaderInline

/-! ### Ranges without gaps -/

/-- Ranges, none of them empty, that follow one another from an offset to another. -/
def Tiles : Nat → List MapRange → Nat → Prop
  | a, [], b => a = b
  | a, r :: rs, b => r.start = a ∧ a < r.stop ∧ Tiles r.stop rs b

namespace Tiles

variable {a b c : Nat} {r : MapRange} {rs rs' : List MapRange}

theorem append (h : Tiles a rs b) (h' : Tiles b rs' c) : Tiles a (rs ++ rs') c := by
  induction rs generalizing a with
  | nil =>
    obtain rfl : a = b := h
    exact h'
  | cons r rs ih => exact ⟨h.1, h.2.1, ih h.2.2⟩

theorem split (h : Tiles a (rs ++ rs') c) : ∃ b, Tiles a rs b ∧ Tiles b rs' c := by
  induction rs generalizing a with
  | nil => exact ⟨a, rfl, h⟩
  | cons r rs ih =>
    obtain ⟨b, hb, hc⟩ := ih h.2.2
    exact ⟨b, ⟨h.1, h.2.1, hb⟩, hc⟩

theorem le (h : Tiles a rs b) : a ≤ b := by
  induction rs generalizing a with
  | nil => exact Nat.le_of_eq h
  | cons r rs ih => exact h.2.1.le.trans (ih h.2.2)

theorem stop_le (h : Tiles a rs b) : ∀ r ∈ rs, r.stop ≤ b := by
  induction rs generalizing a with
  | nil => simp
  | cons r rs ih =>
    rintro r' hr'
    rcases List.mem_cons.1 hr' with rfl | hr'
    · exact h.2.2.le
    · exact ih h.2.2 r' hr'

theorem le_start (h : Tiles a rs b) : ∀ r ∈ rs, a ≤ r.start := by
  induction rs generalizing a with
  | nil => simp
  | cons r rs ih =>
    rintro r' hr'
    rcases List.mem_cons.1 hr' with rfl | hr'
    · exact h.1.ge
    · exact h.2.1.le.trans (ih h.2.2 r' hr')

theorem pairwise (h : Tiles a rs b) : rs.Pairwise fun r r' => r.stop ≤ r'.start := by
  induction rs generalizing a with
  | nil => exact .nil
  | cons r rs ih => exact List.pairwise_cons.2 ⟨h.2.2.le_start, ih h.2.2⟩

theorem start_lt_stop (h : Tiles a rs b) : ∀ r ∈ rs, r.start < r.stop := by
  induction rs generalizing a with
  | nil => simp
  | cons r rs ih =>
    rintro r' hr'
    rcases List.mem_cons.1 hr' with rfl | hr'
    · exact h.1.symm ▸ h.2.1
    · exact ih h.2.2 r' hr'

end Tiles

namespace SourceMap

theorem Ordered.of_tiles {m : SourceMap} (h : Tiles 0 m.ranges m.size) : m.Ordered :=
  ⟨h.start_lt_stop, h.pairwise⟩

theorem query_eq {m : SourceMap} (h : Tiles 0 m.ranges m.size) {r : MapRange} (hr : r ∈ m.ranges)
    {o : Nat} (ho : r.contains o = true) : m.query o = some ⟨r.resource, r.sourceOffset o⟩ :=
  (Ordered.of_tiles h).query_eq_some hr ho

end SourceMap

/-! ### Maps of chunks -/

/-- A part of a generated text and where it comes from. -/
structure Chunk where
  text : Text
  resource : ResourceId
  source : Nat
  mapping : Mapping
  deriving DecidableEq, Repr

namespace Chunk

def textAll (cs : List Chunk) : Text := cs.flatMap text

@[simp] theorem textAll_nil : textAll [] = [] := rfl
@[simp] theorem textAll_cons (c : Chunk) (cs : List Chunk) :
    textAll (c :: cs) = c.text ++ textAll cs := by simp [textAll]
@[simp] theorem textAll_append (cs ds : List Chunk) :
    textAll (cs ++ ds) = textAll cs ++ textAll ds := by simp [textAll]

def range (n : Nat) (c : Chunk) : MapRange :=
  ⟨n, n + Text.size c.text, c.resource, c.source, c.mapping⟩

def segment (c : Chunk) : Segment := ⟨Text.size c.text, c.resource, c.source, c.mapping⟩

/-- The ranges of chunks from an offset on; there is none for no text. -/
def rangesFrom : Nat → List Chunk → List MapRange
  | _, [] => []
  | n, c :: cs =>
    if c.text = [] then rangesFrom n cs else c.range n :: rangesFrom (n + Text.size c.text) cs

theorem rangesFrom_append (n : Nat) (cs ds : List Chunk) :
    rangesFrom n (cs ++ ds) = rangesFrom n cs ++ rangesFrom (n + Text.size (textAll cs)) ds := by
  induction cs generalizing n with
  | nil => simp [rangesFrom]
  | cons c cs ih =>
    by_cases hc : c.text = []
    · simp [rangesFrom, hc, ih]
    · simp [rangesFrom, hc, ih, Nat.add_assoc]

theorem mem_rangesFrom {n : Nat} {cs : List Chunk} {r : MapRange} :
    r ∈ rangesFrom n cs ↔ ∃ cs₁ c cs₂, cs = cs₁ ++ c :: cs₂ ∧ c.text ≠ [] ∧
      r = c.range (n + Text.size (textAll cs₁)) := by
  constructor
  · intro h
    induction cs generalizing n with
    | nil => simp [rangesFrom] at h
    | cons c cs ih =>
      rw [rangesFrom] at h
      split at h
      next hc =>
        obtain ⟨cs₁, d, cs₂, rfl, hd, rfl⟩ := ih h
        exact ⟨c :: cs₁, d, cs₂, rfl, hd, by simp [hc]⟩
      next hc =>
        rcases List.mem_cons.1 h with rfl | h
        · exact ⟨[], c, cs, rfl, hc, by simp⟩
        · obtain ⟨cs₁, d, cs₂, rfl, hd, rfl⟩ := ih h
          exact ⟨c :: cs₁, d, cs₂, rfl, hd, by simp [Nat.add_assoc]⟩
  · rintro ⟨cs₁, c, cs₂, rfl, hc, rfl⟩
    simp [rangesFrom_append, rangesFrom, hc]

theorem tiles_rangesFrom (n : Nat) (cs : List Chunk) :
    Tiles n (rangesFrom n cs) (n + Text.size (textAll cs)) := by
  induction cs generalizing n with
  | nil => rfl
  | cons c cs ih =>
    rw [rangesFrom, textAll_cons, Text.size_append, ← Nat.add_assoc]
    split
    next hc => simpa [hc] using ih n
    next hc =>
      have hpos := Text.size_pos_iff.2 hc
      exact ⟨rfl, by simpa [range] using hpos, ih _⟩

/-- No copied text borders copied text of the same resource. -/
def Apart (cs : List Chunk) : Prop :=
  (cs.filter (·.text != [])).IsChain fun c d =>
    c.mapping = .verbatim → d.mapping = .verbatim → c.resource ≠ d.resource

theorem Apart.left {cs ds : List Chunk} (h : Apart (cs ++ ds)) : Apart cs := by
  rw [Apart, List.filter_append] at h
  exact h.left_of_append

theorem Apart.singleton (c : Chunk) : Apart [c] := by
  by_cases hc : c.text = [] <;> simp [Apart, hc]

theorem Apart.append {cs ds : List Chunk} (h : Apart cs) (h' : Apart ds)
    (hd : ∀ c ∈ cs, ∀ d ∈ (ds.filter (·.text != [])).head?, d.mapping = .verbatim →
      c.resource ≠ d.resource) : Apart (cs ++ ds) := by
  rw [Apart, List.filter_append, List.isChain_append]
  refine ⟨h, h', fun c hc d hd' _ hm => ?_⟩
  exact hd c (List.mem_filter.1 (List.mem_of_getLast? hc)).1 d hd' hm

theorem Apart.cons {c : Chunk} {cs : List Chunk} (hc : c.mapping = .synthetic) (h : Apart cs) :
    Apart (c :: cs) := by
  by_cases ht : c.text = []
  · simpa [Apart, ht] using h
  · simp only [Apart, List.filter_cons, bne_iff_ne, ne_eq, ht, not_false_eq_true, if_true]
    refine List.isChain_cons.2 ⟨fun d _ hv => ?_, h⟩
    rw [hc] at hv
    cases hv

theorem getLast?_rangesFrom {n : Nat} {cs : List Chunk} {r : MapRange}
    (h : (rangesFrom n cs).getLast? = some r) : ∃ c, (cs.filter (·.text != [])).getLast? = some c ∧
      c.mapping = r.mapping ∧ c.resource = r.resource := by
  have hmap : (cs.filter (·.text != [])).map (fun c => (c.mapping, c.resource)) =
      (rangesFrom n cs).map fun r => (r.mapping, r.resource) := by
    clear h
    induction cs generalizing n with
    | nil => rfl
    | cons c cs ih =>
      by_cases hc : c.text = []
      · simpa [rangesFrom, hc] using ih
      · simpa [rangesFrom, hc, range] using ih
  have hlast := congrArg List.getLast? hmap
  rw [List.getLast?_map, List.getLast?_map, h, Option.map_some, Option.map_eq_some_iff] at hlast
  simpa using hlast

end Chunk

namespace SourceMap

open Chunk

def ofChunks (cs : List Chunk) : SourceMap := ⟨rangesFrom 0 cs, Text.size (textAll cs)⟩

variable {cs ds : List Chunk} {c : Chunk}

theorem ofChunks_concat_nil (hc : c.text = []) : ofChunks (cs ++ [c]) = ofChunks cs := by
  simp [ofChunks, rangesFrom_append, rangesFrom, hc]

theorem ofChunks_concat (hc : c.text ≠ []) : ofChunks (cs ++ [c]) =
    ⟨(ofChunks cs).ranges ++ [c.range (ofChunks cs).size],
      (ofChunks cs).size + Text.size c.text⟩ := by
  simp [ofChunks, rangesFrom_append, rangesFrom, hc]

theorem tiles_ofChunks (cs : List Chunk) : Tiles 0 (ofChunks cs).ranges (ofChunks cs).size := by
  simpa [ofChunks] using tiles_rangesFrom 0 cs

theorem push_ofChunks (h : Apart (cs ++ [c])) :
    (ofChunks cs).push (Text.size c.text) c.resource c.source c.mapping =
      ofChunks (cs ++ [c]) := by
  change (ofChunks cs).pushSegment c.segment = ofChunks (cs ++ [c])
  by_cases hc : c.text = []
  · rw [ofChunks_concat_nil hc, pushSegment_empty (by simp [Chunk.segment, hc])]
  · rw [ofChunks_concat hc, pushSegment_new (Text.size_pos_iff.2 hc)]
    · rfl
    · -- the last range is that of a chunk which the new one does not go on with
      rintro r hr ⟨hv, hv', hres, -⟩
      obtain ⟨d, hd, hm, hres'⟩ := getLast?_rangesFrom hr
      rw [Apart, List.filter_append, List.isChain_append] at h
      exact h.2.2 d hd c (by simp [hc]) (hm.trans hv) hv' (hres'.trans hres)

theorem identity_eq (id : ResourceId) (t : Text) :
    identity id (Text.size t) = ofChunks [⟨t, id, 0, .verbatim⟩] := by
  have h : Apart ([] ++ [⟨t, id, 0, .verbatim⟩]) := .singleton _
  exact push_ofChunks h

theorem append_ofChunks (h : Apart (cs ++ ds)) :
    (ofChunks cs).append (ofChunks ds) = ofChunks (cs ++ ds) := by
  have hfold (n : Nat) : (rangesFrom n ds).foldl
      (fun m r => m.push r.size r.resource r.source r.mapping) (ofChunks cs) =
        ofChunks (cs ++ ds) := by
    induction ds generalizing n cs with
    | nil => simp [rangesFrom]
    | cons d ds ih =>
      rw [List.append_cons] at h ⊢
      have hd := push_ofChunks (h.left)
      rw [rangesFrom]
      split
      next hn => rw [← ih h, ofChunks_concat_nil hn]
      next hn =>
        have hsize : (d.range n).size = Text.size d.text := by simp [Chunk.range, MapRange.size]
        rw [List.foldl_cons, hsize, ← ih h (n + Text.size d.text), ← hd]
        rfl
  exact hfold 0

end SourceMap
end ShaderInline
