import ShaderInline.Proofs.Tree.Tags

/-! # Where the reading of tags can be cut

Pieces after which no line of a tag goes on are read by themselves. All others
end in the line of one tag, and what comes next may go on with it.
-/

namespace ShaderInline

open Schema

namespace Node

def moved (d : Nat) (v : Node) : Node := { v with start := v.start + d }

@[simp] theorem moved_start (d : Nat) (v : Node) : (v.moved d).start = v.start + d := rfl
@[simp] theorem moved_kind (d : Nat) (v : Node) : (v.moved d).kind = v.kind := rfl
@[simp] theorem moved_children (d : Nat) (v : Node) : (v.moved d).children = v.children := rfl

theorem stop_eq (v : Node) : v.stop = v.start + Text.size v.text := by
  rw [stop, Tree.sizeAll_eq, text]

end Node

namespace Piece

variable {tag q : Piece} {ps as bs xs line : List Piece} {n d skip : Nat} {k : Kind} {v : Node}

theorem tagNodes_add (skip n d : Nat) (ps : List Piece) :
    tagNodes skip (n + d) ps = (tagNodes skip n ps).map (Node.moved d) := by
  induction ps generalizing skip n with
  | nil => simp
  | cons p ps ih =>
    have hn : n + d + Text.size p.text = n + Text.size p.text + d := by omega
    cases skip with
    | succ skip => rw [tagNodes, tagNodes, hn, ih]
    | zero =>
      rw [tagNodes, tagNodes, hn, ih, ih]
      split
      · rfl
      · rfl

theorem le_start_of_mem (hv : v ∈ tagNodes skip n ps) : n ≤ v.start := by
  induction ps generalizing skip n with
  | nil => simp at hv
  | cons p ps ih =>
    cases skip with
    | succ skip =>
      rw [tagNodes] at hv
      exact (Nat.le_add_right _ _).trans (ih hv)
    | zero =>
      rw [tagNodes] at hv
      split at hv
      next =>
        rcases List.mem_cons.1 hv with rfl | hv
        · exact le_rfl
        · exact (Nat.le_add_right _ _).trans (ih hv)
      next => exact (Nat.le_add_right _ _).trans (ih hv)

theorem stop_of_mem (hne : ∀ p ∈ ps, p.text ≠ []) (hv : v ∈ tagNodes skip n ps) :
    v.start < v.stop ∧ v.stop ≤ n + Text.size (textAll ps) := by
  induction ps generalizing skip n with
  | nil => simp at hv
  | cons p ps ih =>
    obtain ⟨hp, hps⟩ := List.forall_mem_cons.1 hne
    have hpos : 0 < Text.size p.text := Text.size_pos_iff.2 hp
    have hrest {skip : Nat} (hv : v ∈ tagNodes skip (n + Text.size p.text) ps) :
        v.start < v.stop ∧ v.stop ≤ n + Text.size (textAll (p :: ps)) := by
      have := ih hps hv
      rw [textAll_cons, Text.size_append]
      omega
    cases skip with
    | succ skip =>
      rw [tagNodes] at hv
      exact hrest hv
    | zero =>
      rw [tagNodes] at hv
      split at hv
      next =>
        rcases List.mem_cons.1 hv with rfl | hv
        · obtain ⟨rest, hr⟩ := exists_tagged p ps
          have hsize := congrArg (fun ps => Text.size (textAll ps)) hr
          simp only [textAll_append, Text.size_append] at hsize
          rw [Node.stop_leaf, textAll_cons, textAll_cons, Text.size_append, Text.size_append]
          dsimp only
          omega
        · exact hrest hv
      next => exact hrest hv

def directives (n : Nat) (ps : List Piece) : List Node :=
  (tagNodes 0 n ps).filter (·.kind == .directive)

theorem mem_directives : v ∈ directives n ps ↔ v ∈ tagNodes 0 n ps ∧ v.kind = .directive := by
  simp [directives]

theorem le_start_of_mem_directives (hv : v ∈ directives n ps) : n ≤ v.start :=
  le_start_of_mem (mem_directives.1 hv).1

theorem stop_of_mem_directives (hne : ∀ p ∈ ps, p.text ≠ []) (hv : v ∈ directives n ps) :
    v.start < v.stop ∧ v.stop ≤ n + Text.size (textAll ps) :=
  stop_of_mem hne (mem_directives.1 hv).1

theorem moved_mem_directives (d : Nat) (hv : v ∈ directives n ps) :
    v.moved d ∈ directives (n + d) ps := by
  obtain ⟨hv, hk⟩ := mem_directives.1 hv
  rw [mem_directives, tagNodes_add]
  exact ⟨List.mem_map_of_mem hv, hk⟩

end Piece

theorem Document.query_directive (t : Text) :
    (parse glsl t).query .directive none = Piece.directives 0 (Piece.ofText glsl t) := by
  rw [Piece.directives, ← tags_parse, List.filter_filter, query]
  congr 1
  funext v
  cases hk : v.kind == .directive <;> simp [Node.isTagged, hk]

open Piece

/-- Pieces after which the reading of tags starts afresh, whatever comes next. -/
structure Clean (as : List Piece) : Prop where
  split : ∀ n cs, tagNodes 0 n (as ++ cs) =
    tagNodes 0 n as ++ tagNodes 0 (n + Text.size (textAll as)) cs
  stop_lt : ∀ n, ∀ v ∈ tagNodes 0 n as, v.kind = .directive → v.stop < n + Text.size (textAll as)

namespace Clean

variable {as bs xs : List Piece} {tag q : Piece}

theorem nil : Clean [] := ⟨by simp, by simp⟩

theorem append (ha : Clean as) (hb : Clean bs) : Clean (as ++ bs) := by
  constructor
  · intro n cs
    rw [List.append_assoc, ha.split, hb.split, ha.split n bs, List.append_assoc, textAll_append,
      Text.size_append, Nat.add_assoc]
  · intro n v hv hk
    rw [ha.split, List.mem_append] at hv
    rw [textAll_append, Text.size_append]
    rcases hv with hv | hv
    · have := ha.stop_lt n v hv hk
      omega
    · have := hb.stop_lt _ v hv hk
      omega

theorem directives_append (ha : Clean as) (n : Nat) (cs : List Piece) : directives n (as ++ cs) =
    directives n as ++ directives (n + Text.size (textAll as)) cs := by
  rw [directives, ha.split, List.filter_append]
  rfl

theorem other (hk : q.kind ≠ .tag) : Clean [q] := by
  have hq (n : Nat) : tagNodes 0 n [q] = [] := by rw [tagNodes_other hk, tagNodes_nil]
  constructor
  · intro n cs
    rw [List.singleton_append, tagNodes_other hk, hq]
    simp
  · intro n v hv
    simp [hq] at hv

theorem tagNodes_import (ht : tag.kind = .tag) (hn : glsl.tagName tag.text = "import".toList)
    (hx : quoted? xs = some xs) (n : Nat) (cs : List Piece) : tagNodes 0 n (tag :: (xs ++ cs)) =
      ⟨n, .importDirective, (tag :: xs).map leaf⟩ ::
        tagNodes 0 (n + Text.size (textAll (tag :: xs))) cs :=
  tagNodes_tag ht (tagged_import hn (quoted?_append hx cs))

theorem ofImport (ht : tag.kind = .tag) (hn : glsl.tagName tag.text = "import".toList)
    (hx : quoted? xs = some xs) : Clean (tag :: xs) := by
  have hsplit := tagNodes_import ht hn hx
  have hself (n : Nat) : tagNodes 0 n (tag :: xs) =
      [⟨n, .importDirective, (tag :: xs).map leaf⟩] := by
    simpa using hsplit n []
  constructor
  · intro n cs
    rw [List.cons_append, hsplit, hself, List.singleton_append]
  · intro n v hv hk
    rw [hself, List.mem_singleton] at hv
    rw [hv] at hk
    cases hk

theorem tagNodes_line (ht : tag.kind = .tag)
    (hi : glsl.tagName tag.text = "import".toList → quoted? xs = none)
    (hx : restOfLine tag.text (xs ++ [q]) = xs) (n : Nat) (cs : List Piece) :
    tagNodes 0 n (tag :: (xs ++ q :: cs)) = ⟨n, .directive, (tag :: xs).map leaf⟩ ::
      tagNodes 0 (n + Text.size (textAll (tag :: (xs ++ [q])))) cs := by
  have hk : q.kind = .newline := kind_of_restOfLine hx
  have htag : tagged tag (xs ++ q :: cs) = (.directive, xs) := by
    rw [tagged_directive, restOfLine_congr hx rfl]
    intro hn
    exact quoted?_eq_none (hi hn) (by rw [hk]; rfl) (by simp [isQuoted, hk]) cs
  rw [tagNodes_tag ht htag, tagNodes_other (by simp [hk])]
  simp [Nat.add_assoc]

theorem ofLine (ht : tag.kind = .tag)
    (hi : glsl.tagName tag.text = "import".toList → quoted? xs = none)
    (hx : restOfLine tag.text (xs ++ [q]) = xs) (hq : q.text ≠ []) :
    Clean (tag :: (xs ++ [q])) := by
  have hsplit := tagNodes_line ht hi hx
  have hself (n : Nat) : tagNodes 0 n (tag :: (xs ++ [q])) =
      [⟨n, .directive, (tag :: xs).map leaf⟩] := by
    simpa using hsplit n []
  constructor
  · intro n cs
    rw [List.cons_append, List.append_assoc, List.singleton_append, hsplit, hself,
      List.singleton_append]
  · intro n v hv _
    rw [hself, List.mem_singleton] at hv
    have hpos : 0 < Text.size q.text := Text.size_pos_iff.2 hq
    rw [hv, Node.stop_leaf, ← List.cons_append, textAll_append, Text.size_append]
    simpa using hpos

end Clean

structure InLine (as pre : List Piece) (tag : Piece) (line : List Piece) : Prop where
  eq : as = pre ++ tag :: line
  clean : Clean pre
  kind : tag.kind = .tag
  line_eq : restOfLine tag.text line = line
  not_import : glsl.tagName tag.text = "import".toList → quoted? line = none

namespace InLine

variable {as pre line cs : List Piece} {tag q : Piece} {n : Nat}

def last (tag : Piece) (line : List Piece) : Piece := line.getLast?.getD tag

theorem getLast?_eq (h : InLine as pre tag line) : as.getLast? = some (last tag line) := by
  rw [h.eq, List.getLast?_append_of_ne_nil _ (List.cons_ne_nil _ _), List.getLast?_cons, last]

theorem size_eq (h : InLine as pre tag line) : Text.size (textAll as) =
    Text.size (textAll pre) + (Text.size tag.text + Text.size (textAll line)) := by
  simp [h.eq]

theorem size_lt (h : InLine as pre tag line) (hne : ∀ p ∈ as, p.text ≠ []) :
    Text.size (textAll pre) < Text.size (textAll as) := by
  have hpos := Text.size_pos_iff.2 (hne tag (by simp [h.eq]))
  rw [h.size_eq]
  omega

theorem text_ne_nil (h : InLine as pre tag line) (hne : ∀ p ∈ as, p.text ≠ []) :
    ∀ p ∈ pre, p.text ≠ [] := by
  intro p hp
  exact hne p (by simp [h.eq, hp])

theorem tagNodes_append (h : InLine as pre tag line) {more rest : List Piece}
    (hc : cs = more ++ rest) (hm : restOfLine (last tag line).text cs = more)
    (hi : glsl.tagName tag.text = "import".toList → quoted? (line ++ cs) = none) (n : Nat) :
    tagNodes 0 n (as ++ cs) = tagNodes 0 n pre ++
      ⟨n + Text.size (textAll pre), .directive, (tag :: (line ++ more)).map leaf⟩ ::
        tagNodes 0 (n + Text.size (textAll as) + Text.size (textAll more)) rest := by
  have htag : tagged tag ((line ++ more) ++ rest) = (.directive, line ++ more) := by
    have hlast : (line.getLast?.map text).getD tag.text = (last tag line).text :=
      Option.getD_map text tag line.getLast?
    rw [List.append_assoc, ← hc, tagged_directive hi, restOfLine_append h.line_eq, hlast, hm]
  rw [h.eq, List.append_assoc, h.clean.split, List.cons_append, hc, ← List.append_assoc,
    tagNodes_tag h.kind htag]
  simp [Nat.add_assoc]

theorem tagNodes_newline (h : InLine as pre tag line) (hq : q.kind = .newline)
    (hl : (last tag line).text ≠ ['\\']) (n : Nat) (cs : List Piece) :
    tagNodes 0 n (as ++ q :: cs) = tagNodes 0 n as ++
      tagNodes 0 (n + Text.size (textAll as)) (q :: cs) := by
  have hself := h.tagNodes_append (show [] = [] ++ [] from rfl) rfl
    (by simpa using h.not_import) n
  have hnone : restOfLine (last tag line).text (q :: cs) = [] := by
    rw [restOfLine, if_pos (by simp [hq, hl])]
  have hsplit := h.tagNodes_append (show q :: cs = [] ++ q :: cs from rfl) hnone
    (fun hn => quoted?_eq_none (h.not_import hn) (by rw [hq]; rfl) (by simp [isQuoted, hq]) cs) n
  rw [List.append_nil] at hself
  rw [hsplit, hself]
  simp

/-- A tag with anything but blanks after it starts no import later. -/
theorem quoted?_eq_none (h : InLine as pre tag line) (hk : (last tag line).kind.isTrivia = false)
    (hq : (last tag line).isQuoted = false) (ht : (last tag line).kind ≠ .tag)
    (hn : glsl.tagName tag.text = "import".toList) (cs : List Piece) :
    quoted? (line ++ cs) = none := by
  rcases List.eq_nil_or_concat' line with rfl | ⟨xs, p, rfl⟩
  · exact absurd h.kind ht
  · have hlast : last tag (xs ++ [p]) = p := by simp [last]
    rw [hlast] at hk hq
    rw [List.append_assoc]
    exact Piece.quoted?_eq_none (quoted?_of_append (h.not_import hn)) hk hq cs

theorem directives_append (h : InLine as pre tag line) {more rest : List Piece}
    (hc : cs = more ++ rest) (hm : restOfLine (last tag line).text cs = more)
    (hi : glsl.tagName tag.text = "import".toList → quoted? (line ++ cs) = none) (n : Nat) :
    directives n (as ++ cs) = directives n pre ++
      ⟨n + Text.size (textAll pre), .directive, (tag :: (line ++ more)).map leaf⟩ ::
        directives (n + Text.size (textAll as) + Text.size (textAll more)) rest := by
  rw [directives, h.tagNodes_append hc hm hi, List.filter_append, List.filter_cons_of_pos rfl]
  rfl

theorem directives_self (h : InLine as pre tag line) (n : Nat) : directives n as =
    directives n pre ++ [⟨n + Text.size (textAll pre), .directive, (tag :: line).map leaf⟩] := by
  have hself := h.directives_append (show [] = [] ++ [] from rfl) rfl
    (by simpa using h.not_import) n
  simpa [directives] using hself

/-- What comes next completes an import, or the tag is none. -/
theorem import_or (h : InLine as pre tag line) (cs : List Piece) :
    ((last tag line).kind.isTrivia = true ∨ line = [] ∧ glsl.tagName tag.text = "import".toList) ∧
      (∀ n, directives n (as ++ cs) =
        directives n pre ++ directives (n + Text.size (textAll as)) cs) ∨
    (glsl.tagName tag.text = "import".toList → quoted? (line ++ cs) = none) := by
  obtain ⟨hn, qs, hqs, htag⟩ | ⟨hi, -⟩ := tagged_cases tag (line ++ cs)
  · obtain ⟨hline, ys, rest, rfl, rfl, hys⟩ := exists_of_quoted?_append hqs (h.not_import hn)
    refine .inl ⟨?_, fun n => ?_⟩
    · rcases List.eq_nil_or_concat' line with rfl | ⟨xs, p, rfl⟩
      · exact .inr ⟨rfl, hn⟩
      · exact .inl (by simpa [last] using hline p (by simp))
    rw [← List.append_assoc] at htag
    rw [h.eq, List.append_assoc, h.clean.directives_append, List.cons_append, ← List.append_assoc]
    congr 1
    rw [directives, tagNodes_tag h.kind htag, List.filter_cons_of_neg (by simp), directives,
      tagNodes_others hys]
    simp [Nat.add_assoc]
  · exact .inr hi

end InLine

/-- Either no line of a tag goes on after pieces, or one does. -/
theorem Clean.or_inLine {as : List Piece} (hne : ∀ p ∈ as, p.text ≠ []) :
    Clean as ∨ ∃ pre tag line, InLine as pre tag line := by
  induction hn : as.length using Nat.strong_induction_on generalizing as with
  | _ n ih =>
    -- once the first pieces are clean, the others decide
    have hstep {xs rest : List Piece} (hx : Clean xs) (hpos : xs ≠ []) (he : as = xs ++ rest) :
        Clean as ∨ ∃ pre tag line, InLine as pre tag line := by
      subst he
      have hlt : rest.length < n := by
        have := List.length_pos_iff.2 hpos
        rw [List.length_append] at hn
        omega
      obtain hc | ⟨pre, tag, line, h⟩ :=
        ih rest.length hlt (fun p hp => hne p (List.mem_append_right _ hp)) rfl
      · exact .inl (hx.append hc)
      · refine .inr ⟨xs ++ pre, tag, line, ?_, hx.append h.clean, h.kind, h.line_eq, h.not_import⟩
        rw [h.eq, List.append_assoc]
    cases as with
    | nil => exact .inl .nil
    | cons p ps =>
      by_cases hk : p.kind = .tag
      · obtain ⟨hi, qs, hq, -⟩ | ⟨hi, -⟩ := tagged_cases p ps
        · obtain ⟨blanks, q, rest, rfl, rfl, hb, hq'⟩ := quoted?_spec hq
          have hself : quoted? (blanks ++ [q]) = some (blanks ++ [q]) := by
            simpa using quoted?_eq_some hb hq' []
          exact hstep (.ofImport hk hi hself) (by simp) (by rw [List.cons_append])
        · obtain ⟨rest, hps, hline⟩ := exists_restOfLine p.text ps
          generalize restOfLine p.text ps = xs at hps hline
          subst hps
          have hxs (hn : glsl.tagName p.text = "import".toList) : quoted? xs = none :=
            quoted?_of_append (hi hn)
          cases rest with
          | nil =>
            rw [List.append_nil] at hline ⊢
            exact .inr ⟨[], p, xs, rfl, .nil, hk, hline, hxs⟩
          | cons q rest =>
            have hclean : Clean (p :: (xs ++ [q])) :=
              .ofLine hk hxs (restOfLine_congr hline rfl) (hne q (by simp))
            have hsplit : p :: (xs ++ q :: rest) = p :: (xs ++ [q]) ++ rest := by simp
            exact hstep hclean (by simp) hsplit
      · exact hstep (.other hk) (by simp) (List.singleton_append).symm

end ShaderInline
