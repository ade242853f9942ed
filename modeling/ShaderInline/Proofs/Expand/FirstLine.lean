import ShaderInline.Proofs.Expand.Provenance
import ShaderInline.Proofs.LineDirective
import ShaderInline.Proofs.Tree.Leading

/-! # The first line stays first

A directive that a root starts with is still there after its imports have been
inlined, for no import stands before the end of its line. Line directives are
put in after that line only.
-/

namespace ShaderInline

open Schema Piece

/-! ### Inlining -/

namespace Piece

variable {name last : Text} {blanks line qs gap xs : List Piece} {tag x : Piece} {e e' : Bool}

/-- A search does not leave the line of a tag before its end. -/
theorem exists_gap_line (hl : restOfLine last (line ++ qs) = line) (hx : line ++ qs = gap ++ xs)
    (hrun : Search.run ⟨.line, last == ['\\']⟩ gap = some ⟨.code, e⟩) :
    ∃ q gap', gap = line ++ q :: gap' ∧ ∃ qs', qs = q :: qs' := by
  induction line generalizing last gap with
  | nil =>
    cases gap with
    | nil => simp at hrun
    | cons q gap => exact ⟨q, gap, rfl, _, hx⟩
  | cons p line ih =>
    cases gap with
    | nil => simp at hrun
    | cons g gap =>
      obtain ⟨rfl, hrest⟩ := List.cons_eq_cons.1 hx
      rw [List.cons_append, restOfLine] at hl
      split at hl
      next => cases hl
      next hend =>
        have hstep : Search.step ⟨.line, last == ['\\']⟩ p = some ⟨.line, p.text == ['\\']⟩ := by
          have hend' : (p.kind == .newline && !(last == ['\\'])) = false := by simpa using hend
          rw [Search.step, hend']
          rfl
        rw [Search.run_cons, hstep, Option.bind_some] at hrun
        obtain ⟨q, gap', rfl, hqs⟩ := ih (List.cons_eq_cons.1 hl).2 hrest hrun
        exact ⟨q, gap', rfl, hqs⟩

/-- The first import comes after the line of a directive that comes first. -/
theorem exists_gap_leading (hname : name ≠ "import".toList)
    (h : Leads name (gap ++ x :: xs) blanks tag line qs) (hk : x.kind = .tag)
    (himp : glsl.tagName x.text = "import".toList)
    (hrun : Search.run ⟨.code, e⟩ gap = some ⟨.code, e'⟩) :
    ∃ q gap', gap = blanks ++ tag :: (line ++ q :: gap') ∧ ∃ qs', qs = q :: qs' := by
  obtain ⟨heq, hblank, htag, hn, hl⟩ := h
  have hname' : glsl.tagName tag.text ≠ "import".toList := by
    intro himp'
    exact hname (hn.symm.trans (Group.nameOfTag_import himp'))
  induction blanks generalizing gap e with
  | nil =>
    cases gap with
    | nil =>
      obtain ⟨rfl, -⟩ := List.cons_eq_cons.1 heq
      exact absurd himp hname'
    | cons g gap =>
      obtain ⟨rfl, hx⟩ := List.cons_eq_cons.1 heq
      have hstep : Search.step ⟨.code, e⟩ g = some ⟨.line, g.text == ['\\']⟩ := by
        rw [Search.step, Mode.next_tag htag hname']
        rfl
      rw [Search.run_cons, hstep, Option.bind_some] at hrun
      obtain ⟨q, gap', rfl, hqs⟩ := exists_gap_line hl hx.symm hrun
      exact ⟨q, gap', rfl, hqs⟩
  | cons b blanks ih =>
    obtain ⟨hb, hblanks⟩ := List.forall_mem_cons.1 hblank
    have hbtag : b.kind ≠ .tag := by
      intro hk
      simp [isBlank, hk, Kind.isTrivia] at hb
    cases gap with
    | nil =>
      obtain ⟨rfl, -⟩ := List.cons_eq_cons.1 heq
      exact absurd hk hbtag
    | cons g gap =>
      obtain ⟨rfl, hx⟩ := List.cons_eq_cons.1 heq
      have hstep : Search.step ⟨.code, e⟩ g = some ⟨.code, g.text == ['\\']⟩ := by
        rw [Search.step, Mode.next_code hbtag]
        rfl
      rw [Search.run_cons, hstep, Option.bind_some] at hrun
      obtain ⟨q, gap', rfl, hqs⟩ := ih hrun hx hblanks
      exact ⟨q, gap', rfl, hqs⟩

end Piece

variable {name : Text} {v : Node}

namespace Split

variable {t rest : Text} {gap imp : List Piece}

theorem size_gap_lt (h : Split .start t gap imp rest) : Text.size (textAll gap) < Text.size t := by
  have hpos : 0 < Text.size (textAll imp) := by
    cases h.isImport with
    | intro =>
      have := h.cuts.text_ne_nil (List.mem_append_right _ List.mem_cons_self)
      exact Text.size_pos_iff.2 (by simp [this])
  rw [h.cuts.eq_append, textAll_append, Text.size_append, Text.size_append]
  omega

theorem endOfLine_le (h : Split .start t gap imp rest) (hname : name ≠ "import".toList)
    (hv : (Document.parse glsl t).leadingDirective? name = some v) :
    (Document.parse glsl t).endOfLine v.stop ≤ Text.size (textAll gap) := by
  obtain ⟨blanks, tag, line, qs, hl, rfl⟩ := (Document.leadingDirective?_eq_some_iff hname).1 hv
  obtain ⟨e, hrun⟩ := h.code
  obtain ⟨x, xs, rfl, hk, himp⟩ : ∃ x xs, imp = x :: xs ∧ x.kind = .tag ∧
      glsl.tagName x.text = "import".toList := by
    cases h.isImport with
    | intro hk himp _ _ => exact ⟨_, _, rfl, hk, himp⟩
  have hl' := hl
  rw [h.cuts.ofText_eq, List.append_assoc, List.cons_append] at hl'
  obtain ⟨q, gap', rfl, qs', rfl⟩ := exists_gap_leading hname hl' hk himp hrun
  rw [Node.stop_behind, Document.endOfLine_leads hl]
  simp

end Split

namespace Unfolds

variable {env : ExpandEnv} {chain : List ResourceId} {r : Resource} {n : Nat} {ss : List Site}
  {cs : List Chunk}

theorem exists_firstLine {a q b : Text} (h : Unfolds env chain r n (a ++ (q ++ b)) ss cs)
    (hname : name ≠ "import".toList) (hf : FirstLine name v a q) :
    ∃ b', Chunk.textAll cs = a ++ (q ++ b') := by
  have hgap {gap imp : List Piece} {rest : Text}
      (hsplit : Split .start (a ++ (q ++ b)) gap imp rest)
      (y : Text) : ∃ b', textAll gap ++ y = a ++ (q ++ b') := by
    have hle := (hf.le_endOfLine b).trans (hsplit.endOfLine_le hname (hf.leading b))
    have heq : a ++ q ++ b = textAll gap ++ (textAll imp ++ rest) := by
      simpa using hsplit.cuts.eq_append
    obtain ⟨g, hg, -⟩ := Text.exists_append_of_size_le heq hle
    exact ⟨g ++ y, by simp [hg]⟩
  cases h with
  | done => exact ⟨b, by simp⟩
  | failed hsplit => exact hgap hsplit _
  | expanded hsplit => exact hgap hsplit _

theorem leading {t : Text} (h : Unfolds env chain r n t ss cs) (hname : name ≠ "import".toList)
    (hv : (Document.parse glsl t).leadingDirective? name = some v) :
    (Document.parse glsl (Chunk.textAll cs)).leadingDirective? name = some v := by
  rcases Document.leading_cases hname hv with ⟨-, hend⟩ | ⟨a, q, b, rfl, -, hfirst⟩
  · -- no import comes after the end of the text
    have hnone {gap imp : List Piece} {rest : Text} (hsplit : Split .start t gap imp rest) :
        False := by
      have := hsplit.endOfLine_le hname hv
      have := hsplit.size_gap_lt
      omega
    cases h with
    | done => simpa using hv
    | failed hsplit => exact (hnone hsplit).elim
    | expanded hsplit => exact (hnone hsplit).elim
  · obtain ⟨b', hb'⟩ := h.exists_firstLine hname hfirst
    rw [hb']
    exact hfirst.leading b'

end Unfolds

/-! ### Line directives -/

theorem Document.exists_firstLine {t : Text} {l : Leaf} (hname : name ≠ "import".toList)
    (hv : (parse glsl t).leadingDirective? name = some v) (hl : l ∈ (parse glsl t).leaves)
    (hk : l.kind = .newline) (hs : l.start = v.stop) :
    (parse glsl t).endOfLine v.stop = l.stop ∧
      ∃ a q b, t = a ++ (q ++ b) ∧ Text.size (a ++ q) = l.stop ∧ FirstLine name v a q := by
  obtain ⟨as, p, bs, hps, hstart, htext, hkind⟩ := exists_piece_of_mem_leaves hl
  have hp : p.kind = .newline := by
    rcases hkind with h | h
    · rw [← h, hk]
    · cases hk.symm.trans h
  have hend : (parse glsl t).endOfLine v.stop = l.stop := by
    rw [← hs, hstart, endOfLine_newline hps hp, Leaf.stop, hstart, htext]
  refine ⟨hend, ?_⟩
  rcases leading_cases hname hv with ⟨hstop, -⟩ | ⟨a, q, b, rfl, hq, hfirst⟩
  · -- the line break is a part of the text
    have hpos := Text.size_pos_iff.2
      ((cuts_ofText glsl t).text_ne_nil (p := p) (by rw [hps]; simp))
    have hsize : Text.size t =
        Text.size (textAll as) + (Text.size p.text + Text.size (textAll bs)) := by
      rw [← textAll_ofText glsl t, hps]
      simp
    omega
  · exact ⟨a, q, b, rfl, hq.symm.trans hend, hfirst⟩

theorem Ran.covers {env : ExpandEnv} {root : Resource} {e : Expanded} {cs : List Chunk}
    (h : Ran env root e cs) : (SourceMap.ofChunks cs).Covers (Chunk.textAll cs) e.contents := by
  refine SourceMap.covers_ofChunks fun c hc => ?_
  obtain ⟨content, hget, -⟩ := h.exists_fits hc
  exact ⟨content, hget⟩

namespace LineDirective

variable {w : LineDirective} {u : Text} {m : SourceMap} {contents : Contents}

theorem exists_firstLine {a q b : Text} (h : m.Covers (a ++ (q ++ b)) contents)
    (hf : FirstLine w.version v a q)
    (hu : Edit.Swept 0 (a ++ (q ++ b)) (w.plan (.parse glsl (a ++ (q ++ b))) m contents).edits u) :
    ∃ b', u = a ++ (q ++ b') := by
  have hmin : Text.size (a ++ q) ≤ w.minOffset (.parse glsl (a ++ (q ++ b))) := by
    rw [minOffset, hf.leading b]
    exact hf.le_endOfLine b
  have hafter : ∀ e ∈ (w.plan (.parse glsl (a ++ (q ++ b))) m contents).edits,
      0 + Text.size (a ++ q) ≤ e.start := by
    intro e he
    obtain ⟨p, hp, rfl⟩ := List.mem_map.1 he
    obtain ⟨r, -, -, hcut⟩ := (w.sound_plan h).placed p hp
    have hle := hcut.le_of_isCut _ (w.isCut_minOffset _) (le_max_right _ _)
    rw [Nat.zero_add]
    exact hmin.trans hle
  have hu' : Edit.Swept 0 (a ++ q ++ b)
      (w.plan (.parse glsl (a ++ (q ++ b))) m contents).edits u := by
    rw [List.append_assoc]
    exact hu
  obtain ⟨b', rfl⟩ := hu'.exists_kept hafter
  exact ⟨b', List.append_assoc ..⟩

theorem leading_inject {t : Text} (h : m.Covers t contents) (hname : w.version ≠ "import".toList)
    (hu : Edit.Swept 0 t (w.plan (.parse glsl t) m contents).edits u)
    (hv : (Document.parse glsl t).leadingDirective? w.version = some v) :
    (Document.parse glsl u).leadingDirective? w.version = some v := by
  rcases Document.leading_cases hname hv with ⟨-, hend⟩ | ⟨a, q, b, rfl, -, hfirst⟩
  · -- no range goes on after the end of the text
    have hmin : w.minOffset (.parse glsl t) = Text.size t := by rw [minOffset, hv, ← hend]
    have hnil : (w.plan (.parse glsl t) m contents).inserts = [] := by
      rw [List.eq_nil_iff_forall_not_mem]
      intro p hp
      obtain ⟨r, hr, hlt, -⟩ := (w.sound_plan h).placed p hp
      have hstop := h.tiles.stop_le r hr
      rw [h.size_eq] at hstop
      omega
    rw [Plan.edits, hnil] at hu
    cases hu
    exact hv
  · obtain ⟨b', rfl⟩ := exists_firstLine h hfirst hu
    exact hfirst.leading b'

end LineDirective
end ShaderInline
