import ShaderInline.Proofs.Tree.Leading
import ShaderInline.Proofs.Tree.Seam
import ShaderInline.Proofs.Woven

/-! # Where the line of a directive ends

A line break that is put after a directive ends its line, unless a comment is
still open there or a backslash takes the line break in. In those cases the
directive gets longer, and so it does if its text ends with a line break already.
-/

namespace ShaderInline

open Schema Piece

theorem Text.exists_of_breakOn?_append {t y a b : Text} (h : breakOn? ['*', '/'] t = none)
    (hy : y.head? ≠ some '/') (hb : breakOn? ['*', '/'] (t ++ y) = some (a, b)) :
    ∃ a', a = t ++ a' := by
  rcases List.append_eq_append_iff.1 (eq_of_breakOn? hb) with ⟨a', rfl, -⟩ | ⟨m, rfl, hm⟩
  · exact ⟨a', rfl⟩
  · rcases m with - | ⟨c, - | ⟨d, m⟩⟩
    · exact ⟨[], by simp⟩
    · obtain ⟨-, rfl⟩ := List.cons_eq_cons.1 hm
      exact absurd rfl hy
    · obtain ⟨rfl, hm'⟩ := List.cons_eq_cons.1 hm
      obtain ⟨rfl, -⟩ := List.cons_eq_cons.1 hm'
      exact absurd h (breakOn?_ne_none ['*', '/'] a m)

namespace Cuts

variable {t y : Text} {ps : List Piece} {p : Piece}

theorem open_append (h : Cuts glsl t (ps ++ [p]) []) (hf : p.fault = some .unterminatedComment)
    (hne : y ≠ []) (hy : y.head? ≠ some '/') : ∃ z f r, z ≠ [] ∧
      Cuts glsl (t ++ y) (ps ++ [⟨.blockComment, p.text ++ z, f⟩]) r := by
  obtain ⟨-, -, ds, hd, hb⟩ := h.eq_nil_of_unterminated hf
  have hbefore : Cuts glsl (t ++ y) ps ('/' :: '*' :: (ds ++ y)) := by
    have ht : t ++ y = textAll ps ++ '/' :: '*' :: (ds ++ y) := by
      rw [h.eq_append]
      simp [hd]
    rw [ht]
    refine h.split.1.congr fun q hq => ⟨fun hf' => ?_, .inl (by simp [hd])⟩
    obtain ⟨qs, rfl⟩ := List.getLast?_eq_some_iff.1 hq
    rw [List.append_assoc] at h
    exact absurd (h.eq_nil_of_unterminated hf').1 (by simp)
  rw [hd]
  cases hb' : Text.breakOn? ['*', '/'] (ds ++ y) with
  | none =>
    refine ⟨y, some .unterminatedComment, [], hne, hbefore.trans ?_⟩
    have hcut := Cuts.next (s := glsl) (c := '/') (p := '*' :: (ds ++ y)) (k := .blockComment)
      (f := some .unterminatedComment) (by simp [Lexeme.read_block_comment, hb']) (.done [])
    simpa using hcut
  | some ab =>
    obtain ⟨a, b⟩ := ab
    obtain ⟨a', rfl⟩ := Text.exists_of_breakOn?_append hb hy hb'
    refine ⟨a' ++ ['*', '/'], none, b, by simp, hbefore.trans ?_⟩
    have heq : ds ++ y = ds ++ a' ++ ['*', '/'] ++ b := by simpa using Text.eq_of_breakOn? hb'
    have hread : Lexeme.read glsl '/' ('*' :: (ds ++ a' ++ ['*', '/']) ++ b) =
        ⟨.blockComment, ('*' :: (ds ++ a' ++ ['*', '/'])).length, none⟩ := by
      rw [List.cons_append, ← heq, Lexeme.read_block_comment, hb']
      simp [Nat.add_assoc]
    rw [heq]
    simpa using Cuts.next hread (.done b)

end Cuts

namespace Piece

/-- Whether a line break ends the line of the pieces before it: they end neither with a line break
or a backslash nor in a comment. -/
def canEndLine (ps : List Piece) : Bool :=
  ps.getLast?.all fun p =>
    p.kind != .newline && p.text != ['\\'] && p.fault != some .unterminatedComment

theorem ofText_append_newline {t : Text} {p : Piece} (hp : (ofText glsl t).getLast? = some p)
    (hk : p.kind ≠ .newline) (hf : p.fault ≠ some .unterminatedComment) (x : Text) :
    ofText glsl (t ++ '\n' :: x) = ofText glsl t ++ lineFeed :: ofText glsl x := by
  have hclosed : Closed t := by
    intro q hq hfq
    obtain ⟨as, bs, hab⟩ := List.append_of_mem hq
    obtain ⟨rfl, -⟩ := (hab ▸ cuts_ofText glsl t).eq_nil_of_unterminated hfq
    rw [hab, List.getLast?_concat] at hp
    exact hf (Option.some.inj hp ▸ hfq)
  have hend : endLine (ofText glsl t) = ofText glsl t ++ [lineFeed] := by
    rw [endLine, if_neg]
    intro hr
    exact hk (Option.some.inj (hp.symm.trans hr) ▸ rfl)
  rw [hclosed.ofText_append_newline, hend, List.append_assoc, List.singleton_append]

theorem getLast?_of_ofText {t : Text} {p : Piece} (hp : (ofText glsl t).getLast? = some p) :
    t.getLast? = p.text.getLast? := by
  obtain ⟨xs, hxs⟩ := List.getLast?_eq_some_iff.1 hp
  have hne := (cuts_ofText glsl t).text_ne_nil (List.mem_of_getLast? hp)
  rw [← textAll_ofText glsl t, hxs, textAll_append, textAll_cons, textAll_nil, List.append_nil,
    List.getLast?_append_of_ne_nil _ hne]

theorem exists_ofText_mark (y : Text) :
    ∃ q qs, ofText glsl ('#' :: y) = q :: qs ∧ q.kind ≠ .newline := by
  have ht := textAll_ofText glsl ('#' :: y)
  cases hq : ofText glsl ('#' :: y) with
  | nil =>
    rw [hq] at ht
    cases ht
  | cons q qs =>
    refine ⟨q, qs, rfl, fun hk => ?_⟩
    have hmem : q ∈ ofText glsl ('#' :: y) := by simp [hq]
    obtain ⟨c, cs, hc, hbreak⟩ := (cuts_ofText glsl ('#' :: y)).newline_head hmem hk
    rw [hq, textAll_cons, hc] at ht
    obtain ⟨rfl, -⟩ := List.cons_eq_cons.1 ht
    cases hbreak

namespace Leads

variable {name t y : Text} {ps blanks line qs : List Piece} {tag p q : Piece}

theorem cuts_all (h : Leads name (ofText glsl t) blanks tag line qs) :
    Cuts glsl t ((blanks ++ tag :: line) ++ qs) [] := by
  have ht := cuts_ofText glsl t
  rwa [h.eq, ← List.cons_append, ← List.append_assoc] at ht

theorem mem_of_cons (h : Leads name ps blanks tag line (q :: qs)) : q ∈ ps := by
  rw [h.eq]
  simp

theorem getLast?_eq (h : Leads name ps blanks tag line []) :
    ps.getLast? = some (line.getLast?.getD tag) := by
  rw [h.eq, List.append_nil, List.getLast?_append_of_ne_nil _ (List.cons_ne_nil _ _),
    List.getLast?_cons]

theorem append_line (h : Leads name ps blanks tag line []) (hp : ps.getLast? = some p)
    (more qs : List Piece) (hm : restOfLine p.text (more ++ qs) = more) :
    Leads name (ps ++ (more ++ qs)) blanks tag (line ++ more) qs := by
  have hlast : (line.getLast?.map text).getD tag.text = p.text := by
    rw [Option.getD_map, Option.some.inj (h.getLast?_eq.symm.trans hp)]
  refine ⟨by simp [h.eq], h.blank, h.kind, h.name_eq, ?_⟩
  rw [List.append_assoc, restOfLine_append (by simpa using h.line_eq), hlast, hm]

theorem directives_eq (h : Leads name ps blanks tag line qs) (hname : name ≠ "import".toList)
    (n : Nat) : directives n ps =
      ⟨n + Text.size (textAll blanks), .directive, (tag :: line).map leaf⟩ ::
        directives (n + Text.size (textAll (blanks ++ tag :: line))) qs := by
  have hblank : ∀ p ∈ blanks, p.kind ≠ .tag := by
    intro p hp hk
    have := h.blank p hp
    simp [isBlank, hk, Kind.isTrivia] at this
  have htag : tagged tag (line ++ qs) = (.directive, line) := by
    rw [tagged_directive, h.line_eq]
    intro hn
    exact absurd (h.name_eq.symm.trans (Group.nameOfTag_import hn)) hname
  rw [directives, h.eq, tagNodes_others hblank, tagNodes_tag h.kind htag,
    List.filter_cons_of_pos rfl]
  simp [directives, Nat.add_assoc]

theorem append_piece (h : Leads name ps blanks tag line []) (hp : ps.getLast? = some p)
    (hq : q.kind = .newline → p.text = ['\\']) (rest : List Piece) :
    ∃ more qs, Leads name (ps ++ q :: rest) blanks tag (line ++ q :: more) qs := by
  have hline : restOfLine p.text (q :: rest) = q :: restOfLine q.text rest := by
    rw [restOfLine, if_neg]
    simpa using hq
  obtain ⟨qs, hqs, -⟩ := exists_restOfLine q.text rest
  generalize restOfLine q.text rest = more at hline hqs
  subst hqs
  exact ⟨more, qs, h.append_line hp (q :: more) qs hline⟩

theorem ended (h : Leads name (ofText glsl t) blanks tag line [])
    (he : canEndLine (ofText glsl t) = true) (x : Text) :
    Leads name (ofText glsl (t ++ '\n' :: x)) blanks tag line (lineFeed :: ofText glsl x) := by
  obtain ⟨p, hp⟩ : ∃ p, (ofText glsl t).getLast? = some p := ⟨_, h.getLast?_eq⟩
  simp only [canEndLine, hp, Option.all_some, Bool.and_eq_true, bne_iff_ne] at he
  obtain ⟨⟨hk, htext⟩, hf⟩ := he
  rw [ofText_append_newline hp hk hf]
  have hend : restOfLine p.text (lineFeed :: ofText glsl x) = [] := by
    rw [restOfLine, if_pos]
    simp [lineFeed, htext]
  simpa using h.append_line hp [] (lineFeed :: ofText glsl x) hend

theorem textAll_eq (h : Leads name (ofText glsl t) blanks tag line []) :
    textAll (blanks ++ tag :: line) = t := by
  have ht := textAll_ofText glsl t
  rwa [h.eq, List.append_nil] at ht

theorem directives_ended (h : Leads name (ofText glsl t) blanks tag line [])
    (hname : name ≠ "import".toList) (he : canEndLine (ofText glsl t) = true) (n : Nat) (x : Text) :
    directives n (ofText glsl (t ++ '\n' :: x)) =
      ⟨n + Text.size (textAll blanks), .directive, (tag :: line).map leaf⟩ ::
        directives (n + Text.size (t ++ ['\n'])) (ofText glsl x) := by
  rw [(h.ended he x).directives_eq hname, h.textAll_eq, directives,
    tagNodes_other (by simp [lineFeed]), Text.size_append, Nat.add_assoc]
  rfl

theorem size_lt_append {xs : List Piece} (hq : q.text ≠ []) :
    Text.size (textAll line) < Text.size (textAll (line ++ q :: xs)) := by
  have := Text.size_pos_iff.2 hq
  simp
  omega

theorem longer_of_open (h : Leads name (ofText glsl t) blanks tag line [])
    (hp : (ofText glsl t).getLast? = some p) (hf : p.fault = some .unterminatedComment)
    (hne : y ≠ []) (hy : y.head? ≠ some '/') : ∃ line' qs,
      Leads name (ofText glsl (t ++ y)) blanks tag line' qs ∧
        Text.size (textAll line) < Text.size (textAll line') := by
  obtain ⟨xs, hxs⟩ := List.getLast?_eq_some_iff.1 hp
  have hcuts := hxs ▸ cuts_ofText glsl t
  have hk := hcuts.kind_of_unterminated (by simp) hf
  obtain ⟨z, f, r, hz, hcut⟩ := hcuts.open_append hf hne hy
  obtain ⟨line', h'⟩ := (hxs ▸ h).init (by simp [hk])
  have hline : line = line' ++ [p] := by
    have heq := h.eq
    rw [hxs, h'.eq] at heq
    simpa using heq.symm
  obtain ⟨more, qs, hleads⟩ := h'.append_piece (q := ⟨.blockComment, p.text ++ z, f⟩)
    h'.getLast?_eq (by simp) (ofText glsl r)
  rw [← List.singleton_append, ← List.append_assoc, ← hcut.ofText_eq] at hleads
  refine ⟨_, qs, hleads, ?_⟩
  have := Text.size_pos_iff.2 hz
  simp [hline]
  omega

/-- After an escaped line break a mark does not start a line. -/
theorem longer_of_newline (h : Leads name (ofText glsl t) blanks tag line [])
    (hp : (ofText glsl t).getLast? = some p) (hk : p.kind = .newline) (y : Text) : ∃ line' qs,
      Leads name (ofText glsl (t ++ '#' :: y)) blanks tag line' qs ∧
        Text.size (textAll line) < Text.size (textAll line') := by
  obtain ⟨xs, hxs⟩ := List.getLast?_eq_some_iff.1 hp
  have hcut := (hxs ▸ cuts_ofText glsl t).before_newline hk (y := '#' :: y) (by simp)
  rw [← hxs, textAll_ofText] at hcut
  obtain ⟨q, rest, hq, hqk⟩ := exists_ofText_mark y
  obtain ⟨more, qs, hleads⟩ := h.append_piece hp (q := q) (fun hk' => absurd hk' hqk) rest
  rw [← hq, ← hcut.ofText_eq] at hleads
  have hne := (cuts_ofText glsl ('#' :: y)).text_ne_nil (p := q) (by simp [hq])
  exact ⟨_, qs, hleads, size_lt_append hne⟩

/-- Without an end the line goes on in what comes next, which is a line break or, after a line
break, the mark of a tag. -/
theorem longer (h : Leads name (ofText glsl t) blanks tag line [])
    (he : canEndLine (ofText glsl t) = false)
    (hy : y.head? = some (if t.getLast?.any Text.isLineBreak then '#' else '\n')) :
    ∃ line' qs, Leads name (ofText glsl (t ++ y)) blanks tag line' qs ∧
      Text.size (textAll line) < Text.size (textAll line') := by
  obtain ⟨p, hp⟩ : ∃ p, (ofText glsl t).getLast? = some p := ⟨_, h.getLast?_eq⟩
  by_cases hf : p.fault = some .unterminatedComment
  · refine h.longer_of_open hp hf ?_ ?_
    · rintro rfl
      cases hy
    · rw [hy]
      split <;> simp
  have hlast := getLast?_of_ofText hp
  by_cases hk : p.kind = .newline
  · have hbreak : p.text.getLast?.any Text.isLineBreak = true := by
      rcases (cuts_ofText glsl t).newline_text (List.mem_of_getLast? hp) hk with ht | ht | ht <;>
        simp [ht, Text.isLineBreak]
    rw [hlast, hbreak, if_pos rfl] at hy
    obtain ⟨y, rfl⟩ := List.head?_eq_some_iff.1 hy
    exact h.longer_of_newline hp hk y
  · have htext : p.text = ['\\'] := by
      by_contra hne
      simp [canEndLine, hp, hk, hf, hne] at he
    rw [hlast, htext] at hy
    obtain ⟨x, rfl⟩ := List.head?_eq_some_iff.1 hy
    obtain ⟨more, qs, hleads⟩ := h.append_piece hp (q := lineFeed) (fun _ => htext) (ofText glsl x)
    rw [← ofText_append_newline hp hk hf] at hleads
    exact ⟨_, qs, hleads, size_lt_append (by simp [lineFeed])⟩

theorem directives_longer (h : Leads name (ofText glsl t) blanks tag line [])
    (hname : name ≠ "import".toList) (he : canEndLine (ofText glsl t) = false)
    (hy : y.head? = some (if t.getLast?.any Text.isLineBreak then '#' else '\n')) (n : Nat) :
    ∃ v vs, directives n (ofText glsl (t ++ y)) = v :: vs ∧
      Text.size (textAll (tag :: line)) < Text.size v.text := by
  obtain ⟨line', qs, hleads, hlt⟩ := h.longer he hy
  refine ⟨_, _, hleads.directives_eq hname n, ?_⟩
  rw [Node.text, Tree.textAll_leaf, textAll_cons, textAll_cons, Text.size_append, Text.size_append]
  omega

theorem directives_newline (h : Leads name (ofText glsl t) blanks tag line (q :: qs))
    (hname : name ≠ "import".toList) (hy : y.head? ≠ some '\n') :
    directives 0 (ofText glsl (textAll (blanks ++ tag :: line) ++ q.text ++ y)) =
      ⟨Text.size (textAll blanks), .directive, (tag :: line).map leaf⟩ ::
        directives (Text.size (textAll (blanks ++ tag :: line) ++ q.text)) (ofText glsl y) := by
  have hk := kind_of_restOfLine h.line_eq
  have hps := (h.cuts_all.before_newline hk hy).ofText_eq
  have hleads : Leads name (ofText glsl (textAll (blanks ++ tag :: line) ++ q.text ++ y)) blanks tag
      line (q :: ofText glsl y) :=
    ⟨by simpa using hps, h.blank, h.kind, h.name_eq, restOfLine_congr h.line_eq rfl⟩
  rw [hleads.directives_eq hname, directives, tagNodes_other (by simp [hk]), Text.size_append,
    Nat.zero_add, Nat.zero_add]
  rfl

end Leads

theorem isLineBreak_of_canEndLine {t : Text} (h : canEndLine (ofText glsl t) = true) :
    t.getLast?.any Text.isLineBreak = false := by
  cases hp : (ofText glsl t).getLast? with
  | none =>
    rw [List.getLast?_eq_none_iff] at hp
    rw [← textAll_ofText glsl t, hp]
    rfl
  | some p =>
    simp only [canEndLine, hp, Option.all_some, Bool.and_eq_true, bne_iff_ne] at h
    rw [getLast?_of_ofText hp]
    exact (cuts_ofText glsl t).getLast?_isLineBreak (List.mem_of_getLast? hp) h.1.1 h.2

end Piece
end ShaderInline
