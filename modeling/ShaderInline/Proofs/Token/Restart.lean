import ShaderInline.Proofs.Token.Lookahead

/-! # Where lexing starts afresh

What follows the pieces of a text can be changed as long as the last of them
stays what it is. A text in which no comment is left open is lexed up to the end
of its line by itself, whatever comes on the next line.
-/

namespace ShaderInline

open Schema Piece

namespace Piece

def lineFeed : Piece := ⟨.newline, ['\n'], none⟩

/-- Pieces with a line feed after them, which joins a carriage return at their end. -/
def endLine (ps : List Piece) : List Piece :=
  if ps.getLast? = some ⟨.newline, ['\r'], none⟩ then
    ps.dropLast ++ [⟨.newline, ['\r', '\n'], none⟩]
  else ps ++ [lineFeed]

end Piece

/-- No comment of a text is left open. -/
def Closed (t : Text) : Prop := ∀ p ∈ ofText glsl t, p.fault ≠ some .unterminatedComment

namespace Cuts

variable {t r x y : Text} {ps qs : List Piece} {p : Piece} {c : Char}

theorem feed (x : Text) : Cuts glsl ('\n' :: x) [lineFeed] x :=
  .next (p := []) (Lexeme.read_of_ne_slash (by simp)) (.done x)

theorem returnFeed (x : Text) :
    Cuts glsl ('\r' :: '\n' :: x) [⟨.newline, ['\r', '\n'], none⟩] x :=
  .next (p := ['\n']) (Lexeme.read_of_ne_slash (by simp)) (.done x)

/-- What follows the pieces can be changed if the last piece stays what it is. -/
theorem congr (h : Cuts glsl t ps x)
    (hl : ∀ p, ps.getLast? = some p →
      p.fault ≠ some .unterminatedComment ∧ Steady p.text x.head? y.head?) :
    Cuts glsl (textAll ps ++ y) ps y := by
  induction h with
  | done t => exact .done y
  | @next c p rest x k f ps hr h ih =>
    rw [textAll_cons, List.append_assoc, List.cons_append]
    cases ps with
    | nil =>
      obtain ⟨hf, hs⟩ := hl _ rfl
      cases h
      exact .next (Lexeme.read_congr hs hf hr) (.done y)
    | cons q qs =>
      -- the next piece is not empty, so that the character ahead is the same one
      obtain ⟨d, ds, hd⟩ := List.exists_cons_of_ne_nil (h.text_ne_nil List.mem_cons_self)
      have hx : rest = d :: (ds ++ (textAll qs ++ x)) := by simpa [hd] using h.eq_append
      have hy : textAll (q :: qs) ++ y = d :: (ds ++ (textAll qs ++ y)) := by simp [hd]
      refine .next (Lexeme.read_congr (.inl (by rw [hx, hy]; rfl)) ?_ hr)
        (ih fun p hp => hl p (by simpa using hp))
      rintro rfl
      obtain ⟨-, -, -, -, -, hn⟩ := Lexeme.read_unterminated hr
      simp [hx] at hn

theorem eq_nil_of_unterminated (h : Cuts glsl t (ps ++ p :: qs) r)
    (hp : p.fault = some .unterminatedComment) :
    qs = [] ∧ r = [] ∧ ∃ ds, p.text = '/' :: '*' :: ds ∧ Text.breakOn? ['*', '/'] ds = none := by
  obtain ⟨c, q, rest, ht, -, hr, h'⟩ := h.split.2.uncons
  rw [hp] at hr
  obtain ⟨rfl, ds, hd, hb, -, hn⟩ := Lexeme.read_unterminated hr
  obtain rfl : rest = [] := List.eq_nil_of_length_eq_zero (by simpa using hn)
  have he := h'.eq_append
  cases qs with
  | nil => exact ⟨rfl, by simpa using he.symm, ds, by rw [ht, ← hd, List.append_nil], hb⟩
  | cons q' qs =>
    rw [textAll_cons, List.append_assoc, eq_comm, List.append_eq_nil_iff] at he
    exact absurd he.1 (h'.text_ne_nil List.mem_cons_self)

theorem open_newline (h : Cuts glsl t (ps ++ [p]) [])
    (hf : p.fault = some .unterminatedComment) : Cuts glsl (t ++ ['\n'])
      (ps ++ [⟨.blockComment, p.text ++ ['\n'], some .unterminatedComment⟩]) [] := by
  obtain ⟨-, -, ds, hd, hb⟩ := h.eq_nil_of_unterminated hf
  have ht : t ++ ['\n'] = textAll ps ++ '/' :: '*' :: (ds ++ ['\n']) := by
    rw [h.eq_append]
    simp [hd]
  have hlast : Cuts glsl (t ++ ['\n']) ps ('/' :: '*' :: (ds ++ ['\n'])) := by
    rw [ht]
    refine h.split.1.congr fun q hq => ⟨fun hf' => ?_, .inl (by simp [hd])⟩
    obtain ⟨qs, rfl⟩ := List.getLast?_eq_some_iff.mp hq
    rw [List.append_assoc] at h
    exact absurd (h.eq_nil_of_unterminated hf').1 (by simp)
  have hb' := Text.breakOn?_append_newline hb
  have hcut : Cuts glsl ('/' :: '*' :: (ds ++ ['\n']))
      [⟨.blockComment, '/' :: '*' :: (ds ++ ['\n']), some .unterminatedComment⟩] [] := by
    have := Cuts.next (s := glsl) (c := '/') (p := '*' :: (ds ++ ['\n'])) (k := .blockComment)
      (f := some .unterminatedComment) (by simp [Lexeme.read_block_comment, hb']) (.done [])
    simpa using this
  rw [hd]
  exact hlast.trans hcut

/-- The pieces before a tag stay as they are before a comment, unless the last is a slash. -/
theorem before_comment (h : Cuts glsl t ps (c :: x)) (hc : glsl.isTagMark c = true)
    (hs : ∀ p, ps.getLast? = some p → p.text ≠ ['/']) (y : Text) :
    Cuts glsl (textAll ps ++ '/' :: y) ps ('/' :: y) := by
  have hb := Lexeme.isLineBreak_of_isTagMark hc
  refine h.congr fun p hp => ⟨fun hf => ?_,
    .inr ⟨by simp, by simp [hb], by simp, fun e => (hs p hp e).elim⟩⟩
  obtain ⟨qs, rfl⟩ := List.getLast?_eq_some_iff.mp hp
  obtain ⟨-, hx, -⟩ := h.eq_nil_of_unterminated hf
  simp at hx

end Cuts

namespace Closed

variable {t u x : Text}

theorem eq_of_carriageReturn {r : Text} {ps : List Piece} {p : Piece}
    (h : Cuts glsl t (p :: ps) r) (hp : p.text = ['\r']) : p = ⟨.newline, ['\r'], none⟩ := by
  obtain ⟨c, q, rest, ht, -, hr, -⟩ := h.uncons
  obtain ⟨rfl, rfl⟩ : c = '\r' ∧ q = [] := by simpa [hp, eq_comm] using ht
  rw [Lexeme.read_of_ne_slash (by simp)] at hr
  obtain ⟨k, t, f⟩ := p
  simp_all [Lexeme.plain]

theorem cuts_endLine (h : Closed t) (x : Text) :
    Cuts glsl (t ++ '\n' :: x) (endLine (ofText glsl t)) x := by
  have ht := cuts_ofText glsl t
  unfold endLine
  split
  next hl =>
    obtain ⟨qs, hq⟩ := List.getLast?_eq_some_iff.mp hl
    have hc : Cuts glsl (textAll qs ++ '\r' :: '\n' :: x) qs ('\r' :: '\n' :: x) :=
      (hq ▸ ht).split.1.congr fun p hp =>
        ⟨h p (by simp [hq, List.mem_of_getLast? hp]), .inl (by simp)⟩
    have he : t = textAll qs ++ ['\r'] := by simpa [hq] using ht.eq_append
    rw [hq, List.dropLast_concat, he, List.append_assoc]
    exact hc.trans (.returnFeed x)
  next hl =>
    have hc : Cuts glsl (textAll (ofText glsl t) ++ '\n' :: x) (ofText glsl t) ('\n' :: x) := by
      refine ht.congr fun p hp => ⟨h p (List.mem_of_getLast? hp),
        .inr ⟨by simp [Text.isLineBreak], by simp [Text.isLineBreak], fun e => ?_, by simp⟩⟩
      obtain ⟨qs, hq⟩ := List.getLast?_eq_some_iff.mp hp
      rw [hq] at ht
      rw [eq_of_carriageReturn ht.split.2 e] at hp
      exact absurd hp hl
    rw [textAll_ofText] at hc
    exact hc.trans (.feed x)

theorem ofText_append_newline (h : Closed t) (x : Text) :
    ofText glsl (t ++ '\n' :: x) = endLine (ofText glsl t) ++ ofText glsl x :=
  (h.cuts_endLine x).ofText_eq

theorem of_comment_end (u : Text) : Closed (u ++ [' ', '*', '/']) := by
  intro p hp hf
  obtain ⟨ps, qs, hq⟩ := List.append_of_mem hp
  have hc := hq ▸ cuts_ofText glsl (u ++ [' ', '*', '/'])
  obtain ⟨rfl, -, ds, hd, hb⟩ := hc.eq_nil_of_unterminated hf
  have he : (u ++ [' ', '*', '/']).reverse = (textAll ps ++ '/' :: '*' :: ds).reverse := by
    rw [hc.eq_append]
    simp [hd]
  rcases hr : ds.reverse with - | ⟨d, - | ⟨e, es⟩⟩
  · simp [hr] at he
  · simp [hr] at he
  · obtain ⟨rfl, rfl, -⟩ : d = '/' ∧ e = '*' ∧ _ := by simpa [hr, eq_comm] using he
    have hds : ds = es.reverse ++ ['*', '/'] := by
      rw [← List.reverse_reverse ds, hr]
      simp
    exact Text.breakOn?_ne_none ['*', '/'] es.reverse [] (by simpa [hds] using hb)

theorem of_cuts {ps : List Piece} {r : Text} (h : Cuts glsl t ps r)
    (hp : ∀ p ∈ ps, p.fault ≠ some .unterminatedComment) (hr : Closed r) : Closed t := by
  intro p hm
  rw [h.ofText_eq, List.mem_append] at hm
  exact hm.elim (hp p) (hr p)

theorem rest {ps : List Piece} {r : Text} (ht : Closed t) (h : Cuts glsl t ps r) : Closed r :=
  fun p hp => ht p (by rw [h.ofText_eq]; exact List.mem_append_right _ hp)

theorem mem_endLine {ps : List Piece} (h : ∀ p ∈ ps, p.fault ≠ some .unterminatedComment) :
    ∀ p ∈ endLine ps, p.fault ≠ some .unterminatedComment := by
  unfold endLine
  split
  · intro p hp
    rcases List.mem_append.mp hp with hp | hp
    · exact h p (List.mem_of_mem_dropLast hp)
    · simp_all
  · intro p hp
    rcases List.mem_append.mp hp with hp | hp
    · exact h p hp
    · simp_all [lineFeed]

theorem append_newline (h : Closed t) (hx : Closed x) : Closed (t ++ '\n' :: x) :=
  of_cuts (h.cuts_endLine x) (mem_endLine h) hx

theorem nil : Closed [] := by simp [Closed]

theorem of_append_newline (h : Closed (u ++ ['\n'])) : Closed u := by
  intro p hp hf
  obtain ⟨ps, qs, hq⟩ := List.append_of_mem hp
  have hc := hq ▸ cuts_ofText glsl u
  obtain ⟨rfl, -⟩ := hc.eq_nil_of_unterminated hf
  have hmem := (hc.open_newline hf).ofText_eq
  rw [ofText_nil, List.append_nil] at hmem
  exact h _ (hmem ▸ List.mem_append_right _ List.mem_cons_self) rfl

theorem cuts_of_getLast? (h : Closed t) (hl : t.getLast? = some '\n') (x : Text) :
    Cuts glsl (t ++ x) (ofText glsl t) x := by
  obtain ⟨u, rfl⟩ := List.getLast?_eq_some_iff.mp hl
  have hu := h.of_append_newline
  rw [hu.ofText_append_newline [], List.append_assoc]
  simpa using hu.cuts_endLine x

theorem append (h : Closed t) (hl : t.getLast? = some '\n') (hx : Closed x) : Closed (t ++ x) :=
  of_cuts (h.cuts_of_getLast? hl x) h hx

end Closed

namespace Cuts

variable {t x : Text}

theorem quotation (t x : Text) :
    Cuts glsl ("/* ".toList ++ (Text.partCommentEnds t ++ (" */\n".toList ++ x)))
      [⟨.blockComment, "/* ".toList ++ (Text.partCommentEnds t ++ " */".toList), none⟩, lineFeed]
      x := by
  have hb : Text.breakOn? ['*', '/']
      (' ' :: (Text.partCommentEnds t ++ ' ' :: '*' :: '/' :: '\n' :: x)) =
        some (' ' :: (Text.partCommentEnds t ++ [' ']), '\n' :: x) := by
    rw [Text.breakOn?, Text.breakOn?_partCommentEnds]
    rfl
  have hc := Cuts.next (s := glsl) (c := '/')
    (p := '*' :: ' ' :: (Text.partCommentEnds t ++ [' ', '*', '/'])) (k := .blockComment)
    (f := none) (by simp [Lexeme.read_block_comment, hb]) (.feed x)
  simpa using hc

theorem lineComment (ht : ∀ c ∈ t, Text.isLineBreak c = false)
    (hx : x.head?.all Text.isLineBreak = true) :
    Cuts glsl ('/' :: '/' :: (t ++ x)) [⟨.lineComment, '/' :: '/' :: t, none⟩] x := by
  have hw : (t ++ x).takeWhile (!Text.isLineBreak ·) = t :=
    Text.takeWhile_append_eq (by simpa using ht) (by cases h : x.head? <;> simp_all)
  refine .next (p := '/' :: t) ?_ (.done x)
  rw [List.cons_append, Lexeme.read_line_comment, hw]
  rfl

end Cuts

/-- Whether a text can be cut between pieces at an offset. -/
def IsCut (t : Text) (n : Nat) : Prop := ∃ ps x, Cuts glsl t ps x ∧ Text.size (textAll ps) = n

namespace IsCut

variable {t x y : Text} {n : Nat} {ps : List Piece}

theorem zero (t : Text) : IsCut t 0 := ⟨[], t, .done t, rfl⟩

theorem of_cuts (h : Cuts glsl t ps x) (hx : IsCut x n) : IsCut t (Text.size (textAll ps) + n) := by
  obtain ⟨qs, y, hq, rfl⟩ := hx
  exact ⟨ps ++ qs, y, h.trans hq, by simp⟩

/-- What comes after a text leaves the cuts before its end in place. -/
theorem extend (h : IsCut t n) (hn : n < Text.size t) (y : Text) : IsCut (t ++ y) n := by
  obtain ⟨ps, x, hps, rfl⟩ := h
  have ht := hps.eq_append
  have hx : x ≠ [] := by
    rintro rfl
    rw [ht] at hn
    simp at hn
  refine ⟨ps, x ++ y, ?_, rfl⟩
  rw [ht, List.append_assoc]
  refine hps.congr fun p hp => ⟨fun hf => ?_, .inl ?_⟩
  · obtain ⟨qs, rfl⟩ := List.getLast?_eq_some_iff.1 hp
    exact hx (hps.eq_nil_of_unterminated hf).2.1
  · rw [List.head?_append_of_ne_nil _ hx]

theorem exists_append (h : IsCut t n) : ∃ a b, t = a ++ b ∧ Text.size a = n := by
  obtain ⟨ps, x, hps, rfl⟩ := h
  exact ⟨_, x, hps.eq_append, rfl⟩

end IsCut

structure IsLastCut (t : Text) (o i : Nat) : Prop where
  isCut : IsCut t i
  le : i ≤ o
  le_of_isCut : ∀ k, IsCut t k → k ≤ o → k ≤ i

theorem IsLastCut.eq {t : Text} {o i j : Nat} (h : IsLastCut t o i) (h' : IsLastCut t o j) :
    i = j :=
  Nat.le_antisymm (h'.le_of_isCut i h.isCut h.le) (h.le_of_isCut j h'.isCut h'.le)

theorem isLastCut_of_ofText {t : Text} {o : Nat} {ps qs : List Piece} {p : Piece}
    (h : ofText glsl t = ps ++ p :: qs) (hle : Text.size (textAll ps) ≤ o)
    (hlt : o < Text.size (textAll ps) + Text.size p.text) :
    IsLastCut t o (Text.size (textAll ps)) := by
  refine ⟨⟨ps, _, cuts_of_ofText_eq h, rfl⟩, hle, ?_⟩
  rintro k ⟨as, x, has, rfl⟩ hk
  have he : as ++ ofText glsl x = ps ++ p :: qs := has.ofText_eq.symm.trans h
  rcases List.append_eq_append_iff.1 he with ⟨bs, rfl, -⟩ | ⟨bs, rfl, hb⟩
  · simp
  · cases bs with
    | nil => simp
    | cons b bs =>
      obtain ⟨rfl, -⟩ := List.cons_eq_cons.1 hb
      simp at hk
      omega

end ShaderInline
