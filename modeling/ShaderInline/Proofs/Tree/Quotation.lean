import Mathlib
import ShaderInline.Proofs.Token.Kinds
import ShaderInline.Proofs.Tree.Lossless
import ShaderInline.Proofs.Tree.Seam

/-! # Strings that are left open

The lexer tells whether a string is closed while it passes over escapes, and
reports one that is not. An import looks only at the last character of its
string. The two differ where the last quote is an escaped one.
-/

namespace ShaderInline

open Schema

namespace Lexeme

theorem getLast?_take_stringExtra (cs : Text) (h : (stringExtra cs).2 = true) :
    (cs.take (stringExtra cs).1).getLast? = some '"' := by
  fun_induction stringExtra cs with
  | case1 => cases h
  | case2 => cases h
  | case3 => cases h
  | case4 c rest hc ih =>
    rw [List.take_succ_cons, List.take_succ_cons, List.getLast?_cons, List.getLast?_cons, ih h]
    rfl
  | case5 c cs hslash hquote => rw [eq_of_beq hquote]; rfl
  | case6 => cases h
  | case7 c cs hslash hquote hbreak ih =>
    rw [List.take_succ_cons, List.getLast?_cons, ih h]
    rfl

theorem getLast?_of_cons {c d : Char} {u : Text} (h : (c :: u).getLast? = some d) :
    u = [] ∧ c = d ∨ u.getLast? = some d := by
  cases u with
  | nil => exact .inl ⟨rfl, Option.some.inj h⟩
  | cons e u => exact .inr (by rwa [List.getLast?_cons_cons] at h)

/-- A string that is left open ends with a quote only behind a backslash. -/
theorem escaped_take_stringExtra (cs : Text) (h : (stringExtra cs).2 = false)
    (hlast : (cs.take (stringExtra cs).1).getLast? = some '"') :
    ['\\', '"'] <:+ cs.take (stringExtra cs).1 := by
  fun_induction stringExtra cs with
  | case1 => cases hlast
  | case2 => cases hlast
  | case3 => cases hlast
  | case4 c rest hc ih =>
    rw [List.take_succ_cons, List.take_succ_cons] at hlast ⊢
    rw [List.getLast?_cons_cons] at hlast
    obtain ⟨hnil, rfl⟩ | hrest := getLast?_of_cons hlast
    · rw [hnil]
    · exact (ih h hrest).trans ((List.suffix_cons _ _).trans (List.suffix_cons _ _))
  | case5 => cases h
  | case6 => cases hlast
  | case7 c cs hslash hquote hbreak ih =>
    rw [List.take_succ_cons] at hlast ⊢
    obtain ⟨-, rfl⟩ | hrest := getLast?_of_cons hlast
    · exact absurd rfl hquote
    · exact (ih h hrest).trans (List.suffix_cons _ _)

theorem plain_string {s : Schema} {c : Char} {cs : Text} (h : (plain s c cs).kind = .string) :
    plain s c cs = ⟨.string, (stringExtra cs).1,
      if (stringExtra cs).2 then none else some .unterminatedString⟩ := by
  have hsingle := (single_kind c).2.2.1
  revert h
  unfold plain
  split
  · exact fun h => Kind.noConfusion h
  split
  · exact fun h => Kind.noConfusion h
  split
  · exact fun h => Kind.noConfusion h
  split
  · exact fun h => Kind.noConfusion h
  split
  · intro h
    dsimp only at h
    split at h <;> cases h
  split
  · exact fun h => Kind.noConfusion h
  split
  · exact fun _ => rfl
  · exact fun h => absurd h hsingle

end Lexeme

namespace Piece

variable {s : Schema} {t : Text} {p tag q : Piece} {ps as bs blanks : List Piece} {n : Nat}

theorem isQuoted_cons {u : Text} (hk : p.kind = .string) (ht : p.text = '"' :: u) :
    p.isQuoted = true ↔ u.getLast? = some '"' := by
  rw [isQuoted, hk, ht]
  cases u with
  | nil => exact iff_of_false (by decide) (by simp)
  | cons d u =>
    have hsize : 2 ≤ Text.size ('"' :: d :: u) := by
      rw [Text.size_cons, Text.size_cons]
      have := Char.utf8Size_pos '"'
      have := Char.utf8Size_pos d
      omega
    rw [decide_eq_true hsize]
    simp [List.getLast?_cons]

/-- A string has a quote of its own at its end if it is closed or if that quote is an escaped
one. -/
theorem isQuoted_iff (hp : p ∈ ofText s t) : p.isQuoted = true ↔ p.kind = .string ∧
    (p.fault = some .unterminatedString → ['\\', '"'] <:+ p.text) := by
  by_cases hk : p.kind = .string
  swap
  · simp [isQuoted, hk]
  obtain ⟨c, u, rest, htext, hread⟩ := (cuts_ofText s t).exists_read hp
  obtain ⟨rfl, -⟩ := Lexeme.read_string (s := s) (by rw [hread, hk])
  rw [Lexeme.read_eq_plain (by rw [hread, hk]; rfl)] at hread
  rw [Lexeme.plain_string (by rw [hread, hk]), Lexeme.mk.injEq] at hread
  obtain ⟨-, hextra, hfault⟩ := hread
  have hu : (u ++ rest).take (Lexeme.stringExtra (u ++ rest)).1 = u := by
    rw [hextra, List.take_left]
  rw [isQuoted_cons hk htext, ← hfault, htext]
  cases hclosed : (Lexeme.stringExtra (u ++ rest)).2 with
  | true =>
    have hlast := Lexeme.getLast?_take_stringExtra _ hclosed
    rw [hu] at hlast
    simp [hk, hlast]
  | false =>
    have hescaped := Lexeme.escaped_take_stringExtra _ hclosed
    rw [hu] at hescaped
    refine ⟨fun hlast => ⟨hk, fun _ => (hescaped hlast).trans (List.suffix_cons _ _)⟩, ?_⟩
    rintro ⟨-, hsuffix⟩
    obtain ⟨w, hw⟩ := hsuffix rfl
    cases w with
    | nil => cases hw
    | cons d w =>
      obtain ⟨-, rfl⟩ := List.cons_eq_cons.1 hw
      simp

/-! ### Places -/

theorem le_start_of_mem_place {k : Token} (hk : k ∈ place n ps) : n ≤ k.start := by
  induction ps generalizing n with
  | nil => cases hk
  | cons p ps ih =>
    rcases List.mem_cons.1 hk with rfl | hk
    · exact le_rfl
    · exact (Nat.le_add_right _ _).trans (ih hk)

theorem nodup_start_place (hne : ∀ p ∈ ps, p.text ≠ []) (n : Nat) :
    ((place n ps).map Token.start).Nodup := by
  induction ps generalizing n with
  | nil => exact List.nodup_nil
  | cons p ps ih =>
    obtain ⟨hp, hps⟩ := List.forall_mem_cons.1 hne
    have hpos : 0 < Text.size p.text := Text.size_pos_iff.2 hp
    rw [place, List.map_cons, List.nodup_cons]
    refine ⟨fun hmem => ?_, ih hps _⟩
    obtain ⟨k, hk, hstart⟩ := List.mem_map.1 hmem
    have := le_start_of_mem_place hk
    dsimp only at hstart
    omega

theorem start_of_place {before after : List Token} {k : Token}
    (h : place n ps = before ++ k :: after) :
    k.start = n + Text.size (textAll (before.map Token.piece)) := by
  induction before generalizing n ps with
  | nil =>
    cases ps with
    | nil => cases h
    | cons p ps => rw [← (List.cons_eq_cons.1 h).1]; rfl
  | cons b before ih =>
    cases ps with
    | nil => cases h
    | cons p ps =>
      obtain ⟨rfl, htail⟩ := List.cons_eq_cons.1 h
      rw [ih htail, List.map_cons, textAll_cons, Text.size_append, Nat.add_assoc]
      rfl

/-! ### Tags -/

theorem tagged_of_mem_tag (hq : q ∈ (tagged tag ps).2) (hk : q.kind = .tag) :
    (tagged tag ps).1 = .directive := by
  obtain ⟨-, qs, hqs, he⟩ | ⟨-, he⟩ := tagged_cases tag ps
  · rw [← List.nil_append ps] at hqs
    obtain ⟨-, ys, -, rfl, -, hys⟩ := exists_of_quoted?_append hqs rfl
    rw [he] at hq
    exact absurd hk (hys q hq)
  · rw [he]

theorem quoted?_of_trivia (h : ∀ p ∈ ps, p.kind.isTrivia = true) : quoted? ps = none := by
  induction ps with
  | nil => rfl
  | cons p ps ih =>
    obtain ⟨hp, hps⟩ := List.forall_mem_cons.1 h
    rw [quoted?, if_pos hp, ih hps, Option.map_none]

theorem tagged_string (hname : glsl.tagName tag.text = "import".toList)
    (hblanks : ∀ p ∈ blanks, p.kind.isTrivia = true) (hq : q.kind = .string) :
    tagged tag (blanks ++ q :: bs) = if q.isQuoted then (.importDirective, blanks ++ [q])
      else (.directive, restOfLine tag.text (blanks ++ q :: bs)) := by
  split
  next hquoted =>
    refine tagged_import hname ?_
    simpa using quoted?_eq_some hblanks hquoted bs
  next hquoted =>
    refine tagged_directive fun _ => ?_
    exact quoted?_eq_none (quoted?_of_trivia hblanks) (by rw [hq]; rfl) (by simpa using hquoted) bs

/-- A tag either leads to a node or lies inside the directive of an earlier one. -/
theorem mem_tagNodes_of_tag (hk : tag.kind = .tag) (hne : ∀ p ∈ as, p.text ≠ []) (n : Nat) :
    (∃ v ∈ tagNodes 0 n (as ++ tag :: bs), v.kind = .directive ∧
      v.start < n + Text.size (textAll as) ∧
      n + Text.size (textAll as) + Text.size tag.text ≤ v.stop) ∨
    ⟨n + Text.size (textAll as), (tagged tag bs).1, (tag :: (tagged tag bs).2).map leaf⟩ ∈
      tagNodes 0 n (as ++ tag :: bs) := by
  -- The induction is on the number of pieces before the tag, as a node takes several at once.
  induction hlen : as.length using Nat.strong_induction_on generalizing as n with
  | _ len ih =>
    cases as with
    | nil =>
      rw [List.nil_append, tagNodes, if_pos hk]
      exact .inr List.mem_cons_self
    | cons p as =>
      obtain ⟨hp, has⟩ := List.forall_mem_cons.1 hne
      have hpos : 0 < Text.size p.text := Text.size_pos_iff.2 hp
      by_cases hpk : p.kind = .tag
      · obtain ⟨rest, hrest⟩ := exists_tagged p (as ++ tag :: bs)
        obtain ⟨k, xs, he⟩ : ∃ k xs, tagged p (as ++ tag :: bs) = (k, xs) := ⟨_, _, rfl⟩
        have hdirective (hmem : tag ∈ xs) : k = .directive := by
          have := tagged_of_mem_tag (by rw [he]; exact hmem) hk
          rwa [he] at this
        rw [he] at hrest
        dsimp only at hrest
        rw [hrest] at he
        rw [List.cons_append, hrest, tagNodes_tag hpk he]
        obtain ⟨ys, rfl, rfl⟩ | ⟨cs, rfl, rfl⟩ :
            (∃ ys, xs = as ++ tag :: ys ∧ bs = ys ++ rest) ∨
              ∃ cs, as = xs ++ cs ∧ rest = cs ++ tag :: bs := by
          obtain ⟨ys, rfl, hys⟩ | ⟨cs, rfl, rfl⟩ := List.append_eq_append_iff.1 hrest
          · cases ys with
            | nil => exact .inr ⟨[], by simp, by simpa using hys.symm⟩
            | cons y ys =>
              obtain ⟨rfl, rfl⟩ := List.cons_eq_cons.1 hys
              exact .inl ⟨ys, rfl, rfl⟩
          · exact .inr ⟨cs, rfl, rfl⟩
        · refine .inl ⟨_, List.mem_cons_self, hdirective (by simp), ?_, ?_⟩
          · simp only [textAll_cons, Text.size_append]
            omega
          · rw [Node.stop_leaf]
            simp only [textAll_cons, textAll_append, Text.size_append]
            omega
        · have hsize : n + Text.size (textAll (p :: (xs ++ cs))) =
              n + Text.size (textAll (p :: xs)) + Text.size (textAll cs) := by
            simp only [textAll_cons, textAll_append, Text.size_append]
            omega
          have hlt : cs.length < len := by
            simp only [List.length_cons, List.length_append] at hlen
            omega
          rw [hsize]
          obtain ⟨v, hv, hdir, hstart, hstop⟩ | hv := ih cs.length hlt
            (fun p hp => has p (List.mem_append_right _ hp)) (n + Text.size (textAll (p :: xs))) rfl
          · exact .inl ⟨v, List.mem_cons_of_mem _ hv, hdir, hstart, hstop⟩
          · exact .inr (List.mem_cons_of_mem _ hv)
      · rw [List.cons_append, tagNodes_other hpk, textAll_cons, Text.size_append, ← Nat.add_assoc]
        obtain ⟨v, hv, hdir, hstart, hstop⟩ | hv :=
          ih as.length (by simp [← hlen]) has (n + Text.size p.text) rfl
        · exact .inl ⟨v, hv, hdir, hstart, hstop⟩
        · exact .inr hv

end Piece

namespace Token

variable {s : Schema} {t : Text} {k : Token}

def LeftOpen (s : Schema) (t : Text) (k : Token) : Prop :=
  ⟨.unterminatedString, k.start, k.stop⟩ ∈ faults (lex s t)

instance (s : Schema) (t : Text) (k : Token) : Decidable (LeftOpen s t k) :=
  inferInstanceAs (Decidable (_ ∈ _))

@[simp] theorem text_piece (k : Token) : k.piece.text = k.text := rfl

theorem piece_mem (hk : k ∈ lex s t) : k.piece ∈ Piece.ofText s t := List.mem_map_of_mem hk

theorem start_of_lex {before after : List Token} (ht : lex s t = before ++ k :: after) :
    k.start = Text.size (Piece.textAll (before.map piece)) := by
  rw [Piece.lex_eq_place] at ht
  rw [Piece.start_of_place ht, Nat.zero_add]

theorem nodup_start_lex (s : Schema) (t : Text) : ((lex s t).map start).Nodup := by
  rw [Piece.lex_eq_place]
  exact Piece.nodup_start_place (fun p hp => (Piece.cuts_ofText s t).text_ne_nil hp) 0

/-- No two tokens share a range, so what is reported at a range is the fault of its token. -/
theorem leftOpen_iff (hk : k ∈ lex s t) : LeftOpen s t k ↔ k.fault = some .unterminatedString := by
  constructor
  · intro h
    obtain ⟨k', hk', hfault⟩ := List.mem_filterMap.1 h
    obtain ⟨f, hf, hat⟩ := Option.map_eq_some_iff.1 hfault
    obtain ⟨rfl, hstart, -⟩ := FaultAt.mk.inj hat
    rw [← List.inj_on_of_nodup_map (nodup_start_lex s t) hk' hk hstart]
    exact hf
  · intro h
    exact List.mem_filterMap.2 ⟨k, hk, by rw [faultAt?, h]; rfl⟩

theorem isQuoted_iff_leftOpen (hk : k ∈ lex s t) : k.isQuoted = true ↔
    k.kind = .string ∧ (LeftOpen s t k → ['\\', '"'] <:+ k.text) := by
  rw [leftOpen_iff hk]
  exact Piece.isQuoted_iff (piece_mem hk)

end Token

namespace Document

variable {t : Text} {before blanks after : List Token} {tag q : Token}

theorem import_or_directive (ht : Token.lex glsl t = before ++ tag :: (blanks ++ q :: after))
    (htag : tag.kind = .tag) (hname : glsl.tagName tag.text = "import".toList)
    (hblanks : ∀ b ∈ blanks, b.kind.isTrivia = true) (hq : q.kind = .string) :
    (∃ v ∈ (parse glsl t).nodes, v.kind = .directive ∧ v.start < tag.start ∧ tag.stop ≤ v.stop) ∨
    ∃ v ∈ (parse glsl t).nodes, v.start = tag.start ∧
      if q.isQuoted then v.kind = .importDirective ∧ v.stop = q.stop else v.kind = .directive := by
  have hpieces : Piece.ofText glsl t = before.map Token.piece ++
      tag.piece :: (blanks.map Token.piece ++ q.piece :: after.map Token.piece) := by
    simp [Piece.ofText, ht]
  have hstart := Token.start_of_lex ht
  have hqstart : q.start = tag.stop + Text.size (Piece.textAll (blanks.map Token.piece)) := by
    rw [← List.cons_append, ← List.append_assoc] at ht
    rw [Token.start_of_lex ht, Token.stop, hstart]
    simp [Nat.add_assoc]
  have hmem {v : Node} (hv : v ∈ Piece.tagNodes 0 0 (Piece.ofText glsl t)) :
      v ∈ (parse glsl t).nodes := by
    rw [← tags_parse] at hv
    exact (List.mem_filter.1 hv).1
  have hne : ∀ p ∈ before.map Token.piece, p.text ≠ [] := fun p hp =>
    (Piece.cuts_ofText glsl t).text_ne_nil (by rw [hpieces]; exact List.mem_append_left _ hp)
  rw [hpieces] at hmem
  have htag : tag.piece.kind = .tag := htag
  rcases Piece.mem_tagNodes_of_tag htag hne 0 with ⟨v, hv, hdir, hlt, hle⟩ | hv
  · rw [Nat.zero_add, ← hstart] at hlt hle
    exact .inl ⟨v, hmem hv, hdir, hlt, hle⟩
  · refine .inr ⟨_, hmem hv, by rw [Nat.zero_add, ← hstart], ?_⟩
    rw [Piece.tagged_string hname (by simpa using hblanks) hq]
    by_cases hquoted : q.isQuoted = true
    · have hpiece : q.piece.isQuoted = true := hquoted
      rw [if_pos hquoted, if_pos hpiece]
      refine ⟨rfl, ?_⟩
      rw [Node.stop_leaf, Token.stop, hqstart, Token.stop, hstart]
      simp only [Piece.textAll_cons, Piece.textAll_append, Piece.textAll_nil, Text.size_append,
        Text.size_nil, Token.text_piece]
      omega
    · have hpiece : ¬q.piece.isQuoted = true := hquoted
      rw [if_neg hquoted, if_neg hpiece]

/-- A token is taken for the string of an import exactly if it is a string that is closed, or
that ends with an escaped quote. So the tag of an import, blanks and a string make an import up
to the end of that string, and a directive where the string is left open and does not end so,
unless the tag lies inside an earlier directive. -/
theorem quoted_iff_closed_or_escaped (s : Schema) (t : Text) :
    (∀ i ∈ Item.mark (Token.lex s t), Matcher.quoted.accepts s (.item i) = true ↔
      i.token.kind = .string ∧ (Token.LeftOpen s t i.token → ['\\', '"'] <:+ i.token.text)) ∧
    ∀ (before blanks after : List Token) (tag q : Token),
      Token.lex glsl t = before ++ tag :: (blanks ++ q :: after) → tag.kind = .tag →
      glsl.tagName tag.text = "import".toList → (∀ b ∈ blanks, b.kind.isTrivia = true) →
      q.kind = .string →
      (∃ v ∈ (parse glsl t).nodes, v.kind = .directive ∧ v.start < tag.start ∧
        tag.stop ≤ v.stop) ∨
      ∃ v ∈ (parse glsl t).nodes, v.start = tag.start ∧
        if Token.LeftOpen glsl t q ∧ ¬['\\', '"'] <:+ q.text then v.kind = .directive
        else v.kind = .importDirective ∧ v.stop = q.stop := by
  constructor
  · intro i hi
    have hmem : i.token ∈ Token.lex s t := by
      rw [← Item.map_token_markAfter [] (Token.lex s t)]
      exact List.mem_map_of_mem hi
    rw [Matcher.accepts]
    exact Token.isQuoted_iff_leftOpen hmem
  · intro before blanks after tag q ht htag hname hblanks hq
    have hmem : q ∈ Token.lex glsl t := by simp [ht]
    have hquoted := Token.isQuoted_iff_leftOpen hmem
    obtain hinside | ⟨v, hv, hstart, hkind⟩ := import_or_directive ht htag hname hblanks hq
    · exact .inl hinside
    · refine .inr ⟨v, hv, hstart, ?_⟩
      split at hkind
      next h =>
        rw [if_neg fun hopen => hopen.2 ((hquoted.1 h).2 hopen.1)]
        exact hkind
      next h =>
        rw [if_pos (by simpa [hq] using mt hquoted.2 h)]
        exact hkind

theorem quoted_iff_closed_or_escaped_open :
    let t := "@import \"b".toList
    let tag : Token := ⟨.tag, "@import".toList, 0, none⟩
    let q : Token := ⟨.string, "\"b".toList, 8, some .unterminatedString⟩
    Token.lex glsl t = [] ++ tag :: ([⟨.whitespace, [' '], 7, none⟩] ++ q :: []) ∧
      Token.LeftOpen glsl t q ∧ ¬['\\', '"'] <:+ q.text ∧
      ¬Matcher.quoted.accepts glsl (.item ⟨q, false⟩) = true ∧
      ∃ v ∈ (parse glsl t).nodes, v.start = tag.start ∧ v.kind = .directive := by
  intro t tag q
  have ht : Token.lex glsl t = [] ++ tag :: ([⟨.whitespace, [' '], 7, none⟩] ++ q :: []) := by
    decide +kernel
  have hopen : Token.LeftOpen glsl t q := by decide +kernel
  have hescaped : ¬['\\', '"'] <:+ q.text := by decide
  have hq : (⟨q, false⟩ : Item) ∈ Item.mark (Token.lex glsl t) := by
    rw [ht]
    decide
  obtain ⟨hquoted, himport⟩ := quoted_iff_closed_or_escaped glsl t
  refine ⟨ht, hopen, hescaped, fun h => hescaped (((hquoted _ hq).1 h).2 hopen), ?_⟩
  obtain ⟨v, -, -, hlt, -⟩ | ⟨v, hv, hstart, hkind⟩ :=
    himport _ _ _ _ _ ht rfl (by decide) (by decide) rfl
  · exact absurd hlt (Nat.not_lt_zero _)
  · rw [if_pos ⟨hopen, hescaped⟩] at hkind
    exact ⟨v, hv, hstart, hkind⟩

/-- A string that is left open is taken for the string of an import where its last quote is
escaped. -/
theorem quoted_of_escaped :
    (¬∀ (s : Schema) (t : Text), ∀ i ∈ Item.mark (Token.lex s t),
      Matcher.quoted.accepts s (.item i) = true ↔
        i.token.kind = .string ∧ ¬Token.LeftOpen s t i.token) ∧
    ¬∀ (t : Text), ∀ v ∈ (parse glsl t).nodes, v.kind = .importDirective →
      ∀ k ∈ Token.lex glsl t, Token.LeftOpen glsl t k → k.stop ≠ v.stop := by
  let t := "@import \"a\\\"".toList
  let q : Token := ⟨.string, "\"a\\\"".toList, 8, some .unterminatedString⟩
  have hopen : Token.LeftOpen glsl t q := by decide +kernel
  constructor
  · intro h
    have hq := h glsl t ⟨q, false⟩ (by decide +kernel)
    exact (hq.1 (by decide)).2 hopen
  · intro h
    have hv : ∃ v ∈ (parse glsl t).nodes, v.kind = .importDirective ∧ q.stop = v.stop := by
      decide +kernel
    obtain ⟨v, hv, hkind, hstop⟩ := hv
    exact h t v hv hkind q (by decide +kernel) hopen hstop

end Document

end ShaderInline
