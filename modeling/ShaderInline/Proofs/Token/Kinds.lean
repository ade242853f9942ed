import ShaderInline.Proofs.Token.Restart

/-! # Pieces by their kinds

What the text of a piece looks like: a line break is one, a tag starts with a
mark, and no string goes past the end of its line.
-/

namespace ShaderInline

open Schema Piece

namespace Lexeme

variable {s : Schema} {c : Char} {cs : Text}

theorem comment?_kind {t : Text} {style : CommentStyle} {l : Lexeme}
    (h : comment? t style = some l) : l.kind = .lineComment ∨ l.kind = .blockComment := by
  have hwidth {k : Kind} {f : Option Fault} {n : Nat} (hw : ofWidth? k f n = some l) :
      l.kind = k := by
    cases n with
    | zero => cases hw
    | succ n => rw [← Option.some.inj hw]
  cases style with
  | line mark =>
    rw [comment?, Option.ite_none_right_eq_some] at h
    exact .inl (hwidth h.2)
  | block opening closing =>
    obtain ⟨body, -, hb⟩ := Option.bind_eq_some_iff.1 h
    split at hb
    · exact .inr (hwidth hb)
    · exact .inr (hwidth hb)

theorem read_cases (s : Schema) (c : Char) (cs : Text) :
    (read s c cs).kind = .lineComment ∨ (read s c cs).kind = .blockComment ∨
      read s c cs = plain s c cs := by
  cases hf : s.comments.findSome? (comment? (c :: cs)) with
  | none => exact .inr (.inr (by rw [read, hf, Option.getD_none]))
  | some l =>
    obtain ⟨style, -, hl⟩ := List.exists_of_findSome?_eq_some hf
    rw [read, hf, Option.getD_some]
    exact (comment?_kind hl).imp_right .inl

theorem read_eq_plain (h : (read s c cs).kind.isTrivia = false) :
    read s c cs = plain s c cs := by
  rcases read_cases s c cs with hk | hk | hplain
  · simp [hk, Kind.isTrivia] at h
  · simp [hk, Kind.isTrivia] at h
  · exact hplain

/-- What the kind of a lexeme says about the text at whose head it stands. Blanks, comments, words
and numbers say nothing here. -/
def Shape (s : Schema) (c : Char) (cs : Text) (l : Lexeme) : Prop :=
  match l.kind with
  | .whitespace | .lineComment | .blockComment | .ident | .keyword | .number => True
  | .newline => Text.isLineBreak c = true
  | .tag => s.isTagMark c = true
  | .string => c = '"' ∧ l.extra = (stringExtra cs).1
  -- delimiters become errors only when they are matched
  | .error => False
  | _ => l = single c

theorem single_kind (c : Char) : (single c).kind ≠ .newline ∧ (single c).kind ≠ .tag ∧
    (single c).kind ≠ .string ∧ (single c).kind ≠ .error := by
  unfold single
  split
  case h_9 => split <;> simp
  all_goals simp

theorem shape_single (s : Schema) (c : Char) (cs : Text) : Shape s c cs (single c) := by
  obtain ⟨hnewline, htag, hstring, herror⟩ := single_kind c
  unfold Shape
  split <;> trivial

theorem shape_plain (s : Schema) (c : Char) (cs : Text) : Shape s c cs (plain s c cs) := by
  unfold plain
  split
  next hc => simp [Shape, Text.isLineBreak, hc]
  split
  next hc => simp [Shape, Text.isLineBreak, hc]
  split
  · trivial
  split
  next htag => exact (Bool.and_eq_true_iff.1 htag).1
  split
  · dsimp only
    split <;> trivial
  split
  · trivial
  split
  next hquote => exact ⟨eq_of_beq hquote, rfl⟩
  next => exact shape_single s c cs

theorem shape_read (s : Schema) (c : Char) (cs : Text) : Shape s c cs (read s c cs) := by
  rcases read_cases s c cs with hk | hk | hplain
  · rw [Shape, hk]
    trivial
  · rw [Shape, hk]
    trivial
  · exact hplain ▸ shape_plain s c cs

theorem read_newline (h : (read s c cs).kind = .newline) : Text.isLineBreak c = true := by
  have hshape := shape_read s c cs
  rwa [Shape, h] at hshape

theorem read_tag (h : (read s c cs).kind = .tag) : s.isTagMark c = true := by
  have hshape := shape_read s c cs
  rwa [Shape, h] at hshape

theorem read_string (h : (read s c cs).kind = .string) :
    c = '"' ∧ (read s c cs).extra = (stringExtra cs).1 := by
  have hshape := shape_read s c cs
  rwa [Shape, h] at hshape

theorem read_closer {d : Delimiter} (h : (read s c cs).kind = .closer d) :
    read s c cs = single c := by
  have hshape := shape_read s c cs
  rwa [Shape, h] at hshape

theorem read_ne_error (s : Schema) (c : Char) (cs : Text) : (read s c cs).kind ≠ .error := by
  intro h
  have hshape := shape_read s c cs
  rwa [Shape, h] at hshape

theorem take_stringExtra (cs : Text) :
    ∀ c ∈ cs.take (stringExtra cs).1, Text.isLineBreak c = false := by
  fun_induction stringExtra cs <;> simp_all [Text.isLineBreak]

section LineBreak

variable {c : Char} {q rest : Text} {k : Kind} {f : Option Fault}

theorem isLineBreak_wordPart (h : Text.isWordPart c = true) : Text.isLineBreak c = false := by
  rw [Bool.eq_false_iff]
  intro hb
  rw [Text.isLineBreak, Bool.or_eq_true, beq_iff_eq, beq_iff_eq] at hb
  rcases hb with rfl | rfl <;> cases h

theorem take_numberExtra (hex : Bool) (last : Char) (cs : Text) :
    ∀ d ∈ cs.take (numberExtra hex last cs), Text.isLineBreak d = false := by
  induction cs generalizing last with
  | nil => simp
  | cons c cs ih =>
    rw [numberExtra_cons]
    split
    next hc =>
      rw [List.take_succ_cons, List.forall_mem_cons]
      refine ⟨?_, ih c⟩
      rw [Bool.eq_false_iff]
      intro hb
      rw [Text.isLineBreak, Bool.or_eq_true, beq_iff_eq, beq_iff_eq] at hb
      rcases hb with rfl | rfl <;> simp [continuesNumber] at hc
    next => simp

theorem take_plain (hc : Text.isLineBreak c = false) (cs : Text) :
    ∀ d ∈ cs.take (plain glsl c cs).extra, Text.isLineBreak d = false := by
  have hrun {f : Char → Bool} (hf : ∀ d, f d = true → Text.isLineBreak d = false) :
      ∀ d ∈ cs.take (cs.takeWhile f).length, Text.isLineBreak d = false := by
    rw [← List.prefix_iff_eq_take.1 (List.takeWhile_prefix f)]
    exact fun d hd => hf d (List.mem_takeWhile_imp hd)
  rw [Text.isLineBreak, Bool.or_eq_false_iff] at hc
  rw [plain, hc.1, hc.2, if_neg (by simp), if_neg (by simp)]
  split
  · exact hrun (by simp)
  split
  · exact hrun fun d => isLineBreak_wordPart
  split
  · exact hrun fun d => isLineBreak_wordPart
  split
  · exact take_numberExtra _ _ _
  split
  · exact take_stringExtra cs
  · simp

theorem plain_newline (hc : Text.isLineBreak c = true) (cs : Text) :
    (plain glsl c cs).kind = .newline := by
  rw [Text.isLineBreak, Bool.or_eq_true, beq_iff_eq, beq_iff_eq] at hc
  rcases hc with rfl | rfl <;> rfl

theorem getLast?_cons_isLineBreak {t : Text} (hc : Text.isLineBreak c = false)
    (ht : ∀ d ∈ t, Text.isLineBreak d = false) :
    (c :: t).getLast?.any Text.isLineBreak = false := by
  rw [Option.any_eq_false]
  intro d hd
  rcases List.mem_cons.1 (List.mem_of_getLast? hd) with rfl | hd
  · simpa using hc
  · simpa using ht d hd

/-- Only a line break and a comment that is left open can end with a line break. -/
theorem read_getLast? (h : read glsl c (q ++ rest) = ⟨k, q.length, f⟩) (hk : k ≠ .newline)
    (hf : f ≠ some .unterminatedComment) : (c :: q).getLast?.any Text.isLineBreak = false := by
  by_cases hc : c = '/'
  · subst hc
    rcases q with - | ⟨d, q⟩
    · rfl
    by_cases hd : d = '/'
    · subst hd
      rw [List.cons_append, read_line_comment] at h
      have hlen : ((q ++ rest).takeWhile (!Text.isLineBreak ·)).length = q.length := by
        simpa using congrArg extra h
      have hq : q = (q ++ rest).takeWhile (!Text.isLineBreak ·) := by
        have hprefix := List.takeWhile_prefix (l := q ++ rest) (!Text.isLineBreak ·)
        rw [List.prefix_iff_eq_take.1 hprefix, hlen, List.take_left]
      refine getLast?_cons_isLineBreak rfl (List.forall_mem_cons.2 ⟨rfl, fun c hc => ?_⟩)
      rw [hq] at hc
      simpa using List.mem_takeWhile_imp hc
    by_cases hd' : d = '*'
    · subst hd'
      rw [List.cons_append, read_block_comment] at h
      split at h
      next inside b hb =>
        have hlen : inside.length + 2 = q.length := by simpa using congrArg extra h
        have heq : q ++ rest = inside ++ ['*', '/'] ++ b := by simpa using Text.eq_of_breakOn? hb
        obtain ⟨rfl, -⟩ := List.append_inj heq (by simpa using hlen.symm)
        have hlast : '/' :: '*' :: (inside ++ ['*', '/']) =
            ('/' :: '*' :: (inside ++ ['*'])) ++ ['/'] := by simp
        rw [hlast, List.getLast?_concat]
        rfl
      next => exact absurd (congrArg fault h).symm hf
    · rw [List.cons_append, read_slash (by simpa using hd) (by simpa using hd')] at h
      cases congrArg extra h
  · rw [read_of_ne_slash hc] at h
    have hbreak : Text.isLineBreak c = false := by
      rw [Bool.eq_false_iff]
      intro hb
      have hnewline := plain_newline hb (q ++ rest)
      rw [h] at hnewline
      exact hk hnewline
    have htake := take_plain hbreak (q ++ rest)
    rw [h, List.take_left] at htake
    exact getLast?_cons_isLineBreak hbreak htake

end LineBreak

end Lexeme

namespace Cuts

variable {s : Schema} {t r : Text} {ps : List Piece} {p : Piece}

theorem exists_read (h : Cuts s t ps r) (hp : p ∈ ps) : ∃ c q rest, p.text = c :: q ∧
    Lexeme.read s c (q ++ rest) = ⟨p.kind, q.length, p.fault⟩ := by
  obtain ⟨ps, qs, rfl⟩ := List.append_of_mem hp
  obtain ⟨c, q, rest, ht, -, hr, -⟩ := h.split.2.uncons
  exact ⟨c, q, rest, ht, hr⟩

theorem newline_head (h : Cuts s t ps r) (hp : p ∈ ps) (hk : p.kind = .newline) :
    ∃ c q, p.text = c :: q ∧ Text.isLineBreak c = true := by
  obtain ⟨c, q, rest, ht, hr⟩ := h.exists_read hp
  exact ⟨c, q, ht, Lexeme.read_newline (by rw [hr, hk])⟩

theorem newline_text (h : Cuts s t ps r) (hp : p ∈ ps) (hk : p.kind = .newline) :
    p.text = ['\n'] ∨ p.text = ['\r'] ∨ p.text = ['\r', '\n'] := by
  obtain ⟨c, q, rest, ht, hr⟩ := h.exists_read hp
  have hc := Lexeme.read_newline (s := s) (by rw [hr, hk])
  rw [Lexeme.read_eq_plain (by rw [hr, hk]; rfl)] at hr
  have hextra : (Lexeme.plain s c (q ++ rest)).extra = q.length := by rw [hr]
  rw [ht]
  rw [Text.isLineBreak, Bool.or_eq_true, beq_iff_eq, beq_iff_eq] at hc
  rcases hc with rfl | rfl
  · obtain rfl : q = [] := List.eq_nil_of_length_eq_zero hextra.symm
    exact .inl rfl
  · change (if ((q ++ rest).head? == some '\n') = true then 1 else 0) = q.length at hextra
    split at hextra
    next hd =>
      obtain ⟨d, rfl⟩ := List.length_eq_one_iff.1 hextra.symm
      obtain rfl : d = '\n' := by simpa using hd
      exact .inr (.inr rfl)
    next =>
      obtain rfl : q = [] := List.eq_nil_of_length_eq_zero hextra.symm
      exact .inr (.inl rfl)

theorem newline_isLineBreak (h : Cuts s t ps r) (hp : p ∈ ps) (hk : p.kind = .newline) :
    ∀ c ∈ p.text, Text.isLineBreak c = true := by
  rcases h.newline_text hp hk with ht | ht | ht <;> simp [ht, Text.isLineBreak]

theorem tag_head (h : Cuts s t ps r) (hp : p ∈ ps) (hk : p.kind = .tag) :
    ∃ c q, p.text = c :: q ∧ s.isTagMark c = true := by
  obtain ⟨c, q, rest, ht, hr⟩ := h.exists_read hp
  exact ⟨c, q, ht, Lexeme.read_tag (by rw [hr, hk])⟩

theorem kind_of_unterminated (h : Cuts glsl t ps r) (hp : p ∈ ps)
    (hf : p.fault = some .unterminatedComment) : p.kind = .blockComment := by
  obtain ⟨c, q, rest, -, hr⟩ := h.exists_read hp
  rw [hf] at hr
  obtain ⟨-, -, -, -, hk, -⟩ := Lexeme.read_unterminated hr
  exact hk

theorem string_isLineBreak (h : Cuts s t ps r) (hp : p ∈ ps) (hk : p.kind = .string) :
    ∀ c ∈ p.text, Text.isLineBreak c = false := by
  obtain ⟨c, q, rest, ht, hr⟩ := h.exists_read hp
  obtain ⟨rfl, hx⟩ := Lexeme.read_string (by rw [hr, hk])
  have hall := Lexeme.take_stringExtra (q ++ rest)
  rw [← hx, hr, List.take_left] at hall
  rw [ht]
  exact List.forall_mem_cons.2 ⟨rfl, hall⟩

theorem getLast?_isLineBreak (h : Cuts glsl t ps r) (hp : p ∈ ps) (hk : p.kind ≠ .newline)
    (hf : p.fault ≠ some .unterminatedComment) : p.text.getLast?.any Text.isLineBreak = false := by
  obtain ⟨c, q, rest, ht, hr⟩ := h.exists_read hp
  rw [ht]
  exact Lexeme.read_getLast? hr hk hf

end Cuts
end ShaderInline
