import ShaderInline.Proofs.Token.Cut
import ShaderInline.Schema.Glsl

/-! # How far a token looks ahead

Under the schema for GLSL a token is settled by its own characters and by the
one after it; only a comment that is never closed looks at the whole text. A
token that stops before one character stops before a line break as well, and
one that stops before a tag stops before a comment, unless a carriage return
meets its line feed or a slash meets another.
-/

namespace ShaderInline

open Schema

/-- A token that stops before the first character stops before the second one, too. -/
def Steady (piece : Text) (x y : Option Char) : Prop :=
  y = x ∨ y.all (fun c => c == '/' || Text.isLineBreak c) = true ∧
    (x.all Text.isLineBreak = true → y.all Text.isLineBreak = true) ∧
    (piece = ['\r'] → y ≠ some '\n') ∧ (piece = ['/'] → y ≠ some '/')

namespace Steady

variable {piece : Text} {x y : Option Char}

theorem any_eq_false (h : Steady piece x y) {f : Char → Bool} (hs : f '/' = false)
    (hn : f '\n' = false) (hr : f '\r' = false) (hx : x.any f = false) : y.any f = false := by
  rcases h with rfl | ⟨h, -⟩
  · exact hx
  · cases y with
    | none => rfl
    | some c =>
      simp only [Option.all_some, Text.isLineBreak, Bool.or_eq_true, beq_iff_eq] at h
      rcases h with rfl | rfl | rfl <;> assumption

theorem all_isLineBreak (h : Steady piece x y) (hx : x.all Text.isLineBreak = true) :
    y.all Text.isLineBreak = true := by
  rcases h with rfl | ⟨-, h, -⟩
  · exact hx
  · exact h hx

end Steady

namespace Lexeme

variable {c : Char} {p rest rest' cs : Text} {k : Kind} {f : Option Fault}

theorem glsl_comments :
    glsl.comments = [.line ['/', '/'], .block ['/', '*'] ['*', '/']] := rfl

theorem isTagMark_glsl (c : Char) : glsl.isTagMark c = (c == '#' || c == '@') := by
  rw [Bool.eq_iff_iff]
  simp [isTagMark, glsl, addTagMark, addComment, addKeywords, addPattern, empty]

theorem isLineBreak_of_isTagMark (h : glsl.isTagMark c = true) : Text.isLineBreak c = false := by
  rw [isTagMark_glsl, Bool.or_eq_true, beq_iff_eq, beq_iff_eq] at h
  rcases h with rfl | rfl <;> rfl

theorem read_of_ne_slash (h : c ≠ '/') : read glsl c cs = plain glsl c cs := by
  simp [read, glsl_comments, comment?, Text.startsWith, Text.after?, Ne.symm h]

theorem read_line_comment (cs : Text) :
    read glsl '/' ('/' :: cs) =
      ⟨.lineComment, (cs.takeWhile (!Text.isLineBreak ·)).length + 1, none⟩ := by
  simp [read, glsl_comments, comment?, Text.startsWith, Text.after?, Text.isLineBreak, ofWidth?]

theorem read_block_comment (cs : Text) :
    read glsl '/' ('*' :: cs) =
      match Text.breakOn? ['*', '/'] cs with
      | some (inside, _) => ⟨.blockComment, inside.length + 3, none⟩
      | none => ⟨.blockComment, cs.length + 1, some .unterminatedComment⟩ := by
  cases h : Text.breakOn? ['*', '/'] cs <;>
    simp [read, glsl_comments, comment?, Text.startsWith, Text.after?, ofWidth?, h, Nat.add_comm]

theorem read_slash (h : cs.head? ≠ some '/') (h' : cs.head? ≠ some '*') :
    read glsl '/' cs = ⟨.punct, 0, none⟩ := by
  have hp : plain glsl '/' cs = ⟨.punct, 0, none⟩ := by
    simp [plain, Text.isBlank, isTagMark_glsl, Text.isWordStart, single, Text.isPunctuation]
  cases cs with
  | nil => simpa [read, glsl_comments, comment?, Text.startsWith, Text.after?] using hp
  | cons d ds =>
    have hd : '/' ≠ d := fun e => h (by simp [← e])
    have hd' : '*' ≠ d := fun e => h' (by simp [← e])
    simpa [read, glsl_comments, comment?, Text.startsWith, Text.after?, hd, hd'] using hp

/-! ### Numbers and strings -/

def continuesNumber (hex : Bool) (last c : Char) : Bool :=
  c.isAlphanum || c == '.' || c == '_' ||
    ((c == '+' || c == '-') && !hex && (last == 'e' || last == 'E'))

theorem numberExtra_cons (hex : Bool) (last : Char) (c : Char) (cs : Text) :
    numberExtra hex last (c :: cs) =
      if continuesNumber hex last c then numberExtra hex c cs + 1 else 0 := rfl

theorem numberExtra_congr {hex : Bool} {last : Char} {piece : Text}
    (hs : Steady piece rest.head? rest'.head?) (h : numberExtra hex last (p ++ rest) = p.length) :
    numberExtra hex last (p ++ rest') = p.length := by
  induction p generalizing last with
  | nil =>
    have hx : rest.head?.any (continuesNumber hex last) = false := by
      cases rest with
      | nil => rfl
      | cons x rest => cases hx : continuesNumber hex last x <;> simp_all [numberExtra_cons]
    have hy := hs.any_eq_false (by simp [continuesNumber]) (by simp [continuesNumber])
      (by simp [continuesNumber]) hx
    cases rest' with
    | nil => rfl
    | cons y rest' => simp_all [numberExtra_cons]
  | cons c p ih =>
    rw [List.cons_append, numberExtra_cons] at h ⊢
    split at h
    next hc => simp [hc, @ih c (by simpa using h)]
    next => simp at h

theorem stringExtra_of_head (h : rest.head?.all Text.isLineBreak = true) :
    stringExtra rest = (0, false) := by
  fun_cases stringExtra rest <;> simp_all [Text.isLineBreak]

theorem head_of_stringExtra (h : (stringExtra rest).1 = 0) :
    rest.head?.all Text.isLineBreak = true := by
  fun_cases stringExtra rest <;> simp_all [stringExtra]

theorem stringExtra_backslash (h : rest.head?.all Text.isLineBreak = true) :
    stringExtra ('\\' :: rest) = (1, false) := by
  cases rest with
  | nil => rfl
  | cons c rest => simp_all [stringExtra]

theorem head_of_stringExtra_backslash (h : (stringExtra ('\\' :: rest)).1 = 1) :
    rest.head?.all Text.isLineBreak = true := by
  cases rest with
  | nil => rfl
  | cons c rest => cases hc : Text.isLineBreak c <;> simp_all [stringExtra]

theorem stringExtra_congr {closed : Bool}
    (hs : rest.head?.all Text.isLineBreak = true → rest'.head?.all Text.isLineBreak = true)
    (h : stringExtra (p ++ rest) = (p.length, closed)) :
    stringExtra (p ++ rest') = (p.length, closed) := by
  -- by the recursion of the scan: an escape is two characters, any other step is one
  induction p using stringExtra.induct with
  | case1 =>
    have hr : rest.head?.all Text.isLineBreak = true := head_of_stringExtra (by simp_all)
    rw [List.nil_append, stringExtra_of_head hr] at h
    rw [List.nil_append, stringExtra_of_head (hs hr), h]
  | case2 =>
    have hr : rest.head?.all Text.isLineBreak = true :=
      head_of_stringExtra_backslash (by simp_all)
    rw [List.singleton_append, stringExtra_backslash hr] at h
    rw [List.singleton_append, stringExtra_backslash (hs hr), h]
  | case3 c cs hc => simp [stringExtra, hc] at h
  | case4 c cs hc ih =>
    simp_all [stringExtra, Prod.ext_iff]
  | case5 c cs hb hq => simp_all [stringExtra, Prod.ext_iff]
  | case6 c cs hb hq hc => simp_all [stringExtra]
  | case7 c cs hb hq hc ih => simp_all [stringExtra, Prod.ext_iff]

/-! ### One character ahead -/

theorem head?_any_congr {g : Char → Bool} (hs : Steady (c :: p) rest.head? rest'.head?)
    (hg : g '/' = false ∧ g '\n' = false ∧ g '\r' = false)
    (hp : p = [] → rest.head?.any g = false) :
    (p ++ rest').head?.any g = (p ++ rest).head?.any g := by
  cases p with
  | nil =>
    rw [List.nil_append, List.nil_append, hp rfl, hs.any_eq_false hg.1 hg.2.1 hg.2.2 (hp rfl)]
  | cons d p => rfl

theorem takeWhile_congr {g : Char → Bool} (hs : Steady (c :: p) rest.head? rest'.head?)
    (hg : g '/' = false ∧ g '\n' = false ∧ g '\r' = false)
    (h : ((p ++ rest).takeWhile g).length = p.length) :
    (p ++ rest).takeWhile g = p ∧ (p ++ rest').takeWhile g = p := by
  obtain ⟨hp, hr⟩ := Text.takeWhile_append_length_iff.mp h
  exact ⟨Text.takeWhile_append_eq hp hr,
    Text.takeWhile_append_eq hp (hs.any_eq_false hg.1 hg.2.1 hg.2.2 hr)⟩

theorem isWordPart_of_isWordStart (h : Text.isWordStart c = true) : Text.isWordPart c = true := by
  simp only [Text.isWordStart, Text.isWordPart, Char.isAlphanum, Bool.or_eq_true] at h ⊢
  rcases h with h | h <;> simp [h]

theorem head_of_mark (hc : glsl.isTagMark c = true) (h : (plain glsl c rest).extra = 0) :
    rest.head?.any Text.isWordStart = false := by
  cases rest with
  | nil => rfl
  | cons d rest =>
    rw [Bool.eq_false_iff]
    intro hd
    have hd' := isWordPart_of_isWordStart hd
    rw [isTagMark_glsl, Bool.or_eq_true, beq_iff_eq, beq_iff_eq] at hc
    rcases hc with rfl | rfl <;> simp_all [plain, Text.isBlank, isTagMark_glsl]

theorem head_of_point (h : (plain glsl '.' rest).extra = 0) :
    rest.head?.any Char.isDigit = false := by
  cases rest with
  | nil => rfl
  | cons d rest =>
    rw [Bool.eq_false_iff]
    intro hd
    have hd' : d.isAlphanum = true := by simp_all [Char.isAlphanum]
    simp_all [plain, Text.isBlank, isTagMark_glsl, Text.isWordStart, numberExtra]

theorem head_of_number {hex : Bool} (h : numberExtra hex c rest = 0) :
    (rest.head?.any fun x => x == 'x' || x == 'X') = false := by
  cases rest with
  | nil => rfl
  | cons d rest =>
    rw [Bool.eq_false_iff]
    intro hd
    rw [List.head?_cons, Option.any_some, Bool.or_eq_true, beq_iff_eq, beq_iff_eq] at hd
    rcases hd with rfl | rfl <;> simp [numberExtra] at h

theorem isHex_eq (c : Char) (cs : Text) :
    isHex c cs = (c == '0' && cs.head?.any fun x => x == 'x' || x == 'X') := by
  cases cs <;> simp [isHex]

theorem startsTag_congr (hs : Steady (c :: p) rest.head? rest'.head?)
    (h : (plain glsl c (p ++ rest)).extra = p.length) :
    (glsl.isTagMark c && (p ++ rest').head?.any Text.isWordStart) =
      (glsl.isTagMark c && (p ++ rest).head?.any Text.isWordStart) := by
  cases hc : glsl.isTagMark c with
  | false => rfl
  | true =>
    refine congrArg _ (head?_any_congr hs (by simp [Text.isWordStart]) ?_)
    rintro rfl
    exact head_of_mark hc h

theorem startsNumber_congr (hs : Steady (c :: p) rest.head? rest'.head?)
    (h : (plain glsl c (p ++ rest)).extra = p.length) :
    (c == '.' && (p ++ rest').head?.any Char.isDigit) =
      (c == '.' && (p ++ rest).head?.any Char.isDigit) := by
  cases hc : c == '.' with
  | false => rfl
  | true =>
    obtain rfl := beq_iff_eq.mp hc
    refine congrArg _ (head?_any_congr hs (by simp) ?_)
    rintro rfl
    exact head_of_point h

theorem isHex_congr {hex : Bool} (hs : Steady (c :: p) rest.head? rest'.head?)
    (h : numberExtra hex c (p ++ rest) = p.length) :
    isHex c (p ++ rest') = isHex c (p ++ rest) := by
  rw [isHex_eq, isHex_eq]
  refine congrArg _ (head?_any_congr hs (by simp) ?_)
  rintro rfl
  exact head_of_number h

theorem feed_congr (hs : Steady ('\r' :: p) rest.head? rest'.head?)
    (h : (if (p ++ rest).head? == some '\n' then 1 else 0) = p.length) :
    (if (p ++ rest').head? == some '\n' then 1 else 0) = p.length := by
  cases p with
  | cons d p => exact h
  | nil =>
    have hn : rest.head? ≠ some '\n' := by simpa using h
    have hn' : rest'.head? ≠ some '\n' := by
      rcases hs with e | ⟨-, -, e, -⟩
      · rwa [e]
      · exact e rfl
    simp [hn']

theorem plain_congr (hs : Steady (c :: p) rest.head? rest'.head?)
    (h : plain glsl c (p ++ rest) = ⟨k, p.length, f⟩) :
    plain glsl c (p ++ rest') = ⟨k, p.length, f⟩ := by
  have hextra : (plain glsl c (p ++ rest)).extra = p.length := by rw [h]
  have htag := startsTag_congr hs hextra
  have hnumber := startsNumber_congr hs hextra
  unfold plain at h ⊢
  rw [htag, hnumber]
  by_cases h₁ : (c == '\n') = true
  · rw [if_pos h₁] at h ⊢
    exact h
  rw [if_neg h₁] at h ⊢
  by_cases h₂ : (c == '\r') = true
  · rw [if_pos h₂, Lexeme.mk.injEq] at h ⊢
    obtain rfl := beq_iff_eq.mp h₂
    exact ⟨h.1, feed_congr hs h.2.1, h.2.2⟩
  rw [if_neg h₂] at h ⊢
  by_cases h₃ : Text.isBlank c = true
  · rw [if_pos h₃, Lexeme.mk.injEq] at h ⊢
    obtain ⟨-, e⟩ := takeWhile_congr hs (by simp [Text.isBlank, Text.isLineBreak]) h.2.1
    exact ⟨h.1, by rw [e], h.2.2⟩
  rw [if_neg h₃] at h ⊢
  by_cases h₄ : (glsl.isTagMark c && (p ++ rest).head?.any Text.isWordStart) = true
  · rw [if_pos h₄, Lexeme.mk.injEq] at h ⊢
    obtain ⟨-, e⟩ := takeWhile_congr hs (by simp [Text.isWordPart]) h.2.1
    exact ⟨h.1, by rw [e], h.2.2⟩
  rw [if_neg h₄] at h ⊢
  by_cases h₅ : Text.isWordStart c = true
  · rw [if_pos h₅, Lexeme.mk.injEq] at h ⊢
    obtain ⟨e, e'⟩ := takeWhile_congr hs (by simp [Text.isWordPart]) h.2.1
    rw [e] at h
    rwa [e']
  rw [if_neg h₅] at h ⊢
  by_cases h₆ : (c.isDigit || c == '.' && (p ++ rest).head?.any Char.isDigit) = true
  · rw [if_pos h₆, Lexeme.mk.injEq] at h ⊢
    rw [isHex_congr hs h.2.1]
    exact ⟨h.1, numberExtra_congr hs h.2.1, h.2.2⟩
  rw [if_neg h₆] at h ⊢
  by_cases h₇ : (c == '"') = true
  · rw [if_pos h₇, Lexeme.mk.injEq] at h ⊢
    have hp : stringExtra (p ++ rest) = (p.length, (stringExtra (p ++ rest)).2) :=
      Prod.ext h.2.1 rfl
    have e := stringExtra_congr hs.all_isLineBreak hp
    rw [e]
    exact ⟨h.1, rfl, h.2.2⟩
  · rw [if_neg h₇] at h ⊢
    exact h

theorem single_fault_ne (c : Char) : (single c).fault ≠ some .unterminatedComment := by
  unfold single
  split
  case h_9 => split <;> simp
  all_goals simp

theorem plain_fault_ne (c : Char) (cs : Text) :
    (plain glsl c cs).fault ≠ some .unterminatedComment := by
  have hs := single_fault_ne c
  unfold plain
  split_ifs <;> simp_all

theorem read_unterminated (h : read glsl c cs = ⟨k, p.length, some .unterminatedComment⟩) :
    c = '/' ∧ ∃ ds, cs = '*' :: ds ∧ Text.breakOn? ['*', '/'] ds = none ∧
      k = .blockComment ∧ p.length = cs.length := by
  have hp : plain glsl c cs ≠ ⟨k, p.length, some .unterminatedComment⟩ := fun e =>
    plain_fault_ne c cs (by rw [e])
  by_cases hc : c = '/'
  · subst hc
    rcases cs with - | ⟨d, ds⟩
    · rw [read_slash (by simp) (by simp)] at h
      simp at h
    · by_cases hd : d = '/'
      · rw [hd, read_line_comment] at h
        simp at h
      · by_cases hd' : d = '*'
        · subst hd'
          rw [read_block_comment] at h
          split at h
          next => simp at h
          next hb =>
            rw [Lexeme.mk.injEq] at h
            exact ⟨rfl, ds, rfl, hb, h.1.symm, by simpa using h.2.1.symm⟩
        · rw [read_slash (by simpa using hd) (by simpa using hd')] at h
          simp at h
  · rw [read_of_ne_slash hc] at h
    exact absurd h hp

/-- A token is settled by its characters and the one after it. -/
theorem read_congr (hs : Steady (c :: p) rest.head? rest'.head?)
    (hf : f ≠ some .unterminatedComment) (h : read glsl c (p ++ rest) = ⟨k, p.length, f⟩) :
    read glsl c (p ++ rest') = ⟨k, p.length, f⟩ := by
  by_cases hc : c = '/'
  · subst hc
    rcases p with - | ⟨d, p⟩
    · have hl : rest.head? ≠ some '/' := by
        rintro e
        obtain ⟨r, rfl⟩ := List.head?_eq_some_iff.mp e
        simp [read_line_comment] at h
      have hb : rest.head? ≠ some '*' := by
        rintro e
        obtain ⟨r, rfl⟩ := List.head?_eq_some_iff.mp e
        rw [List.nil_append, read_block_comment] at h
        split at h <;> simp at h
      rw [List.nil_append, read_slash hl hb] at h
      rw [List.nil_append, read_slash _ _, h]
      · rcases hs with e | ⟨-, -, -, e⟩
        · rwa [e]
        · exact e rfl
      · rcases hs with e | ⟨e, -⟩
        · rwa [e]
        · rintro e'
          simp [e', Text.isLineBreak] at e
    · by_cases hd : d = '/'
      · subst hd
        rw [List.cons_append, read_line_comment, Lexeme.mk.injEq] at h ⊢
        obtain ⟨hp, hr⟩ := Text.takeWhile_append_length_iff.mp (by simpa using h.2.1)
        have hr' : rest'.head?.any (!Text.isLineBreak ·) = false := by
          have := hs.all_isLineBreak
          cases hx : rest.head? <;> cases hy : rest'.head? <;> simp_all
        exact ⟨h.1, by rw [Text.takeWhile_append_eq hp hr']; rfl, h.2.2⟩
      · by_cases hd' : d = '*'
        · subst hd'
          rw [List.cons_append, read_block_comment] at h ⊢
          split at h
          next inside behind hb =>
            rw [Lexeme.mk.injEq] at h
            have he := Text.eq_of_breakOn? hb
            rw [← List.append_assoc] at he
            obtain ⟨rfl, rfl⟩ := List.append_inj he (by simpa using h.2.1.symm)
            rw [List.append_assoc] at hb ⊢
            rw [Text.breakOn?_congr rest' hb, Lexeme.mk.injEq]
            exact h
          next hb =>
            rw [Lexeme.mk.injEq] at h
            exact absurd h.2.2.symm hf
        · rw [List.cons_append, read_slash (by simpa using hd) (by simpa using hd')] at h
          simp at h
  · rw [read_of_ne_slash hc] at h ⊢
    exact plain_congr hs h

end Lexeme
end ShaderInline
