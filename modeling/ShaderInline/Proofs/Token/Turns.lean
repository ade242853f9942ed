import Mathlib
import ShaderInline.Proofs.Tree.Quotation

/-! # The turns of the lexer

The lexer goes through a text by turns, each of which takes a token off it. A comment
style can take nothing, as an empty mark does before a line break; then the same turn
comes again and again. With a well-formed schema each turn takes a character at least,
so the turns end where the text does, and the tokens cover it without gaps.
-/

namespace ShaderInline

/-- Where the lexer stands: the offset that it has come to and the text that is left. -/
structure Lexer where
  offset : Nat
  rest : Text

structure Turn where
  kind : Kind
  /-- The number of characters, possibly none. -/
  width : Nat
  fault : Option Fault

namespace Turn

def ofLexeme (l : Lexeme) : Turn := ⟨l.kind, l.extra + 1, l.fault⟩

/-- The comment of a style at the head of a text, even if it is empty. -/
def comment? (t : Text) : CommentStyle → Option Turn
  | .line mark =>
    if Text.startsWith mark t then
      some ⟨.lineComment, (t.takeWhile (!Text.isLineBreak ·)).length, none⟩
    else none
  | .block opening closing =>
    (Text.after? opening t).map fun body =>
      match Text.breakOn? closing body with
      | some (inside, _) => ⟨.blockComment, opening.length + inside.length + closing.length, none⟩
      | none => ⟨.blockComment, t.length, some .unterminatedComment⟩

def next? (s : Schema) : Text → Option Turn
  | [] => none
  | c :: cs =>
    some ((s.comments.findSome? (comment? (c :: cs))).getD (ofLexeme (Lexeme.plain s c cs)))

def token (u : Turn) (x : Lexer) : Token := ⟨u.kind, x.rest.take u.width, x.offset, u.fault⟩

/-- What a turn reports. A comment that is left open is reported up to the end of the text, a
string as far as it goes, and a character by itself. -/
def report? (u : Turn) (x : Lexer) : Option FaultAt :=
  u.fault.map fun f => ⟨f, x.offset, x.offset +
    match f with
    | .unterminatedComment => Text.size x.rest
    | .unterminatedString => Text.size (x.rest.take u.width)
    | .unexpected c => c.utf8Size⟩

def advance (u : Turn) (x : Lexer) : Lexer :=
  ⟨x.offset + Text.size (x.rest.take u.width), x.rest.drop u.width⟩

end Turn

/-- Some turns in a row, with the tokens that they take and the faults that they report. -/
inductive Turns (s : Schema) : Lexer → List Token → List FaultAt → Lexer → Prop where
  | stay (x : Lexer) : Turns s x [] [] x
  | turn {x y : Lexer} {u : Turn} {ks : List Token} {es : List FaultAt} :
      Turn.next? s x.rest = some u → Turns s (u.advance x) ks es y →
      Turns s x (u.token x :: ks) ((u.report? x).toList ++ es) y

/-! ### Progress -/

namespace Turn

variable {s : Schema}

theorem map_ofWidth? {k : Kind} {f : Option Fault} {n : Nat} {l : Lexeme}
    (h : Lexeme.ofWidth? k f n = some l) :
    (Lexeme.ofWidth? k f n).map ofLexeme = some ⟨k, n, f⟩ := by
  cases n with
  | zero => cases h
  | succ n => rfl

theorem comment?_eq (hs : s.WellFormed) {style : CommentStyle} (hstyle : style ∈ s.comments)
    (t : Text) : comment? t style = (Lexeme.comment? t style).map ofLexeme := by
  have hsome := hs.exists_comment? (t := t) hstyle
  cases style with
  | line mark =>
    rw [comment?, Lexeme.comment?]
    split
    next hstart =>
      obtain ⟨l, hl⟩ := hsome hstart
      rw [Lexeme.comment?, if_pos hstart] at hl
      rw [map_ofWidth? hl]
    next => rfl
  | block opening closing =>
    rw [comment?, Lexeme.comment?]
    cases hafter : Text.after? opening t with
    | none => rfl
    | some body =>
      obtain ⟨l, hl⟩ := hsome (by rw [CommentStyle.mark, Text.startsWith, hafter]; rfl)
      rw [Lexeme.comment?, hafter, Option.bind_some] at hl
      rw [Option.map_some, Option.bind_some]
      cases hbreak : Text.breakOn? closing body with
      | none =>
        rw [hbreak] at hl
        exact (map_ofWidth? hl).symm
      | some found =>
        rw [hbreak] at hl
        exact (map_ofWidth? hl).symm

theorem findSome?_comment? (hs : s.WellFormed) (t : Text) :
    s.comments.findSome? (comment? t) =
      (s.comments.findSome? (Lexeme.comment? t)).map ofLexeme := by
  have hall : ∀ styles : List CommentStyle, (∀ style ∈ styles, style ∈ s.comments) →
      styles.findSome? (comment? t) = (styles.findSome? (Lexeme.comment? t)).map ofLexeme := by
    intro styles h
    induction styles with
    | nil => rfl
    | cons style styles ih =>
      obtain ⟨hstyle, hstyles⟩ := List.forall_mem_cons.1 h
      rw [List.findSome?_cons, List.findSome?_cons, comment?_eq hs hstyle, ih hstyles]
      cases Lexeme.comment? t style <;> rfl
  exact hall s.comments fun _ h => h

theorem next?_cons (hs : s.WellFormed) (c : Char) (cs : Text) :
    next? s (c :: cs) = some (ofLexeme (Lexeme.read s c cs)) := by
  rw [next?, findSome?_comment? hs, Lexeme.read]
  cases s.comments.findSome? (Lexeme.comment? (c :: cs)) <;> rfl

end Turn

/-! ### Reports -/

namespace Lexeme

theorem single_fault (c : Char) :
    (single c).fault = none ∨ (single c).fault = some (.unexpected c) := by
  unfold single
  split
  case h_9 => split <;> simp
  all_goals exact .inl rfl

theorem plain_fault (s : Schema) (c : Char) (cs : Text) :
    (plain s c cs).fault = none ∨ (plain s c cs).fault = some .unterminatedString ∨
      (plain s c cs).fault = some (.unexpected c) ∧ (plain s c cs).extra = 0 := by
  unfold plain
  rcases single_fault c with hs | hs <;> split_ifs <;> simp [hs]

end Lexeme

theorem Token.faults_cons (k : Token) (ks : List Token) :
    faults (k :: ks) = k.faultAt?.toList ++ faults ks := by
  rw [faults, List.filterMap_cons]
  cases k.faultAt? <;> rfl

namespace Turn

variable {s : Schema} {u : Turn} {t : Text} {x : Lexer}

theorem comment?_fault {style : CommentStyle} (h : comment? t style = some u) :
    u.fault = none ∨ u.fault = some .unterminatedComment ∧ u.width = t.length := by
  cases style with
  | line mark =>
    rw [comment?, Option.ite_none_right_eq_some] at h
    rw [← Option.some.inj h.2]
    exact .inl rfl
  | block opening closing =>
    obtain ⟨body, -, rfl⟩ := Option.map_eq_some_iff.1 h
    split
    · exact .inl rfl
    · exact .inr ⟨rfl, rfl⟩

theorem next?_cases {c : Char} {cs : Text} (h : next? s (c :: cs) = some u) :
    (∃ style, comment? (c :: cs) style = some u) ∨ u = ofLexeme (Lexeme.plain s c cs) := by
  rw [next?] at h
  cases hfind : s.comments.findSome? (comment? (c :: cs)) with
  | some v =>
    rw [hfind, Option.getD_some] at h
    obtain ⟨style, -, hv⟩ := List.exists_of_findSome?_eq_some hfind
    exact .inl ⟨style, hv.trans h⟩
  | none =>
    rw [hfind, Option.getD_none] at h
    exact .inr (Option.some.inj h).symm

/-- How far a fault reaches: an open comment to the end of the text, an unexpected character no
further than itself. -/
theorem next?_fault (h : next? s t = some u) {f : Fault} (hf : u.fault = some f) :
    f = .unterminatedComment ∧ u.width = t.length ∨ f = .unterminatedString ∨
      ∃ c cs, t = c :: cs ∧ f = .unexpected c ∧ u.width = 1 := by
  cases t with
  | nil => cases h
  | cons c cs =>
    rcases next?_cases h with ⟨style, hu⟩ | rfl
    · rcases comment?_fault hu with hnone | ⟨hopen, hwidth⟩
      · cases hnone.symm.trans hf
      · exact .inl ⟨Option.some.inj (hf.symm.trans hopen), hwidth⟩
    · have hf : (Lexeme.plain s c cs).fault = some f := hf
      rcases Lexeme.plain_fault s c cs with hnone | hstring | ⟨hchar, hextra⟩
      · cases hnone.symm.trans hf
      · exact .inr (.inl (Option.some.inj (hf.symm.trans hstring)))
      · exact .inr (.inr ⟨c, cs, rfl, Option.some.inj (hf.symm.trans hchar), by
          rw [ofLexeme, hextra]⟩)

theorem report?_eq (h : next? s x.rest = some u) : u.report? x = (u.token x).faultAt? := by
  rw [report?, Token.faultAt?, token]
  cases hf : u.fault with
  | none => rfl
  | some f =>
    rw [Option.map_some, Option.map_some, Token.stop]
    rcases next?_fault h hf with ⟨rfl, hwidth⟩ | rfl | ⟨c, cs, hrest, rfl, hwidth⟩
    · rw [hwidth, List.take_length]
    · rfl
    · rw [hwidth, hrest]
      rfl

end Turn

/-! ### Runs -/

namespace Turns

variable {s : Schema} {x y z : Lexer} {ks ls : List Token} {es fs : List FaultAt}

theorem length_le (hs : s.WellFormed) (h : Turns s x ks es y) :
    ks.length + y.rest.length ≤ x.rest.length := by
  induction h with
  | stay x => simp
  | @turn x y u ks es hu h ih =>
    have hpos : 0 < u.width ∧ x.rest ≠ [] := by
      cases hx : x.rest with
      | nil => rw [hx] at hu; cases hu
      | cons c cs =>
        rw [hx, Turn.next?_cons hs] at hu
        obtain rfl := Option.some.inj hu
        exact ⟨Nat.succ_pos _, List.cons_ne_nil _ _⟩
    have hlen : 0 < x.rest.length := List.length_pos_iff.2 hpos.2
    rw [Turn.advance, List.length_drop] at ih
    rw [List.length_cons]
    omega

/-- Two runs from one place that cannot go on are the same. -/
theorem eq_of_end (h : Turns s x ks es y) (hy : Turn.next? s y.rest = none)
    (h' : Turns s x ls fs z) (hz : Turn.next? s z.rest = none) : ks = ls ∧ es = fs ∧ y = z := by
  induction h generalizing ls fs with
  | stay x =>
    cases h' with
    | stay => exact ⟨rfl, rfl, rfl⟩
    | turn hu _ =>
      rw [hy] at hu
      cases hu
  | turn hu _ ih =>
    cases h' with
    | stay =>
      rw [hz] at hu
      cases hu
    | turn hv h' =>
      obtain rfl := Option.some.inj (hu.symm.trans hv)
      obtain ⟨rfl, rfl, rfl⟩ := ih hy h'
      exact ⟨rfl, rfl, rfl⟩

theorem of_cuts (hs : s.WellFormed) {t r : Text} {ps : List Piece} (h : Cuts s t ps r) (n : Nat) :
    Turns s ⟨n, t⟩ (Piece.place n ps) (Token.faults (Piece.place n ps))
      ⟨n + Text.size (Piece.textAll ps), r⟩ := by
  induction h generalizing n with
  | done t => exact .stay _
  | @next c p rest r k f ps hr _ ih =>
    have hu : Turn.next? s (c :: (p ++ rest)) = some ⟨k, p.length + 1, f⟩ := by
      rw [Turn.next?_cons hs, hr]
      rfl
    have hturn := Turns.turn (x := ⟨n, c :: (p ++ rest)⟩) hu (by
      simpa [Turn.advance] using ih (n + Text.size (c :: p)))
    rw [Turn.report?_eq hu] at hturn
    rw [Piece.place, Token.faults_cons]
    simpa [Turn.token, Nat.add_assoc] using hturn

end Turns

/-! ### Ranges of tokens -/

namespace Token

variable {s : Schema} {t : Text} {k : Token}

def Contiguous : Nat → List Token → Nat → Prop
  | a, [], b => a = b
  | a, k :: ks, b => k.start = a ∧ Contiguous k.stop ks b

theorem contiguous_place (n : Nat) (ps : List Piece) :
    Contiguous n (Piece.place n ps) (n + Text.size (Piece.textAll ps)) := by
  induction ps generalizing n with
  | nil => rfl
  | cons p ps ih =>
    refine ⟨rfl, ?_⟩
    rw [Piece.textAll_cons, Text.size_append, ← Nat.add_assoc]
    exact ih _

theorem text_ne_nil (hk : k ∈ lex s t) : k.text ≠ [] :=
  (Piece.cuts_ofText s t).text_ne_nil (piece_mem hk)

theorem exists_splitAt? (hk : k ∈ lex s t) : ∃ before after,
    Text.splitAt? k.start t = some (before, k.text ++ after) ∧
      Text.splitAt? k.stop t = some (before ++ k.text, after) := by
  obtain ⟨ks, ls, hkl⟩ := List.append_of_mem hk
  have hstart := start_of_lex hkl
  have htext := Piece.textAll_ofText s t
  rw [Piece.ofText, hkl, List.map_append, List.map_cons, Piece.textAll_append,
    Piece.textAll_cons, text_piece] at htext
  refine ⟨Piece.textAll (ks.map piece), Piece.textAll (ls.map piece), ?_, ?_⟩
  · rw [hstart, ← htext, Text.splitAt?_size_append]
  · rw [stop, hstart, ← Text.size_append, ← htext, ← List.append_assoc,
      Text.splitAt?_size_append]

theorem countP_range (hk : k ∈ lex s t) :
    (lex s t).countP (fun l => l.start == k.start && l.stop == k.stop) = 1 := by
  have hnodup := nodup_start_lex s t
  obtain ⟨ks, ls, hkl⟩ := List.append_of_mem hk
  rw [hkl, List.map_append, List.map_cons, List.nodup_middle, List.nodup_cons] at hnodup
  have hother : ∀ l ∈ ks ++ ls, ¬(l.start == k.start && l.stop == k.stop) = true := by
    intro l hl he
    rw [Bool.and_eq_true, beq_iff_eq] at he
    exact hnodup.1 (by rw [← List.map_append, ← he.1]; exact List.mem_map_of_mem hl)
  rw [hkl, List.countP_append, List.countP_cons_of_pos (by simp), ← Nat.add_assoc,
    ← List.countP_append, List.countP_eq_zero.2 hother]

/-- With a schema in which no comment can be empty, lexing ends after at most as many turns as
there are characters. The tokens are not empty and follow one another from the start of the text
to its end, each at its place, and every fault is reported at the range of exactly one token. -/
theorem lex_covers (hs : s.WellFormed) (t : Text) :
    (∀ ks es x, Turns s ⟨0, t⟩ ks es x → ks.length ≤ t.length) ∧
      (∀ ks es x, Turns s ⟨0, t⟩ ks es x ∧ Turn.next? s x.rest = none ↔
        ks = lex s t ∧ es = faults (lex s t) ∧ x = ⟨Text.size t, []⟩) ∧
      (∀ k ∈ lex s t, k.text ≠ []) ∧ Contiguous 0 (lex s t) (Text.size t) ∧
      (∀ k ∈ lex s t, ∃ before after,
        Text.splitAt? k.start t = some (before, k.text ++ after) ∧
          Text.splitAt? k.stop t = some (before ++ k.text, after)) ∧
      ∀ e ∈ faults (lex s t),
        (lex s t).countP (fun k => k.start == e.start && k.stop == e.stop) = 1 := by
  have hrun : Turns s ⟨0, t⟩ (lex s t) (faults (lex s t)) ⟨Text.size t, []⟩ := by
    have := Turns.of_cuts hs (Piece.cuts_ofText s t) 0
    rwa [← Piece.lex_eq_place, Piece.textAll_ofText, Nat.zero_add] at this
  refine ⟨?_, ?_, fun k => text_ne_nil, ?_, fun k => exists_splitAt?, ?_⟩
  · intro ks es x h
    exact (Nat.le_add_right _ _).trans (h.length_le hs)
  · intro ks es x
    constructor
    · rintro ⟨h, hend⟩
      exact h.eq_of_end hend hrun rfl
    · rintro ⟨rfl, rfl, rfl⟩
      exact ⟨hrun, rfl⟩
  · have := contiguous_place 0 (Piece.ofText s t)
    rwa [← Piece.lex_eq_place, Piece.textAll_ofText, Nat.zero_add] at this
  · intro e he
    obtain ⟨k, hk, hfault⟩ := List.mem_filterMap.1 he
    obtain ⟨f, -, rfl⟩ := Option.map_eq_some_iff.1 hfault
    exact countP_range hk

/-- A block comment that starts with a line feed, and a text with each kind of fault. -/
theorem lex_covers_overlapping :
    let s := (Schema.empty.addComment (.line "é".toList)).addComment
      (.block "\n*".toList "*\n".toList)
    let t := "€ é//\r\n\n*é*\n\"b\n\n*".toList
    s.WellFormed ∧ faults (lex s t) = [⟨.unexpected '€', 0, 3⟩, ⟨.unterminatedString, 16, 18⟩,
        ⟨.unterminatedComment, 19, 21⟩] ∧
      Turns s ⟨0, t⟩ (lex s t) (faults (lex s t)) ⟨21, []⟩ ∧ Contiguous 0 (lex s t) 21 ∧
      (lex s t).countP (fun k => k.start == 19 && k.stop == 21) = 1 := by
  intro s t
  have hs : s.WellFormed := by
    constructor
    · intro mark hm
      obtain rfl : mark = "é".toList := by
        simpa [s, Schema.addComment, Schema.empty] using hm
      simp [Text.isLineBreak]
    · intro opening closing hm
      obtain ⟨rfl, -⟩ : opening = "\n*".toList ∧ closing = "*\n".toList := by
        simpa [s, Schema.addComment, Schema.empty] using hm
      simp
  have hfaults : faults (lex s t) = [⟨.unexpected '€', 0, 3⟩, ⟨.unterminatedString, 16, 18⟩,
      ⟨.unterminatedComment, 19, 21⟩] := by
    decide +kernel
  obtain ⟨-, hrun, -, htiles, -, hcount⟩ := lex_covers hs t
  exact ⟨hs, hfaults, ((hrun _ _ _).2 ⟨rfl, rfl, rfl⟩).1, htiles,
    hcount ⟨.unterminatedComment, 19, 21⟩ (by rw [hfaults]; simp)⟩

end Token
end ShaderInline
