import ShaderInline.Proofs.Text.Search
import ShaderInline.Token.Lexer

/-! # Cutting pieces off a text

Tokens without their places are pieces. Pieces are cut off a text one after the
other, each read with all the text behind it in view, so that a text is lexed
from any cut on as if it began there. Lexing is cutting until nothing is left.
-/

namespace ShaderInline

namespace Lexeme

theorem comment?_extra_lt {t : Text} {style : CommentStyle} {l : Lexeme}
    (h : comment? t style = some l) : l.extra < t.length := by
  have width {k : Kind} {f : Option Fault} {n : Nat} (hw : ofWidth? k f n = some l) :
      l.extra + 1 = n := by
    cases n with
    | zero => simp [ofWidth?] at hw
    | succ n => obtain rfl := Option.some.inj hw; rfl
  cases style with
  | line mark =>
    simp only [comment?] at h
    split at h
    · have := width h
      have := (t.takeWhile_sublist (!Text.isLineBreak ·)).length_le
      omega
    · simp at h
  | block opening closing =>
    obtain ⟨body, hb, h⟩ := Option.bind_eq_some_iff.mp h
    rw [Text.after?_eq_some_iff] at hb
    split at h
    next inside behind hc =>
      have := width h
      have := congrArg List.length (Text.eq_of_breakOn? hc)
      have := congrArg List.length hb
      simp only [List.length_append] at *
      omega
    next => have := width h; omega

theorem numberExtra_le (hex : Bool) (last : Char) (t : Text) :
    numberExtra hex last t ≤ t.length := by
  induction t generalizing last with
  | nil => simp [numberExtra]
  | cons c cs ih =>
    rw [numberExtra]
    split
    · have := ih c
      simp only [List.length_cons]
      omega
    · omega

theorem stringExtra_le (t : Text) : (stringExtra t).1 ≤ t.length := by
  fun_induction stringExtra t <;> simp_all

@[simp] theorem single_extra (c : Char) : (single c).extra = 0 := by
  unfold single
  split <;> first | rfl | (split <;> rfl)

theorem plain_extra_le (s : Schema) (c : Char) (cs : Text) : (plain s c cs).extra ≤ cs.length := by
  have run (f : Char → Bool) := (cs.takeWhile_sublist f).length_le
  unfold plain
  split_ifs with h₁ h₂ h₃
  · simp
  · cases cs with
    | nil => simp at h₃
    | cons => simp
  · simp
  · exact run _
  · exact run _
  · exact run _
  · exact numberExtra_le _ _ _
  · exact stringExtra_le _
  · exact stringExtra_le _
  · simp

theorem read_extra_le (s : Schema) (c : Char) (cs : Text) : (read s c cs).extra ≤ cs.length := by
  unfold read
  cases h : s.comments.findSome? (comment? (c :: cs)) with
  | none => exact plain_extra_le s c cs
  | some l =>
    obtain ⟨style, -, hl⟩ := List.exists_of_findSome?_eq_some h
    exact Nat.le_of_lt_succ (comment?_extra_lt hl)

end Lexeme

/-- A token without its place. -/
structure Piece where
  kind : Kind
  text : Text
  fault : Option Fault
  deriving DecidableEq, Repr

def Token.piece (t : Token) : Piece := ⟨t.kind, t.text, t.fault⟩

namespace Piece

def textAll (ps : List Piece) : Text := ps.flatMap text

@[simp] theorem textAll_nil : textAll [] = [] := rfl
@[simp] theorem textAll_cons (p : Piece) (ps : List Piece) :
    textAll (p :: ps) = p.text ++ textAll ps := by simp [textAll]
@[simp] theorem textAll_append (ps qs : List Piece) :
    textAll (ps ++ qs) = textAll ps ++ textAll qs := by simp [textAll]

def place : Nat → List Piece → List Token
  | _, [] => []
  | n, p :: ps => ⟨p.kind, p.text, n, p.fault⟩ :: place (n + Text.size p.text) ps

@[simp] theorem map_piece_place (n : Nat) (ps : List Piece) :
    (place n ps).map Token.piece = ps := by
  induction ps generalizing n with
  | nil => rfl
  | cons p ps ih => simp [place, Token.piece, ih]

def ofText (s : Schema) (t : Text) : List Piece := (Token.lex s t).map Token.piece

end Piece

/-- Pieces that are cut off a text, and what is left of it. -/
inductive Cuts (s : Schema) : Text → List Piece → Text → Prop where
  | done (t : Text) : Cuts s t [] t
  | next {c : Char} {p rest r : Text} {k : Kind} {f : Option Fault} {ps : List Piece} :
      Lexeme.read s c (p ++ rest) = ⟨k, p.length, f⟩ → Cuts s rest ps r →
      Cuts s (c :: (p ++ rest)) (⟨k, c :: p, f⟩ :: ps) r

theorem Token.lexFrom_skip (s : Schema) (k n : Nat) (t : Text) :
    lexFrom s k n t = lexFrom s 0 n (t.drop k) := by
  induction k generalizing t with
  | zero => rfl
  | succ k ih =>
    cases t with
    | nil => rfl
    | cons c cs => rw [lexFrom, ih, List.drop_succ_cons]

namespace Cuts

open Piece Token

variable {s : Schema} {t m r : Text} {ps qs : List Piece}

theorem eq_append (h : Cuts s t ps r) : t = textAll ps ++ r := by
  induction h with
  | done t => rfl
  | next _ _ ih =>
    rw [textAll_cons, List.append_assoc, ← ih]
    rfl

theorem uncons {p : Piece} (h : Cuts s t (p :: ps) r) : ∃ c q rest, p.text = c :: q ∧
    t = c :: (q ++ rest) ∧ Lexeme.read s c (q ++ rest) = ⟨p.kind, q.length, p.fault⟩ ∧
    Cuts s rest ps r := by
  cases h with
  | @next c q rest r k f ps hr h => exact ⟨c, q, rest, rfl, rfl, hr, h⟩

theorem trans (h : Cuts s t ps m) (h' : Cuts s m qs r) : Cuts s t (ps ++ qs) r := by
  induction h with
  | done t => exact h'
  | next hr _ ih => exact .next hr (ih h')

theorem split (h : Cuts s t (ps ++ qs) r) : Cuts s t ps (textAll qs ++ r) ∧
    Cuts s (textAll qs ++ r) qs r := by
  induction ps generalizing t with
  | nil =>
    obtain rfl := h.eq_append
    exact ⟨.done _, h⟩
  | cons p ps ih =>
    cases h with
    | next hr h => exact ⟨.next hr (ih h).1, (ih h).2⟩

theorem text_ne_nil (h : Cuts s t ps r) {p : Piece} (hp : p ∈ ps) : p.text ≠ [] := by
  induction h with
  | done t => simp at hp
  | next _ _ ih =>
    rcases List.mem_cons.mp hp with rfl | hp
    · simp
    · exact ih hp

theorem lexFrom_eq (h : Cuts s t ps r) (n : Nat) :
    lexFrom s 0 n t = place n ps ++ lexFrom s 0 (n + Text.size (textAll ps)) r := by
  induction h generalizing n with
  | done t => simp [place]
  | @next c p rest r k f ps hr h ih =>
    rw [lexFrom, hr]
    simp [place, lexFrom_skip s p.length, ih, Nat.add_assoc]

end Cuts

namespace Piece

open Token

variable {s : Schema} {t r : Text} {ps : List Piece}

theorem exists_cuts (s : Schema) (t : Text) : ∃ ps, Cuts s t ps [] := by
  induction hn : t.length using Nat.strong_induction_on generalizing t with
  | _ n ih =>
    cases t with
    | nil => exact ⟨[], .done []⟩
    | cons c cs =>
      obtain ⟨⟨k, e, f⟩, hl⟩ : ∃ l, Lexeme.read s c cs = l := ⟨_, rfl⟩
      have he : e ≤ cs.length := by simpa [hl] using Lexeme.read_extra_le s c cs
      obtain ⟨ps, h⟩ := ih (cs.drop e).length (by simp at hn ⊢; omega) (cs.drop e) rfl
      refine ⟨⟨k, c :: cs.take e, f⟩ :: ps, ?_⟩
      have h' : Cuts s (c :: (cs.take e ++ cs.drop e)) (⟨k, c :: cs.take e, f⟩ :: ps) [] := by
        refine .next ?_ h
        rw [List.take_append_drop, hl, List.length_take, Nat.min_eq_left he]
      rwa [List.take_append_drop] at h'

theorem lexFrom_eq_place (s : Schema) (n : Nat) (t : Text) :
    lexFrom s 0 n t = place n (ofText s t) := by
  obtain ⟨ps, h⟩ := exists_cuts s t
  have hn (n : Nat) : lexFrom s 0 n t = place n ps := by simpa [lexFrom] using h.lexFrom_eq n
  rw [hn, ofText, lex, hn, map_piece_place]

theorem lex_eq_place (s : Schema) (t : Text) : lex s t = place 0 (ofText s t) :=
  lexFrom_eq_place s 0 t

end Piece

namespace Cuts

open Piece

variable {s : Schema} {t m r : Text} {ps qs : List Piece}

/-- A text is lexed from a cut on as if it began there. -/
theorem ofText_eq (h : Cuts s t ps r) : ofText s t = ps ++ ofText s r := by
  have hl := congrArg (List.map Token.piece) (h.lexFrom_eq 0)
  rwa [lexFrom_eq_place, lexFrom_eq_place, List.map_append, map_piece_place, map_piece_place,
    map_piece_place] at hl

end Cuts

namespace Piece

variable {s : Schema} {t : Text} {ps qs : List Piece}

@[simp] theorem ofText_nil (s : Schema) : ofText s [] = [] := rfl

theorem cuts_ofText (s : Schema) (t : Text) : Cuts s t (ofText s t) [] := by
  obtain ⟨ps, h⟩ := exists_cuts s t
  rwa [h.ofText_eq, ofText_nil, List.append_nil]

@[simp] theorem textAll_ofText (s : Schema) (t : Text) : textAll (ofText s t) = t := by
  simpa using (cuts_ofText s t).eq_append.symm

theorem cuts_of_ofText_eq (h : ofText s t = ps ++ qs) : Cuts s t ps (textAll qs) := by
  simpa using (h ▸ cuts_ofText s t : Cuts s t (ps ++ qs) []).split.1

end Piece

end ShaderInline
