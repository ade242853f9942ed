import Mathlib
import ShaderInline.Expand
import ShaderInline.Proofs.Token.Kinds

/-! # Lexing line by line

A line feed parts the tokens before it from those behind it, unless it falls into
a comment that is left open or joins a carriage return. The comment that quotes the
text of an import is closed by its own end and by nothing in that text, so what
follows it is lexed by itself.
-/

namespace ShaderInline

open Schema Piece

/-! ### Tokens further on -/

def FaultAt.moved (d : Nat) (e : FaultAt) : FaultAt := ⟨e.fault, e.start + d, e.stop + d⟩

namespace Token

def moved (d : Nat) (k : Token) : Token := { k with start := k.start + d }

theorem stop_moved (d : Nat) (k : Token) : (k.moved d).stop = k.stop + d := by
  simp only [stop, moved]
  omega

theorem faultAt?_moved (d : Nat) (k : Token) :
    (k.moved d).faultAt? = k.faultAt?.map (FaultAt.moved d) := by
  rw [faultAt?, faultAt?, Option.map_map, stop_moved]
  rfl

@[simp] theorem faults_append (ks ls : List Token) : faults (ks ++ ls) = faults ks ++ faults ls :=
  List.filterMap_append

theorem faults_map_moved (d : Nat) (ks : List Token) :
    faults (ks.map (moved d)) = (faults ks).map (FaultAt.moved d) := by
  rw [faults, faults, List.filterMap_map, List.map_filterMap]
  exact List.filterMap_congr fun k _ => faultAt?_moved d k

end Token

namespace Piece

theorem place_append (n : Nat) (ps qs : List Piece) :
    place n (ps ++ qs) = place n ps ++ place (n + Text.size (textAll ps)) qs := by
  induction ps generalizing n with
  | nil => rfl
  | cons p ps ih =>
    rw [List.cons_append, place, place, ih, textAll_cons, Text.size_append, Nat.add_assoc,
      List.cons_append]

theorem place_add (n d : Nat) (ps : List Piece) :
    place (n + d) ps = (place n ps).map (Token.moved d) := by
  induction ps generalizing n with
  | nil => rfl
  | cons p ps ih =>
    rw [place, place, List.map_cons, Nat.add_right_comm, ih]
    rfl

end Piece

/-- The tokens of a text from a cut on are those of what is left there, moved to the cut. -/
theorem Cuts.lex_eq {s : Schema} {t r : Text} {ps : List Piece} (h : Cuts s t ps r) :
    Token.lex s t = place 0 ps ++ (Token.lex s r).map (Token.moved (Text.size (textAll ps))) := by
  rw [Token.lex, h.lexFrom_eq 0, lexFrom_eq_place, place_add, Token.lex, lexFrom_eq_place]

/-! ### Line feeds -/

theorem closed_iff_faults {t : Text} :
    Closed t ↔ ∀ e ∈ Token.faults (Token.lex glsl t), e.fault ≠ .unterminatedComment := by
  simp only [Closed, ofText, List.forall_mem_map, Token.faults, List.mem_filterMap,
    Token.faultAt?, Option.map_eq_some_iff]
  constructor
  · rintro h e ⟨k, hk, f, hf, rfl⟩ rfl
    exact h k hk hf
  · intro h k hk hf
    exact h _ ⟨k, hk, .unterminatedComment, hf, rfl⟩ rfl

namespace Closed

variable {t : Text}

theorem eq_return_of_getLast? (h : Closed t) {p : Piece} (hp : (ofText glsl t).getLast? = some p)
    (hr : p.text.getLast? = some '\r') : p = ⟨.newline, ['\r'], none⟩ := by
  obtain ⟨qs, hq⟩ := List.getLast?_eq_some_iff.1 hp
  have hmem : p ∈ ofText glsl t := List.mem_of_getLast? hp
  have hcuts := cuts_ofText glsl t
  have hk : p.kind = .newline := by
    by_contra hk
    have := hcuts.getLast?_isLineBreak hmem hk (h p hmem)
    rw [hr] at this
    cases this
  have htext : p.text = ['\r'] := by
    rcases hcuts.newline_text hmem hk with e | e | e <;> simp_all
  exact eq_of_carriageReturn (hq ▸ hcuts).split.2 htext

theorem endLine_eq_iff (h : Closed t) :
    endLine (ofText glsl t) = ofText glsl t ++ [lineFeed] ↔ t.getLast? ≠ some '\r' := by
  have htext : textAll (ofText glsl t) = t := textAll_ofText glsl t
  unfold endLine
  split
  next hl =>
    obtain ⟨qs, hq⟩ := List.getLast?_eq_some_iff.1 hl
    rw [hq, textAll_append] at htext
    refine iff_of_false (fun he => ?_) (by simp [← htext])
    have := congrArg List.length he
    simp [hq] at this
  next hl =>
    refine iff_of_true rfl fun hr => hl ?_
    rcases List.eq_nil_or_concat (ofText glsl t) with hnil | ⟨qs, p, hq⟩
    · rw [← htext, hnil] at hr
      cases hr
    have hp : (ofText glsl t).getLast? = some p := by
      rw [hq, List.concat_eq_append, List.getLast?_concat]
    have hne : p.text ≠ [] := (cuts_ofText glsl t).text_ne_nil (List.mem_of_getLast? hp)
    rw [← htext, hq, List.concat_eq_append, textAll_append, textAll_cons, textAll_nil,
      List.append_nil, List.getLast?_append_of_ne_nil _ hne] at hr
    rw [hp, h.eq_return_of_getLast? hp hr]

end Closed

theorem length_ofText_of_not_closed {t : Text} (h : ¬Closed t) :
    (ofText glsl (t ++ ['\n'])).length = (ofText glsl t).length := by
  simp only [Closed, not_forall, not_not] at h
  obtain ⟨p, hp, hf⟩ := h
  obtain ⟨ps, qs, hq⟩ := List.append_of_mem hp
  have hcuts := hq ▸ cuts_ofText glsl t
  obtain ⟨rfl, -⟩ := hcuts.eq_nil_of_unterminated hf
  rw [(hcuts.open_newline hf).ofText_eq, hq]
  simp

namespace Token

/-- Behind a line feed lexing starts afresh, whatever comes there, exactly if no comment is left
open before it and it is not part of a longer line break. -/
theorem lex_append_newline_iff (a : Text) :
    (∀ b, lex glsl (a ++ '\n' :: b) = lex glsl a ++
        ⟨.newline, ['\n'], Text.size a, none⟩ :: (lex glsl b).map (moved (Text.size a + 1)) ∧
      faults (lex glsl (a ++ '\n' :: b)) = faults (lex glsl a) ++
        (faults (lex glsl b)).map (FaultAt.moved (Text.size a + 1))) ↔
    (∀ e ∈ faults (lex glsl a), e.fault ≠ .unterminatedComment) ∧ a.getLast? ≠ some '\r' := by
  rw [← closed_iff_faults]
  constructor
  · intro h
    have hpieces : ofText glsl (a ++ ['\n']) = ofText glsl a ++ [lineFeed] := by
      rw [ofText, (h []).1, List.map_append]
      rfl
    have hclosed : Closed a := by
      by_contra hopen
      have := length_ofText_of_not_closed hopen
      simp [hpieces] at this
    refine ⟨hclosed, hclosed.endLine_eq_iff.1 ?_⟩
    rw [← hpieces, hclosed.ofText_append_newline [], ofText_nil, List.append_nil]
  · rintro ⟨hclosed, hreturn⟩ b
    have hcuts := hclosed.cuts_endLine b
    rw [hclosed.endLine_eq_iff.2 hreturn] at hcuts
    have htokens := hcuts.lex_eq
    rw [place_append, ← lex_eq_place, textAll_append, textAll_ofText, Nat.zero_add,
      Text.size_append, List.append_assoc] at htokens
    refine ⟨htokens, ?_⟩
    rw [htokens, faults_append, faults_append, faults_map_moved]
    rfl

end Token

/-! ### Quoted imports -/

namespace Text

/-- A text with the first occurrence of a part replaced, and then those in the text behind it. -/
inductive Replaced (part new : Text) : Text → Text → Prop where
  | done {t : Text} : breakOn? part t = none → Replaced part new t t
  | next {t a b u : Text} : breakOn? part t = some (a, b) → Replaced part new b u →
      Replaced part new t (a ++ (new ++ u))

variable {part new t a b x y : Text}

theorem Replaced.cons {c : Char} {u : Text} (hn : ¬part <+: c :: t) (h : Replaced part new t u) :
    Replaced part new (c :: t) (c :: u) := by
  have hafter : after? part (c :: t) = none := after?_eq_none_iff.2 hn
  cases h with
  | done h => exact .done (by rw [breakOn?, hafter, h]; rfl)
  | @next _ a b _ h hb => exact .next (a := c :: a) (by rw [breakOn?, hafter, h]; rfl) hb

theorem replaced_partCommentEnds (t : Text) :
    Replaced ['*', '/'] ['*', ' ', '/'] t (partCommentEnds t) := by
  fun_induction partCommentEnds t with
  | case1 cs ih => exact .next (a := []) (by simp [breakOn?, after?]) ih
  | case2 c cs hc ih =>
    refine ih.cons ?_
    rintro ⟨r, hr⟩
    obtain ⟨rfl, rfl⟩ := List.cons_eq_cons.1 hr
    exact hc r rfl rfl
  | case3 => exact .done (by simp [breakOn?])

theorem length_le_of_breakOn? (h : breakOn? part (a ++ (part ++ b)) = some (x, y)) :
    x.length ≤ a.length := by
  obtain ⟨⟨x', y'⟩, hx⟩ := Option.ne_none_iff_exists'.1 (breakOn?_ne_none part a [])
  have he := eq_of_breakOn? hx
  have hcongr : breakOn? part (x' ++ (part ++ (y' ++ b))) = some (x', y' ++ b) :=
    breakOn?_congr _ (he ▸ hx)
  have ht : a ++ (part ++ b) = x' ++ (part ++ (y' ++ b)) := by
    simpa using congrArg (· ++ b) he
  rw [ht, hcongr] at h
  obtain ⟨rfl, -⟩ := Prod.mk.inj (Option.some.inj h)
  have := congrArg List.length he
  simp only [List.length_append, List.length_nil] at this
  omega

theorem not_infix_partCommentEnds (t : Text) : ¬['*', '/'] <:+: partCommentEnds t := by
  rintro ⟨a, b, hab⟩
  have hfirst := breakOn?_partCommentEnds t []
  rw [← hab, List.append_assoc, List.append_assoc, List.append_assoc] at hfirst
  have := length_le_of_breakOn? hfirst
  simp only [List.length_append, List.length_cons] at this
  omega

end Text

namespace Token

/-- The comment that quotes an import is one token, with its line feed behind it, and what follows
is lexed by itself. -/
theorem lex_header (s t : Text) :
    let comment := "/* ".toList ++ Text.partCommentEnds s ++ " */".toList
    Text.Replaced "*/".toList "* /".toList s (Text.partCommentEnds s) ∧
      ¬"*/".toList <:+: Text.partCommentEnds s ∧
      (∀ site : Site, site.text = s → Inline.header site = comment ++ ['\n']) ∧
      lex glsl (comment ++ '\n' :: t) = ⟨.blockComment, comment, 0, none⟩ ::
        ⟨.newline, ['\n'], Text.size comment, none⟩ ::
        (lex glsl t).map (moved (Text.size comment + 1)) ∧
      faults (lex glsl (comment ++ '\n' :: t)) =
        (faults (lex glsl t)).map (FaultAt.moved (Text.size comment + 1)) := by
  intro comment
  have hcuts : Cuts glsl (comment ++ '\n' :: t) [⟨.blockComment, comment, none⟩, lineFeed] t := by
    simpa [comment] using Cuts.quotation s t
  have htokens : lex glsl (comment ++ '\n' :: t) = ⟨.blockComment, comment, 0, none⟩ ::
      ⟨.newline, ['\n'], Text.size comment, none⟩ ::
      (lex glsl t).map (moved (Text.size comment + 1)) := by
    have hfeed : '\n'.utf8Size = 1 := rfl
    simpa [place, lineFeed, hfeed] using hcuts.lex_eq
  refine ⟨Text.replaced_partCommentEnds s, Text.not_infix_partCommentEnds s, ?_, htokens, ?_⟩
  · rintro site rfl
    simp [Inline.header, comment]
  · rw [htokens, ← faults_map_moved]
    rfl

end Token
end ShaderInline
