import ShaderInline.Proofs.Tree.Tags

/-! # Tags without nesting

Imports and directives can be told from the tokens of a text alone: one scan
from left to right, which looks at no delimiter, comes upon the same nodes with
the same ranges as the tree has, however badly its delimiters are nested.
-/

namespace ShaderInline

open Schema

structure TagRange where
  kind : Kind
  start : Nat
  stop : Nat
  deriving DecidableEq, Repr

def Node.tagRange (v : Node) : TagRange := ⟨v.kind, v.start, v.stop⟩

namespace Token

def quotation? : List Token → Option (Token × List Token)
  | [] => none
  | t :: ts =>
    if t.kind.isTrivia then quotation? ts
    else if t.isQuoted then some (t, ts) else none

def import? (tag : Token) (ts : List Token) : Option (Token × List Token) :=
  if glsl.tagName tag.text = "import".toList then quotation? ts else none

/-- The tokens from the end of a line on, given the text before them. A line break does not end
its line right after a backslash. -/
def fromLineEnd : (last : Text) → List Token → List Token
  | _, [] => []
  | last, t :: ts =>
    if t.kind = .newline ∧ last ≠ ['\\'] then t :: ts else fromLineEnd t.text ts

theorem length_quotation? {ts rest : List Token} {q : Token} (h : quotation? ts = some (q, rest)) :
    rest.length < ts.length := by
  induction ts with
  | nil => cases h
  | cons t ts ih =>
    rw [quotation?] at h
    split at h
    · exact (ih h).trans (Nat.lt_succ_self _)
    · rw [Option.ite_none_right_eq_some] at h
      obtain ⟨-, rfl⟩ := Prod.mk.inj (Option.some.inj h.2)
      exact Nat.lt_succ_self _

theorem length_import? {ts rest : List Token} {tag q : Token}
    (h : import? tag ts = some (q, rest)) : rest.length < ts.length := by
  rw [import?, Option.ite_none_right_eq_some] at h
  exact length_quotation? h.2

theorem length_fromLineEnd (last : Text) (ts : List Token) :
    (fromLineEnd last ts).length ≤ ts.length := by
  induction ts generalizing last with
  | nil => exact le_rfl
  | cons t ts ih =>
    rw [fromLineEnd]
    split
    · exact le_rfl
    · exact (ih t.text).trans (Nat.le_succ _)

/-- What the tags among tokens lead to, given where the last token stops. The scan goes on behind
an import or at the end of the line of a directive, and passes over all other tokens. -/
def scanTags (stop : Nat) : List Token → List TagRange
  | [] => []
  | t :: ts =>
    if t.kind = .tag then
      match h : import? t ts with
      | some (q, rest) =>
        have := length_import? h
        ⟨.importDirective, t.start, q.stop⟩ :: scanTags stop rest
      | none =>
        have := length_fromLineEnd t.text ts
        ⟨.directive, t.start, ((fromLineEnd t.text ts).head?.map Token.start).getD stop⟩ ::
          scanTags stop (fromLineEnd t.text ts)
    else scanTags stop ts
  termination_by ts => ts.length

variable {stop : Nat} {t q : Token} {ts rest : List Token}

theorem scanTags_other (ht : t.kind ≠ .tag) : scanTags stop (t :: ts) = scanTags stop ts := by
  rw [scanTags, if_neg ht]

theorem scanTags_import (ht : t.kind = .tag) (h : import? t ts = some (q, rest)) :
    scanTags stop (t :: ts) = ⟨.importDirective, t.start, q.stop⟩ :: scanTags stop rest := by
  rw [scanTags, if_pos ht]
  split
  next q' rest' h' =>
    obtain ⟨rfl, rfl⟩ := Prod.mk.inj (Option.some.inj (h'.symm.trans h))
    rfl
  next h' => cases h'.symm.trans h

theorem scanTags_directive (ht : t.kind = .tag) (h : import? t ts = none) :
    scanTags stop (t :: ts) =
      ⟨.directive, t.start, ((fromLineEnd t.text ts).head?.map Token.start).getD stop⟩ ::
        scanTags stop (fromLineEnd t.text ts) := by
  rw [scanTags, if_pos ht]
  split
  next h' => cases h'.symm.trans h
  next => rfl

end Token

namespace Piece

variable {tag : Piece} {ps qs rest : List Piece}

theorem quotation?_place_none (h : quoted? ps = none) (n : Nat) :
    Token.quotation? (place n ps) = none := by
  induction ps generalizing n with
  | nil => rfl
  | cons p ps ih =>
    rw [quoted?] at h
    rw [place, Token.quotation?]
    split at h
    next hp => rw [if_pos hp, ih (Option.map_eq_none_iff.1 h)]
    next hp =>
      rw [if_neg hp]
      exact if_neg fun hq => by simp [if_pos (show p.isQuoted = true from hq)] at h

theorem quotation?_place (h : quoted? ps = some qs) (hps : ps = qs ++ rest) (n : Nat) :
    ∃ t, Token.quotation? (place n ps) = some (t, place (n + Text.size (textAll qs)) rest) ∧
      t.stop = n + Text.size (textAll qs) := by
  induction ps generalizing n qs with
  | nil => cases h
  | cons p ps ih =>
    rw [quoted?] at h
    rw [place, Token.quotation?]
    split at h
    next hp =>
      obtain ⟨qs, hqs, rfl⟩ := Option.map_eq_some_iff.1 h
      obtain ⟨t, ht, hstop⟩ := ih hqs (List.cons_eq_cons.1 hps).2 (n + Text.size p.text)
      refine ⟨t, ?_, ?_⟩
      · rw [if_pos hp, ht, textAll_cons, Text.size_append, Nat.add_assoc]
      · rw [hstop, textAll_cons, Text.size_append, Nat.add_assoc]
    next hp =>
      rw [Option.ite_none_right_eq_some] at h
      obtain ⟨hq, h⟩ := h
      obtain rfl := Option.some.inj h
      obtain rfl : ps = rest := (List.cons_eq_cons.1 hps).2
      refine ⟨⟨p.kind, p.text, n, p.fault⟩, ?_, by simp [Token.stop]⟩
      rw [if_neg hp, if_pos (show Token.isQuoted ⟨p.kind, p.text, n, p.fault⟩ = true from hq)]
      simp

theorem fromLineEnd_place (last : Text) (hps : ps = restOfLine last ps ++ rest) (n : Nat) :
    Token.fromLineEnd last (place n ps) =
      place (n + Text.size (textAll (restOfLine last ps))) rest := by
  induction ps generalizing last n with
  | nil =>
    obtain rfl : rest = [] := by simpa [restOfLine] using hps.symm
    rfl
  | cons p ps ih =>
    rw [restOfLine] at hps ⊢
    rw [place, Token.fromLineEnd]
    split at hps
    next he =>
      obtain rfl : p :: ps = rest := hps
      rw [if_pos he, if_pos (by simpa using he)]
      simp [place]
    next he =>
      rw [if_neg he, if_neg (by simpa using he), ih _ (List.cons_eq_cons.1 hps).2, textAll_cons,
        Text.size_append, Nat.add_assoc]

theorem start_place (n : Nat) (ps : List Piece) :
    ((place n ps).head?.map Token.start).getD (n + Text.size (textAll ps)) = n := by
  cases ps with
  | nil => simp [place]
  | cons p ps => rfl

theorem scanTags_tag {k : Kind} {xs : List Piece} (hk : tag.kind = .tag)
    (h : tagged tag (xs ++ rest) = (k, xs)) (n : Nat) :
    Token.scanTags (n + Text.size (textAll (tag :: (xs ++ rest)))) (place n (tag :: (xs ++ rest))) =
      ⟨k, n, n + Text.size (textAll (tag :: xs))⟩ ::
        Token.scanTags (n + Text.size (textAll (tag :: (xs ++ rest))))
          (place (n + Text.size (textAll (tag :: xs))) rest) := by
  have hsize : n + Text.size (textAll (tag :: xs)) =
      n + Text.size tag.text + Text.size (textAll xs) := by
    rw [textAll_cons, Text.size_append, Nat.add_assoc]
  rw [place, hsize]
  obtain ⟨hn, qs, hqs, he⟩ | ⟨hn, he⟩ := tagged_cases tag (xs ++ rest)
  · obtain ⟨rfl, rfl⟩ := Prod.mk.inj (h.symm.trans he)
    obtain ⟨q, hq, hstop⟩ := quotation?_place hqs rfl (n + Text.size tag.text)
    rw [Token.scanTags_import hk (by rw [Token.import?, if_pos hn, hq]), hstop]
  · obtain ⟨rfl, hxs⟩ := Prod.mk.inj (h.symm.trans he)
    have hline := fromLineEnd_place tag.text (by rw [← hxs]) (n + Text.size tag.text)
    rw [← hxs] at hline
    have hnone : Token.import? ⟨tag.kind, tag.text, n, tag.fault⟩
        (place (n + Text.size tag.text) (xs ++ rest)) = none := by
      rw [Token.import?, ite_eq_right_iff]
      exact fun hi => quotation?_place_none (hn hi) _
    have hstop : n + Text.size (textAll (tag :: (xs ++ rest))) =
        n + Text.size tag.text + Text.size (textAll xs) + Text.size (textAll rest) := by
      simp [Nat.add_assoc]
    rw [Token.scanTags_directive hk hnone, hline, hstop, start_place]

/-- The scan of tokens and the reading of pieces come upon the same nodes. -/
theorem scanTags_place (n : Nat) (ps : List Piece) :
    Token.scanTags (n + Text.size (textAll ps)) (place n ps) =
      (tagNodes 0 n ps).map Node.tagRange := by
  -- by the number of pieces, since a tag takes those that belong to it off
  induction hlen : ps.length using Nat.strong_induction_on generalizing n ps with
  | _ len ih =>
    subst hlen
    cases ps with
    | nil => simp [place, Token.scanTags]
    | cons p ps =>
      by_cases hk : p.kind = .tag
      · obtain ⟨rest, hrest⟩ := exists_tagged p ps
        generalize hx : tagged p ps = kx at hrest
        obtain ⟨k, xs⟩ := kx
        subst hrest
        have hstop : n + Text.size (textAll (p :: (xs ++ rest))) =
            n + Text.size (textAll (p :: xs)) + Text.size (textAll rest) := by
          simp [Nat.add_assoc]
        have hrest := ih rest.length (by simp) (n + Text.size (textAll (p :: xs))) rest rfl
        rw [scanTags_tag hk hx, hstop, hrest, tagNodes_tag hk hx, List.map_cons, Node.tagRange,
          Node.stop_leaf]
      · have hstop : n + Text.size (textAll (p :: ps)) =
            n + Text.size p.text + Text.size (textAll ps) := by
          rw [textAll_cons, Text.size_append, Nat.add_assoc]
        rw [place, Token.scanTags_other hk, tagNodes_other hk, hstop]
        exact ih ps.length (Nat.lt_succ_self _) _ ps rfl

end Piece

/-- The imports and directives of a document, with their kinds and ranges and in their order, are
what one scan of its tokens comes upon that knows nothing of delimiters. -/
theorem Document.tagRanges_parse (t : Text) :
    ((parse glsl t).nodes.filter Node.isTagged).map Node.tagRange =
      Token.scanTags (Text.size t) (Token.lex glsl t) := by
  have hscan := Piece.scanTags_place 0 (Piece.ofText glsl t)
  rw [Piece.textAll_ofText, Nat.zero_add, ← Piece.lex_eq_place] at hscan
  rw [tags_parse, hscan]

example : ((Document.parse glsl
    "\x7d @import \"a\" \x7b\n#define M ( \\\n ) @import \"b\"".toList).nodes.filter
    Node.isTagged).map Node.tagRange = [⟨.importDirective, 2, 13⟩, ⟨.directive, 16, 44⟩] := by
  decide +kernel

end ShaderInline
