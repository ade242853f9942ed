import ShaderInline.Proofs.Token.Kinds
import ShaderInline.Proofs.Tree.Leaves

/-! # Parsing with any schema

Whatever its patterns are, a schema in which no comment can be empty reads every
text: each token takes a character and each pattern a group. The leaves of the
tree are the tokens, and every offset lies in one of them.
-/

namespace ShaderInline

open ShaderInline.Group (isSkippable leafMarked)

def CommentStyle.mark : CommentStyle → Text
  | line mark => mark
  | block opening _ => opening

namespace Schema

/-- A schema in which no comment can be empty. -/
structure WellFormed (s : Schema) : Prop where
  line : ∀ mark, .line mark ∈ s.comments →
    mark ≠ [] ∧ ∀ c ∈ mark.head?, Text.isLineBreak c = false
  block : ∀ opening closing, .block opening closing ∈ s.comments → opening ≠ []

/-- A schema with which every turn of the parser takes something off what is left: a comment is
read wherever one starts, and a pattern takes at least the group that it is tried at and no more
than there are. -/
structure Advances (s : Schema) : Prop where
  comment : ∀ style ∈ s.comments, ∀ t, Text.startsWith style.mark t = true →
    ∃ l, Lexeme.comment? t style = some l
  pattern : ∀ p ∈ s.patterns, ∀ g gs n, g.isSkippable false = false →
    (∀ i, g = .item i → i.endsLine = true → i.token.kind = .newline) →
    p.extent? s (g :: gs) = some n → 0 < n ∧ n ≤ (g :: gs).length

end Schema

theorem Lexeme.exists_ofWidth? {k : Kind} {f : Option Fault} {n : Nat} (h : 0 < n) :
    ∃ l, ofWidth? k f n = some l := by
  cases n with
  | zero => cases h
  | succ n => exact ⟨_, rfl⟩

theorem Schema.WellFormed.exists_comment? {s : Schema} (h : s.WellFormed) {style : CommentStyle}
    (hs : style ∈ s.comments) {t : Text} (ht : Text.startsWith style.mark t = true) :
    ∃ l, Lexeme.comment? t style = some l := by
  cases style with
  | line mark =>
    obtain ⟨r, rfl⟩ : ∃ r, t = mark ++ r := Text.startsWith_iff.1 ht
    obtain ⟨hne, hhead⟩ := h.line mark hs
    obtain ⟨c, cs, rfl⟩ := List.exists_cons_of_ne_nil hne
    have hc : Text.isLineBreak c = false := hhead c rfl
    have hstart : Text.startsWith (c :: cs) (c :: cs ++ r) = true := Text.startsWith_iff.2 ⟨r, rfl⟩
    rw [Lexeme.comment?, if_pos hstart]
    apply Lexeme.exists_ofWidth?
    simp [hc]
  | block opening closing =>
    obtain ⟨r, rfl⟩ : ∃ r, t = opening ++ r := Text.startsWith_iff.1 ht
    have hlen : 0 < opening.length := List.length_pos_iff.2 (h.block opening closing hs)
    have hafter : Text.after? opening (opening ++ r) = some r := Text.after?_eq_some_iff.2 rfl
    rw [Lexeme.comment?, hafter, Option.bind_some]
    split
    · apply Lexeme.exists_ofWidth?
      omega
    · apply Lexeme.exists_ofWidth?
      rw [List.length_append]
      exact Nat.add_pos_left hlen _

namespace Pattern

variable {s : Schema} {b first : Bool} {ms : List Matcher} {g : Group} {gs : List Group} {n : Nat}

theorem width?_le (h : width? s b first ms gs = some n) : n ≤ gs.length := by
  fun_induction width? s b first ms gs generalizing n with
  | case1 =>
    obtain rfl := Option.some.inj h
    exact Nat.zero_le _
  | case2 first ms gs skipped taken =>
    rename_i ih
    obtain ⟨w, hw, rfl⟩ := Option.map_eq_some_iff.1 h
    have htaken : taken ≤ (gs.drop skipped).length := (List.takeWhile_sublist _).length_le
    have hskipped : skipped ≤ gs.length := by
      simp only [skipped]
      split
      · exact Nat.zero_le _
      · exact (List.takeWhile_sublist _).length_le
    have := ih hw
    rw [List.length_drop] at this htaken
    rw [List.length_drop] at this
    omega
  | case3 => cases h
  | case4 first ms gs skipped m g rest hm hdrop ha =>
    rename_i ih
    obtain ⟨w, hw, rfl⟩ := Option.map_eq_some_iff.1 h
    have hlen := congrArg List.length hdrop
    have := ih hw
    rw [List.length_drop, List.length_cons] at hlen
    omega
  | case5 => cases h

theorem extent?_pos {p : Pattern} (hg : g.isSkippable false = false)
    (hi : ∀ i, g = .item i → i.endsLine = true → i.token.kind = .newline)
    (h : p.extent? s (g :: gs) = some n) : 0 < n := by
  have hline : g.endsLine = false := by
    cases g with
    | item i =>
      rw [Group.endsLine, Bool.eq_false_iff]
      intro he
      simp [isSkippable, hi i rfl he] at hg
    | stray | block => rfl
  rw [extent?] at h
  split at h
  · cases h
  next hne =>
    obtain ⟨m, ms, hms⟩ := List.exists_cons_of_ne_nil (l := p.matchers) (by simpa using hne)
    rw [hms] at h
    by_cases hm : m = .restOfLine
    · subst hm
      rw [width?.eq_2] at h
      obtain ⟨w, -, rfl⟩ := Option.map_eq_some_iff.1 h
      simp [hline]
    · rw [width?.eq_4 _ _ _ _ _ _ g gs hm rfl] at h
      split at h
      · obtain ⟨w, -, rfl⟩ := Option.map_eq_some_iff.1 h
        omega
      · cases h

end Pattern

theorem Schema.WellFormed.advances {s : Schema} (h : s.WellFormed) : s.Advances where
  comment _ hs _ ht := h.exists_comment? hs ht
  pattern p _ g gs n hg hi hn := by
    refine ⟨Pattern.extent?_pos hg hi hn, ?_⟩
    rw [Pattern.extent?] at hn
    split at hn
    · cases hn
    · exact Pattern.width?_le hn

/-! ### Leaves and their places -/

def Leaf.ofMarked (x : Item × Bool) : Leaf :=
  ⟨x.1.token.start, if x.2 then .error else x.1.token.kind, x.1.token.text⟩

theorem Item.map_token_markAfter (last : Text) (ts : List Token) :
    (markAfter last ts).map (·.token) = ts := by
  induction ts generalizing last with
  | nil => rfl
  | cons t ts ih => simp [markAfter, ih]

namespace Tree

theorem placeLeaves_marked {n : Nat} {ps : List Piece} {xs : List (Item × Bool)}
    (h : xs.map (·.1.token) = Piece.place n ps) :
    placeLeaves n (xs.map leafMarked) = xs.map Leaf.ofMarked := by
  induction ps generalizing n xs with
  | nil =>
    obtain rfl : xs = [] := by simpa [Piece.place] using h
    rfl
  | cons p ps ih =>
    obtain ⟨⟨i, stray⟩, xs, rfl⟩ := List.exists_cons_of_ne_nil (l := xs) (by
      rintro rfl
      cases h)
    obtain ⟨hi, hxs⟩ := List.cons_eq_cons.1 h
    have hstart : i.token.start = n := by rw [show i.token = _ from hi]
    have htext : i.token.text = p.text := by rw [show i.token = _ from hi]
    rw [List.map_cons, List.map_cons, leafMarked, placeLeaves, htext, ih hxs, Leaf.ofMarked, hstart,
      htext]

variable {n o : Nat} {l : Leaf} {ls : List (Kind × Text)}

theorem le_start_placeLeaves (h : l ∈ placeLeaves n ls) : n ≤ l.start := by
  induction ls generalizing n with
  | nil => cases h
  | cons x ls ih =>
    rcases List.mem_cons.1 h with rfl | h
    · exact le_rfl
    · exact (Nat.le_add_right _ _).trans (ih h)

theorem exists_leafAt (hn : n ≤ o) (ho : o < n + Text.size (ls.flatMap (·.2))) :
    ∃ l, (placeLeaves n ls).find? (fun l => l.start ≤ o && o < l.stop) = some l ∧
      ∀ l', l' ∈ placeLeaves n ls ∧ l'.start ≤ o ∧ o < l'.stop ↔ l' = l := by
  induction ls generalizing n with
  | nil =>
    rw [List.flatMap_nil, Text.size_nil] at ho
    omega
  | cons x ls ih =>
    rw [placeLeaves]
    by_cases hx : o < n + Text.size x.2
    · refine ⟨⟨n, x.1, x.2⟩, by simp [Leaf.stop, hn, hx], fun l' => ?_⟩
      constructor
      · rintro ⟨hl, hle, -⟩
        rcases List.mem_cons.1 hl with rfl | hl
        · rfl
        · have := le_start_placeLeaves hl
          omega
      · rintro rfl
        exact ⟨List.mem_cons_self, hn, hx⟩
    · obtain ⟨l, hfind, hl⟩ := ih (n := n + Text.size x.2) (by omega) (by
        rw [List.flatMap_cons, Text.size_append] at ho
        omega)
      refine ⟨l, ?_, fun l' => ?_⟩
      · rw [List.find?_cons_of_neg (by simp [Leaf.stop, hx])]
        exact hfind
      · rw [← hl l', List.mem_cons]
        constructor
        · rintro ⟨rfl | hmem, hle, hlt⟩
          · exact absurd hlt hx
          · exact ⟨hmem, hle, hlt⟩
        · rintro ⟨hmem, hle, hlt⟩
          exact ⟨.inr hmem, hle, hlt⟩

end Tree

namespace Document

theorem leaves_eq_marked (s : Schema) (t : Text) : (parse s t).leaves =
    (Openings.start.strays (Item.mark (Token.lex s t))).map Leaf.ofMarked := by
  rw [leaves_parse, root_leaves_parse]
  have htokens := calc
    (Openings.start.strays (Item.mark (Token.lex s t))).map (·.1.token)
    _ = ((Openings.start.strays (Item.mark (Token.lex s t))).map (·.1)).map (·.token) := by
      rw [List.map_map]
      rfl
    _ = Piece.place 0 (Piece.ofText s t) := by
      rw [Openings.map_fst_strays, Item.mark, Item.map_token_markAfter, Piece.lex_eq_place]
  exact Tree.placeLeaves_marked htokens

theorem exists_leafAt? (s : Schema) {t : Text} {o : Nat} (h : o < Text.size t) :
    ∃ l, (parse s t).leafAt? o = some l ∧
      ∀ l', l' ∈ (parse s t).leaves ∧ l'.start ≤ o ∧ o < l'.stop ↔ l' = l := by
  unfold leafAt?
  rw [leaves_parse]
  refine Tree.exists_leafAt (Nat.zero_le o) ?_
  rw [← Tree.text_eq_leaves, ← text, text_parse, Nat.zero_add]
  exact h

theorem kind_ne_error {s : Schema} {t : Text} {k : Token} (h : k ∈ Token.lex s t) :
    k.kind ≠ .error := by
  have hp : k.piece ∈ Piece.ofText s t := List.mem_map_of_mem h
  obtain ⟨c, q, rest, -, hr⟩ := (Piece.cuts_ofText s t).exists_read hp
  have := Lexeme.read_ne_error s c (q ++ rest)
  rwa [hr] at this

/-- With any patterns, a text is read to its end and nothing of it is lost: the leaves are the
tokens, of which just the closing delimiters that close nothing are errors, and each offset lies
in exactly one leaf. -/
theorem parse_lossless {s : Schema} (hs : s.WellFormed) (t : Text) :
    s.Advances ∧ (parse s t).text = t ∧
      (parse s t).leaves =
        (Openings.start.strays (Item.mark (Token.lex s t))).map Leaf.ofMarked ∧
      Group.markedAll (Group.nest (Item.mark (Token.lex s t))) =
        Openings.start.strays (Item.mark (Token.lex s t)) ∧
      (∀ k ∈ Token.lex s t, k.kind ≠ .error) ∧
      ∀ o < Text.size t, ∃ l, (parse s t).leafAt? o = some l ∧
        ∀ l', l' ∈ (parse s t).leaves ∧ l'.start ≤ o ∧ o < l'.stop ↔ l' = l := by
  refine ⟨hs.advances, text_parse s t, leaves_eq_marked s t, Group.markedAll_nest _, ?_, ?_⟩
  · intro k hk
    exact kind_ne_error hk
  · intro o ho
    exact exists_leafAt? s ho

/-- A schema whose only pattern starts with the rest of a line, and a text with a closing brace in
the line of a tag and one outside of it. -/
theorem parse_lossless_restOfLine :
    let s := (Schema.empty.addComment (.line "--".toList)).addTagMark '#' |>.addPattern
      ⟨"line".toList, .directive, 0, [.restOfLine, .ident], false⟩
    let t := "#a \x7d\n(])\x7d -- é".toList
    s.WellFormed ∧ s.Advances ∧ (parse s t).text = t ∧
      (parse s t).leaves.map (·.kind) = [.tag, .whitespace, .closer .brace, .newline,
        .opener .paren, .error, .closer .paren, .error, .whitespace, .lineComment] := by
  intro s t
  have hs : s.WellFormed := by
    constructor
    · rintro mark hm
      obtain rfl : mark = "--".toList := by simpa [s, Schema.addPattern, Schema.addTagMark,
        Schema.addComment, Schema.empty] using hm
      simp [Text.isLineBreak]
    · rintro opening closing hm
      simp [s, Schema.addPattern, Schema.addTagMark, Schema.addComment, Schema.empty] at hm
  obtain ⟨hadv, htext, hleaves, -⟩ := parse_lossless hs t
  refine ⟨hs, hadv, htext, ?_⟩
  rw [hleaves]
  decide +kernel

end Document
end ShaderInline
