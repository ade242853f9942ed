import ShaderInline.Proofs.Expand.Sites
import ShaderInline.Proofs.Token.Kinds

/-! # The directive that comes first

Whether a text starts with a directive of a name can be told from its pieces:
blanks, comments and line breaks, then the tag, then the rest of its line. What
comes after the line has no part in it.
-/

namespace ShaderInline

open Schema

open ShaderInline.Group (itemsAll wrap toTree toTrees leafOf)

namespace Piece

def isBlank (p : Piece) : Bool := p.kind.isTrivia || p.kind == .newline

/-- The directive of a name that comes before all else in pieces from an offset on. -/
def leading? (name : Text) : (start : Nat) → List Piece → Option Node
  | _, [] => none
  | n, p :: ps =>
    if p.isBlank then leading? name (n + Text.size p.text) ps
    else if p.kind == .tag && Node.nameOfTag p.text == name then
      some ⟨n, .directive, (p :: restOfLine p.text ps).map leaf⟩
    else none

variable {last name : Text} {ps line qs qs' : List Piece} {p q q' : Piece} {n : Nat}

theorem leading?_plain (hb : p.isBlank = false) (hk : p.kind ≠ .tag) :
    leading? name n (p :: ps) = none := by
  rw [leading?, if_neg (by simp [hb]), if_neg (by simp [hk])]

/-- Pieces that start with a directive of a name: what stands before it, its tag, the rest of its
line and what comes after. -/
structure Leads (name : Text) (ps blanks : List Piece) (tag : Piece) (line qs : List Piece) :
    Prop where
  eq : ps = blanks ++ tag :: (line ++ qs)
  blank : ∀ p ∈ blanks, p.isBlank = true
  kind : tag.kind = .tag
  name_eq : Node.nameOfTag tag.text = name
  line_eq : restOfLine tag.text (line ++ qs) = line

theorem Leads.append {blanks : List Piece} {tag : Piece} (h : Leads name ps blanks tag line [])
    (rest : List Piece) : ∃ last qs, rest = restOfLine last rest ++ qs ∧
      Leads name (ps ++ rest) blanks tag (line ++ restOfLine last rest) qs := by
  have hline := restOfLine_append (by simpa using h.line_eq) rest
  generalize (line.getLast?.map text).getD tag.text = last at hline
  obtain ⟨qs, hqs, -⟩ := exists_restOfLine last rest
  have heq : line ++ restOfLine last rest ++ qs = line ++ rest := by rw [List.append_assoc, ← hqs]
  refine ⟨last, qs, hqs, ?_, h.blank, h.kind, h.name_eq, by rw [heq, hline]⟩
  rw [heq, h.eq, List.append_nil, List.append_assoc, List.cons_append]

theorem Leads.init {blanks : List Piece} {tag : Piece}
    (h : Leads name (ps ++ [p]) blanks tag line []) (hp : p.kind ≠ .tag) :
    ∃ line', Leads name ps blanks tag line' [] := by
  have heq := h.eq
  rw [List.append_nil] at heq
  rcases List.eq_nil_or_concat' line with rfl | ⟨line', q, rfl⟩
  · obtain ⟨-, rfl⟩ := List.append_singleton_inj.1 heq
    exact absurd h.kind hp
  · rw [← List.cons_append, ← List.append_assoc] at heq
    obtain ⟨rfl, rfl⟩ := List.append_singleton_inj.1 heq
    refine ⟨line', by rw [List.append_nil], h.blank, h.kind, h.name_eq, ?_⟩
    have hline := h.line_eq
    rw [List.append_nil] at hline ⊢
    exact restOfLine_of_append hline

theorem leading?_eq_some_iff {v : Node} :
    leading? name n ps = some v ↔ ∃ blanks tag line qs, Leads name ps blanks tag line qs ∧
      v = ⟨n + Text.size (textAll blanks), .directive, (tag :: line).map leaf⟩ := by
  induction ps generalizing n with
  | nil =>
    simp only [leading?, reduceCtorEq, false_iff]
    rintro ⟨blanks, tag, line, qs, h, -⟩
    simpa using h.eq
  | cons p ps ih =>
    rw [leading?]
    split
    next hp =>
      rw [ih]
      constructor
      · rintro ⟨blanks, tag, line, qs, h, rfl⟩
        refine ⟨p :: blanks, tag, line, qs, ⟨?_, ?_, h.kind, h.name_eq, h.line_eq⟩, ?_⟩
        · rw [h.eq, List.cons_append]
        · exact List.forall_mem_cons.2 ⟨hp, h.blank⟩
        · rw [textAll_cons, Text.size_append, Nat.add_assoc]
      · rintro ⟨blanks, tag, line, qs, h, rfl⟩
        cases blanks with
        | nil =>
          obtain ⟨rfl, -⟩ := List.cons_eq_cons.1 h.eq
          simp [isBlank, h.kind, Kind.isTrivia] at hp
        | cons b blanks =>
          obtain ⟨rfl, heq⟩ := List.cons_eq_cons.1 h.eq
          refine ⟨blanks, tag, line, qs, ⟨heq, ?_, h.kind, h.name_eq, h.line_eq⟩, ?_⟩
          · exact (List.forall_mem_cons.1 h.blank).2
          · rw [textAll_cons, Text.size_append, Nat.add_assoc]
    next hp =>
      constructor
      · intro h
        split at h
        next htag =>
          rw [Bool.and_eq_true, beq_iff_eq, beq_iff_eq] at htag
          obtain ⟨qs, hqs, hline⟩ := exists_restOfLine p.text ps
          refine ⟨[], p, restOfLine p.text ps, qs, ⟨?_, by simp, htag.1, htag.2, hline⟩, ?_⟩
          · rw [List.nil_append, ← hqs]
          · exact (Option.some.inj h).symm
        next => cases h
      · rintro ⟨blanks, tag, line, qs, h, rfl⟩
        cases blanks with
        | nil =>
          obtain ⟨rfl, rfl⟩ := List.cons_eq_cons.1 h.eq
          rw [if_pos (by simp [h.kind, h.name_eq]), h.line_eq]
          rfl
        | cons b blanks =>
          obtain ⟨rfl, -⟩ := List.cons_eq_cons.1 h.eq
          exact absurd (h.blank p List.mem_cons_self) hp

end Piece

/-! ### From trees to pieces -/

namespace Tree

def leading? (name : Text) (n : Nat) (ts : List Tree) : Option Node :=
  match (placed n ts).find? fun (_, t) => !t.kind.isTrivia && t.kind != .newline with
  | some (start, .node .directive cs) =>
    let v : Node := ⟨start, .directive, cs⟩
    if v.directiveName? == some name then some v else none
  | _ => none

variable {name : Text} {n : Nat} {t : Tree} {ts : List Tree}

theorem leading?_blank (h : (t.kind.isTrivia || t.kind == .newline) = true) :
    leading? name n (t :: ts) = leading? name (n + t.size) ts := by
  have hfind : (!t.kind.isTrivia && t.kind != .newline) = false := by
    rcases Bool.or_eq_true_iff.1 h with h | h <;> simp_all
  rw [leading?, placed, List.find?_cons_of_neg (by simp [hfind])]
  rfl

theorem leading?_other (h : (t.kind.isTrivia || t.kind == .newline) = false)
    (hd : ∀ cs, t ≠ .node .directive cs) : leading? name n (t :: ts) = none := by
  have hfind : (!t.kind.isTrivia && t.kind != .newline) = true := by
    rw [Bool.or_eq_false_iff] at h
    simp_all
  rw [leading?, placed, List.find?_cons_of_pos (by simp [hfind])]
  split
  next heq =>
    obtain ⟨-, rfl⟩ := Prod.mk.inj (Option.some.inj heq)
    exact absurd rfl (hd _)
  next => rfl

theorem leading?_directive {tag : Piece} {line : List Piece} (hk : tag.kind = .tag) :
    leading? name n (.node .directive ((tag :: line).map Piece.leaf) :: ts) =
      if Node.nameOfTag tag.text == name then
        some ⟨n, .directive, (tag :: line).map Piece.leaf⟩ else none := by
  rw [leading?, placed, List.find?_cons_of_pos (by simp [kind, Kind.isTrivia])]
  simp only [Node.directiveName?_leaf hk]
  rfl

end Tree

namespace Group

open ShaderInline.Tree ShaderInline.Pattern

variable {name : Text} {n : Nat} {g : Group} {gs : List Group}

theorem leading?_plain (hg : g.isTag = false) (hs : g.isSkippable false = false) :
    leading? name n (wrap glsl 0 (g :: gs) (toTrees glsl (g :: gs))) = none := by
  obtain hnone | ⟨k, taken, rest, rfl, hsome, hk, -⟩ : glsl.matchAt? (g :: gs) = none ∨ _ :=
    matchAt?_plain hg
  · rw [wrap_cons_none hnone]
    cases g with
    | item i =>
      rw [toTree, leafOf]
      exact leading?_other (by simpa [isSkippable, Tree.kind] using hs) (by simp)
    | stray i =>
      rw [toTree]
      exact leading?_other rfl (by simp)
    | block d o inside c =>
      rw [toTree]
      exact leading?_other rfl (by simp)
  · rw [wrap_cons_some hsome]
    rcases hk with rfl | rfl
    · exact leading?_other rfl (by simp)
    · exact leading?_other rfl (by simp)

theorem nameOfTag_import {t : Text} (h : glsl.tagName t = "import".toList) :
    Node.nameOfTag t = "import".toList := by
  cases t with
  | nil => cases h
  | cons c cs =>
    rw [tagName, Lexeme.isTagMark_glsl] at h
    split at h
    next hc =>
      rw [Bool.or_eq_true, beq_iff_eq, beq_iff_eq] at hc
      rcases hc with rfl | rfl <;> exact h
    next =>
      rw [h]
      rfl

theorem leading?_tag {i : Item} {s : Option Bool} {ts : List Token}
    (hi : i.token.kind = .tag) (h : Lined true gs s)
    (hts : itemsAll gs = Item.markAfter i.token.text ts) (hname : name ≠ "import".toList) :
    leading? name n (wrap glsl 0 (.item i :: gs) (toTrees glsl (.item i :: gs))) =
      Piece.leading? name n (i.piece :: ts.map Token.piece) := by
  obtain ⟨line, rest, rfl, hl, hr⟩ := h.line
  have hend : rest = [] ∨ ∃ j rest', rest = .item j :: rest' ∧ j.endsLine = true ∧
      j.token.kind = .newline := by
    rcases hr with ⟨hr, -⟩ | ⟨j, rest', hr, he, hk, -⟩
    · exact .inl hr
    · exact .inr ⟨j, rest', hr, he, hk⟩
  have hline : Piece.restOfLine i.token.text (ts.map Token.piece) = line.map Item.piece := by
    rw [itemsAll_append, itemsAll_items] at hts
    refine Item.restOfLine_eq hts.symm hl ?_
    rcases hend with rfl | ⟨j, rest', rfl, he, -⟩
    · simp
    · simpa using he
  have hpiece : Piece.leading? name n (i.piece :: ts.map Token.piece) =
      if Node.nameOfTag i.token.text == name then
        some ⟨n, .directive, (i.piece :: line.map Item.piece).map Piece.leaf⟩ else none := by
    rw [Piece.leading?, if_neg (by simp [Piece.isBlank, hi, Kind.isTrivia]), Item.text_piece, hline]
    simp [hi]
  rw [hpiece]
  by_cases himp : glsl.tagName i.token.text = "import".toList ∧
      ∃ w, width? glsl true false [.quoted] (line.map item ++ rest) = some w
  · obtain ⟨hn, w, hw⟩ := himp
    rw [nameOfTag_import hn, if_neg (by simpa using hname.symm), toTrees_cons, wrap,
      matchAt?_import hi hn hw]
    exact leading?_other rfl (by simp)
  · have hn : glsl.tagName i.token.text = "import".toList →
        width? glsl true false [.quoted] (line.map item ++ rest) = none := by
      intro hn
      rw [Option.eq_none_iff_forall_ne_some]
      exact fun w hw => himp ⟨hn, w, hw⟩
    have hmatch := matchAt?_directive hi hn (width?_restOfLine hl hend)
    rw [← List.length_map (f := Group.item)] at hmatch
    rw [wrap_cons_some hmatch, ← List.map_cons, toTrees_items]
    have hleaf : (i :: line).map leafOf = (i.piece :: line.map Item.piece).map Piece.leaf := by
      rw [← List.map_cons, List.map_map]
      rfl
    rw [hleaf, leading?_directive hi]
    rfl

/-- The first directive of a tree is found among the pieces. -/
theorem leading?_wrap {s : Option Bool} {last : Text} {ts : List Token} (h : Lined false gs s)
    (hts : itemsAll gs = Item.markAfter last ts) (hname : name ≠ "import".toList) :
    leading? name n (wrap glsl 0 gs (toTrees glsl gs)) =
      Piece.leading? name n (ts.map Token.piece) := by
  induction gs generalizing n last ts with
  | nil =>
    cases ts with
    | nil => rfl
    | cons t ts => cases hts
  | cons g gs ih =>
    obtain ⟨t, ts, rfl⟩ := List.exists_cons_of_ne_nil (l := ts) (by
      rintro rfl
      exact absurd (congrArg List.length hts) (by simp [Item.markAfter, g.length_items_pos.ne']))
    -- A group that starts with a delimiter is no directive, nor is any other token.
    have hplain (hg : g.isTag = false) (hs : g.isSkippable false = false)
        (hk : t.piece.isBlank = false) (htag : t.kind ≠ .tag) :
        leading? name n (wrap glsl 0 (g :: gs) (toTrees glsl (g :: gs))) =
          Piece.leading? name n ((t :: ts).map Token.piece) := by
      rw [Group.leading?_plain hg hs, List.map_cons, Piece.leading?_plain hk htag]
    have hopener {d : Delimiter} {o : Item} {inside : List Group} {c : Option Item}
        (hg : g = .block d o inside c) (ho : o.token.kind = .opener d) :
        leading? name n (wrap glsl 0 (g :: gs) (toTrees glsl (g :: gs))) =
          Piece.leading? name n ((t :: ts).map Token.piece) := by
      subst hg
      rw [itemsAll_cons, items_block, List.cons_append] at hts
      obtain ⟨rfl, -⟩ := List.cons_eq_cons.1 hts
      have hk : t.kind = .opener d := ho
      exact hplain rfl rfl (by simp [Piece.isBlank, hk, Kind.isTrivia]) (by simp [hk])
    cases h with
    | @item _ i _ _ hi h =>
      obtain ⟨rfl, hrest⟩ := List.cons_eq_cons.1 hts
      by_cases hb : t.piece.isBlank = true
      · have hskip : (item ⟨t, t.kind == .newline && last != ['\\']⟩).isSkippable false = true := by
          simpa [isSkippable, Piece.isBlank] using hb
        have hkeep : Item.keepsLine false ⟨t, t.kind == .newline && last != ['\\']⟩ = false := by
          rw [Item.keepsLine, Bool.false_and, Bool.false_or, beq_eq_false_iff_ne]
          rintro (hk : t.kind = .tag)
          simp [Piece.isBlank, hk, Kind.isTrivia] at hb
        rw [hkeep] at h
        have hnone :
            glsl.matchAt? (item ⟨t, t.kind == .newline && last != ['\\']⟩ :: gs) = none := by
          rw [matchAt?, if_pos hskip]
        rw [wrap_cons_none hnone, toTree, leading?_blank (t := leafOf ⟨t, _⟩) hb, ih h hrest,
          List.map_cons, Piece.leading?, if_pos hb]
        rfl
      · by_cases htag : t.kind = .tag
        · have hkeep : Item.keepsLine false ⟨t, t.kind == .newline && last != ['\\']⟩ = true := by
            simp [Item.keepsLine, htag]
          rw [hkeep] at h
          exact leading?_tag htag h hrest hname
        · refine hplain ?_ ?_ (by simpa using hb) htag
          · simpa [isTag] using htag
          · simpa [isSkippable, Piece.isBlank] using hb
    | @stray d i _ _ hk h =>
      obtain ⟨rfl, -⟩ := List.cons_eq_cons.1 hts
      have hk : t.kind = .closer d := hk
      exact hplain rfl rfl (by simp [Piece.isBlank, hk, Kind.isTrivia]) (by simp [hk])
    | block ho => exact hopener rfl ho
    | last ho => exact hopener rfl ho

end Group

/-! ### The end of the line -/

theorem Node.stop_behind (k : Kind) (ps qs : List Piece) :
    (⟨Text.size (Piece.textAll ps), k, qs.map Piece.leaf⟩ : Node).stop =
      Text.size (Piece.textAll (ps ++ qs)) := by
  rw [Node.stop_leaf, Piece.textAll_append, Text.size_append]

namespace Piece

open ShaderInline.Tree (placeLeaves)

theorem find?_placeLeaves {n : Nat} {as bs : List Piece} {ls : List (Kind × Text)}
    (h : List.Forall₂ IsLeaf (as ++ bs) ls) (hne : ∀ p ∈ as, p.text ≠ []) (f : Leaf → Bool) :
    (placeLeaves n ls).find? (fun l => n + Text.size (textAll as) ≤ l.start && f l) =
      (placeLeaves (n + Text.size (textAll as)) (ls.drop as.length)).find?
        (fun l => n + Text.size (textAll as) ≤ l.start && f l) := by
  induction as generalizing n ls with
  | nil => simp
  | cons p as ih =>
    cases h with
    | @cons _ l _ ls hp h =>
      obtain ⟨hp', hne⟩ := List.forall_mem_cons.1 hne
      have hpos := Text.size_pos_iff.2 hp'
      rw [placeLeaves, List.find?_cons_of_neg (by simp; omega), hp.1]
      have := ih (n := n + Text.size p.text) h hne
      simpa [Nat.add_assoc] using this

theorem ofText_lineBreak {c : Char} (hc : Text.isLineBreak c = true) (r : Text) :
    ∃ q qs, ofText glsl (c :: r) = q :: qs ∧ q.kind = .newline := by
  obtain ⟨q, qs, hq⟩ := List.exists_cons_of_ne_nil (l := ofText glsl (c :: r)) (by
    intro hnil
    have := textAll_ofText glsl (c :: r)
    rw [hnil] at this
    cases this)
  refine ⟨q, qs, hq, ?_⟩
  obtain ⟨d, p, rest, -, heq, hr, -⟩ := (hq ▸ cuts_ofText glsl (c :: r)).uncons
  obtain ⟨rfl, -⟩ := List.cons_eq_cons.1 heq
  have hk : (Lexeme.read glsl c (p ++ rest)).kind = q.kind := by rw [hr]
  rw [← hk, Lexeme.read_of_ne_slash (by rintro rfl; cases hc)]
  rw [Text.isLineBreak, Bool.or_eq_true, beq_iff_eq, beq_iff_eq] at hc
  rcases hc with rfl | rfl <;> rfl

/-- A line break is read as one whatever comes after it, and can only get longer. -/
theorem ofText_newline {t r : Text} {ps : List Piece} {p : Piece} (h : Cuts glsl t ps r)
    (hp : p ∈ ps) (hk : p.kind = .newline) (y : Text) :
    ∃ q qs, ofText glsl (p.text ++ y) = q :: qs ∧ q.kind = .newline ∧
      Text.size p.text ≤ Text.size q.text := by
  rcases h.newline_text hp hk with ht | ht | ht
  · refine ⟨lineFeed, ofText glsl y, ?_, rfl, by rw [ht]; rfl⟩
    rw [ht]
    exact (Cuts.feed y).ofText_eq
  · obtain ⟨q, qs, hq, hkq⟩ := ofText_lineBreak (c := '\r') rfl y
    have hne : q.text ≠ [] := (cuts_ofText glsl ('\r' :: y)).text_ne_nil (by rw [hq]; simp)
    refine ⟨q, qs, by rw [ht]; exact hq, hkq, ?_⟩
    rw [ht]
    exact Text.size_pos_iff.2 hne
  · refine ⟨⟨.newline, ['\r', '\n'], none⟩, ofText glsl y, ?_, rfl, by rw [ht]⟩
    rw [ht]
    exact (Cuts.returnFeed y).ofText_eq

namespace Leads

variable {name t : Text} {blanks line qs : List Piece} {tag q : Piece}

theorem cuts (h : Leads name (ofText glsl t) blanks tag line qs) :
    Cuts glsl t (blanks ++ tag :: line) (textAll qs) :=
  cuts_of_ofText_eq (by rw [h.eq, List.append_assoc, List.cons_append])

theorem congr (h : Leads name (ofText glsl t) blanks tag line (q :: qs)) (y : Text) :
    ∃ q' qs', Leads name (ofText glsl (textAll (blanks ++ tag :: line) ++ (q.text ++ y)))
      blanks tag line (q' :: qs') ∧ Text.size q.text ≤ Text.size q'.text := by
  have hq : q ∈ ofText glsl t := by rw [h.eq]; simp
  have hkq := kind_of_restOfLine h.line_eq
  obtain ⟨c, cs, hc, -⟩ := (cuts_ofText glsl t).newline_head hq hkq
  obtain ⟨q', qs', hq', hk, hsize⟩ := ofText_newline (cuts_ofText glsl t) hq hkq y
  have hcuts : Cuts glsl (textAll (blanks ++ tag :: line) ++ (q.text ++ y)) (blanks ++ tag :: line)
      (q.text ++ y) := by
    refine h.cuts.congr fun p hp => ⟨fun hf => ?_, .inl ?_⟩
    · obtain ⟨ps, hps⟩ := List.getLast?_eq_some_iff.1 hp
      have hnil := ((hps ▸ h.cuts).eq_nil_of_unterminated hf).2.1
      rw [textAll_cons, hc] at hnil
      cases hnil
    · rw [textAll_cons, hc]
      rfl
  refine ⟨q', qs', ⟨?_, h.blank, h.kind, h.name_eq, ?_⟩, hsize⟩
  · rw [hcuts.ofText_eq, hq', List.append_assoc, List.cons_append]
  · exact restOfLine_congr h.line_eq (hk.trans hkq.symm)

end Leads
end Piece

namespace Document

open Piece

variable {name t : Text} {v : Node}

theorem leadingDirective?_parse (t : Text) (hname : name ≠ "import".toList) :
    (parse glsl t).leadingDirective? name = leading? name 0 (ofText glsl t) := by
  obtain ⟨s, hs⟩ := Group.lined_nest (Token.lex glsl t)
  exact Group.leading?_wrap hs (Group.itemsAll_nest _) hname

theorem leadingDirective?_eq_some_iff (hname : name ≠ "import".toList) :
    (parse glsl t).leadingDirective? name = some v ↔
      ∃ blanks tag line qs, Leads name (ofText glsl t) blanks tag line qs ∧
        v = ⟨Text.size (textAll blanks), .directive, (tag :: line).map leaf⟩ := by
  rw [leadingDirective?_parse t hname, leading?_eq_some_iff]
  simp only [Nat.zero_add]

theorem find?_leaves_from {as bs : List Piece} (h : ofText glsl t = as ++ bs) (f : Leaf → Bool) :
    ∃ ls, List.Forall₂ IsLeaf bs ls ∧
      (parse glsl t).leaves.find? (fun l => Text.size (textAll as) ≤ l.start && f l) =
        (Tree.placeLeaves (Text.size (textAll as)) ls).find?
          (fun l => Text.size (textAll as) ≤ l.start && f l) := by
  have hleaf := isLeaf_parse glsl t
  have hne : ∀ p ∈ as, p.text ≠ [] := fun p hp =>
    (cuts_ofText glsl t).text_ne_nil (by rw [h]; exact List.mem_append_left _ hp)
  rw [h] at hleaf
  refine ⟨(parse glsl t).root.leaves.drop as.length, ?_, ?_⟩
  · simpa using List.forall₂_drop as.length hleaf
  · rw [leaves_parse]
    simpa using find?_placeLeaves (n := 0) hleaf hne f

theorem endOfLine_newline {as bs : List Piece} {q : Piece} (h : ofText glsl t = as ++ q :: bs)
    (hq : q.kind = .newline) : (parse glsl t).endOfLine (Text.size (textAll as)) =
      Text.size (textAll as) + Text.size q.text := by
  obtain ⟨ls, hls, hfind⟩ := find?_leaves_from h (·.kind == .newline)
  cases hls with
  | @cons _ l _ ls hl _ =>
    have hk : l.1 = .newline := by
      rcases hl.2 with hk | ⟨-, d, hd⟩
      · rw [hk, hq]
      · cases hq.symm.trans hd
    rw [Tree.placeLeaves, List.find?_cons_of_pos (by simp [hk])] at hfind
    rw [endOfLine, hfind, ← hl.1]
    rfl

theorem endOfLine_size (t : Text) : (parse glsl t).endOfLine (Text.size t) = Text.size t := by
  have hnil : ofText glsl t = ofText glsl t ++ [] := (List.append_nil _).symm
  obtain ⟨ls, hls, hfind⟩ := find?_leaves_from hnil (·.kind == .newline)
  cases hls
  rw [textAll_ofText] at hfind
  rw [endOfLine, hfind]
  exact size_parse glsl t

theorem endOfLine_leads {blanks line qs : List Piece} {tag q : Piece}
    (h : Leads name (ofText glsl t) blanks tag line (q :: qs)) :
    (parse glsl t).endOfLine (Text.size (textAll (blanks ++ tag :: line))) =
      Text.size (textAll (blanks ++ tag :: line) ++ q.text) := by
  rw [Text.size_append]
  exact endOfLine_newline (by rw [h.eq, List.append_assoc, List.cons_append])
    (kind_of_restOfLine h.line_eq)

end Document

/-- A text that ends with a directive which comes first, and the line break after it. What follows
them has no part in the directive and leaves the line break where it is. -/
structure FirstLine (name : Text) (v : Node) (line lineBreak : Text) : Prop where
  stop_eq : Text.size line = v.stop
  ended : lineBreak.getLast?.any Text.isLineBreak = true
  leading : ∀ rest,
    (Document.parse glsl (line ++ (lineBreak ++ rest))).leadingDirective? name = some v
  le_endOfLine : ∀ rest, Text.size (line ++ lineBreak) ≤
    (Document.parse glsl (line ++ (lineBreak ++ rest))).endOfLine v.stop

namespace Document

open Piece

variable {name t : Text} {v : Node}

/-- The line of a directive that comes first: it goes to the end of the text, or a line break ends
it. -/
theorem leading_cases (hname : name ≠ "import".toList)
    (h : (parse glsl t).leadingDirective? name = some v) :
    v.stop = Text.size t ∧ (parse glsl t).endOfLine v.stop = Text.size t ∨
    ∃ a q b, t = a ++ (q ++ b) ∧ (parse glsl t).endOfLine v.stop = Text.size (a ++ q) ∧
      FirstLine name v a q := by
  obtain ⟨blanks, tag, line, qs, hl, rfl⟩ := (leadingDirective?_eq_some_iff hname).1 h
  have hstop := Node.stop_behind .directive blanks (tag :: line)
  have ht := hl.cuts.eq_append
  cases qs with
  | nil =>
    rw [textAll_nil, List.append_nil] at ht
    rw [hstop, ← ht]
    exact .inl ⟨rfl, endOfLine_size t⟩
  | cons q qs =>
    refine .inr ⟨textAll (blanks ++ tag :: line), q.text, textAll qs, by simpa using ht, ?_,
      hstop.symm, ?_, fun rest => ?_, fun rest => ?_⟩
    · rw [hstop]
      exact endOfLine_leads hl
    · have hmem : q ∈ ofText glsl t := by rw [hl.eq]; simp
      have hbreak :=
        (cuts_ofText glsl t).newline_isLineBreak hmem (kind_of_restOfLine hl.line_eq)
      have hne := (cuts_ofText glsl t).text_ne_nil hmem
      rw [List.getLast?_eq_some_getLast hne, Option.any_some]
      exact hbreak _ (List.getLast_mem hne)
    · obtain ⟨q', qs', hl', -⟩ := hl.congr rest
      exact (leadingDirective?_eq_some_iff hname).2 ⟨blanks, tag, line, q' :: qs', hl', rfl⟩
    · obtain ⟨q', qs', hl', hsize⟩ := hl.congr rest
      rw [hstop, endOfLine_leads hl', Text.size_append, Text.size_append]
      omega

theorem stop_of_leads {blanks line qs : List Piece} {tag : Piece}
    (h : Leads name (ofText glsl t) blanks tag line qs) :
    (⟨Text.size (textAll blanks), .directive, (tag :: line).map leaf⟩ : Node).stop +
      Text.size (textAll qs) = Text.size t := by
  rw [Node.stop_leaf, ← textAll_ofText glsl t, h.eq]
  simp [Nat.add_assoc]

theorem leads_of_stop (hname : name ≠ "import".toList)
    (h : (parse glsl t).leadingDirective? name = some v) (hend : v.stop = Text.size t) :
    ∃ blanks tag line, Leads name (ofText glsl t) blanks tag line [] := by
  obtain ⟨blanks, tag, line, qs, hl, rfl⟩ := (leadingDirective?_eq_some_iff hname).1 h
  cases qs with
  | nil => exact ⟨blanks, tag, line, hl⟩
  | cons q qs =>
    have hsize := stop_of_leads hl
    have hpos := Text.size_pos_iff.2
      ((cuts_ofText glsl t).text_ne_nil (p := q) (by rw [hl.eq]; simp))
    rw [textAll_cons, Text.size_append] at hsize
    omega

/-- A line that goes to the end of the text takes in the line break that is put after it, or ends
with it. -/
theorem exists_leading_newline (hname : name ≠ "import".toList)
    (h : (parse glsl t).leadingDirective? name = some v) (hend : v.stop = Text.size t)
    (hlast : t.getLast?.any Text.isLineBreak = false) :
    ∃ v', (parse glsl (t ++ ['\n'])).leadingDirective? name = some v' ∧
      Text.size t ≤ v'.stop := by
  obtain ⟨blanks, tag, line, hl⟩ := leads_of_stop hname h hend
  have hleads {line' qs' : List Piece}
      (hl' : Leads name (ofText glsl (t ++ ['\n'])) blanks tag line' qs')
      (hsize : Text.size (textAll qs') ≤ 1) : ∃ v',
        (parse glsl (t ++ ['\n'])).leadingDirective? name = some v' ∧ Text.size t ≤ v'.stop := by
    refine ⟨_, (leadingDirective?_eq_some_iff hname).2 ⟨_, _, _, _, hl', rfl⟩, ?_⟩
    have hstop := stop_of_leads hl'
    rw [Text.size_append] at hstop
    change _ = Text.size t + 1 at hstop
    omega
  by_cases hc : Closed t
  · have hps : ofText glsl (t ++ ['\n']) = ofText glsl t ++ [lineFeed] := by
      rw [hc.ofText_append_newline [], ofText_nil, List.append_nil, endLine, if_neg]
      intro hcr
      obtain ⟨ps, hps⟩ := List.getLast?_eq_some_iff.1 hcr
      rw [← textAll_ofText glsl t, hps] at hlast
      simp [Text.isLineBreak] at hlast
    obtain ⟨last, qs, hqs, hl'⟩ := hl.append [lineFeed]
    rw [← hps] at hl'
    refine hleads hl' ?_
    have hsize := congrArg (fun ps => Text.size (textAll ps)) hqs
    rw [textAll_append, Text.size_append] at hsize
    change 1 = _ at hsize
    omega
  · -- A comment that is left open is the end of the line and takes in the line break.
    obtain ⟨p, hp, hf⟩ : ∃ p ∈ ofText glsl t, p.fault = some .unterminatedComment := by
      simpa [Closed] using hc
    obtain ⟨ps, qs, hq⟩ := List.append_of_mem hp
    have hcuts := hq ▸ cuts_ofText glsl t
    obtain ⟨rfl, -⟩ := hcuts.eq_nil_of_unterminated hf
    have hk := hcuts.kind_of_unterminated (by simp) hf
    have hps := (hcuts.open_newline hf).ofText_eq
    rw [ofText_nil, List.append_nil] at hps
    obtain ⟨line', hl'⟩ := (hq ▸ hl).init (by simp [hk])
    obtain ⟨last, qs, hqs, hl'⟩ :=
      hl'.append [⟨.blockComment, p.text ++ ['\n'], some .unterminatedComment⟩]
    rw [← hps] at hl'
    refine hleads hl' ?_
    obtain rfl : qs = [] := by simpa [restOfLine] using hqs
    simp

theorem leading_append_newline (hname : name ≠ "import".toList)
    (h : (parse glsl t).leadingDirective? name = some v) (hend : v.stop = Text.size t)
    (hlast : t.getLast?.any Text.isLineBreak = false) :
    ∃ v', (parse glsl (t ++ ['\n'])).leadingDirective? name = some v' ∧
      (parse glsl (t ++ ['\n'])).endOfLine v'.stop = Text.size (t ++ ['\n']) := by
  obtain ⟨v', hv', hle⟩ := exists_leading_newline hname h hend hlast
  refine ⟨v', hv', ?_⟩
  rcases leading_cases hname hv' with ⟨-, hline⟩ | ⟨a, q, b, heq, hline, hfirst⟩
  · exact hline
  · -- One more character is left for the line break, and none for what follows.
    have hsize := congrArg Text.size heq
    have ha := hfirst.stop_eq
    have hpos : 0 < Text.size q := by
      refine Text.size_pos_iff.2 ?_
      rintro rfl
      cases hfirst.ended
    rw [hline, heq]
    simp only [Text.size_append] at hsize ⊢
    change Text.size t + 1 = _ at hsize
    omega

end Document
end ShaderInline
