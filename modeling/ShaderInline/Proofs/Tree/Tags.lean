import ShaderInline.Proofs.Tree.Matching

/-! # What the tags of a text lead to

The imports and directives of a tree can be found by reading the pieces of its
text from left to right, blind to blocks and definitions: the tag of an import
takes the quoted string behind it, any other tag the rest of its line.
-/

namespace ShaderInline

open Schema

open ShaderInline.Group (itemsAll wrap toTree toTrees leafOf)

@[simp] theorem Token.kind_piece (t : Token) : t.piece.kind = t.kind := rfl

namespace Piece

def leaf (p : Piece) : Tree := .leaf p.kind p.text

def restOfLine : (last : Text) → List Piece → List Piece
  | _, [] => []
  | last, p :: ps =>
    if p.kind == .newline && last != ['\\'] then [] else p :: restOfLine p.text ps

/-- The blanks and the quoted string with which the tag of an import goes on. -/
def quoted? : List Piece → Option (List Piece)
  | [] => none
  | p :: ps =>
    if p.kind.isTrivia then (quoted? ps).map (p :: ·)
    else if p.isQuoted then some [p] else none

/-- The kind of the node that a tag leads to, and the pieces after the tag that belong to it. -/
def tagged (tag : Piece) (ps : List Piece) : Kind × List Piece :=
  match if glsl.tagName tag.text = "import".toList then quoted? ps else none with
  | some qs => (.importDirective, qs)
  | none => (.directive, restOfLine tag.text ps)

/-- The nodes that the tags among pieces lead to, from an offset on, after the first `skip`
pieces, which are inside a node already. -/
def tagNodes : (skip n : Nat) → List Piece → List Node
  | _, _, [] => []
  | skip + 1, n, p :: ps => tagNodes skip (n + Text.size p.text) ps
  | 0, n, p :: ps =>
    if p.kind = .tag then
      ⟨n, (tagged p ps).1, (p :: (tagged p ps).2).map leaf⟩ ::
        tagNodes (tagged p ps).2.length (n + Text.size p.text) ps
    else tagNodes 0 (n + Text.size p.text) ps

variable {last : Text} {p q tag : Piece} {ps line qs xs : List Piece} {n : Nat} {k : Kind}

/-! ### Lines -/

theorem restOfLine_congr {q' : Piece} {qs' : List Piece}
    (h : restOfLine last (line ++ q :: qs) = line) (hk : q'.kind = q.kind) :
    restOfLine last (line ++ q' :: qs') = line := by
  induction line generalizing last with
  | nil =>
    rw [List.nil_append, restOfLine] at h ⊢
    rw [hk]
    split at h
    next he => rw [if_pos he]
    next => cases h
  | cons p line ih =>
    rw [List.cons_append, restOfLine] at h ⊢
    split at h
    next => cases h
    next he => rw [if_neg he, ih (List.cons_eq_cons.1 h).2]

theorem kind_of_restOfLine (h : restOfLine last (line ++ q :: qs) = line) : q.kind = .newline := by
  induction line generalizing last with
  | nil =>
    rw [List.nil_append, restOfLine] at h
    split at h
    next he => exact eq_of_beq (Bool.and_eq_true_iff.1 he).1
    next => cases h
  | cons p line ih =>
    rw [List.cons_append, restOfLine] at h
    split at h
    next => cases h
    next => exact ih (List.cons_eq_cons.1 h).2

theorem exists_restOfLine (last : Text) (ps : List Piece) :
    ∃ qs, ps = restOfLine last ps ++ qs ∧ restOfLine last (restOfLine last ps ++ qs) =
      restOfLine last ps := by
  obtain ⟨qs, hqs⟩ : ∃ qs, restOfLine last ps ++ qs = ps := by
    induction ps generalizing last with
    | nil => exact ⟨[], rfl⟩
    | cons p ps ih =>
      rw [restOfLine]
      split
      · exact ⟨p :: ps, rfl⟩
      · obtain ⟨qs, hqs⟩ := ih p.text
        exact ⟨qs, by rw [List.cons_append, hqs]⟩
  exact ⟨qs, hqs.symm, by rw [hqs]⟩

theorem restOfLine_append (h : restOfLine last line = line) (qs : List Piece) :
    restOfLine last (line ++ qs) =
      line ++ restOfLine ((line.getLast?.map text).getD last) qs := by
  induction line generalizing last with
  | nil => rfl
  | cons p line ih =>
    rw [restOfLine] at h
    split at h
    next => cases h
    next he =>
      have hlast : ((p :: line).getLast?.map text).getD last =
          (line.getLast?.map text).getD p.text := by
        rw [List.getLast?_cons, Option.map_some, Option.getD_some, Option.getD_map]
      rw [List.cons_append, restOfLine, if_neg he, ih (List.cons_eq_cons.1 h).2, hlast,
        List.cons_append]

theorem restOfLine_of_append (h : restOfLine last (line ++ qs) = line ++ qs) :
    restOfLine last line = line := by
  induction line generalizing last with
  | nil => rfl
  | cons p line ih =>
    rw [List.cons_append, restOfLine] at h
    split at h
    next => cases h
    next he => rw [restOfLine, if_neg he, ih (List.cons_eq_cons.1 h).2]

/-! ### Imports -/

theorem quoted?_spec (h : quoted? ps = some qs) : ∃ blanks q rest, qs = blanks ++ [q] ∧
    ps = qs ++ rest ∧ (∀ p ∈ blanks, p.kind.isTrivia = true) ∧ q.isQuoted = true := by
  induction ps generalizing qs with
  | nil => cases h
  | cons p ps ih =>
    rw [quoted?] at h
    split at h
    next hp =>
      obtain ⟨qs, hqs, rfl⟩ := Option.map_eq_some_iff.1 h
      obtain ⟨blanks, q, rest, rfl, rfl, hb, hq⟩ := ih hqs
      exact ⟨p :: blanks, q, rest, rfl, rfl, List.forall_mem_cons.2 ⟨hp, hb⟩, hq⟩
    next =>
      rw [Option.ite_none_right_eq_some] at h
      obtain ⟨hp, h⟩ := h
      obtain rfl := Option.some.inj h
      exact ⟨[], p, ps, rfl, rfl, by simp, hp⟩

theorem quoted?_append (h : quoted? ps = some qs) (rest : List Piece) :
    quoted? (ps ++ rest) = some qs := by
  induction ps generalizing qs with
  | nil => cases h
  | cons p ps ih =>
    rw [quoted?] at h
    rw [List.cons_append, quoted?]
    split at h
    next hp =>
      obtain ⟨qs, hqs, rfl⟩ := Option.map_eq_some_iff.1 h
      rw [if_pos hp, ih hqs, Option.map_some]
    next hp => rw [if_neg hp, h]

theorem quoted?_eq_some {blanks : List Piece} (hb : ∀ p ∈ blanks, p.kind.isTrivia = true)
    (hq : q.isQuoted = true) (rest : List Piece) :
    quoted? (blanks ++ [q] ++ rest) = some (blanks ++ [q]) := by
  refine quoted?_append ?_ rest
  induction blanks with
  | nil =>
    have hk : q.kind.isTrivia = false := by
      simp only [isQuoted, Bool.and_eq_true, beq_iff_eq] at hq
      rw [hq.1.1]
      rfl
    rw [List.nil_append, quoted?, if_neg (by simp [hk]), if_pos hq]
  | cons p blanks ih =>
    obtain ⟨hp, hb⟩ := List.forall_mem_cons.1 hb
    rw [List.cons_append, quoted?, if_pos hp, ih hb, Option.map_some]

theorem quoted?_of_append (h : quoted? (xs ++ ps) = none) : quoted? xs = none := by
  cases hx : quoted? xs with
  | none => rfl
  | some qs =>
    rw [quoted?_append hx] at h
    cases h

theorem quoted?_eq_none (h : quoted? xs = none) (hk : p.kind.isTrivia = false)
    (hq : p.isQuoted = false) (ps : List Piece) : quoted? (xs ++ p :: ps) = none := by
  induction xs with
  | nil => rw [List.nil_append, quoted?, if_neg (by simp [hk]), if_neg (by simp [hq])]
  | cons x xs ih =>
    rw [quoted?] at h
    rw [List.cons_append, quoted?]
    split at h
    next hx =>
      rw [if_pos hx, ih (Option.map_eq_none_iff.1 h), Option.map_none]
    next hx => rw [if_neg hx, h]

/-- Where an import is completed by what comes next, only blanks stand before that, and no tag
completes it. -/
theorem exists_of_quoted?_append (h : quoted? (xs ++ ps) = some qs) (hn : quoted? xs = none) :
    (∀ p ∈ xs, p.kind.isTrivia = true) ∧
      ∃ ys rest, qs = xs ++ ys ∧ ps = ys ++ rest ∧ ∀ p ∈ ys, p.kind ≠ .tag := by
  induction xs generalizing qs with
  | nil =>
    obtain ⟨blanks, q, rest, rfl, hps, hb, hq⟩ := quoted?_spec h
    refine ⟨by simp, blanks ++ [q], rest, rfl, hps, fun p hp hk => ?_⟩
    rcases List.mem_append.1 hp with hp | hp
    · have := hb p hp
      simp [hk, Kind.isTrivia] at this
    · rw [List.mem_singleton.1 hp] at hk
      simp [isQuoted, hk] at hq
  | cons x xs ih =>
    rw [List.cons_append, quoted?] at h
    rw [quoted?] at hn
    split at h
    next hx =>
      rw [if_pos hx] at hn
      obtain ⟨qs, hqs, rfl⟩ := Option.map_eq_some_iff.1 h
      obtain ⟨hxs, ys, rest, rfl, hps, hys⟩ := ih hqs (Option.map_eq_none_iff.1 hn)
      exact ⟨List.forall_mem_cons.2 ⟨hx, hxs⟩, ys, rest, rfl, hps, hys⟩
    next hx =>
      rw [if_neg hx, h] at hn
      cases hn

/-! ### Tags -/

theorem tagged_import (hn : glsl.tagName tag.text = "import".toList)
    (hq : quoted? ps = some qs) : tagged tag ps = (.importDirective, qs) := by
  rw [tagged, if_pos hn, hq]

theorem tagged_directive (h : glsl.tagName tag.text = "import".toList → quoted? ps = none) :
    tagged tag ps = (.directive, restOfLine tag.text ps) := by
  rw [tagged]
  split_ifs with hn
  · rw [h hn]
  · rfl

theorem tagged_cases (tag : Piece) (ps : List Piece) :
    (glsl.tagName tag.text = "import".toList ∧ ∃ qs, quoted? ps = some qs ∧
      tagged tag ps = (.importDirective, qs)) ∨
    (glsl.tagName tag.text = "import".toList → quoted? ps = none) ∧
      tagged tag ps = (.directive, restOfLine tag.text ps) := by
  by_cases hn : glsl.tagName tag.text = "import".toList
  · cases hq : quoted? ps with
    | some qs => exact .inl ⟨hn, qs, rfl, tagged_import hn hq⟩
    | none => exact .inr ⟨fun _ => rfl, tagged_directive fun _ => hq⟩
  · exact .inr ⟨fun h => absurd h hn, tagged_directive fun h => absurd h hn⟩

theorem exists_tagged (tag : Piece) (ps : List Piece) : ∃ rest, ps = (tagged tag ps).2 ++ rest := by
  obtain ⟨-, qs, hqs, he⟩ | ⟨-, he⟩ := tagged_cases tag ps
  · obtain ⟨-, -, rest, -, hps, -⟩ := quoted?_spec hqs
    exact ⟨rest, by rw [he]; exact hps⟩
  · obtain ⟨rest, hps, -⟩ := exists_restOfLine tag.text ps
    exact ⟨rest, by rw [he]; exact hps⟩

@[simp] theorem tagNodes_nil (skip n : Nat) : tagNodes skip n [] = [] := by cases skip <;> rfl

theorem tagNodes_skip (n : Nat) (xs ps : List Piece) :
    tagNodes xs.length n (xs ++ ps) = tagNodes 0 (n + Text.size (textAll xs)) ps := by
  induction xs generalizing n with
  | nil => simp
  | cons x xs ih =>
    rw [List.length_cons, List.cons_append, tagNodes, ih, textAll_cons, Text.size_append,
      Nat.add_assoc]

theorem tagNodes_other (hk : p.kind ≠ .tag) :
    tagNodes 0 n (p :: ps) = tagNodes 0 (n + Text.size p.text) ps := by
  rw [tagNodes, if_neg hk]

theorem tagNodes_others (h : ∀ p ∈ xs, p.kind ≠ .tag) (n : Nat) (ps : List Piece) :
    tagNodes 0 n (xs ++ ps) = tagNodes 0 (n + Text.size (textAll xs)) ps := by
  induction xs generalizing n with
  | nil => simp
  | cons x xs ih =>
    obtain ⟨hx, hxs⟩ := List.forall_mem_cons.1 h
    rw [List.cons_append, tagNodes_other hx, ih hxs, textAll_cons, Text.size_append, Nat.add_assoc]

theorem tagNodes_tag (hk : tag.kind = .tag) (h : tagged tag (xs ++ ps) = (k, xs)) :
    tagNodes 0 n (tag :: (xs ++ ps)) = ⟨n, k, (tag :: xs).map leaf⟩ ::
      tagNodes 0 (n + Text.size (textAll (tag :: xs))) ps := by
  rw [tagNodes, if_pos hk, h, tagNodes_skip, textAll_cons, Text.size_append, Nat.add_assoc]

end Piece

/-! ### Trees -/

theorem Tree.textAll_leaf (ps : List Piece) :
    Tree.textAll (ps.map Piece.leaf) = Piece.textAll ps := by
  induction ps with
  | nil => rfl
  | cons p ps ih => simp [Tree.textAll, Piece.leaf, Tree.text, ih]

namespace Node

theorem stop_leaf (n : Nat) (k : Kind) (ps : List Piece) :
    (⟨n, k, ps.map Piece.leaf⟩ : Node).stop = n + Text.size (Piece.textAll ps) := by
  rw [stop, Tree.sizeAll_eq, Tree.textAll_leaf]

theorem text_ownLeaf? (n : Nat) (k k' : Kind) (ps : List Piece) :
    ((⟨n, k, ps.map Piece.leaf⟩ : Node).ownLeaf? k').map (·.text) =
      (ps.find? (·.kind == k')).map (·.text) := by
  simp only [ownLeaf?, ownLeaves]
  induction ps generalizing n with
  | nil => rfl
  | cons p ps ih =>
    simp only [List.map_cons, Tree.placed, Piece.leaf, List.filterMap_cons, List.find?_cons]
    cases hk : p.kind == k' with
    | true => rfl
    | false => exact ih _

theorem directiveName?_leaf {n : Nat} {k : Kind} {tag : Piece} {line : List Piece}
    (hk : tag.kind = .tag) : (⟨n, k, (tag :: line).map Piece.leaf⟩ : Node).directiveName? =
      some (nameOfTag tag.text) := by
  have htext := text_ownLeaf? n k .tag (tag :: line)
  rw [List.find?_cons_of_pos (by simp [hk])] at htext
  obtain ⟨l, hl, ht⟩ := Option.map_eq_some_iff.1 htext
  rw [directiveName?, tag?, hl, Option.map_some, ht]

def isTagged (v : Node) : Bool := v.kind == .importDirective || v.kind == .directive

end Node

namespace Tree

theorem nodesAllFrom_append (n : Nat) (ts us : List Tree) : nodesAllFrom n (ts ++ us) =
    nodesAllFrom n ts ++ nodesAllFrom (n + Text.size (textAll ts)) us := by
  induction ts generalizing n with
  | nil => simp [textAll, nodesAllFrom]
  | cons t ts ih =>
    rw [List.cons_append, nodesAllFrom, ih, nodesAllFrom, textAll, Text.size_append, size_eq,
      Nat.add_assoc, List.append_assoc]

def tagsFrom (n : Nat) (ts : List Tree) : List Node := (nodesAllFrom n ts).filter Node.isTagged

@[simp] theorem tagsFrom_nil (n : Nat) : tagsFrom n [] = [] := rfl

theorem tagsFrom_append (n : Nat) (ts us : List Tree) :
    tagsFrom n (ts ++ us) = tagsFrom n ts ++ tagsFrom (n + Text.size (textAll ts)) us := by
  rw [tagsFrom, nodesAllFrom_append, List.filter_append]
  rfl

theorem tagsFrom_cons (n : Nat) (t : Tree) (ts : List Tree) :
    tagsFrom n (t :: ts) = tagsFrom n [t] ++ tagsFrom (n + Text.size t.text) ts := by
  simpa [textAll] using tagsFrom_append n [t] ts

@[simp] theorem tagsFrom_leafOf (n : Nat) (is : List Item) : tagsFrom n (is.map leafOf) = [] := by
  induction is generalizing n with
  | nil => rfl
  | cons i is ih =>
    rw [List.map_cons, tagsFrom_cons, ih]
    simp [tagsFrom, nodesAllFrom, nodesFrom, leafOf]

theorem tagsFrom_node {k : Kind} (hk : k ≠ .importDirective) (hk' : k ≠ .directive) (n : Nat)
    (ts : List Tree) : tagsFrom n [node k ts] = tagsFrom n ts := by
  simp [tagsFrom, nodesAllFrom, nodesFrom, Node.isTagged, hk, hk']

theorem tagsFrom_items {n : Nat} {k : Kind} (hk : k = .importDirective ∨ k = .directive)
    (is : List Item) (ts : List Tree) :
    tagsFrom n (.node k (toTrees glsl (is.map .item)) :: ts) =
      [⟨n, k, (is.map Item.piece).map Piece.leaf⟩] ++
        tagsFrom (n + Text.size (Piece.textAll (is.map Item.piece))) ts := by
  have hi : (Tree.node k (toTrees glsl (is.map .item))).text =
      Piece.textAll (is.map Item.piece) := by
    rw [text, Group.textAll_toTrees, Group.itemsAll_items]
  have hnode : tagsFrom n [node k (is.map leafOf)] =
      ⟨n, k, is.map leafOf⟩ :: tagsFrom n (is.map leafOf) := by
    have htag : Node.isTagged ⟨n, k, is.map leafOf⟩ = true := by simpa [Node.isTagged] using hk
    simp [tagsFrom, nodesAllFrom, nodesFrom, htag]
  rw [tagsFrom_cons, hi, Group.toTrees_items, hnode, tagsFrom_leafOf, List.map_map]
  rfl

end Tree

theorem Group.length_items_pos (g : Group) : 0 < g.items.length := by cases g <;> simp

theorem Group.length_items_lt {d : Delimiter} {o : Item} {inside gs : List Group}
    {c : Option Item} (h : Group.block d o inside c ∈ gs) :
    (itemsAll inside).length < (itemsAll gs).length := by
  induction gs with
  | nil => simp at h
  | cons g gs ih =>
    rcases List.mem_cons.1 h with rfl | h
    · simp
    · have := ih h
      simp
      omega

namespace Lined

variable {b : Bool} {gs : List Group} {s : Option Bool}

theorem split {hs : List Group} (h : Lined b (gs ++ hs) s) :
    (∃ b', Lined b gs (some b') ∧ Lined b' hs s) ∨ (hs = [] ∧ Lined b gs s) := by
  induction gs generalizing b with
  | nil => exact .inl ⟨b, .nil b, h⟩
  | cons g gs ih =>
    rw [List.cons_append] at h
    generalize hx : gs ++ hs = xs at h
    cases h with
    | item hi h =>
      subst hx
      obtain ⟨b', h₁, h₂⟩ | ⟨rfl, h'⟩ := ih h
      · exact .inl ⟨b', .item hi h₁, h₂⟩
      · exact .inr ⟨rfl, .item hi h'⟩
    | stray hi h =>
      subst hx
      obtain ⟨b', h₁, h₂⟩ | ⟨rfl, h'⟩ := ih h
      · exact .inl ⟨b', .stray hi h₁, h₂⟩
      · exact .inr ⟨rfl, .stray hi h'⟩
    | block ho hc hin h =>
      subst hx
      obtain ⟨b', h₁, h₂⟩ | ⟨rfl, h'⟩ := ih h
      · exact .inl ⟨b', .block ho hc hin h₁, h₂⟩
      · exact .inr ⟨rfl, .block ho hc hin h'⟩
    | last ho hin hs =>
      obtain ⟨rfl, rfl⟩ := List.append_eq_nil_iff.1 hx
      exact .inr ⟨rfl, .last ho hin hs⟩

theorem after_items {is : List Item} (h : Lined b (is.map .item ++ gs) s) :
    ∃ b', Lined b' gs s := by
  induction is generalizing b with
  | nil => exact ⟨b, h⟩
  | cons i is ih =>
    cases h with
    | item _ h => exact ih h

theorem line (h : Lined true gs s) : ∃ (is : List Item) (rest : List Group),
    gs = is.map .item ++ rest ∧ (∀ i ∈ is, i.endsLine = false) ∧
    (rest = [] ∧ s = some true ∨ ∃ (i : Item) (rest' : List Group), rest = .item i :: rest' ∧
      i.endsLine = true ∧ i.token.kind = .newline ∧ Lined false rest' s) := by
  induction gs with
  | nil =>
    cases h with
    | nil => exact ⟨[], [], rfl, by simp, .inl ⟨rfl, rfl⟩⟩
  | cons g gs ih =>
    cases h with
    | @item _ i _ _ hi h =>
      by_cases he : i.endsLine = true
      · have hk : i.keepsLine true = false := by simp [Item.keepsLine, he, hi he]
        rw [hk] at h
        exact ⟨[], .item i :: gs, rfl, by simp, .inr ⟨i, gs, rfl, he, hi he, h⟩⟩
      · have hk : i.keepsLine true = true := by simp [Item.keepsLine, he]
        rw [hk] at h
        obtain ⟨is, rest, rfl, his, hr⟩ := ih h
        exact ⟨i :: is, rest, rfl, by simpa using ⟨by simpa using he, his⟩, hr⟩

end Lined

/-! ### From items to pieces -/

namespace Item

theorem markAfter_append {last : Text} {ts : List Token} {is js : List Item}
    (h : markAfter last ts = is ++ js) : ∃ ts₁ ts₂, ts = ts₁ ++ ts₂ ∧ is = markAfter last ts₁ ∧
      js = markAfter ((ts₁.getLast?.map (·.text)).getD last) ts₂ := by
  induction is generalizing last ts with
  | nil => exact ⟨[], ts, rfl, rfl, h.symm⟩
  | cons i is ih =>
    cases ts with
    | nil => simp [markAfter] at h
    | cons t ts =>
      obtain ⟨hi, h⟩ := List.cons_eq_cons.1 h
      obtain ⟨ts₁, ts₂, rfl, rfl, rfl⟩ := ih h
      refine ⟨t :: ts₁, ts₂, rfl, by rw [markAfter, hi], ?_⟩
      rw [List.getLast?_cons, Option.map_some, Option.getD_some,
        ← Option.getD_map (fun t : Token => t.text)]

theorem restOfLine_eq {last : Text} {ts : List Token} {line js : List Item}
    (h : markAfter last ts = line ++ js) (hl : ∀ i ∈ line, i.endsLine = false)
    (hj : ∀ j ∈ js.head?, j.endsLine = true) :
    Piece.restOfLine last (ts.map Token.piece) = line.map piece := by
  induction line generalizing last ts with
  | nil =>
    cases ts with
    | nil => rfl
    | cons t ts =>
      rw [markAfter, List.nil_append] at h
      have ht : (t.kind == .newline && last != ['\\']) = true := hj _ (by rw [← h]; rfl)
      rw [List.map_cons, Piece.restOfLine]
      exact if_pos ht
  | cons i line ih =>
    cases ts with
    | nil => cases h
    | cons t ts =>
      obtain ⟨rfl, hts⟩ := List.cons_eq_cons.1 h
      obtain ⟨ht, hl⟩ := List.forall_mem_cons.1 hl
      rw [List.map_cons, Piece.restOfLine, List.map_cons, ← ih hts hl]
      exact if_neg (by simpa using ht)

/-- Whether the line breaks among items are marked by what comes before them. -/
def Marked (is : List Item) : Prop := ∃ last ts, markAfter last ts = is

namespace Marked

variable {i : Item} {is js : List Item}

theorem right (h : Marked (is ++ js)) : Marked js := by
  obtain ⟨last, ts, hts⟩ := h
  obtain ⟨ts₁, ts₂, -, -, hjs⟩ := markAfter_append hts
  exact ⟨_, ts₂, hjs.symm⟩

theorem restOfLine_eq (h : Marked (i :: (is ++ js))) (hl : ∀ i ∈ is, i.endsLine = false)
    (hj : ∀ j ∈ js.head?, j.endsLine = true) :
    Piece.restOfLine i.token.text ((is ++ js).map piece) = is.map piece := by
  obtain ⟨last, ts, hts⟩ := h
  cases ts with
  | nil => cases hts
  | cons t ts =>
    obtain ⟨rfl, hrest⟩ := List.cons_eq_cons.1 hts
    rw [← hrest, map_piece_markAfter]
    exact Item.restOfLine_eq hrest hl hj

end Marked
end Item

/-- Whether reading pieces comes upon the given nodes in some items, and after them starts
afresh. -/
def Scans (n : Nat) (is js : List Item) (ns : List Node) : Prop :=
  Item.Marked (is ++ js) → Piece.tagNodes 0 n ((is ++ js).map Item.piece) =
    ns ++ Piece.tagNodes 0 (n + Text.size (Piece.textAll (is.map Item.piece))) (js.map Item.piece)

namespace Scans

open ShaderInline.Tree ShaderInline.Pattern Piece

variable {n : Nat} {i : Item} {is js : List Item} {ns ns' : List Node} {gs : List Group} {b : Bool}
  {s : Option Bool}

theorem nil (n : Nat) (js : List Item) : Scans n [] js [] := by
  intro
  simp

theorem append {ks : List Item} (h : Scans n is (js ++ ks) ns)
    (h' : Scans (n + Text.size (Piece.textAll (is.map Item.piece))) js ks ns') :
    Scans n (is ++ js) ks (ns ++ ns') := by
  intro hm
  rw [List.append_assoc] at hm ⊢
  rw [h hm, h' hm.right]
  simp [Nat.add_assoc]

theorem other (hi : i.token.kind ≠ .tag) (h : Scans (n + Text.size i.token.text) is js ns) :
    Scans n (i :: is) js ns := by
  intro hm
  have hm' : Item.Marked ([i] ++ (is ++ js)) := hm
  have hrest := h hm'.right
  rw [List.cons_append, List.map_cons, tagNodes_other (p := i.piece) hi, Item.text_piece, hrest]
  simp [Nat.add_assoc]

theorem closer {d : Delimiter} {c : Option Item} (hc : ∀ i ∈ c, i.token.kind = .closer d)
    (js : List Item) : Scans n c.toList js [] := by
  cases c with
  | none => exact nil n js
  | some i => exact other (by simp [hc i rfl]) (nil _ js)

/-- Whether the tags in some groups lead to the imports and directives of their trees. Only where
the line of a tag goes on at the end of the groups, nothing may come after them. -/
def Agrees (gs : List Group) : Prop := ∀ (n : Nat) (b : Bool) (s : Option Bool) (js : List Item),
  Lined b gs s → (s ≠ some false → js = []) →
    Scans n (itemsAll gs) js (tagsFrom n (wrap glsl 0 gs (toTrees glsl gs)))

theorem block {d : Delimiter} {o : Item} {inside : List Group} {c : Option Item}
    (hin : Agrees inside) (h : Lined b [.block d o inside c] s) (hs : s = none → js = []) :
    Scans n (Group.block d o inside c).items js
      (tagsFrom n [toTree glsl (.block d o inside c)]) := by
  have htags : tagsFrom n [toTree glsl (.block d o inside c)] =
      tagsFrom (n + Text.size o.token.text) (wrap glsl 0 inside (toTrees glsl inside)) := by
    rw [toTree, tagsFrom_node (by simp) (by simp), tagsFrom_cons, tagsFrom_append,
      tagsFrom_leafOf, List.append_nil, ← List.map_singleton, tagsFrom_leafOf]
    rfl
  rw [Group.items_block, htags]
  cases h with
  | block ho hc hlined h =>
    have hbody := (hin (n + Text.size o.token.text) _ _ (c.toList ++ js) hlined (by simp)).append
      (closer hc js)
    rw [List.append_nil] at hbody
    exact other (by simp [ho]) hbody
  | last ho hlined hne =>
    obtain rfl := hs rfl
    have hbody := hin (n + Text.size o.token.text) _ _ [] hlined fun _ => rfl
    exact other (by simp [ho]) (by simpa using hbody)

theorem single {g : Group} (hg : g.isTag = false)
    (hin : ∀ d o inside c, g = .block d o inside c → Agrees inside) (h : Lined b [g] s)
    (hs : s = none → js = []) : Scans n g.items js (tagsFrom n [toTree glsl g]) := by
  cases g with
  | item i => exact other (by simpa [Group.isTag] using hg) (nil _ js)
  | stray i =>
    cases h with
    | stray hk _ => exact other (by simp [hk]) (nil _ js)
  | block d o inside c => exact block (hin d o inside c rfl) h hs

theorem plain (hp : ∀ g ∈ gs, g.isTag = false)
    (hin : ∀ d o inside c, Group.block d o inside c ∈ gs → Agrees inside) (h : Lined b gs s)
    (hs : s = none → js = []) : Scans n (itemsAll gs) js (tagsFrom n (toTrees glsl gs)) := by
  induction gs generalizing n b with
  | nil => exact nil n js
  | cons g gs ih =>
    obtain ⟨hg, hp⟩ := List.forall_mem_cons.1 hp
    have hgin : ∀ d o inside c, g = .block d o inside c → Agrees inside :=
      fun d o inside c he => hin d o inside c (he ▸ List.mem_cons_self)
    rw [Group.toTrees_cons, tagsFrom_cons, Group.text_toTree, Group.itemsAll_cons]
    obtain ⟨b', hb, h'⟩ | ⟨rfl, h'⟩ := (show Lined b ([g] ++ gs) s from h).split
    · refine (single hg hgin hb (by simp)).append (ih hp ?_ h')
      exact fun d o inside c hmem => hin d o inside c (List.mem_cons_of_mem _ hmem)
    · simpa using (single hg hgin h' hs).append (nil _ js)

theorem agrees_import (hi : i.token.kind = .tag)
    (hn : glsl.tagName i.token.text = "import".toList) {w : Nat}
    (hw : width? glsl true false [.quoted] gs = some w)
    (ih : ∀ hs : List Group, (itemsAll hs).length < (itemsAll (.item i :: gs)).length → Agrees hs) :
    Agrees (.item i :: gs) := by
  intro n b s js h hs
  obtain ⟨blanks, q, rest, rfl, rfl, hb, hq⟩ := width?_quoted hw
  obtain ⟨b', h'⟩ := (show Lined b ((i :: (blanks ++ [q])).map .item ++ rest) s from h).after_items
  have hrest := ih rest (by simp; omega)
    (n + Text.size (Piece.textAll ((i :: (blanks ++ [q])).map Item.piece))) b' s js h' hs
  have hmatch := matchAt?_import hi hn hw
  rw [← List.length_map (f := Group.item)] at hmatch
  rw [Group.wrap_cons_some hmatch, ← List.map_cons, tagsFrom_items (.inl rfl), ← List.cons_append,
    ← List.map_cons, Group.itemsAll_append, Group.itemsAll_items]
  refine Scans.append (fun _ => ?_) hrest
  have htag : tagged i.piece ((blanks ++ [q]).map Item.piece ++
      (itemsAll rest ++ js).map Item.piece) =
        (.importDirective, (blanks ++ [q]).map Item.piece) := by
    refine tagged_import hn ?_
    rw [List.map_append, List.map_singleton]
    exact quoted?_eq_some (by simpa using hb) hq _
  have hscan := tagNodes_tag (n := n) (show i.piece.kind = .tag from hi) htag
  simpa using hscan

/-- Where the pattern of an import fails, the pieces show none, either. -/
theorem quoted?_of_width? {rest : List Group}
    (hend : rest = [] ∧ js = [] ∨ ∃ i rest', rest = .item i :: rest' ∧ i.token.kind = .newline)
    (hw : width? glsl true false [.quoted] (is.map .item ++ rest) = none) :
    quoted? ((is ++ (itemsAll rest ++ js)).map Item.piece) = none := by
  induction is with
  | nil =>
    rcases hend with ⟨rfl, rfl⟩ | ⟨i, rest', rfl, hk⟩
    · rfl
    · have hq : i.piece.isQuoted = false := by simp [isQuoted, hk]
      simp [quoted?, hq, hk, Kind.isTrivia]
  | cons i is ih =>
    rw [List.map_cons, List.cons_append] at hw
    rw [List.cons_append, List.map_cons, quoted?]
    split
    next hk =>
      rw [width?_skip (by simp) (by simpa [Group.isSkippable] using hk),
        Option.map_eq_none_iff] at hw
      rw [ih hw, Option.map_none]
    next hk =>
      rw [width?_cons (by simp) (.inr (by simpa [Group.isSkippable] using hk))] at hw
      have hq : i.token.isQuoted = false := by simpa [Matcher.accepts, width?] using hw
      change i.piece.isQuoted = false at hq
      rw [if_neg (by simp [hq])]

theorem agrees_directive (hi : i.token.kind = .tag)
    (hn : glsl.tagName i.token.text = "import".toList → width? glsl true false [.quoted] gs = none)
    (ih : ∀ hs : List Group, (itemsAll hs).length < (itemsAll (.item i :: gs)).length → Agrees hs) :
    Agrees (.item i :: gs) := by
  intro n b s js h hs
  cases h with
  | item _ h =>
  rw [show i.keepsLine b = true by simp [Item.keepsLine, hi]] at h
  obtain ⟨line, rest, rfl, hl, hr⟩ := h.line
  -- the node itself, wherever its line ends: with the groups, or at a line break
  have hnode (hend : rest = [] ∧ js = [] ∨
      ∃ i rest', rest = .item i :: rest' ∧ i.token.kind = .newline)
      (hhead : ∀ j ∈ (itemsAll rest ++ js).head?, j.endsLine = true) :
      Scans n (i :: line) (itemsAll rest ++ js)
        [⟨n, .directive, ((i :: line).map Item.piece).map leaf⟩] := by
    intro hm
    have htag : tagged i.piece (line.map Item.piece ++ (itemsAll rest ++ js).map Item.piece) =
        (.directive, line.map Item.piece) := by
      rw [← List.map_append, tagged_directive, Item.text_piece, hm.restOfLine_eq hl hhead]
      exact fun ht => quoted?_of_width? hend (hn ht)
    simpa using tagNodes_tag (n := n) (show i.piece.kind = .tag from hi) htag
  have hwidth : width? glsl true false [.restOfLine] (line.map .item ++ rest) =
      some line.length := by
    refine width?_restOfLine hl ?_
    rcases hr with ⟨hr, -⟩ | ⟨j, rest', hr, he, hk, -⟩
    · exact .inl hr
    · exact .inr ⟨j, rest', hr, he, hk⟩
  have hmatch := matchAt?_directive hi hn hwidth
  rw [← List.length_map (f := Group.item)] at hmatch
  rw [Group.wrap_cons_some hmatch, ← List.map_cons, tagsFrom_items (.inr rfl), ← List.cons_append,
    ← List.map_cons, Group.itemsAll_append, Group.itemsAll_items]
  rcases hr with ⟨rfl, rfl⟩ | ⟨j, rest', rfl, he, hk, h'⟩
  · obtain rfl := hs (by simp)
    exact (hnode (.inl ⟨rfl, rfl⟩) (by simp)).append (nil _ [])
  · have hj : glsl.matchAt? (.item j :: rest') = none := by
      rw [matchAt?, if_pos (by simp [Group.isSkippable, hk])]
    have hleaf (n : Nat) : tagsFrom n [toTree glsl (.item j)] = [] := tagsFrom_leafOf n [j]
    refine (hnode (.inr ⟨j, rest', rfl, hk⟩) (by simpa using he)).append ?_
    rw [Group.wrap_cons_none hj, tagsFrom_cons, hleaf, List.nil_append]
    exact other (by simp [hk]) (ih rest' (by simp; omega) _ _ _ js h' hs)

theorem agrees_plain {g : Group} (hg : g.isTag = false)
    (ih : ∀ hs : List Group, (itemsAll hs).length < (itemsAll (g :: gs)).length → Agrees hs) :
    Agrees (g :: gs) := by
  intro n b s js h hs
  -- the match, if there is one, takes groups without tags and adds a node that is no tag's
  obtain ⟨taken, rest, rfl, hplain, htags⟩ : ∃ taken rest, gs = taken ++ rest ∧
      (∀ g ∈ taken, g.isTag = false) ∧ tagsFrom n (wrap glsl 0 (g :: gs) (toTrees glsl (g :: gs))) =
        tagsFrom n (toTrees glsl (g :: taken)) ++
          tagsFrom (n + Text.size (Piece.textAll ((itemsAll (g :: taken)).map Item.piece)))
            (wrap glsl 0 rest (toTrees glsl rest)) := by
    obtain hnone | ⟨k, taken, rest, rfl, hsome, hk, hplain⟩ : glsl.matchAt? (g :: gs) = none ∨ _ :=
      matchAt?_plain hg
    · refine ⟨[], gs, rfl, by simp, ?_⟩
      rw [Group.wrap_cons_none hnone, tagsFrom_cons, Group.text_toTree]
      simp
    · refine ⟨taken, rest, rfl, hplain, ?_⟩
      have hk : k ≠ .importDirective ∧ k ≠ .directive := by
        rcases hk with rfl | rfl <;> simp
      rw [Group.wrap_cons_some hsome, tagsFrom_cons, tagsFrom_node hk.1 hk.2, Tree.text,
        Group.textAll_toTrees]
  have hplain' : ∀ g' ∈ g :: taken, g'.isTag = false := by simpa using ⟨hg, hplain⟩
  have hin : ∀ d o inside c, Group.block d o inside c ∈ g :: taken → Agrees inside := by
    intro d o inside c hmem
    have hlt := Group.length_items_lt hmem
    exact ih inside (by simp at hlt ⊢; omega)
  rw [← List.cons_append] at h
  rw [htags, ← List.cons_append, Group.itemsAll_append]
  obtain ⟨b', hb, h'⟩ | ⟨rfl, h'⟩ := h.split
  · refine (plain hplain' hin hb (by simp)).append (ih rest ?_ _ b' s js h' hs)
    have := g.length_items_pos
    simp
    omega
  · have hnone : s = none → js = [] := fun he => hs (by simp [he])
    simpa [wrap] using (plain hplain' hin h' hnone).append (nil _ js)

theorem agrees (gs : List Group) : Agrees gs := by
  -- by the number of items, since a match takes groups off and a block holds groups of its own
  induction hn : (itemsAll gs).length using Nat.strong_induction_on generalizing gs with
  | _ n ih =>
    subst hn
    have ih (hs : List Group) (hlt : (itemsAll hs).length < (itemsAll gs).length) : Agrees hs :=
      ih _ hlt hs rfl
    cases gs with
    | nil => exact fun n b s js _ _ => nil n js
    | cons g gs =>
      by_cases hg : g.isTag = true
      · cases g with
        | item i =>
          have hi : i.token.kind = .tag := by simpa [Group.isTag] using hg
          by_cases hn : glsl.tagName i.token.text = "import".toList
          · cases hw : width? glsl true false [.quoted] gs with
            | some w => exact agrees_import hi hn hw ih
            | none => exact agrees_directive hi (fun _ => hw) ih
          · exact agrees_directive hi (fun h => absurd h hn) ih
        | _ => simp [Group.isTag] at hg
      · exact agrees_plain (by simpa using hg) ih

end Scans

/-- The imports and directives of a tree are what the tags among the pieces of its text lead to. -/
theorem Document.tags_parse (t : Text) :
    (parse glsl t).nodes.filter Node.isTagged = Piece.tagNodes 0 0 (Piece.ofText glsl t) := by
  obtain ⟨s, hs⟩ := Group.lined_nest (Token.lex glsl t)
  have hscan := Scans.agrees _ 0 _ _ [] hs fun _ => rfl
  rw [Scans, Group.itemsAll_nest, List.append_nil] at hscan
  have hpieces : (Item.mark (Token.lex glsl t)).map Item.piece = Piece.ofText glsl t :=
    Item.map_piece_markAfter [] _
  have htags := hscan ⟨[], _, rfl⟩
  rw [hpieces, List.map_nil, Piece.tagNodes_nil, List.append_nil] at htags
  rw [htags]
  simp [nodes, parse, Tree.ofTokens, Tree.nodesFrom, Tree.tagsFrom, Node.isTagged]

end ShaderInline
