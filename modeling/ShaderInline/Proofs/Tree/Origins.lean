import Mathlib
import ShaderInline.Proofs.Tree.Quotation

/-! # The patterns that nodes come from

Each node of a tree is the root, a block or what some pattern took. A pattern that
starts with a named tag asks the schema where the mark of the tag ends and its name
begins, while a look-up by name tells the mark by its class of characters alone. The
two agree unless the mark could be part of a word.
-/

namespace ShaderInline

open ShaderInline.Group (itemsAll wrap toTree toTrees leafOf)

/-! ### Patterns -/

namespace Schema

def patternAt? (s : Schema) : List Group → Option (Pattern × Nat)
  | [] => none
  | g :: gs =>
    if g.isSkippable false then none
    else s.patterns.findSome? fun p => (p.extent? s (g :: gs)).map fun n => (p, n - 1)

theorem matchAt?_eq (s : Schema) (gs : List Group) :
    s.matchAt? gs = (s.patternAt? gs).map fun x => (x.1.kind, x.2) := by
  cases gs with
  | nil => rfl
  | cons g gs =>
    rw [matchAt?, patternAt?]
    split
    · rfl
    · rw [List.map_findSome?]
      congr 1
      funext p
      rw [Function.comp_apply, Option.map_map]
      rfl

end Schema

namespace Group

mutual

/-- The nodes of the tree of a group at an offset, each with the pattern that it comes from; a
block comes from none. -/
def origins (s : Schema) : Nat → Group → List (Option Pattern × Node)
  | _, item _ => []
  | _, stray _ => []
  | n, block d o inside c =>
    (none, ⟨n, .block d,
      leafOf o :: (wrap s 0 inside (toTrees s inside) ++ c.toList.map leafOf)⟩) ::
      originsAll s 0 (n + Text.size o.token.text) inside

/-- The nodes that a list of groups is wrapped to, after the first `skip` groups, which are inside
a node already. -/
def originsAll (s : Schema) : (skip n : Nat) → List Group → List (Option Pattern × Node)
  | _, _, [] => []
  | skip + 1, n, g :: gs => origins s n g ++ originsAll s skip (n + (toTree s g).size) gs
  | 0, n, g :: gs =>
    match s.patternAt? (g :: gs) with
    | some (p, extra) =>
      (some p, ⟨n, p.kind, toTree s g :: (toTrees s gs).take extra⟩) ::
        (origins s n g ++ originsAll s extra (n + (toTree s g).size) gs)
    | none => origins s n g ++ originsAll s 0 (n + (toTree s g).size) gs

end

open ShaderInline.Tree

mutual

theorem map_snd_origins (s : Schema) : ∀ (n : Nat) (g : Group),
    (origins s n g).map Prod.snd = nodesFrom n (toTree s g)
  | _, item _ => by rw [origins, toTree, leafOf, nodesFrom, List.map_nil]
  | _, stray _ => by rw [origins, toTree, nodesFrom, List.map_nil]
  | n, block d o inside c => by
    have hcloser (m : Nat) : nodesAllFrom m (c.toList.map leafOf) = [] := by
      cases c <;> simp [nodesAllFrom, nodesFrom, leafOf]
    have hinside := map_snd_originsAll s 0 (n + Text.size o.token.text) inside
    rw [List.take_zero, List.nil_append] at hinside
    rw [origins, toTree, nodesFrom, List.map_cons, hinside, nodesAllFrom, leafOf, nodesFrom,
      List.nil_append, nodesAllFrom_append, hcloser, List.append_nil, size]

theorem map_snd_originsAll (s : Schema) : ∀ (skip n : Nat) (gs : List Group),
    (originsAll s skip n gs).map Prod.snd =
      nodesAllFrom n ((toTrees s gs).take skip ++ wrap s skip gs (toTrees s gs))
  | skip, n, [] => by cases skip <;> simp [originsAll, wrap, nodesAllFrom]
  | skip + 1, n, g :: gs => by
    rw [originsAll, List.map_append, map_snd_origins s n g, map_snd_originsAll s skip _ gs,
      toTrees_cons, List.take_succ_cons, wrap, List.cons_append, nodesAllFrom]
  | 0, n, g :: gs => by
    rw [originsAll, toTrees_cons, wrap, Schema.matchAt?_eq, List.take_zero, List.nil_append]
    cases s.patternAt? (g :: gs) with
    | none =>
      have hgs := map_snd_originsAll s 0 (n + (toTree s g).size) gs
      rw [List.take_zero, List.nil_append] at hgs
      rw [List.map_append, map_snd_origins s n g, hgs]
      rfl
    | some x =>
      obtain ⟨p, extra⟩ := x
      have hgs := map_snd_originsAll s extra (n + (toTree s g).size) gs
      rw [nodesAllFrom_append] at hgs
      rw [List.map_cons, List.map_append, map_snd_origins s n g, hgs, Option.map_some]
      dsimp only
      rw [nodesAllFrom, nodesFrom, nodesAllFrom, size, sizeAll, sizeAll_eq, List.cons_append,
        List.append_assoc, ← Nat.add_assoc]

end

/-- A node that holds what a pattern took where it matched at a group made of the given items. -/
inductive Took (s : Schema) (p : Pattern) (v : Node) (is : List Item) : Prop where
  | intro {first : Group} {rest : List Group} {extra : Nat} : items first ⊆ is →
      s.patternAt? (first :: rest) = some (p, extra) → v.kind = p.kind →
      v.children = toTree s first :: (toTrees s rest).take extra → Took s p v is

variable {s : Schema} {p : Pattern} {v : Node} {is js : List Item}

theorem Took.mono (h : Took s p v is) (hsub : is ⊆ js) : Took s p v js := by
  obtain ⟨hitems, hp, hkind, hchildren⟩ := h
  exact .intro (List.Subset.trans hitems hsub) hp hkind hchildren

mutual

theorem took_of_mem_origins : ∀ (n : Nat) (g : Group), (some p, v) ∈ origins s n g →
    Took s p v (items g)
  | _, item _, h => by rw [origins] at h; cases h
  | _, stray _, h => by rw [origins] at h; cases h
  | n, block d o inside c, h => by
    rw [origins] at h
    rcases List.mem_cons.1 h with h | h
    · cases h
    · refine (took_of_mem_originsAll 0 _ inside h).mono ?_
      rw [items_block]
      exact List.Subset.trans (List.subset_append_left _ _) (List.subset_cons_self _ _)

theorem took_of_mem_originsAll : ∀ (skip n : Nat) (gs : List Group),
    (some p, v) ∈ originsAll s skip n gs → Took s p v (itemsAll gs)
  | skip, n, [], h => by cases skip <;> (rw [originsAll] at h; cases h)
  | skip, n, g :: gs, h => by
    -- whatever is made of the first group, the walk goes on inside of it and behind it
    have hwalk (skip' n' : Nat) (h : (some p, v) ∈ origins s n g ++ originsAll s skip' n' gs) :
        Took s p v (itemsAll (g :: gs)) := by
      rw [itemsAll_cons]
      rcases List.mem_append.1 h with h | h
      · exact (took_of_mem_origins n g h).mono (List.subset_append_left _ _)
      · exact (took_of_mem_originsAll skip' n' gs h).mono (List.subset_append_right _ _)
    cases skip with
    | succ skip =>
      rw [originsAll] at h
      exact hwalk _ _ h
    | zero =>
      rw [originsAll] at h
      rcases hp : s.patternAt? (g :: gs) with - | ⟨q, extra⟩
      · rw [hp] at h
        exact hwalk _ _ h
      · rw [hp] at h
        rcases List.mem_cons.1 h with h | h
        · obtain ⟨hq, rfl⟩ := Prod.mk.inj h
          obtain rfl := Option.some.inj hq
          refine .intro ?_ hp rfl rfl
          rw [itemsAll_cons]
          exact List.subset_append_left _ _
        · exact hwalk _ _ h

end

end Group

namespace Schema

variable {s : Schema} {p : Pattern} {g : Group} {gs : List Group} {extra : Nat}

theorem extent?_of_patternAt? (h : s.patternAt? (g :: gs) = some (p, extra)) :
    p ∈ s.patterns ∧ ∃ w, p.extent? s (g :: gs) = some w := by
  rw [patternAt?] at h
  split at h
  · cases h
  · obtain ⟨q, hq, he⟩ := List.exists_of_findSome?_eq_some h
    obtain ⟨w, hw, hqw⟩ := Option.map_eq_some_iff.1 he
    obtain ⟨rfl, -⟩ := Prod.mk.inj hqw
    exact ⟨hq, w, hw⟩

theorem tag_of_patternAt? (h : s.patternAt? (g :: gs) = some (p, extra)) {name : Text}
    {ms : List Matcher} (hp : p.matchers = .tag (some name) :: ms) :
    ∃ i, g = .item i ∧ i.token.kind = .tag ∧ s.tagName i.token.text = name := by
  obtain ⟨-, w, hw⟩ := extent?_of_patternAt? h
  rw [Pattern.extent?, hp, List.isEmpty_cons, if_neg Bool.false_ne_true,
    Pattern.width?_cons (by simp) (.inl rfl), Option.ite_none_right_eq_some] at hw
  cases g with
  | item i => exact ⟨i, rfl, by simpa [Matcher.accepts] using hw.1⟩
  | stray | block => simp [Matcher.accepts] at hw

end Schema

/-! ### Names -/

namespace Node

theorem tag?_of_children {v : Node} {t : Text} {ts : List Tree}
    (h : v.children = .leaf .tag t :: ts) : v.tag? = some ⟨v.start, .tag, t⟩ := by
  rw [tag?, ownLeaf?, ownLeaves, h, Tree.placed]
  rfl

/-- A mark is told from the name of a tag unless it could be part of a word. -/
theorem nameOfTag_eq_iff {c : Char} {name : Text} :
    nameOfTag (c :: name) = name ↔ Text.isWordPart c = false := by
  rw [nameOfTag, ← Text.isWordPart]
  cases Text.isWordPart c <;> simp

end Node

theorem Token.exists_of_tag {s : Schema} {t : Text} {k : Token} (hk : k ∈ lex s t)
    (htag : k.kind = .tag) : ∃ c name, k.text = c :: name ∧ s.isTagMark c = true ∧
      s.tagName k.text = name := by
  obtain ⟨c, name, htext, hmark⟩ := (Piece.cuts_ofText s t).tag_head (piece_mem hk) htag
  have htext : k.text = c :: name := htext
  exact ⟨c, name, htext, hmark, by rw [htext, Schema.tagName, if_pos hmark]⟩

namespace Document

def origins (s : Schema) (t : Text) : List (Option Pattern × Node) :=
  (none, (parse s t).rootNode) :: Group.originsAll s 0 0 (Group.nest (Item.mark (Token.lex s t)))

theorem map_snd_origins (s : Schema) (t : Text) :
    (origins s t).map Prod.snd = (parse s t).nodes := by
  have hnodes := Group.map_snd_originsAll s 0 0 (Group.nest (Item.mark (Token.lex s t)))
  rw [List.take_zero, List.nil_append] at hnodes
  rw [origins, List.map_cons, hnodes]
  rfl

variable {s : Schema} {t : Text} {p : Pattern} {v : Node} {name : Text} {ms : List Matcher}

theorem took_of_origin (h : (some p, v) ∈ origins s t) :
    Group.Took s p v (Item.mark (Token.lex s t)) := by
  rcases List.mem_cons.1 h with h | h
  · cases h
  · rw [← Group.itemsAll_nest (Item.mark _)]
    exact Group.took_of_mem_originsAll 0 0 _ h

theorem exists_tag_of_origin (h : (some p, v) ∈ origins s t)
    (hp : p.matchers = .tag (some name) :: ms) :
    v.kind = p.kind ∧ ∃ c, s.isTagMark c = true ∧ v.tag? = some ⟨v.start, .tag, c :: name⟩ := by
  obtain ⟨hitems, hpattern, hkind, hchildren⟩ := took_of_origin h
  obtain ⟨i, rfl, htag, hname⟩ := Schema.tag_of_patternAt? hpattern hp
  have hi : i ∈ Item.mark (Token.lex s t) := hitems (by simp)
  have hmem : i.token ∈ Token.lex s t := by
    rw [← Item.map_token_markAfter [] (Token.lex s t)]
    exact List.mem_map_of_mem hi
  obtain ⟨c, name', htext, hmark, htagName⟩ := Token.exists_of_tag hmem htag
  obtain rfl : name' = name := htagName.symm.trans hname
  rw [toTree, leafOf, htag, htext] at hchildren
  exact ⟨hkind, c, hmark, Node.tag?_of_children hchildren⟩

theorem mem_patterns_of_origin (h : (some p, v) ∈ origins s t) : p ∈ s.patterns := by
  obtain ⟨-, hpattern, -, -⟩ := took_of_origin h
  exact (Schema.extent?_of_patternAt? hpattern).1

theorem exists_origin {q : Node → Bool} (hs : s.patterns = [p])
    (h : (origins s t).any (fun x => x.1.isSome && q x.2) = true) :
    ∃ v, (some p, v) ∈ origins s t ∧ q v = true := by
  obtain ⟨⟨o, v⟩, hmem, hq⟩ := List.any_eq_true.1 h
  obtain ⟨ho, hv⟩ := Bool.and_eq_true_iff.1 hq
  obtain ⟨p', rfl⟩ := Option.isSome_iff_exists.1 ho
  have hp := mem_patterns_of_origin hmem
  rw [hs, List.mem_singleton] at hp
  exact ⟨v, hp ▸ hmem, hv⟩

theorem mem_query_some {d : Document} {k : Kind} :
    v ∈ d.query k (some name) ↔ v ∈ d.nodes ∧ v.kind = k ∧ v.name? = some name := by
  simp [query]

/-- The schema and the look-up read the same name off a tag unless its mark could be part of a
word. A node from a pattern that starts with a named tag is then found by that name, if it is a
directive or an import; definitions are found by the name that they define. -/
theorem query_tag_iff (s : Schema) (t : Text) :
    (∀ k ∈ Token.lex s t, k.kind = .tag → (Node.nameOfTag k.text = s.tagName k.text ↔
      k.text.head?.any Text.isWordPart = false)) ∧
    (origins s t).map Prod.snd = (parse s t).nodes ∧
    ∀ p v name ms, (some p, v) ∈ origins s t → p.matchers = .tag (some name) :: ms →
      ∃ c, s.isTagMark c = true ∧ v.tag?.map (·.text) = some (c :: name) ∧
        (v.directiveName? = some name ↔ Text.isWordPart c = false) ∧
        (v ∈ (parse s t).query p.kind (some name) ↔
          (p.kind = .directive ∨ p.kind = .importDirective) ∧ Text.isWordPart c = false ∨
          p.kind = .function ∧ v.functionName? = some name ∨
          p.kind = .struct ∧ v.structName? = some name) := by
  refine ⟨?_, map_snd_origins s t, ?_⟩
  · intro k hk htag
    obtain ⟨c, name, htext, -, hname⟩ := Token.exists_of_tag hk htag
    rw [hname, htext]
    exact Node.nameOfTag_eq_iff
  · intro p v name ms h hp
    obtain ⟨hkind, c, hmark, htag⟩ := exists_tag_of_origin h hp
    have hname : v.directiveName? = some name ↔ Text.isWordPart c = false := by
      rw [Node.directiveName?, htag, Option.map_some, Option.some_inj]
      exact Node.nameOfTag_eq_iff
    have hnode : v ∈ (parse s t).nodes := by
      rw [← map_snd_origins]
      exact List.mem_map_of_mem h
    refine ⟨c, hmark, by rw [htag]; rfl, hname, ?_⟩
    rw [mem_query_some, ← hkind, ← hname, Node.name?]
    cases v.kind <;> simp [hnode]

/-- Two tags of one name, of which the look-up finds the one whose mark is no part of a word. -/
theorem query_tag_iff_marks :
    let p : Pattern := ⟨"a".toList, .directive, 0, [.tag (some "a".toList), .restOfLine], true⟩
    let s := ((Schema.empty.addTagMark '#').addTagMark '_').addPattern p
    let t := "#a\n_a".toList
    (∃ k ∈ Token.lex s t, k.kind = .tag ∧ Node.nameOfTag k.text = s.tagName k.text) ∧
      (∃ v, (some p, v) ∈ origins s t ∧ v ∈ (parse s t).query .directive (some "a".toList)) ∧
      ∃ v, (some p, v) ∈ origins s t ∧ v ∉ (parse s t).query .directive (some "a".toList) := by
  intro p s t
  obtain ⟨hnames, -, hquery⟩ := query_tag_iff s t
  refine ⟨?_, ?_, ?_⟩
  · have hk : (⟨.tag, "#a".toList, 0, none⟩ : Token) ∈ Token.lex s t := by decide +kernel
    exact ⟨_, hk, rfl, (hnames _ hk rfl).2 (by decide)⟩
  · obtain ⟨v, hv, htag⟩ := exists_origin (s := s) (t := t) (p := p)
      (q := fun v => v.tag?.map (·.text) == some ['#', 'a']) rfl (by decide +kernel)
    obtain ⟨c, -, htext, -, hfound⟩ := hquery p v _ _ hv rfl
    obtain ⟨rfl, -⟩ := List.cons_eq_cons.1 (Option.some.inj (htext.symm.trans (eq_of_beq htag)))
    exact ⟨v, hv, hfound.2 (.inl ⟨.inl rfl, by decide⟩)⟩
  · obtain ⟨v, hv, htag⟩ := exists_origin (s := s) (t := t) (p := p)
      (q := fun v => v.tag?.map (·.text) == some ['_', 'a']) rfl (by decide +kernel)
    obtain ⟨c, -, htext, -, hfound⟩ := hquery p v _ _ hv rfl
    obtain ⟨rfl, -⟩ := List.cons_eq_cons.1 (Option.some.inj (htext.symm.trans (eq_of_beq htag)))
    have hword : Text.isWordPart '_' = true := rfl
    exact ⟨v, hv, fun h => by simpa [p, hword] using hfound.1 h⟩

/-- An underscore as a mark stays in the name, so that the look-up misses an import that was
matched by its tag. -/
theorem query_tag_underscore :
    (¬∀ (s : Schema) (t : Text), ∀ k ∈ Token.lex s t, k.kind = .tag →
      Node.nameOfTag k.text = s.tagName k.text) ∧
    ¬∀ (s : Schema) (t : Text) (p : Pattern) (v : Node) (name : Text) (ms : List Matcher),
      (some p, v) ∈ origins s t → p.matchers = .tag (some name) :: ms →
      p.kind = .importDirective → v ∈ (parse s t).query p.kind (some name) := by
  let s := (Schema.empty.addTagMark '_').addPattern Schema.importPattern
  let t := "_import \"a\"".toList
  constructor
  · intro h
    have hk : (⟨.tag, "_import".toList, 0, none⟩ : Token) ∈ Token.lex s t := by decide +kernel
    exact absurd (h s t _ hk rfl) (by decide +kernel)
  · intro h
    obtain ⟨v, hv, -⟩ := exists_origin (s := s) (t := t) (p := Schema.importPattern)
      (q := fun _ => true) rfl (by decide +kernel)
    have hkind : Schema.importPattern.kind = .importDirective := rfl
    have hfound := h s t _ v _ _ hv rfl rfl
    have hnone : ((parse s t).query .importDirective (some "import".toList)).length = 0 := by
      decide +kernel
    rw [hkind, List.eq_nil_of_length_eq_zero hnone] at hfound
    cases hfound

end Document

end ShaderInline
