import Mathlib
import ShaderInline.Proofs.Tree.Loose
import ShaderInline.Proofs.Tree.Scan
import ShaderInline.Proofs.Tree.Seam

/-! # The view of a block

The view of a block finds its delimiters again by the shape of the tree. It shows
the delimiters that the block was nested by, with one exception: a block that was
left open counts as closed where its last leaf is a closing delimiter behind an
import, on the line of the import.
-/

namespace ShaderInline

open Schema

open ShaderInline.Group (itemsAll wrap toTree toTrees leafOf)

/-! ### Places of items -/

namespace Item

def Placed : Nat → List Item → Prop
  | _, [] => True
  | n, i :: is => i.token.start = n ∧ Placed (n + Text.size i.token.text) is

variable {n : Nat} {is js : List Item}

theorem placed_append : Placed n (is ++ js) ↔
    Placed n is ∧ Placed (n + Text.size (Piece.textAll (is.map piece))) js := by
  induction is generalizing n with
  | nil => simp [Placed]
  | cons i is ih =>
    rw [List.cons_append, Placed, Placed, ih, and_assoc, List.map_cons, Piece.textAll_cons,
      Text.size_append, Nat.add_assoc, text_piece]

theorem placed_markAfter (last : Text) (n : Nat) (ps : List Piece) :
    Placed n (markAfter last (Piece.place n ps)) := by
  induction ps generalizing last n with
  | nil => trivial
  | cons p ps ih => exact ⟨rfl, ih _ _⟩

theorem placed_mark (s : Schema) (t : Text) : Placed 0 (mark (Token.lex s t)) := by
  rw [Piece.lex_eq_place]
  exact placed_markAfter [] 0 _

theorem Placed.map_token (h : Placed n is) :
    is.map (·.token) = Piece.place n (is.map piece) := by
  induction is generalizing n with
  | nil => rfl
  | cons i is ih =>
    obtain ⟨rfl, h⟩ := h
    rw [List.map_cons, List.map_cons, Piece.place, ih h]
    rfl

theorem Marked.left (h : Marked (is ++ js)) : Marked is := by
  obtain ⟨last, ts, hts⟩ := h
  obtain ⟨ts₁, -, -, his, -⟩ := markAfter_append hts
  exact ⟨last, ts₁, his.symm⟩

end Item

/-! ### Blocks -/

structure Block where
  delimiter : Delimiter
  opener : Item
  inside : List Group
  closer : Option Item

namespace Group

mutual

def blocks : Group → List Block
  | item _ => []
  | stray _ => []
  | block d o inside c => ⟨d, o, inside, c⟩ :: blocksAll inside

def blocksAll : List Group → List Block
  | [] => []
  | g :: gs => blocks g ++ blocksAll gs

end

end Group

namespace Block

def items (b : Block) : List Item := b.opener :: (itemsAll b.inside ++ b.closer.toList)

def toNode (b : Block) : Node :=
  ⟨b.opener.token.start, .block b.delimiter,
    leafOf b.opener ::
      (wrap glsl 0 b.inside (toTrees glsl b.inside) ++ b.closer.toList.map leafOf)⟩

def insideStop (b : Block) : Nat :=
  b.opener.token.stop + Text.size (Piece.textAll ((itemsAll b.inside).map Item.piece))

/-- Whether a block was left open but ends with a closing delimiter of its own, behind an import
on the line of the import. -/
def Loose (b : Block) : Prop :=
  b.closer = none ∧ Group.EndsWithCloser b.delimiter b.inside ∧
    (Token.scanTags b.insideStop ((itemsAll b.inside).map (·.token))).getLast?.map TagRange.kind =
      some .importDirective

/-- How a block was nested. -/
structure Nested (b : Block) : Prop where
  opener : b.opener.token.kind = .opener b.delimiter
  closer : ∀ c ∈ b.closer, c.token.kind = .closer b.delimiter
  lined : ∃ s, Lined false b.inside s
  kept : Kept false b.inside

end Block

namespace Group

theorem nested_of_mem {l : Bool} {gs : List Group} {s : Option Bool} {b : Block}
    (hl : Lined l gs s) (hk : Kept l gs) (hb : b ∈ blocksAll gs) : b.Nested := by
  induction hl with
  | nil => simp [blocksAll] at hb
  | item _ _ ih =>
    cases hk with
    | item _ hk => exact ih hk hb
  | stray _ _ ih =>
    cases hk with
    | stray hk => exact ih hk hb
  | block ho hc hin _ ihin ih =>
    cases hk with
    | block hkin hk =>
      rw [blocksAll, blocks, List.cons_append] at hb
      rcases List.mem_cons.1 hb with rfl | hb
      · exact ⟨ho, hc, ⟨_, hin⟩, hkin⟩
      rcases List.mem_append.1 hb with hb | hb
      · exact ihin hkin hb
      · exact ih hk hb
  | last ho hin _ ihin =>
    cases hk with
    | block hkin hk =>
      rw [blocksAll, blocks, List.cons_append] at hb
      rcases List.mem_cons.1 hb with rfl | hb
      · exact ⟨ho, by simp, ⟨_, hin⟩, hkin⟩
      rcases List.mem_append.1 hb with hb | hb
      · exact ihin hkin hb
      · simp [blocksAll] at hb

mutual

theorem exists_items {b : Block} : ∀ g : Group, b ∈ blocks g →
    ∃ before after, items g = before ++ (b.items ++ after)
  | item _, h => by simp [blocks] at h
  | stray _, h => by simp [blocks] at h
  | block d o inside c, h => by
    rw [blocks] at h
    rcases List.mem_cons.1 h with rfl | h
    · exact ⟨[], [], by simp [Block.items]⟩
    · obtain ⟨before, after, hitems⟩ := exists_itemsAll inside h
      exact ⟨o :: before, after ++ c.toList, by simp [hitems]⟩

theorem exists_itemsAll {b : Block} : ∀ gs : List Group, b ∈ blocksAll gs →
    ∃ before after, itemsAll gs = before ++ (b.items ++ after)
  | [], h => by simp [blocksAll] at h
  | g :: gs, h => by
    rw [blocksAll] at h
    rcases List.mem_append.1 h with h | h
    · obtain ⟨before, after, hitems⟩ := exists_items g h
      exact ⟨before, after ++ itemsAll gs, by simp [hitems]⟩
    · obtain ⟨before, after, hitems⟩ := exists_itemsAll gs h
      exact ⟨items g ++ before, after, by simp [hitems]⟩

end

end Group

/-! ### Nodes of blocks -/

namespace Tree

def blocksFrom (n : Nat) (ts : List Tree) : List Node :=
  (nodesAllFrom n ts).filter (·.kind.isBlock)

@[simp] theorem blocksFrom_nil (n : Nat) : blocksFrom n [] = [] := rfl

theorem blocksFrom_append (n : Nat) (ts us : List Tree) :
    blocksFrom n (ts ++ us) = blocksFrom n ts ++ blocksFrom (n + Text.size (textAll ts)) us := by
  rw [blocksFrom, nodesAllFrom_append, List.filter_append]
  rfl

theorem blocksFrom_cons (n : Nat) (t : Tree) (ts : List Tree) :
    blocksFrom n (t :: ts) = blocksFrom n [t] ++ blocksFrom (n + Text.size t.text) ts := by
  simpa [textAll] using blocksFrom_append n [t] ts

@[simp] theorem blocksFrom_leaf (n : Nat) (k : Kind) (t : Text) : blocksFrom n [leaf k t] = [] := by
  simp [blocksFrom, nodesAllFrom, nodesFrom]

theorem blocksFrom_node {k : Kind} (hk : k.isBlock = false) (n : Nat) (ts : List Tree) :
    blocksFrom n [node k ts] = blocksFrom n ts := by
  simp [blocksFrom, nodesAllFrom, nodesFrom, hk]

theorem blocksFrom_block (n : Nat) (d : Delimiter) (ts : List Tree) :
    blocksFrom n [node (.block d) ts] = ⟨n, .block d, ts⟩ :: blocksFrom n ts := by
  simp [blocksFrom, nodesAllFrom, nodesFrom, Kind.isBlock]

end Tree

namespace Group

open ShaderInline.Tree

theorem isBlock_matchAt? {gs : List Group} {k : Kind} {w : Nat}
    (h : glsl.matchAt? gs = some (k, w)) : k.isBlock = false := by
  cases gs with
  | nil => cases h
  | cons g gs =>
    rw [matchAt?] at h
    split at h
    · cases h
    obtain ⟨p, hp, he⟩ := List.exists_of_findSome?_eq_some h
    obtain ⟨w', -, hkw⟩ := Option.map_eq_some_iff.1 he
    obtain ⟨rfl, -⟩ := Prod.mk.inj hkw
    have hpatterns : glsl.patterns.all (!·.kind.isBlock) = true := rfl
    simpa using List.all_eq_true.1 hpatterns p hp

theorem blocksFrom_wrap {k : Nat} {gs : List Group} {ts : List Tree} (h : gs.length = ts.length)
    (n : Nat) : blocksFrom n (wrap glsl k gs ts) = blocksFrom n (ts.drop k) := by
  induction gs generalizing k ts n with
  | nil =>
    obtain rfl : ts = [] := List.eq_nil_of_length_eq_zero h.symm
    cases k <;> simp [wrap]
  | cons g gs ih =>
    obtain ⟨t, ts, rfl⟩ := List.exists_cons_of_length_eq_add_one h.symm
    have h' : gs.length = ts.length := Nat.succ.inj h
    cases k with
    | succ k => simpa [wrap] using ih h' n
    | zero =>
      rw [wrap]
      split
      next k extra hmatch =>
        have hsplit : t :: ts = (t :: ts.take extra) ++ ts.drop extra := by simp
        rw [blocksFrom_cons, blocksFrom_node (isBlock_matchAt? hmatch), ih h', List.drop_zero,
          hsplit, blocksFrom_append, Tree.text]
      next => rw [blocksFrom_cons, ih h', List.drop_zero, List.drop_zero, ← blocksFrom_cons]

mutual

theorem blocksFrom_toTree : ∀ (n : Nat) (g : Group), Item.Placed n (items g) →
    blocksFrom n [toTree glsl g] = (blocks g).map Block.toNode
  | n, item i, _ => by simp [toTree, leafOf, blocks]
  | n, stray i, _ => by simp [toTree, blocks]
  | n, block d o inside c, h => by
    rw [items_block] at h
    obtain ⟨rfl, h⟩ := h
    have hinside := blocksFrom_toTrees _ inside (Item.placed_append.1 h).1
    have hcloser (m : Nat) : blocksFrom m (c.toList.map leafOf) = [] := by
      cases c <;> simp [leafOf]
    rw [toTree, blocksFrom_block, blocksFrom_cons, blocksFrom_append, hcloser, List.append_nil,
      leafOf, blocksFrom_leaf, List.nil_append, Tree.text, blocksFrom_wrap (by simp),
      List.drop_zero, hinside, blocks, List.map_cons]
    rfl

theorem blocksFrom_toTrees : ∀ (n : Nat) (gs : List Group), Item.Placed n (itemsAll gs) →
    blocksFrom n (toTrees glsl gs) = (blocksAll gs).map Block.toNode
  | n, [], _ => rfl
  | n, g :: gs, h => by
    obtain ⟨hg, hgs⟩ := Item.placed_append.1 h
    rw [toTrees_cons, blocksFrom_cons, blocksFrom_toTree n g hg, text_toTree,
      blocksFrom_toTrees _ gs hgs, blocksAll, List.map_append]

end

end Group

/-- The blocks of a tree are those that its items were nested to, in the same order. -/
theorem Document.blocks_parse (t : Text) : (parse glsl t).nodes.filter (·.kind.isBlock) =
    (Group.blocksAll (Group.nest (Item.mark (Token.lex glsl t)))).map Block.toNode := by
  have hwrap (gs : List Group) : Tree.blocksFrom 0 (wrap glsl 0 gs (toTrees glsl gs)) =
      Tree.blocksFrom 0 (toTrees glsl gs) := Group.blocksFrom_wrap (by simp) 0
  have hplaced := Item.placed_mark glsl t
  rw [← Group.itemsAll_nest (Item.mark _)] at hplaced
  rw [← Group.blocksFrom_toTrees 0 _ hplaced, ← hwrap]
  simp [nodes, parse, Tree.ofTokens, Tree.nodesFrom, Tree.blocksFrom, Kind.isBlock]

namespace Block

open ShaderInline.Tree

variable {b : Block}

/-- Whether a node shows a block: where it starts and stops, whether it is closed, and the text
between its delimiters. -/
structure Shows (b : Block) (v : Node) : Prop where
  kind : v.kind = .block b.delimiter
  start : v.start = b.opener.token.start
  stop : v.stop = b.opener.token.start + Text.size (Piece.textAll (b.items.map Item.piece))
  isClosed : v.isClosed = true ↔ b.closer.isSome = true ∨ b.Loose
  innerStart : v.innerStart = b.opener.token.stop
  innerStop : ∀ c, b.closer = some c → v.innerStop = c.token.start
  innerStop_loose : b.Loose →
    ∃ c, b.inside.getLast? = some (.item c) ∧ v.innerStop = c.token.start
  innerStop_open : b.closer = none → ¬b.Loose → v.innerStop = v.stop

theorem text_toNode (b : Block) :
    b.toNode.text = Piece.textAll (b.items.map Item.piece) := by
  have htext := Group.text_toTree glsl (.block b.delimiter b.opener b.inside b.closer)
  rw [toTree, Tree.text, Group.items_block] at htext
  exact htext

theorem innerStart_toNode (b : Block) : b.toNode.innerStart = b.opener.token.stop := by
  rw [Node.innerStart, Node.openLeaf?_eq, toNode, leafOf, leavesAllFrom, leavesFrom]
  rfl

theorem closed_of_leaf {t : Text}
    (h : b.toNode.children.getLast? = some (.leaf (.closer b.delimiter) t)) :
    b.toNode.isClosed = true ∧ b.toNode.innerStop = b.toNode.stop - Text.size t := by
  have hleaf : b.toNode.closeLeaf? =
      some ⟨b.toNode.stop - Text.size t, .closer b.delimiter, t⟩ := by
    rw [Node.closeLeaf?, h]
    exact if_pos rfl
  rw [Node.isClosed, Node.innerStop, hleaf]
  exact ⟨rfl, rfl⟩

theorem open_of_no_leaf
    (h : ∀ t, b.toNode.children.getLast? ≠ some (.leaf (.closer b.delimiter) t)) :
    b.toNode.isClosed = false ∧ b.toNode.innerStop = b.toNode.stop := by
  have hleaf : b.toNode.closeLeaf? = none := by
    rw [Node.closeLeaf?]
    split
    next k t hlast =>
      refine if_neg fun hk => ?_
      obtain rfl := Option.some.inj hk
      exact h t hlast
    next => rfl
  rw [Node.isClosed, Node.innerStop, hleaf]
  exact ⟨rfl, rfl⟩

theorem children_of_closer {c : Item} (hn : b.Nested) (hc : b.closer = some c) :
    b.toNode.children.getLast? = some (.leaf (.closer b.delimiter) c.token.text) := by
  rw [← hn.closer c hc, toNode, hc, ← List.cons_append, Option.toList_some, List.map_singleton,
    List.getLast?_concat]
  rfl

theorem children_of_open (hn : b.Nested) (hc : b.closer = none) (t : Text) :
    b.toNode.children.getLast? = some (.leaf (.closer b.delimiter) t) ↔
      (wrap glsl 0 b.inside (toTrees glsl b.inside)).getLast? =
        some (.leaf (.closer b.delimiter) t) := by
  rw [toNode, hc, Option.toList_none, List.map_nil, List.append_nil]
  dsimp only
  cases hw : (wrap glsl 0 b.inside (toTrees glsl b.inside)) with
  | nil => simp [leafOf, hn.opener]
  | cons u us => rw [List.getLast?_cons_cons]

theorem lastKind_eq_import {ns : List Node} : Node.lastKind false ns = .importDirective ↔
    ns.getLast?.map Node.kind = some .importDirective := by
  rw [Node.lastKind]
  cases ns.getLast? with
  | none => simp
  | some v => simp

/-- A block is loose just if the last tree that it holds is a closing delimiter. -/
theorem loose_iff {n : Nat} (hn : b.Nested) (hp : Item.Placed n b.items)
    (hm : Item.Marked (itemsAll b.inside)) (hc : b.closer = none) :
    b.Loose ↔ ∃ t, (wrap glsl 0 b.inside (toTrees glsl b.inside)).getLast? =
      some (.leaf (.closer b.delimiter) t) := by
  obtain ⟨rfl, hp⟩ := hp
  obtain ⟨s, hl⟩ := hn.lined
  have htokens := (Item.placed_append.1 hp).1.map_token
  have hagrees := Scans.agrees b.inside b.opener.token.stop false s [] hl (fun _ => rfl)
  rw [Scans, List.append_nil] at hagrees
  have htags := hagrees hm
  rw [List.map_nil, Piece.tagNodes_nil, List.append_nil] at htags
  have hscan : Token.scanTags b.insideStop ((itemsAll b.inside).map (·.token)) =
      (tagsFrom b.opener.token.stop (wrap glsl 0 b.inside (toTrees glsl b.inside))).map
        Node.tagRange := by
    rw [htokens, ← htags, ← Piece.scanTags_place]
    rfl
  rw [(EndsLoose.of_lined b.delimiter b.opener.token.stop hl hn.kept).leaf_iff, Loose, hscan,
    lastKind_eq_import, List.getLast?_map, Option.map_map]
  exact and_iff_right hc

theorem text_of_last {gs : List Group} {c : Item} {k : Kind} {t : Text}
    (hgs : gs.getLast? = some (.item c))
    (ht : (wrap glsl 0 gs (toTrees glsl gs)).getLast? = some (.leaf k t)) : t = c.token.text := by
  obtain ⟨hs, rfl⟩ := List.getLast?_eq_some_iff.1 hgs
  obtain ⟨us, hus⟩ := List.getLast?_eq_some_iff.1 ht
  have hleaves : leavesAll (us ++ [.leaf k t]) = _ :=
    hus ▸ Group.leavesAll_wrap glsl (k := 0) (by simp)
  rw [List.drop_zero, Group.leavesAll_toTrees] at hleaves
  have hlast := congrArg List.getLast? hleaves
  simp only [leavesAll_append, leavesAll_cons, leavesAll_nil, leaves_leaf, List.append_nil,
    Group.markedAll_append, Group.markedAll_cons, Group.markedAll_nil, Group.marked_item,
    List.map_append, List.map_cons, List.map_nil, List.getLast?_concat] at hlast
  exact congrArg Prod.snd (Option.some.inj hlast)

theorem stop_toNode (b : Block) : b.toNode.stop =
    b.opener.token.start + Text.size (Piece.textAll (b.items.map Item.piece)) := by
  rw [Node.stop_eq, text_toNode]
  rfl

theorem start_of_last {n : Nat} {is : List Item} {c : Item} (hp : Item.Placed n b.items)
    (h : b.items = is ++ [c]) : b.toNode.stop - Text.size c.token.text = c.token.start := by
  have hn : b.opener.token.start = n := hp.1
  rw [h] at hp
  obtain ⟨hc, -⟩ := (Item.placed_append.1 hp).2
  rw [stop_toNode, h, hn, hc]
  simp [← Nat.add_assoc]

theorem shows_toNode {n : Nat} (hn : b.Nested) (hp : Item.Placed n b.items)
    (hm : Item.Marked (itemsAll b.inside)) : b.Shows b.toNode := by
  have hloose := loose_iff hn hp hm
  cases hc : b.closer with
  | some c =>
    have hleaf := closed_of_leaf (children_of_closer hn hc)
    have hitems : b.items = (b.opener :: itemsAll b.inside) ++ [c] := by simp [items, hc]
    have hnot : ¬b.Loose := by
      rintro ⟨hnone, -⟩
      rw [hc] at hnone
      cases hnone
    refine ⟨rfl, rfl, stop_toNode b, ?_, innerStart_toNode b, ?_, ?_, ?_⟩
    · rw [hc]
      exact iff_of_true hleaf.1 (.inl rfl)
    · intro c' hc'
      obtain rfl := Option.some.inj (hc.symm.trans hc')
      rw [hleaf.2, start_of_last hp hitems]
    · exact fun h => absurd h hnot
    · intro hnone
      rw [hc] at hnone
      cases hnone
  | none =>
    by_cases hlast : b.Loose
    · obtain ⟨t, ht⟩ := (hloose hc).1 hlast
      have hleaf := closed_of_leaf ((children_of_open hn hc t).2 ht)
      obtain ⟨c, hinside, -⟩ := hlast.2.1
      obtain ⟨hs, hhs⟩ := List.getLast?_eq_some_iff.1 hinside
      have hitems : b.items = (b.opener :: itemsAll hs) ++ [c] := by simp [items, hc, hhs]
      refine ⟨rfl, rfl, stop_toNode b, ?_, innerStart_toNode b, ?_, ?_, ?_⟩
      · exact iff_of_true hleaf.1 (.inr hlast)
      · intro c' hc'
        rw [hc] at hc'
        cases hc'
      · intro _
        refine ⟨c, hinside, ?_⟩
        rw [hleaf.2, text_of_last hinside ht, start_of_last hp hitems]
      · exact fun _ h => absurd hlast h
    · have hleaf := open_of_no_leaf fun t ht =>
        hlast ((hloose hc).2 ⟨t, (children_of_open hn hc t).1 ht⟩)
      refine ⟨rfl, rfl, stop_toNode b, ?_, innerStart_toNode b, ?_, ?_, ?_⟩
      · rw [hleaf.1, hc]
        simp [hlast]
      · intro c' hc'
        rw [hc] at hc'
        cases hc'
      · exact fun h => absurd h hlast
      · exact fun _ _ => hleaf.2

end Block

namespace Document

/-- The blocks of a document are those that its tokens were nested to, one by one. A block is shown
as closed just if it was closed or is loose, and its inside reaches from the opening delimiter to
the closing one, or to the end of a block that has none. -/
theorem blocks_show_nesting (t : Text) :
    List.Forall₂ Block.Shows (Group.blocksAll (Group.nest (Item.mark (Token.lex glsl t))))
      ((parse glsl t).nodes.filter (·.kind.isBlock)) := by
  rw [blocks_parse, List.forall₂_map_right_iff, List.forall₂_same]
  intro b hb
  obtain ⟨s, hl⟩ := Group.lined_nest (Token.lex glsl t)
  have hnested := Group.nested_of_mem hl (Group.kept_nest _) hb
  obtain ⟨before, after, hitems⟩ := Group.exists_itemsAll _ hb
  rw [Group.itemsAll_nest] at hitems
  have hplaced := Item.placed_mark glsl t
  rw [hitems] at hplaced
  have hp := (Item.placed_append.1 (Item.placed_append.1 hplaced).2).1
  have hmarked : Item.Marked (before ++ (b.items ++ after)) := ⟨[], _, hitems⟩
  have hm : Item.Marked ([b.opener] ++ (itemsAll b.inside ++ b.closer.toList)) :=
    hmarked.right.left
  exact Block.shows_toNode hnested hp hm.right.left

/-- A brace behind an import closes no block, but the block that it comes last in is shown as
closed there. -/
theorem blocks_show_nesting_loose :
    (¬∀ t : Text, List.Forall₂ (fun b v => v.isClosed = true ↔ b.closer.isSome = true)
      (Group.blocksAll (Group.nest (Item.mark (Token.lex glsl t))))
      ((parse glsl t).nodes.filter (·.kind.isBlock))) ∧
    ¬∀ t : Text, List.Forall₂ (fun b v => b.closer.isSome = true ∨ v.innerStop = v.stop)
      (Group.blocksAll (Group.nest (Item.mark (Token.lex glsl t))))
      ((parse glsl t).nodes.filter (·.kind.isBlock)) := by
  let t := "\x7b@import \"x\"\x7d".toList
  have hblocks : (Group.blocksAll (Group.nest (Item.mark (Token.lex glsl t)))).map
      (·.closer.isSome) = [false] := by
    decide +kernel
  have hnodes : ((parse glsl t).nodes.filter (·.kind.isBlock)).map
      (fun v => (v.isClosed, v.innerStop, v.stop)) = [(true, 12, 13)] := by
    decide +kernel
  obtain ⟨b, hb, hopen⟩ := List.map_eq_singleton_iff.1 hblocks
  obtain ⟨v, hv, hshown⟩ := List.map_eq_singleton_iff.1 hnodes
  obtain ⟨hclosed, hstop⟩ := Prod.mk.inj hshown
  obtain ⟨hinner, hstop⟩ := Prod.mk.inj hstop
  constructor
  · intro h
    have hpair := h t
    rw [hb, hv, List.forall₂_cons] at hpair
    rw [hpair.1.1 hclosed] at hopen
    cases hopen
  · intro h
    have hpair := h t
    rw [hb, hv, List.forall₂_cons] at hpair
    rcases hpair.1 with hsome | heq
    · rw [hsome] at hopen
      cases hopen
    · rw [hinner, hstop] at heq
      cases heq

end Document

end ShaderInline
