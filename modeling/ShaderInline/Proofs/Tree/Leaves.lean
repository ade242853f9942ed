import ShaderInline.Proofs.Token.Cut
import ShaderInline.Proofs.Tree.Nesting
import ShaderInline.Tree.View

/-! # The leaves of a parsed text

The leaves of a document are the pieces of its text, in order and at their
places. Only a closing delimiter that closes nothing has another kind.
-/

namespace ShaderInline

open ShaderInline.Group (itemsAll wrap toTree toTrees leafOf)

namespace Tree

@[simp] theorem leavesAll_nil : leavesAll [] = [] := rfl
@[simp] theorem leavesAll_cons (t : Tree) (ts : List Tree) :
    leavesAll (t :: ts) = t.leaves ++ leavesAll ts := by rw [leavesAll]
@[simp] theorem leavesAll_append (ts us : List Tree) :
    leavesAll (ts ++ us) = leavesAll ts ++ leavesAll us := by
  induction ts with
  | nil => rfl
  | cons t ts ih => simp [ih]

@[simp] theorem leaves_leaf (k : Kind) (t : Text) : (leaf k t).leaves = [(k, t)] := by rw [leaves]
@[simp] theorem leaves_node (k : Kind) (ts : List Tree) : (node k ts).leaves = leavesAll ts := by
  rw [leaves]

def placeLeaves : Nat → List (Kind × Text) → List Leaf
  | _, [] => []
  | n, (k, t) :: ls => ⟨n, k, t⟩ :: placeLeaves (n + Text.size t) ls

theorem placeLeaves_append (n : Nat) (ls ms : List (Kind × Text)) :
    placeLeaves n (ls ++ ms) =
      placeLeaves n ls ++ placeLeaves (n + Text.size (ls.flatMap (·.2))) ms := by
  induction ls generalizing n with
  | nil => simp [placeLeaves]
  | cons l ls ih => simp [placeLeaves, ih, Nat.add_assoc]

mutual

theorem text_eq_leaves : ∀ t : Tree, t.text = t.leaves.flatMap (·.2)
  | leaf _ _ => by simp [text]
  | node _ cs => by rw [text, leaves, textAll_eq_leaves cs]

theorem textAll_eq_leaves : ∀ ts : List Tree, textAll ts = (leavesAll ts).flatMap (·.2)
  | [] => rfl
  | t :: ts => by simp [textAll, text_eq_leaves t, textAll_eq_leaves ts]

end

mutual

theorem leavesFrom_eq : ∀ (n : Nat) (t : Tree), leavesFrom n t = placeLeaves n t.leaves
  | _, leaf _ _ => by simp [leavesFrom, placeLeaves]
  | n, node _ cs => by rw [leavesFrom, leaves, leavesAllFrom_eq n cs]

theorem leavesAllFrom_eq : ∀ (n : Nat) (ts : List Tree),
    leavesAllFrom n ts = placeLeaves n (leavesAll ts)
  | _, [] => rfl
  | n, t :: ts => by
    rw [leavesAllFrom, leavesFrom_eq n t, leavesAllFrom_eq _ ts, leavesAll_cons,
      placeLeaves_append, ← text_eq_leaves, size_eq]

end

end Tree

namespace Group

open ShaderInline.Tree

@[simp] theorem toTrees_nil (s : Schema) : toTrees s [] = [] := rfl
@[simp] theorem toTrees_cons (s : Schema) (g : Group) (gs : List Group) :
    toTrees s (g :: gs) = toTree s g :: toTrees s gs := by rw [toTrees]
@[simp] theorem toTrees_append (s : Schema) (gs hs : List Group) :
    toTrees s (gs ++ hs) = toTrees s gs ++ toTrees s hs := by
  induction gs with
  | nil => rfl
  | cons g gs ih => simp [ih]

@[simp] theorem length_toTrees (s : Schema) (gs : List Group) :
    (toTrees s gs).length = gs.length := by
  induction gs with
  | nil => rfl
  | cons g gs ih => simp [ih]

theorem wrap_eq_drop (s : Schema) (k : Nat) (gs : List Group) (ts : List Tree) :
    wrap s k gs ts = wrap s 0 (gs.drop k) (ts.drop k) := by
  induction k generalizing gs ts with
  | zero => rfl
  | succ k ih =>
    cases gs with
    | nil => simp [wrap]
    | cons g gs =>
      cases ts with
      | nil => cases gs.drop k <;> simp [wrap]
      | cons t ts => simpa [wrap] using ih gs ts

theorem toTrees_items (s : Schema) (is : List Item) :
    toTrees s (is.map item) = is.map leafOf := by
  induction is with
  | nil => rfl
  | cons i is ih => simp [ih, toTree]

theorem leavesAll_wrap (s : Schema) {k : Nat} {gs : List Group} {ts : List Tree}
    (h : gs.length = ts.length) : leavesAll (wrap s k gs ts) = leavesAll (ts.drop k) := by
  induction gs generalizing k ts with
  | nil =>
    obtain rfl : ts = [] := List.eq_nil_of_length_eq_zero h.symm
    cases k <;> simp [wrap]
  | cons g gs ih =>
    obtain ⟨t, ts, rfl⟩ := List.exists_cons_of_length_eq_add_one h.symm
    have h' : gs.length = ts.length := Nat.succ.inj h
    cases k with
    | succ k => simpa [wrap] using ih h'
    | zero =>
      rw [wrap]
      split
      next k extra _ =>
        have hsplit := congrArg leavesAll (ts.take_append_drop extra)
        rw [leavesAll_append] at hsplit
        simp [ih h', ← hsplit]
      next => simp [ih h']

end Group

namespace Item

def piece (i : Item) : Piece := i.token.piece

@[simp] theorem text_piece (i : Item) : i.piece.text = i.token.text := rfl
@[simp] theorem kind_piece (i : Item) : i.piece.kind = i.token.kind := rfl

theorem map_piece_markAfter (last : Text) (ts : List Token) :
    (markAfter last ts).map piece = ts.map Token.piece := by
  induction ts generalizing last with
  | nil => rfl
  | cons t ts ih => simp [markAfter, ih, piece]

end Item

namespace Group

open ShaderInline.Tree

/-- The leaf that an item becomes; a stray becomes an error. -/
def leafMarked (x : Item × Bool) : Kind × Text :=
  (if x.2 then .error else x.1.token.kind, x.1.token.text)

mutual

theorem leaves_toTree (s : Schema) : ∀ g : Group, (toTree s g).leaves = (marked g).map leafMarked
  | item _ => by simp [toTree, leafOf, leafMarked]
  | stray _ => by simp [toTree, leafMarked]
  | block _ _ inside c => by
    have hin := leavesAll_toTrees s inside
    cases c <;> simp [toTree, leavesAll_wrap, leafOf, leafMarked, hin]

theorem leavesAll_toTrees (s : Schema) : ∀ gs : List Group,
    leavesAll (toTrees s gs) = (markedAll gs).map leafMarked
  | [] => rfl
  | g :: gs => by simp [leaves_toTree s g, leavesAll_toTrees s gs]

end

theorem flatMap_leafMarked (xs : List (Item × Bool)) :
    (xs.map leafMarked).flatMap (·.2) = Piece.textAll ((xs.map (·.1)).map Item.piece) := by
  induction xs with
  | nil => rfl
  | cons x xs ih => simpa [leafMarked] using ih

theorem text_toTree (s : Schema) (g : Group) :
    (toTree s g).text = Piece.textAll ((items g).map Item.piece) := by
  rw [text_eq_leaves, leaves_toTree, flatMap_leafMarked, items_eq_marked]

theorem textAll_toTrees (s : Schema) (gs : List Group) :
    Tree.textAll (toTrees s gs) = Piece.textAll ((itemsAll gs).map Item.piece) := by
  rw [textAll_eq_leaves, leavesAll_toTrees, flatMap_leafMarked, itemsAll_eq_marked]

end Group

def Piece.IsLeaf (p : Piece) (l : Kind × Text) : Prop :=
  l.2 = p.text ∧ (l.1 = p.kind ∨ l.1 = .error ∧ ∃ d, p.kind = .closer d)

namespace Document

open ShaderInline.Tree

theorem map_piece_nest (s : Schema) (t : Text) :
    (itemsAll (Group.nest (Item.mark (Token.lex s t)))).map Item.piece = Piece.ofText s t := by
  rw [Group.itemsAll_nest, Item.mark, Item.map_piece_markAfter, Piece.ofText]

/-- The leaves are the tokens in their order, with the strays as errors. -/
theorem root_leaves_parse (s : Schema) (t : Text) : (parse s t).root.leaves =
    (Openings.start.strays (Item.mark (Token.lex s t))).map Group.leafMarked := by
  rw [parse, ofTokens, leaves_node, Group.leavesAll_wrap s (by simp), List.drop_zero,
    Group.leavesAll_toTrees, Group.markedAll_nest]

theorem isLeaf_parse (s : Schema) (t : Text) :
    List.Forall₂ Piece.IsLeaf (Piece.ofText s t) (parse s t).root.leaves := by
  have hpieces := map_piece_nest s t
  rw [Group.itemsAll_nest, ← Openings.map_fst_strays .start (Item.mark _)] at hpieces
  rw [← hpieces, root_leaves_parse, List.map_map, List.forall₂_map_left_iff,
    List.forall₂_map_right_iff, List.forall₂_same]
  rintro ⟨i, stray⟩ hi
  refine ⟨rfl, ?_⟩
  cases stray with
  | false => exact .inl rfl
  | true => exact .inr ⟨rfl, Openings.closer_of_mem_strays hi⟩

theorem leaves_parse (s : Schema) (t : Text) :
    (parse s t).leaves = placeLeaves 0 (parse s t).root.leaves := leavesFrom_eq 0 _

@[simp] theorem text_parse (s : Schema) (t : Text) : (parse s t).text = t := by
  rw [text, text_eq_leaves, root_leaves_parse, Group.flatMap_leafMarked, Openings.map_fst_strays,
    Item.mark, Item.map_piece_markAfter]
  exact Piece.textAll_ofText s t

@[simp] theorem size_parse (s : Schema) (t : Text) : (parse s t).size = Text.size t := by
  rw [size, size_eq, ← text, text_parse]

end Document
end ShaderInline
