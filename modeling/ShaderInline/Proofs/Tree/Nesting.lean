import Mathlib
import ShaderInline.Tree.Group

/-! # What nesting keeps

Nesting loses no item and changes no order. A closing delimiter becomes a stray
just if no block of it is open. A tag and the rest of its line stay next to each
other on one level: a block is neither opened nor ended there, and a line that
runs to the end of the text ends every block around it.
-/

namespace ShaderInline

namespace Group

@[simp] theorem itemsAll_nil : itemsAll [] = [] := rfl
@[simp] theorem itemsAll_cons (g : Group) (gs : List Group) :
    itemsAll (g :: gs) = items g ++ itemsAll gs := rfl
@[simp] theorem itemsAll_append (gs hs : List Group) :
    itemsAll (gs ++ hs) = itemsAll gs ++ itemsAll hs := by
  induction gs with
  | nil => rfl
  | cons g gs ih => simp [ih]

@[simp] theorem items_item (i : Item) : items (.item i) = [i] := rfl
@[simp] theorem items_stray (i : Item) : items (.stray i) = [i] := rfl
@[simp] theorem items_block (d : Delimiter) (o : Item) (inside : List Group) (c : Option Item) :
    items (.block d o inside c) = o :: (itemsAll inside ++ c.toList) := by rw [items]

theorem itemsAll_items (is : List Item) : itemsAll (is.map item) = is := by
  induction is with
  | nil => rfl
  | cons i is ih => simp [ih]

mutual

/-- The items of a group in order, each with whether it is a stray. -/
def marked : Group → List (Item × Bool)
  | item i => [(i, false)]
  | stray i => [(i, true)]
  | block _ o inside c => (o, false) :: (markedAll inside ++ c.toList.map (·, false))

def markedAll : List Group → List (Item × Bool)
  | [] => []
  | g :: gs => marked g ++ markedAll gs

end

@[simp] theorem markedAll_nil : markedAll [] = [] := rfl
@[simp] theorem markedAll_cons (g : Group) (gs : List Group) :
    markedAll (g :: gs) = marked g ++ markedAll gs := rfl
@[simp] theorem markedAll_append (gs hs : List Group) :
    markedAll (gs ++ hs) = markedAll gs ++ markedAll hs := by
  induction gs with
  | nil => rfl
  | cons g gs ih => simp [ih]

@[simp] theorem marked_item (i : Item) : marked (.item i) = [(i, false)] := rfl
@[simp] theorem marked_stray (i : Item) : marked (.stray i) = [(i, true)] := rfl
@[simp] theorem marked_block (d : Delimiter) (o : Item) (inside : List Group) (c : Option Item) :
    marked (.block d o inside c) = (o, false) :: (markedAll inside ++ c.toList.map (·, false)) := by
  rw [marked]

mutual

theorem items_eq_marked : ∀ g : Group, items g = (marked g).map (·.1)
  | item _ => rfl
  | stray _ => rfl
  | block _ _ inside c => by cases c <;> simp [itemsAll_eq_marked inside]

theorem itemsAll_eq_marked : ∀ gs : List Group, itemsAll gs = (markedAll gs).map (·.1)
  | [] => rfl
  | g :: gs => by simp [items_eq_marked g, itemsAll_eq_marked gs]

end

end Group

open ShaderInline.Group

/-! ### Strays -/

/-- What is open between two items: whether a tag's line is, and the delimiters of the open blocks
from the innermost outwards. -/
structure Openings where
  inTagLine : Bool
  delimiters : List Delimiter
  deriving DecidableEq, Repr

namespace Openings

def start : Openings := ⟨false, []⟩

def inLine (o : Openings) (i : Item) : Bool := o.inTagLine && !i.endsLine

/-- Whether an item is a closing delimiter of which no block is open. -/
def isStray (o : Openings) (i : Item) : Bool :=
  match i.token.kind with
  | .closer d => !o.inLine i && !o.delimiters.contains d
  | _ => false

/-- The delimiters that stay open after the innermost block of one of them has ended. -/
def close (d : Delimiter) : List Delimiter → List Delimiter
  | [] => []
  | d' :: ds => if d' = d then ds else close d ds

def step (o : Openings) (i : Item) : Openings :=
  if o.inLine i then o
  else
    ⟨i.token.kind == .tag,
      match i.token.kind with
      | .opener d => d :: o.delimiters
      | .closer d => if o.delimiters.contains d then close d o.delimiters else o.delimiters
      | _ => o.delimiters⟩

def strays : Openings → List Item → List (Item × Bool)
  | _, [] => []
  | o, i :: is => (i, o.isStray i) :: strays (o.step i) is

theorem map_fst_strays (o : Openings) (is : List Item) : (o.strays is).map (·.1) = is := by
  induction is generalizing o with
  | nil => rfl
  | cons i is ih => simp [strays, ih]

theorem closer_of_mem_strays {o : Openings} {is : List Item} {i : Item}
    (h : (i, true) ∈ o.strays is) : ∃ d, i.token.kind = .closer d := by
  induction is generalizing o with
  | nil => cases h
  | cons j is ih =>
    rcases List.mem_cons.1 h with heq | h
    · obtain ⟨rfl, hs⟩ := Prod.mk.inj heq
      rw [isStray] at hs
      split at hs
      next d hd => exact ⟨d, hd⟩
      next => cases hs
    · exact ih h

end Openings

namespace OpenBlock

def marked : List OpenBlock → List (Item × Bool)
  | [] => []
  | b :: bs => marked bs ++ (b.opener, false) :: markedAll b.inside.reverse

theorem marked_toGroup (b : OpenBlock) (inner : Option Group) (c : Option Item) :
    (b.toGroup inner c).marked =
      (b.opener, false) :: (markedAll b.inside.reverse ++ markedAll inner.toList) ++
        c.toList.map (·, false) := by
  cases inner <;> simp [toGroup]

theorem marked_close? {d : Delimiter} {c : Item} {inner : Option Group} {bs rest : List OpenBlock}
    {g : Group} (h : close? d c inner bs = some (g, rest)) :
    marked rest ++ g.marked = marked bs ++ markedAll inner.toList ++ [(c, false)] := by
  induction bs generalizing inner with
  | nil => simp [close?] at h
  | cons b bs ih =>
    rw [close?] at h
    split at h
    · obtain ⟨rfl, rfl⟩ := Prod.mk.inj (Option.some.inj h)
      simp [marked_toGroup, marked]
    · simp [ih h, marked_toGroup, marked]

theorem markedAll_closeAll (done : List Group) (inner : Option Group) (bs : List OpenBlock) :
    markedAll (closeAll done inner bs) =
      markedAll done.reverse ++ marked bs ++ markedAll inner.toList := by
  induction bs generalizing inner with
  | nil => cases inner <;> simp [closeAll, marked]
  | cons b bs ih => simp [closeAll, ih, marked_toGroup, marked]

theorem close?_delimiters (d : Delimiter) (c : Item) (inner : Option Group) (bs : List OpenBlock) :
    (close? d c inner bs).map (fun x => x.2.map (·.delimiter)) =
      if (bs.map (·.delimiter)).contains d then some (Openings.close d (bs.map (·.delimiter)))
      else none := by
  induction bs generalizing inner with
  | nil => simp [close?]
  | cons b bs ih =>
    rw [close?]
    split
    next hd => simp [Openings.close, hd]
    next hd => simp [Openings.close, hd, Ne.symm hd, ih]

end OpenBlock

namespace Nesting

def marked (n : Nesting) : List (Item × Bool) :=
  markedAll n.done.reverse ++ OpenBlock.marked n.blocks

def openings (n : Nesting) : Openings := ⟨n.inTagLine, n.blocks.map (·.delimiter)⟩

@[simp] theorem inTagLine_push (g : Group) (n : Nesting) : (n.push g).inTagLine = n.inTagLine := by
  rw [push]; split <;> rfl

@[simp] theorem openings_push (g : Group) (n : Nesting) : (n.push g).openings = n.openings := by
  obtain ⟨b, blocks, done⟩ := n
  cases blocks <;> rfl

theorem marked_push (g : Group) (n : Nesting) : (n.push g).marked = n.marked ++ g.marked := by
  obtain ⟨b, blocks, done⟩ := n
  cases blocks <;> simp [push, marked, OpenBlock.marked]

theorem marked_step (n : Nesting) (i : Item) :
    (n.step i).marked = n.marked ++ [(i, n.openings.isStray i)] ∧
      (n.step i).openings = n.openings.step i := by
  have hline : n.openings.inLine i = (n.inTagLine && !i.endsLine) := rfl
  rw [step, Openings.step, Openings.isStray, hline]
  split
  next hl =>
    rw [marked_push, openings_push, hl]
    refine ⟨?_, rfl⟩
    simp only [marked_item]
    split <;> simp
  next hl =>
    rw [Bool.not_eq_true] at hl
    simp only [hl, Bool.not_false, Bool.true_and]
    split
    next d hk => simp [hk, marked, OpenBlock.marked, openings]
    next d hk =>
      have hclose := OpenBlock.close?_delimiters d i none n.blocks
      split
      next g rest hc =>
        have hmarked := OpenBlock.marked_close? hc
        rw [hc, Option.map_some] at hclose
        split at hclose
        next hd =>
          rw [marked_push, openings_push]
          simp_all [marked, openings]
        next => cases hclose
      next hc =>
        rw [hc, Option.map_none] at hclose
        split at hclose
        next => cases hclose
        next hd =>
          rw [marked_push, openings_push]
          simp_all [marked, openings]
    next =>
      rw [marked_push, openings_push]
      simp_all [marked, openings]

theorem marked_foldl (is : List Item) (n : Nesting) :
    (is.foldl step n).marked = n.marked ++ n.openings.strays is := by
  induction is generalizing n with
  | nil => simp [Openings.strays]
  | cons i is ih =>
    obtain ⟨hmarked, hopen⟩ := marked_step n i
    rw [List.foldl_cons, ih, hmarked, hopen, Openings.strays]
    simp

end Nesting

/-- Nesting keeps the order of the items and finds the strays. -/
theorem Group.markedAll_nest (is : List Item) : markedAll (nest is) = Openings.start.strays is := by
  have h : (is.foldl Nesting.step .start).marked = Openings.start.strays is :=
    Nesting.marked_foldl is .start
  rw [nest, Nesting.finish, OpenBlock.markedAll_closeAll, ← h]
  simp [Nesting.marked]

theorem Group.itemsAll_nest (is : List Item) : itemsAll (nest is) = is := by
  rw [itemsAll_eq_marked, markedAll_nest, Openings.map_fst_strays]

/-! ### Lines of tags are not nested -/

namespace Item

def keepsLine (b : Bool) (i : Item) : Bool := b && !i.endsLine || i.token.kind == .tag

end Item

/-- The groups between two states of reading a tag's line. The last state is missing if the line
goes on to the end of the text inside a block. -/
inductive Lined : Bool → List Group → Option Bool → Prop where
  | nil (b : Bool) : Lined b [] (some b)
  | item {b : Bool} {i : Item} {gs : List Group} {s : Option Bool} :
      (i.endsLine = true → i.token.kind = .newline) →
      Lined (i.keepsLine b) gs s → Lined b (.item i :: gs) s
  | stray {d : Delimiter} {i : Item} {gs : List Group} {s : Option Bool} :
      i.token.kind = .closer d → Lined false gs s → Lined false (.stray i :: gs) s
  | block {d : Delimiter} {o : Item} {inside gs : List Group} {c : Option Item}
      {s : Option Bool} : o.token.kind = .opener d → (∀ i ∈ c, i.token.kind = .closer d) →
      Lined false inside (some false) → Lined false gs s →
      Lined false (.block d o inside c :: gs) s
  | last {d : Delimiter} {o : Item} {inside : List Group} {s : Option Bool} :
      o.token.kind = .opener d → Lined false inside s → s ≠ some false →
      Lined false [.block d o inside none] none

theorem Lined.append {b b' : Bool} {gs hs : List Group} {s : Option Bool}
    (h : Lined b gs (some b')) (h' : Lined b' hs s) : Lined b (gs ++ hs) s := by
  generalize hs' : some b' = s' at h
  induction h with
  | nil b => cases hs'; exact h'
  | item hi _ ih => exact .item hi (ih hs')
  | stray hi _ ih => exact .stray hi (ih hs')
  | block ho hc hin _ _ ih => exact .block ho hc hin (ih hs')
  | last => cases hs'

namespace Nesting

/-- Only the innermost level can be inside a tag's line. -/
def Held (b : Bool) : List OpenBlock → List Group → Prop
  | [], done => Lined false done.reverse (some b)
  | o :: os, done => o.opener.token.kind = .opener o.delimiter ∧
      Lined false o.inside.reverse (some b) ∧ Held false os done

theorem Held.push {b b' : Bool} {n : Nesting} {g : Group} (h : Held b n.blocks n.done)
    (hg : Lined b [g] (some b')) : Held b' (n.push g).blocks (n.push g).done := by
  obtain ⟨l, blocks, done⟩ := n
  cases blocks with
  | nil => simpa [Nesting.push, Held] using Lined.append h hg
  | cons o os => exact ⟨h.1, by simpa using h.2.1.append hg, h.2.2⟩

theorem reverse_toList {α : Type} (x : Option α) : x.toList.reverse = x.toList := by
  cases x <;> rfl

theorem lined_toGroup {o : OpenBlock} {inner : Option Group} {c : Option Item}
    (ho : o.opener.token.kind = .opener o.delimiter)
    (h : Lined false o.inside.reverse (some false))
    (hi : Lined false inner.toList (some false))
    (hc : ∀ i ∈ c, i.token.kind = .closer o.delimiter) :
    Lined false [o.toGroup inner c] (some false) := by
  rw [← reverse_toList] at hi
  exact .block ho hc (by simpa using h.append hi) (.nil false)

theorem held_close? {d : Delimiter} {c : Item} {inner : Option Group} {bs rest : List OpenBlock}
    {g : Group} {done : List Group} (hc : c.token.kind = .closer d) (h : Held false bs done)
    (hi : Lined false inner.toList (some false))
    (hg : OpenBlock.close? d c inner bs = some (g, rest)) :
    Held false rest done ∧ Lined false [g] (some false) := by
  induction bs generalizing inner with
  | nil => simp [OpenBlock.close?] at hg
  | cons b bs ih =>
    rw [OpenBlock.close?] at hg
    split at hg
    next hd =>
      obtain ⟨rfl, rfl⟩ := Prod.mk.inj (Option.some.inj hg)
      exact ⟨h.2.2, lined_toGroup h.1 h.2.1 hi (by simp [hc, hd])⟩
    next =>
      have hb : Lined false [b.toGroup inner none] (some false) :=
        lined_toGroup h.1 h.2.1 hi (by simp)
      exact ih h.2.2 (by simpa using hb) hg

theorem Held.step {n : Nesting} {i : Item} (hi : i.endsLine = true → i.token.kind = .newline)
    (h : Held n.inTagLine n.blocks n.done) :
    Held (n.step i).inTagLine (n.step i).blocks (n.step i).done := by
  have hitem : Lined n.inTagLine [.item i] (some (i.keepsLine n.inTagLine)) := .item hi (.nil _)
  rw [Nesting.step]
  split
  next hline =>
    have hkeep : i.keepsLine n.inTagLine = true := by simp [Item.keepsLine, hline]
    have htag : (n.push (.item i)).inTagLine = true := by
      rw [Bool.and_eq_true] at hline
      rw [Nesting.inTagLine_push, hline.1]
    rw [htag, ← hkeep]
    exact h.push hitem
  next hline =>
    have hkeep : i.keepsLine n.inTagLine = (i.token.kind == .tag) := by
      simp_all [Item.keepsLine]
    -- a line break ends the line, so a delimiter is met outside of it only
    have hout : i.token.kind ≠ .newline → n.inTagLine = false := by
      intro hk
      by_contra hb
      exact hk (hi (by simp_all))
    simp only
    split
    next d hk =>
      rw [hout (by simp [hk])] at h
      have hopen : (i.token.kind == Kind.tag) = false := by simp [hk]
      rw [hopen]
      exact ⟨hk, .nil false, h⟩
    next d hk =>
      rw [hout (by simp [hk])] at h
      have hclose : (i.token.kind == Kind.tag) = false := by simp [hk]
      rw [hclose]
      split
      next g rest hg =>
        have hnone : Lined false (Option.toList (none : Option Group)) (some false) := .nil false
        obtain ⟨hrest, hlined⟩ := held_close? hk h hnone hg
        rw [Nesting.inTagLine_push]
        exact Held.push hrest hlined
      next =>
        rw [Nesting.inTagLine_push]
        exact Held.push h (.stray hk (.nil false))
    next =>
      rw [Nesting.inTagLine_push, ← hkeep]
      exact Held.push h hitem

theorem Held.foldl {is : List Item} (his : ∀ i ∈ is, i.endsLine = true → i.token.kind = .newline)
    {n : Nesting} (h : Held n.inTagLine n.blocks n.done) :
    Held (is.foldl Nesting.step n).inTagLine (is.foldl Nesting.step n).blocks
      (is.foldl Nesting.step n).done := by
  induction is generalizing n with
  | nil => exact h
  | cons i is ih =>
    exact ih (fun j hj => his j (List.mem_cons_of_mem _ hj)) (h.step (his i List.mem_cons_self))

/-- A line that is still being read reaches to the end of every open block around it. -/
theorem Held.closeAll {b : Bool} {bs : List OpenBlock} {done : List Group} {inner : Option Group}
    {s : Option Bool} (h : Held b bs done) (hi : Lined b inner.toList s) :
    ∃ s', Lined false (OpenBlock.closeAll done inner bs) s' := by
  induction bs generalizing b inner s with
  | nil => exact ⟨s, by simpa [OpenBlock.closeAll, reverse_toList] using Lined.append h hi⟩
  | cons o os ih =>
    have hin := h.2.1.append hi
    rw [← reverse_toList inner, ← List.reverse_append] at hin
    by_cases hs : s = some false
    · subst hs
      exact ih h.2.2 (s := some false) (.block h.1 (by simp) hin (.nil false))
    · exact ih h.2.2 (.last h.1 hin hs)

end Nesting

namespace Item

theorem kind_of_endsLine {ts : List Token} {last : Text} :
    ∀ i ∈ markAfter last ts, i.endsLine = true → i.token.kind = .newline := by
  induction ts generalizing last with
  | nil => simp [markAfter]
  | cons t ts ih =>
    rintro i hi he
    rcases List.mem_cons.1 hi with rfl | hi
    · simpa using (Bool.and_eq_true_iff.1 he).1
    · exact ih i hi he

end Item

theorem Group.lined_nest (ts : List Token) : ∃ s, Lined false (nest (Item.mark ts)) s :=
  Nesting.Held.closeAll (Nesting.Held.foldl Item.kind_of_endsLine (n := .start) (.nil false))
    (.nil _ : Lined _ (Option.toList none) _)

end ShaderInline
