import ShaderInline.Schema.Glsl
import ShaderInline.Proofs.Tree.Lossless

/-! # Matching delimiters

A closing delimiter ends a block of its own kind, or it is a stray that none of
the blocks around it waits for. Where the delimiters of some tokens are properly
nested, the blocks are just the pairs of matching delimiters.
-/

namespace ShaderInline

/-! ### Blocks and strays -/

/-- Groups inside of blocks of given delimiters, the innermost first. A block stands between
delimiters of its kind; a stray closes none of the blocks around it. -/
inductive Group.WellNested : List Delimiter → List Group → Prop where
  | nil (ds : List Delimiter) : WellNested ds []
  | item {ds : List Delimiter} {i : Item} {gs : List Group} :
      WellNested ds gs → WellNested ds (.item i :: gs)
  | stray {ds : List Delimiter} {d : Delimiter} {i : Item} {gs : List Group} :
      i.token.kind = .closer d → d ∉ ds → WellNested ds gs → WellNested ds (.stray i :: gs)
  | block {ds : List Delimiter} {d : Delimiter} {o : Item} {inside gs : List Group}
      {c : Option Item} : o.token.kind = .opener d → (∀ i ∈ c, i.token.kind = .closer d) →
      WellNested (d :: ds) inside → WellNested ds gs → WellNested ds (.block d o inside c :: gs)

open ShaderInline.Group

theorem Group.WellNested.append {ds : List Delimiter} {gs hs : List Group}
    (h : WellNested ds gs) (h' : WellNested ds hs) : WellNested ds (gs ++ hs) := by
  induction h with
  | nil => exact h'
  | item _ ih => exact .item (ih h')
  | stray hi hd _ ih => exact .stray hi hd (ih h')
  | block ho hc hin _ _ ih => exact .block ho hc hin (ih h')

namespace OpenBlock

def WellNested : List OpenBlock → List Group → Prop
  | [], done => Group.WellNested [] done.reverse
  | b :: bs, done => b.opener.token.kind = .opener b.delimiter ∧
      Group.WellNested ((b :: bs).map (·.delimiter)) b.inside.reverse ∧ WellNested bs done

variable {d : Delimiter} {ds : List Delimiter} {b : OpenBlock} {bs rest : List OpenBlock}
  {inner : Option Group} {g : Group} {done : List Group}

theorem wellNested_toGroup {c : Option Item} (ho : b.opener.token.kind = .opener b.delimiter)
    (hin : Group.WellNested (b.delimiter :: ds) b.inside.reverse)
    (hinner : Group.WellNested (b.delimiter :: ds) inner.toList)
    (hc : ∀ i ∈ c, i.token.kind = .closer b.delimiter) :
    Group.WellNested ds [b.toGroup inner c] := by
  refine .block ho hc ?_ (.nil ds)
  rw [List.reverse_append, Nesting.reverse_toList]
  exact hin.append hinner

theorem wellNested_close? {c : Item} (hc : c.token.kind = .closer d) (h : WellNested bs done)
    (hinner : Group.WellNested (bs.map (·.delimiter)) inner.toList)
    (hg : close? d c inner bs = some (g, rest)) :
    WellNested rest done ∧ Group.WellNested (rest.map (·.delimiter)) [g] := by
  induction bs generalizing inner with
  | nil => cases hg
  | cons b bs ih =>
    obtain ⟨ho, hin, hbs⟩ := h
    rw [close?] at hg
    split at hg
    next hd =>
      obtain ⟨rfl, rfl⟩ := Prod.mk.inj (Option.some.inj hg)
      refine ⟨hbs, wellNested_toGroup ho hin hinner ?_⟩
      simp [hc, hd]
    next =>
      have hb : Group.WellNested (bs.map (·.delimiter)) (some (b.toGroup inner none)).toList :=
        wellNested_toGroup ho hin hinner (by simp)
      exact ih hbs hb hg

theorem not_mem_of_close? {c : Item} (h : close? d c inner bs = none) :
    d ∉ bs.map (·.delimiter) := by
  have hclose := close?_delimiters d c inner bs
  rw [h] at hclose
  split at hclose
  next => cases hclose
  next hd => simpa using hd

theorem wellNested_closeAll (h : WellNested bs done)
    (hinner : Group.WellNested (bs.map (·.delimiter)) inner.toList) :
    Group.WellNested [] (closeAll done inner bs) := by
  induction bs generalizing inner with
  | nil =>
    rw [closeAll, List.reverse_append, Nesting.reverse_toList]
    exact Group.WellNested.append h hinner
  | cons b bs ih =>
    obtain ⟨ho, hin, hbs⟩ := h
    have hb : Group.WellNested (bs.map (·.delimiter)) (some (b.toGroup inner none)).toList :=
      wellNested_toGroup ho hin hinner (by simp)
    exact ih hbs hb

end OpenBlock

namespace Nesting

variable {n : Nesting}

theorem wellNested_push {g : Group} (h : OpenBlock.WellNested n.blocks n.done)
    (hg : WellNested (n.blocks.map (·.delimiter)) [g]) :
    OpenBlock.WellNested (n.push g).blocks (n.push g).done := by
  obtain ⟨l, blocks, done⟩ := n
  cases blocks with
  | nil =>
    rw [push, OpenBlock.WellNested, List.reverse_cons]
    exact Group.WellNested.append h hg
  | cons b bs =>
    obtain ⟨ho, hin, hbs⟩ := h
    refine ⟨ho, ?_, hbs⟩
    rw [List.reverse_cons]
    exact hin.append hg

theorem wellNested_step (i : Item) (h : OpenBlock.WellNested n.blocks n.done) :
    OpenBlock.WellNested (n.step i).blocks (n.step i).done := by
  rw [step]
  split
  next => exact wellNested_push h (.item (.nil _))
  next =>
    simp only
    split
    next d hk => exact ⟨hk, .nil _, h⟩
    next d hk =>
      split
      next g rest hg =>
        obtain ⟨hrest, hblock⟩ := OpenBlock.wellNested_close? hk h (.nil _) hg
        exact wellNested_push hrest hblock
      next hg => exact wellNested_push h (.stray hk (OpenBlock.not_mem_of_close? hg) (.nil _))
    next => exact wellNested_push h (.item (.nil _))

theorem wellNested_foldl (is : List Item) (h : OpenBlock.WellNested n.blocks n.done) :
    OpenBlock.WellNested (is.foldl step n).blocks (is.foldl step n).done := by
  induction is generalizing n with
  | nil => exact h
  | cons i is ih => exact ih (wellNested_step i h)

end Nesting

theorem Group.wellNested_nest (is : List Item) : WellNested [] (nest is) :=
  OpenBlock.wellNested_closeAll (Nesting.wellNested_foldl is (.nil [])) (.nil _)

/-! ### Pairs of delimiters -/

namespace Token

/-- Tokens whose delimiters form properly nested pairs. -/
inductive Balanced : List Token → Prop where
  | nil : Balanced []
  | other {t : Token} {ts : List Token} :
      (∀ d, t.kind ≠ .opener d ∧ t.kind ≠ .closer d) → Balanced ts → Balanced (t :: ts)
  | pair {d : Delimiter} {o c : Token} {ts us : List Token} : o.kind = .opener d →
      c.kind = .closer d → Balanced ts → Balanced us → Balanced (o :: (ts ++ c :: us))

/-- Whether the tokens at two places are a pair of delimiters, with balanced tokens between. -/
def IsPair (ts : List Token) (d : Delimiter) (i j : Nat) : Prop :=
  ∃ as o bs c cs, ts = as ++ o :: (bs ++ c :: cs) ∧ as.length = i ∧ i + 1 + bs.length = j ∧
    o.kind = .opener d ∧ c.kind = .closer d ∧ Balanced bs

def turn (t : Token) : Int :=
  match t.kind with
  | .opener _ => 1
  | .closer _ => -1
  | _ => 0

def depth (ts : List Token) : Int := (ts.map turn).sum

@[simp] theorem depth_nil : depth [] = 0 := rfl
@[simp] theorem depth_cons (t : Token) (ts : List Token) : depth (t :: ts) = turn t + depth ts := by
  simp [depth]
@[simp] theorem depth_append (ts us : List Token) : depth (ts ++ us) = depth ts + depth us := by
  simp [depth]

variable {d : Delimiter} {t : Token} {ts us : List Token}

theorem turn_opener (h : t.kind = .opener d) : turn t = 1 := by rw [turn, h]

theorem turn_closer (h : t.kind = .closer d) : turn t = -1 := by rw [turn, h]

theorem turn_other (h : ∀ d, t.kind ≠ .opener d ∧ t.kind ≠ .closer d) : turn t = 0 := by
  rw [turn]
  split
  next d hd => exact absurd hd (h d).1
  next d hd => exact absurd hd (h d).2
  next => rfl

namespace Balanced

theorem depth_eq_zero (h : Balanced ts) : depth ts = 0 := by
  induction h with
  | nil => rfl
  | other ht _ ih => rw [depth_cons, turn_other ht, ih, add_zero]
  | pair ho hc _ _ ih ih' =>
    rw [depth_cons, depth_append, depth_cons, turn_opener ho, turn_closer hc, ih, ih']
    rfl

theorem depth_nonneg (h : Balanced ts) {p q : List Token} (hp : ts = p ++ q) : 0 ≤ depth p := by
  induction h generalizing p q with
  | nil =>
    obtain ⟨rfl, rfl⟩ := List.nil_eq_append_iff.1 hp
    rfl
  | other ht _ ih =>
    rcases List.cons_eq_append_iff.1 hp with ⟨rfl, -⟩ | ⟨p', rfl, hp'⟩
    · rfl
    · rw [depth_cons, turn_other ht, zero_add]
      exact ih hp'
  | pair ho hc hts _ ih ih' =>
    rcases List.cons_eq_append_iff.1 hp with ⟨rfl, -⟩ | ⟨p', rfl, hp'⟩
    · rfl
    rw [depth_cons, turn_opener ho]
    rcases List.append_eq_append_iff.1 hp' with ⟨m, rfl, hm⟩ | ⟨m, hm, -⟩
    · rw [depth_append, hts.depth_eq_zero]
      rcases List.cons_eq_append_iff.1 hm with ⟨rfl, -⟩ | ⟨m', rfl, hm'⟩
      · decide
      · have := ih' hm'
        rw [depth_cons, turn_closer hc]
        omega
    · have := ih hm
      omega

theorem kind_ne_closer (h : Balanced ts) (h' : Balanced (ts ++ t :: us)) : t.kind ≠ .closer d := by
  intro ht
  have hdepth := h'.depth_nonneg (p := ts ++ [t]) (q := us) (by simp)
  rw [depth_append, h.depth_eq_zero, depth_cons, turn_closer ht, depth_nil] at hdepth
  omega

end Balanced

namespace IsPair

variable {d' : Delimiter} {i j j' : Nat}

theorem unique (h : IsPair ts d i j) (h' : IsPair ts d' i j') : j = j' := by
  obtain ⟨as, o, bs, c, cs, rfl, rfl, rfl, -, hc, hbs⟩ := h
  obtain ⟨as', o', bs', c', cs', heq, hlen, rfl, -, hc', hbs'⟩ := h'
  obtain ⟨rfl, hrest⟩ := List.append_inj heq hlen.symm
  obtain ⟨-, hinside⟩ := List.cons_eq_cons.1 hrest
  rcases List.append_eq_append_iff.1 hinside with ⟨m, rfl, hm⟩ | ⟨m, rfl, hm⟩
  · rcases List.cons_eq_append_iff.1 hm with ⟨rfl, -⟩ | ⟨m', rfl, -⟩
    · simp
    · exact absurd hc (hbs.kind_ne_closer hbs')
  · rcases List.cons_eq_append_iff.1 hm with ⟨rfl, -⟩ | ⟨m', rfl, -⟩
    · simp
    · exact absurd hc' (hbs'.kind_ne_closer hbs)

theorem opener (h : IsPair ts d i j) : ∃ o, ts[i]? = some o ∧ o.kind = .opener d := by
  obtain ⟨as, o, bs, c, cs, rfl, rfl, -, ho, -, -⟩ := h
  exact ⟨o, by simp, ho⟩

theorem append (h : IsPair ts d i j) (us vs : List Token) :
    IsPair (us ++ (ts ++ vs)) d (us.length + i) (us.length + j) := by
  obtain ⟨as, o, bs, c, cs, rfl, rfl, rfl, ho, hc, hbs⟩ := h
  refine ⟨us ++ as, o, bs, c, cs ++ vs, by simp, by simp, by omega, ho, hc, hbs⟩

end IsPair
end Token

/-! ### The blocks of balanced tokens -/

structure Span where
  delimiter : Delimiter
  opener : Nat
  closer : Option Nat
  deriving DecidableEq, Repr

namespace Group

mutual

def spans (n : Nat) : Group → List Span
  | item _ => []
  | stray _ => []
  | block d _ inside c =>
    ⟨d, n, c.map fun _ => n + 1 + (itemsAll inside).length⟩ :: spansAll (n + 1) inside

def spansAll (n : Nat) : List Group → List Span
  | [] => []
  | g :: gs => spans n g ++ spansAll (n + (items g).length) gs

end

inductive Paired : List Group → Prop where
  | nil : Paired []
  | item {i : Item} {gs : List Group} :
      (∀ d, i.token.kind ≠ .opener d ∧ i.token.kind ≠ .closer d) → Paired gs →
      Paired (.item i :: gs)
  | block {d : Delimiter} {o c : Item} {inside gs : List Group} : o.token.kind = .opener d →
      c.token.kind = .closer d → Paired inside → Paired gs →
      Paired (.block d o inside (some c) :: gs)

def tokensAll (gs : List Group) : List Token := (itemsAll gs).map (·.token)

theorem tokensAll_item (i : Item) (gs : List Group) :
    tokensAll (.item i :: gs) = i.token :: tokensAll gs := by
  simp [tokensAll]

theorem tokensAll_block (d : Delimiter) (o c : Item) (inside gs : List Group) :
    tokensAll (.block d o inside (some c) :: gs) =
      o.token :: (tokensAll inside ++ c.token :: tokensAll gs) := by
  simp [tokensAll]

theorem spansAll_item (n : Nat) (i : Item) (gs : List Group) :
    spansAll n (.item i :: gs) = spansAll (n + 1) gs := rfl

theorem spansAll_block (n : Nat) (d : Delimiter) (o c : Item) (inside gs : List Group) :
    spansAll n (.block d o inside (some c) :: gs) =
      ⟨d, n, some (n + 1 + (tokensAll inside).length)⟩ :: (spansAll (n + 1) inside ++
        spansAll (n + 1 + (tokensAll inside).length + 1) gs) := by
  have hlen : n + (items (.block d o inside (some c))).length =
      n + 1 + (tokensAll inside).length + 1 := by
    simp [tokensAll]
    omega
  rw [spansAll, spans, hlen]
  simp [tokensAll]

namespace Paired

variable {gs : List Group} {n : Nat}

theorem balanced (h : Paired gs) : Token.Balanced (tokensAll gs) := by
  induction h with
  | nil => exact .nil
  | item hi _ ih =>
    rw [tokensAll_item]
    exact .other hi ih
  | block ho hc _ _ ih ih' =>
    rw [tokensAll_block]
    exact .pair ho hc ih ih'

theorem not_mem_markedAll (h : Paired gs) (i : Item) : (i, true) ∉ markedAll gs := by
  induction h with
  | nil => simp
  | item _ _ ih => simpa using ih
  | block _ _ _ _ ih ih' => simp [ih, ih']

theorem isPair_of_mem (h : Paired gs) {s : Span} (hs : s ∈ spansAll n gs) :
    ∃ i j, s.opener = n + i ∧ s.closer = some (n + j) ∧
      Token.IsPair (tokensAll gs) s.delimiter i j := by
  induction h generalizing n with
  | nil => cases hs
  | @item i gs _ _ ih =>
    rw [spansAll_item] at hs
    obtain ⟨k, j, hk, hj, hpair⟩ := ih hs
    refine ⟨1 + k, 1 + j, by omega, by rw [hj, Nat.add_assoc], ?_⟩
    rw [tokensAll_item]
    simpa using hpair.append [i.token] []
  | @block d o c inside gs ho hc hin _ ih ih' =>
    rw [spansAll_block] at hs
    rw [tokensAll_block]
    rcases List.mem_cons.1 hs with rfl | hs
    · exact ⟨0, 1 + (tokensAll inside).length, rfl, by simp [Nat.add_assoc],
        [], o.token, _, c.token, _, rfl, rfl, by omega, ho, hc, hin.balanced⟩
    rcases List.mem_append.1 hs with hs | hs
    · obtain ⟨k, j, hk, hj, hpair⟩ := ih hs
      refine ⟨1 + k, 1 + j, by omega, by rw [hj, Nat.add_assoc], ?_⟩
      exact hpair.append [o.token] (c.token :: tokensAll gs)
    · obtain ⟨k, j, hk, hj, hpair⟩ := ih' hs
      refine ⟨(o.token :: (tokensAll inside ++ [c.token])).length + k,
        (o.token :: (tokensAll inside ++ [c.token])).length + j, ?_, ?_, ?_⟩
      · simp; omega
      · rw [hj]; simp; omega
      · simpa using hpair.append (o.token :: (tokensAll inside ++ [c.token])) []

theorem exists_mem (h : Paired gs) {d : Delimiter} {i : Nat} {t : Token}
    (hi : (tokensAll gs)[i]? = some t) (ht : t.kind = .opener d) :
    ∃ c, ⟨d, n + i, c⟩ ∈ spansAll n gs := by
  induction h generalizing n i with
  | nil => simp [tokensAll] at hi
  | item hother _ ih =>
    rw [tokensAll_item] at hi
    cases i with
    | zero =>
      obtain rfl := Option.some.inj hi
      exact absurd ht (hother d).1
    | succ i =>
      obtain ⟨c, hmem⟩ := ih (n := n + 1) hi
      refine ⟨c, ?_⟩
      rw [spansAll_item]
      convert hmem using 2
      omega
  | @block d' o c inside gs ho hc _ _ ih ih' =>
    rw [tokensAll_block] at hi
    rw [spansAll_block]
    cases i with
    | zero =>
      obtain rfl := Option.some.inj hi
      obtain rfl := Kind.opener.inj (ho.symm.trans ht)
      exact ⟨_, List.mem_cons_self⟩
    | succ i =>
      rw [List.getElem?_cons_succ, List.getElem?_append] at hi
      split at hi
      next hlt =>
        obtain ⟨c, hmem⟩ := ih (n := n + 1) hi
        refine ⟨c, List.mem_cons_of_mem _ (List.mem_append_left _ ?_)⟩
        convert hmem using 2
        omega
      next hge =>
        cases hk : i - (tokensAll inside).length with
        | zero =>
          rw [hk] at hi
          obtain rfl := Option.some.inj hi
          rw [hc] at ht
          cases ht
        | succ k =>
          rw [hk, List.getElem?_cons_succ] at hi
          obtain ⟨c, hmem⟩ := ih' (n := n + 1 + (tokensAll inside).length + 1) hi
          refine ⟨c, List.mem_cons_of_mem _ (List.mem_append_right _ ?_)⟩
          convert hmem using 2
          omega

/-- The blocks are just the pairs of delimiters. -/
theorem mem_spansAll_iff (h : Paired gs) {s : Span} :
    s ∈ spansAll 0 gs ↔
      ∃ j, s.closer = some j ∧ Token.IsPair (tokensAll gs) s.delimiter s.opener j := by
  constructor
  · intro hs
    obtain ⟨i, j, hi, hj, hpair⟩ := h.isPair_of_mem hs
    rw [Nat.zero_add] at hi hj
    exact ⟨j, hj, hi ▸ hpair⟩
  · rintro ⟨j, hj, hpair⟩
    obtain ⟨t, ht, hopener⟩ := hpair.opener
    obtain ⟨c, hmem⟩ := h.exists_mem (n := 0) ht hopener
    obtain ⟨i, k, hi, hk, hpair'⟩ := h.isPair_of_mem hmem
    simp only [Nat.zero_add] at hi hk hmem
    obtain rfl := hi
    obtain rfl := hpair.unique hpair'
    rw [hk, ← hj] at hmem
    exact hmem

end Paired
end Group

namespace Nesting

variable {n : Nesting} {d : Delimiter} {i : Item}

theorem step_other (hn : n.inTagLine = false) (ht : i.token.kind ≠ .tag)
    (hi : ∀ d, i.token.kind ≠ .opener d ∧ i.token.kind ≠ .closer d) :
    n.step i = n.push (.item i) := by
  obtain ⟨l, blocks, done⟩ := n
  obtain rfl : l = false := hn
  rw [step]
  simp only [Bool.false_and, Bool.false_eq_true, if_false, beq_false_of_ne ht]
  split
  next d hd => exact absurd hd (hi d).1
  next d hd => exact absurd hd (hi d).2
  next => rfl

theorem step_opener (hn : n.inTagLine = false) (hi : i.token.kind = .opener d) :
    n.step i = { n with blocks := ⟨d, i, []⟩ :: n.blocks } := by
  obtain ⟨l, blocks, done⟩ := n
  obtain rfl : l = false := hn
  simp [step, hi]

theorem step_closer {o : Item} {inside : List Group} {bs : List OpenBlock} {done : List Group}
    (hi : i.token.kind = .closer d) :
    step ⟨false, ⟨d, o, inside⟩ :: bs, done⟩ i =
      push (.block d o inside.reverse (some i)) ⟨false, bs, done⟩ := by
  have htag : (Kind.closer d == Kind.tag) = false := rfl
  simp [step, hi, htag, OpenBlock.close?, OpenBlock.toGroup]

def pushAll (n : Nesting) (gs : List Group) : Nesting := gs.foldl (fun n g => n.push g) n

theorem pushAll_cons (n : Nesting) (g : Group) (gs : List Group) :
    n.pushAll (g :: gs) = (n.push g).pushAll gs := rfl

theorem pushAll_block (gs : List Group) (l : Bool) (b : OpenBlock) (bs : List OpenBlock)
    (done : List Group) : pushAll ⟨l, b :: bs, done⟩ gs =
      ⟨l, { b with inside := gs.reverse ++ b.inside } :: bs, done⟩ := by
  induction gs generalizing b with
  | nil => rfl
  | cons g gs ih => simp [pushAll_cons, push, ih]

theorem pushAll_nil (gs : List Group) (l : Bool) (done : List Group) :
    pushAll ⟨l, [], done⟩ gs = ⟨l, [], gs.reverse ++ done⟩ := by
  induction gs generalizing done with
  | nil => rfl
  | cons g gs ih => simp [pushAll_cons, push, ih]

/-- Balanced tokens are added as groups to whatever block is open. -/
theorem foldl_balanced {ts : List Token} (h : Token.Balanced ts) {is : List Item}
    (his : is.map (·.token) = ts) (htag : ∀ i ∈ is, i.token.kind ≠ .tag) :
    ∃ gs, Paired gs ∧ ∀ n : Nesting, n.inTagLine = false → is.foldl step n = n.pushAll gs := by
  induction h generalizing is with
  | nil =>
    obtain rfl := List.map_eq_nil_iff.1 his
    exact ⟨[], .nil, fun n _ => rfl⟩
  | other ht _ ih =>
    obtain ⟨i, js, rfl, rfl, hjs⟩ := List.map_eq_cons_iff.1 his
    obtain ⟨hi, htag⟩ := List.forall_mem_cons.1 htag
    obtain ⟨gs, hgs, hfold⟩ := ih hjs htag
    refine ⟨.item i :: gs, .item ht hgs, fun n hn => ?_⟩
    rw [List.foldl_cons, step_other hn hi ht, pushAll_cons]
    exact hfold _ (by rw [inTagLine_push, hn])
  | @pair d _ _ ts us ho hc _ _ ih ih' =>
    obtain ⟨o, rest, rfl, rfl, hrest⟩ := List.map_eq_cons_iff.1 his
    obtain ⟨js, rest', rfl, hts, hrest'⟩ := List.map_eq_append_iff.1 hrest
    obtain ⟨c, ks, rfl, rfl, hus⟩ := List.map_eq_cons_iff.1 hrest'
    obtain ⟨inside, hinside, hfold⟩ := ih hts fun i hi => htag i (by simp [hi])
    obtain ⟨gs, hgs, hfold'⟩ := ih' hus fun i hi => htag i (by simp [hi])
    refine ⟨.block d o inside (some c) :: gs, .block ho hc hinside hgs, fun n hn => ?_⟩
    obtain ⟨l, blocks, done⟩ := n
    obtain rfl : l = false := hn
    rw [List.foldl_cons, List.foldl_append, List.foldl_cons, step_opener rfl ho, hfold _ rfl,
      pushAll_block, step_closer hc, hfold' _ (inTagLine_push _ _), pushAll_cons]
    simp

end Nesting

theorem Group.paired_nest {is : List Item} (h : Token.Balanced (is.map (·.token)))
    (htag : ∀ i ∈ is, i.token.kind ≠ .tag) : Paired (nest is) := by
  obtain ⟨gs, hgs, hfold⟩ := Nesting.foldl_balanced h rfl htag
  rw [nest, hfold .start rfl, Nesting.start, Nesting.pushAll_nil]
  simpa [Nesting.finish, OpenBlock.closeAll] using hgs

namespace Group

/-- Nesting keeps all tokens in order and ends a block with a delimiter of its own kind only, and a
stray closes none of the blocks around it. Of balanced tokens without tags there are no strays, and
the blocks are just the pairs of delimiters, to one of which every opening delimiter belongs. -/
theorem nest_mark (ts : List Token) :
    tokensAll (nest (Item.mark ts)) = ts ∧ WellNested [] (nest (Item.mark ts)) ∧
      (Token.Balanced ts → (∀ t ∈ ts, t.kind ≠ .tag) →
        (∀ i, (i, true) ∉ markedAll (nest (Item.mark ts))) ∧
        (∀ s, s ∈ spansAll 0 (nest (Item.mark ts)) ↔
          ∃ j, s.closer = some j ∧ Token.IsPair ts s.delimiter s.opener j) ∧
        ∀ i t d, ts[i]? = some t → t.kind = .opener d → ∃! j, Token.IsPair ts d i j) := by
  have hitems : (Item.mark ts).map (·.token) = ts := Item.map_token_markAfter [] ts
  have hflat : tokensAll (nest (Item.mark ts)) = ts := by rw [tokensAll, itemsAll_nest, hitems]
  refine ⟨hflat, wellNested_nest _, fun hts htag => ?_⟩
  have hpaired : Paired (nest (Item.mark ts)) := by
    refine paired_nest (by rwa [hitems]) fun i hi => htag _ ?_
    rw [← hitems]
    exact List.mem_map_of_mem hi
  refine ⟨hpaired.not_mem_markedAll, fun s => ?_, fun i t d hi ht => ?_⟩
  · rw [hpaired.mem_spansAll_iff, hflat]
  · rw [← hflat] at hi ⊢
    obtain ⟨c, hmem⟩ := hpaired.exists_mem (n := 0) hi ht
    rw [Nat.zero_add] at hmem
    obtain ⟨j, -, hpair⟩ := hpaired.mem_spansAll_iff.1 hmem
    exact ⟨j, hpair, fun k hk => hk.unique hpair⟩

/-- Two blocks side by side in a third one. -/
theorem nest_mark_siblings :
    Token.Balanced (Token.lex .glsl "({},[])".toList) ∧
    (∀ i, (i, true) ∉ markedAll (nest (Item.mark (Token.lex .glsl "({},[])".toList)))) ∧
    ⟨.paren, 0, some 6⟩ ∈ spansAll 0 (nest (Item.mark (Token.lex .glsl "({},[])".toList))) ∧
    ⟨.bracket, 4, some 5⟩ ∈ spansAll 0 (nest (Item.mark (Token.lex .glsl "({},[])".toList))) := by
  have hlex : Token.lex .glsl "({},[])".toList =
      [⟨.opener .paren, ['('], 0, none⟩, ⟨.opener .brace, ['{'], 1, none⟩,
        ⟨.closer .brace, ['}'], 2, none⟩, ⟨.comma, [','], 3, none⟩,
        ⟨.opener .bracket, ['['], 4, none⟩, ⟨.closer .bracket, [']'], 5, none⟩,
        ⟨.closer .paren, [')'], 6, none⟩] := by
    decide +kernel
  have hinner : Token.Balanced [⟨.opener .brace, ['{'], 1, none⟩, ⟨.closer .brace, ['}'], 2, none⟩,
      ⟨.comma, [','], 3, none⟩, ⟨.opener .bracket, ['['], 4, none⟩,
      ⟨.closer .bracket, [']'], 5, none⟩] :=
    .pair rfl rfl .nil (.other (by simp) (.pair rfl rfl .nil .nil))
  have hbalanced : Token.Balanced (Token.lex .glsl "({},[])".toList) := by
    rw [hlex]
    exact .pair rfl rfl hinner .nil
  obtain ⟨-, -, hpairs⟩ := nest_mark (Token.lex .glsl "({},[])".toList)
  obtain ⟨hstray, hspans, -⟩ := hpairs hbalanced (by rw [hlex]; decide)
  refine ⟨hbalanced, hstray, (hspans _).2 ⟨6, rfl, ?_⟩, (hspans _).2 ⟨5, rfl, ?_⟩⟩
  · rw [hlex]
    exact ⟨[], _, _, _, [], rfl, rfl, rfl, rfl, rfl, hinner⟩
  · rw [hlex]
    exact ⟨_ :: _ :: _ :: _ :: [], _, [], _, _, rfl, rfl, rfl, rfl, rfl, .nil⟩

end Group
end ShaderInline
