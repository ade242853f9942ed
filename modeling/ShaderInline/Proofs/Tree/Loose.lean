import Mathlib
import ShaderInline.Proofs.Tree.Tags

/-! # Delimiters on the lines of tags

A closing delimiter that ends no block and is no stray stands on the line of a
tag. A directive takes it with the rest of its line. Only behind an import it is
left to itself, and so it can come last in a block that it does not end.
-/

namespace ShaderInline

open Schema

open ShaderInline.Group (itemsAll wrap toTree toTrees leafOf)

/-! ### Where delimiters are kept -/

/-- Groups in which closing delimiters are kept as items on the lines of tags only, given whether
such a line is being read. -/
inductive Kept : Bool → List Group → Prop where
  | nil (b : Bool) : Kept b []
  | item {b : Bool} {i : Item} {gs : List Group} : (∀ d, i.token.kind = .closer d → b = true) →
      Kept (i.keepsLine b) gs → Kept b (.item i :: gs)
  | stray {b : Bool} {i : Item} {gs : List Group} : Kept false gs → Kept b (.stray i :: gs)
  | block {b : Bool} {d : Delimiter} {o : Item} {inside gs : List Group} {c : Option Item} :
      Kept false inside → Kept false gs → Kept b (.block d o inside c :: gs)

theorem Kept.append {b b' : Bool} {gs hs : List Group} (hl : Lined b gs (some b'))
    (h : Kept b gs) (h' : Kept b' hs) : Kept b (gs ++ hs) := by
  induction h with
  | nil b =>
    cases hl with
    | nil => exact h'
  | item hi _ ih =>
    cases hl with
    | item _ hl => exact .item hi (ih hl)
  | stray _ ih =>
    cases hl with
    | stray _ hl => exact .stray (ih hl)
  | block hin _ _ ih =>
    cases hl with
    | block _ _ _ hl => exact .block hin (ih hl)

theorem Kept.right {b b' : Bool} {gs hs : List Group} (hl : Lined b gs (some b'))
    (h : Kept b (gs ++ hs)) : Kept b' hs := by
  generalize hs' : some b' = s at hl
  induction hl with
  | nil b =>
    obtain rfl := Option.some.inj hs'
    exact h
  | item _ _ ih =>
    cases h with
    | item _ h => exact ih h hs'
  | stray _ _ ih =>
    cases h with
    | stray h => exact ih h hs'
  | block _ _ _ _ _ ih =>
    cases h with
    | block _ h => exact ih h hs'
  | last => cases hs'

namespace Nesting

def KeptOpen : List OpenBlock → List Group → Prop
  | [], done => Kept false done.reverse
  | o :: os, done => Kept false o.inside.reverse ∧ KeptOpen os done

variable {b : Bool} {n : Nesting} {g : Group} {bs rest : List OpenBlock} {done : List Group}
  {inner : Option Group}

theorem KeptOpen.push (hheld : Held b n.blocks n.done) (h : KeptOpen n.blocks n.done)
    (hg : Kept b [g]) : KeptOpen (n.push g).blocks (n.push g).done := by
  obtain ⟨l, blocks, done⟩ := n
  cases blocks with
  | nil =>
    rw [Nesting.push, KeptOpen, List.reverse_cons]
    exact h.append hheld hg
  | cons o os =>
    refine ⟨?_, h.2⟩
    rw [List.reverse_cons]
    exact h.1.append hheld.2.1 hg

theorem kept_toGroup {o : OpenBlock} {c : Option Item} (hl : Lined false o.inside.reverse (some b))
    (h : Kept false o.inside.reverse) (hi : Kept b inner.toList) (b' : Bool) :
    Kept b' [o.toGroup inner c] := by
  refine .block ?_ (.nil false)
  rw [List.reverse_append, reverse_toList]
  exact h.append hl hi

theorem keptOpen_close? {d : Delimiter} {c : Item} (hheld : Held false bs done)
    (h : KeptOpen bs done) (hi : Kept false inner.toList)
    (hg : OpenBlock.close? d c inner bs = some (g, rest)) :
    KeptOpen rest done ∧ Kept false [g] := by
  induction bs generalizing inner with
  | nil => cases hg
  | cons o os ih =>
    rw [OpenBlock.close?] at hg
    split at hg
    next =>
      obtain ⟨rfl, rfl⟩ := Prod.mk.inj (Option.some.inj hg)
      exact ⟨h.2, kept_toGroup hheld.2.1 h.1 hi false⟩
    next =>
      have ho : Kept false (some (o.toGroup inner none)).toList :=
        kept_toGroup hheld.2.1 h.1 hi false
      exact ih hheld.2.2 h.2 ho hg

theorem keptOpen_closeAll (hheld : Held b bs done) (h : KeptOpen bs done)
    (hi : Kept b inner.toList) : Kept false (OpenBlock.closeAll done inner bs) := by
  induction bs generalizing b inner with
  | nil =>
    rw [OpenBlock.closeAll, List.reverse_append, reverse_toList]
    exact Kept.append hheld h hi
  | cons o os ih => exact ih hheld.2.2 h.2 (kept_toGroup hheld.2.1 h.1 hi false)

theorem keptOpen_step {i : Item} (hi : i.endsLine = true → i.token.kind = .newline)
    (hheld : Held n.inTagLine n.blocks n.done) (h : KeptOpen n.blocks n.done) :
    KeptOpen (n.step i).blocks (n.step i).done := by
  rw [Nesting.step]
  split
  next hline =>
    rw [Bool.and_eq_true] at hline
    exact h.push hheld (.item (fun _ _ => hline.1) (.nil _))
  next hline =>
    -- a line break ends the line, so a closing delimiter is met outside of it only
    have hout {d : Delimiter} (hk : i.token.kind = .closer d) : n.inTagLine = false := by
      by_contra hb
      have hnewline := hi (by simp_all)
      rw [hk] at hnewline
      cases hnewline
    simp only
    split
    next d hk => exact ⟨.nil false, h⟩
    next d hk =>
      rw [hout hk] at hheld
      split
      next g rest hg =>
        have hnone : Lined false (Option.toList (none : Option Group)) (some false) := .nil false
        have hkept : Kept false (Option.toList (none : Option Group)) := .nil false
        obtain ⟨hrest, hgroup⟩ := keptOpen_close? hheld h hkept hg
        exact KeptOpen.push (held_close? hk hheld hnone hg).1 hrest hgroup
      next => exact KeptOpen.push hheld h (.stray (.nil false))
    next hopener hcloser =>
      exact KeptOpen.push hheld h (.item (fun d hk => absurd hk (hcloser d)) (.nil _))

theorem keptOpen_foldl {is : List Item}
    (his : ∀ i ∈ is, i.endsLine = true → i.token.kind = .newline)
    (hheld : Held n.inTagLine n.blocks n.done) (h : KeptOpen n.blocks n.done) :
    KeptOpen (is.foldl Nesting.step n).blocks (is.foldl Nesting.step n).done := by
  induction is generalizing n with
  | nil => exact h
  | cons i is ih =>
    obtain ⟨hi, his⟩ := List.forall_mem_cons.1 his
    exact ih his (hheld.step hi) (keptOpen_step hi hheld h)

end Nesting

theorem Group.kept_nest (ts : List Token) : Kept false (nest (Item.mark ts)) := by
  have hstart : Nesting.Held Nesting.start.inTagLine Nesting.start.blocks Nesting.start.done :=
    .nil false
  exact Nesting.keptOpen_closeAll (hstart.foldl Item.kind_of_endsLine)
    (Nesting.keptOpen_foldl Item.kind_of_endsLine hstart (.nil false)) (.nil _)

/-! ### The last group of a match -/

namespace Pattern

open ShaderInline.Group

theorem width?_ends {s : Schema} {b first : Bool} {ms : List Matcher} {gs : List Group} {w : Nat}
    (h : width? s b first ms gs = some w) (hms : ∀ m ∈ ms, m ≠ .restOfLine) {k : Kind}
    (hlast : ms.getLast? = some (.block k)) :
    ∃ pre d o inside c, gs.take w = pre ++ [.block d o inside c] := by
  induction ms generalizing first gs w with
  | nil => cases hlast
  | cons m ms ihms =>
    obtain ⟨hm, hms⟩ := List.forall_mem_cons.1 hms
    induction gs generalizing first w with
    | nil => simp [width?_nil hm] at h
    | cons g gs ihgs =>
      by_cases hg : first = true ∨ g.isSkippable b = false
      · rw [width?_cons hm hg, Option.ite_none_right_eq_some] at h
        obtain ⟨haccepts, h⟩ := h
        obtain ⟨w, hw, rfl⟩ := Option.map_eq_some_iff.1 h
        rw [Nat.add_comm, List.take_succ_cons]
        cases ms with
        | nil =>
          obtain rfl : m = .block k := by simpa using hlast
          obtain rfl : 0 = w := by simpa [width?] using hw
          cases g with
          | block d o inside c => exact ⟨[], d, o, inside, c, rfl⟩
          | _ => simp [Matcher.accepts] at haccepts
        | cons m' ms =>
          rw [List.getLast?_cons_cons] at hlast
          obtain ⟨pre, d, o, inside, c, hpre⟩ := ihms hw hms hlast
          exact ⟨g :: pre, d, o, inside, c, by rw [hpre, List.cons_append]⟩
      · obtain ⟨rfl, hskip⟩ : first = false ∧ g.isSkippable b = true := by simpa using hg
        rw [width?_skip hm hskip] at h
        obtain ⟨w, hw, rfl⟩ := Option.map_eq_some_iff.1 h
        obtain ⟨pre, d, o, inside, c, hpre⟩ := ihgs hw
        exact ⟨g :: pre, d, o, inside, c, by
          rw [Nat.add_comm, List.take_succ_cons, hpre, List.cons_append]⟩

end Pattern

namespace Schema

open ShaderInline.Group ShaderInline.Pattern

/-- A definition ends with its body. -/
theorem matchAt?_ends {g : Group} {taken rest : List Group} {k : Kind} (hg : g.isTag = false)
    (h : glsl.matchAt? (g :: (taken ++ rest)) = some (k, taken.length)) :
    ∃ pre d o inside c, g :: taken = pre ++ [.block d o inside c] := by
  have hskip : g.isSkippable false = false := by
    by_contra hskip
    rw [matchAt?, if_pos (by simpa using hskip)] at h
    cases h
  rw [matchAt?_cons hskip] at h
  obtain ⟨p, hp, he⟩ := List.exists_of_findSome?_eq_some h
  obtain ⟨w, hw, hkw⟩ := Option.map_eq_some_iff.1 he
  obtain ⟨rfl, hlen⟩ := Prod.mk.inj hkw
  rw [List.mem_cons, List.mem_cons, List.mem_pair] at hp
  rcases hp with hp | hp | hp
  · rw [extent?_plain hg (.inl hp)] at hw
    cases hw
  · rw [extent?_plain hg (.inr hp)] at hw
    cases hw
  have hends : ∃ pre d o inside c,
      (g :: (taken ++ rest)).take w = pre ++ [.block d o inside c] := by
    have hline := accepts_plain glsl hp
    rcases hp with rfl | rfl
    · exact width?_ends hw (fun m hm => (hline m hm).1) rfl
    · exact width?_ends hw (fun m hm => (hline m hm).1) rfl
  obtain ⟨pre, d, o, inside, c, hpre⟩ := hends
  cases w with
  | zero => simp at hpre
  | succ w =>
    obtain rfl : w = taken.length := hlen
    rw [List.take_succ_cons, List.take_left] at hpre
    exact ⟨pre, d, o, inside, c, hpre⟩

end Schema

/-! ### The last leaf of groups -/

namespace Lined

variable {b b' : Bool} {gs rest : List Group} {is : List Item} {s : Option Bool}

theorem kind_items (h : Lined b (is.map .item ++ rest) s) :
    ∀ i ∈ is, i.endsLine = true → i.token.kind = .newline := by
  induction is generalizing b with
  | nil => simp
  | cons i is ih =>
    cases h with
    | item hi h => exact List.forall_mem_cons.2 ⟨hi, ih h⟩

theorem along (h : Lined true (is.map .item ++ rest) s) (he : ∀ i ∈ is, i.endsLine = false) :
    Lined true rest s := by
  induction is with
  | nil => exact h
  | cons i is ih =>
    obtain ⟨hi, he⟩ := List.forall_mem_cons.1 he
    cases h with
    | item _ h =>
      rw [Item.keepsLine, hi] at h
      exact ih h he

theorem after_block {pre inside : List Group} {d : Delimiter} {o : Item} {c : Option Item}
    (h : Lined b (pre ++ [.block d o inside c]) (some b')) : b' = false := by
  obtain ⟨_, -, h⟩ | ⟨h, -⟩ := h.split
  · cases h with
    | block _ _ _ h =>
      cases h with
      | nil => rfl
  · cases h

end Lined

theorem Kept.along {rest : List Group} {is : List Item} (h : Kept true (is.map .item ++ rest))
    (he : ∀ i ∈ is, i.endsLine = false) : Kept true rest := by
  induction is with
  | nil => exact h
  | cons i is ih =>
    obtain ⟨hi, he⟩ := List.forall_mem_cons.1 he
    cases h with
    | item _ h =>
      rw [Item.keepsLine, hi] at h
      exact ih h he

namespace Group

theorem wrap_ne_nil {gs : List Group} (h : gs ≠ []) : wrap glsl 0 gs (toTrees glsl gs) ≠ [] := by
  cases gs with
  | nil => exact absurd rfl h
  | cons g gs =>
    rw [toTrees_cons, wrap]
    split
    · exact List.cons_ne_nil _ _
    · exact List.cons_ne_nil _ _

def EndsWithCloser (d : Delimiter) (gs : List Group) : Prop :=
  ∃ c, gs.getLast? = some (.item c) ∧ c.token.kind = .closer d

end Group

/-- The kind of the last of some nodes. Without any it tells whether the line of a tag is being
read on: behind an import, as it were. -/
def Node.lastKind (b : Bool) (ns : List Node) : Kind :=
  (ns.getLast?.map Node.kind).getD (if b then .importDirective else .directive)

theorem Node.lastKind_append (b b' : Bool) (ns : List Node) {ms : List Node} (h : ms ≠ []) :
    lastKind b (ns ++ ms) = lastKind b' ms := by
  rw [lastKind, lastKind, List.getLast?_append_of_ne_nil _ h, List.getLast?_eq_some_getLast h]
  rfl

/-- Whether the last leaf of the trees of groups is a closing delimiter just if it is the last of
the groups, behind an import on its line. -/
structure EndsLoose (d : Delimiter) (n : Nat) (b : Bool) (gs : List Group) : Prop where
  leaf_iff : (∃ t, (wrap glsl 0 gs (toTrees glsl gs)).getLast? = some (.leaf (.closer d) t)) ↔
    Group.EndsWithCloser d gs ∧
      Node.lastKind b (Tree.tagsFrom n (wrap glsl 0 gs (toTrees glsl gs))) = .importDirective
  in_line : Group.EndsWithCloser d gs →
    Tree.tagsFrom n (wrap glsl 0 gs (toTrees glsl gs)) = [] → b = true

namespace EndsLoose

open ShaderInline.Tree ShaderInline.Pattern ShaderInline.Group

variable {d : Delimiter} {n : Nat} {b b' : Bool} {i : Item} {g : Group} {gs rest : List Group}
  {s : Option Bool}

theorem of_not (hgs : ¬EndsWithCloser d gs)
    (hleaf : ∀ t, (wrap glsl 0 gs (toTrees glsl gs)).getLast? ≠ some (.leaf (.closer d) t)) :
    EndsLoose d n b gs where
  leaf_iff := iff_of_false (fun ⟨t, ht⟩ => hleaf t ht) fun h => hgs h.1
  in_line h := absurd h hgs

/-- What comes before the rest of groups makes no difference, as long as it tells where the line of
a tag goes on. -/
theorem step {us : List Tree} (hne : rest ≠ [])
    (hwrap : wrap glsl 0 gs (toTrees glsl gs) = us ++ wrap glsl 0 rest (toTrees glsl rest))
    (hlast : gs.getLast? = rest.getLast?)
    (hline : b' = true → Node.lastKind b (tagsFrom n us) = .importDirective)
    (h : EndsLoose d (n + Text.size (textAll us)) b' rest) : EndsLoose d n b gs := by
  have hcloser : EndsWithCloser d gs ↔ EndsWithCloser d rest := by
    rw [EndsWithCloser, EndsWithCloser, hlast]
  constructor
  · rw [hwrap, List.getLast?_append_of_ne_nil _ (wrap_ne_nil hne), h.leaf_iff, hcloser,
      tagsFrom_append]
    refine and_congr_right fun hc => ?_
    by_cases htags :
        tagsFrom (n + Text.size (textAll us)) (wrap glsl 0 rest (toTrees glsl rest)) = []
    · have hb := h.in_line hc htags
      rw [htags, List.append_nil, hline hb, hb]
      exact iff_of_true rfl rfl
    · rw [Node.lastKind_append b b' _ htags]
  · rw [hcloser, hwrap, tagsFrom_append, List.append_eq_nil_iff]
    rintro hc ⟨hus, htags⟩
    have hb := hline (h.in_line hc htags)
    rw [hus] at hb
    cases b with
    | true => rfl
    | false => cases hb

theorem of_import (hi : i.token.kind = .tag) (hn : glsl.tagName i.token.text = "import".toList)
    {w : Nat} (hw : width? glsl true false [.quoted] gs = some w)
    (hl : Lined b (.item i :: gs) s) (hk : Kept b (.item i :: gs))
    (ih : ∀ hs : List Group, hs.length < (Group.item i :: gs).length → ∀ n b, Lined b hs s →
      Kept b hs → EndsLoose d n b hs) : EndsLoose d n b (.item i :: gs) := by
  obtain ⟨blanks, q, rest, rfl, rfl, hb, hq⟩ := width?_quoted hw
  have hmatch := matchAt?_import hi hn hw
  rw [← List.length_map (f := Group.item)] at hmatch
  have hwrap : wrap glsl 0 (.item i :: ((blanks ++ [q]).map .item ++ rest)) _ = [_] ++ _ :=
    Group.wrap_cons_some hmatch
  have hqk : q.token.kind = .string := by
    have := hq
    simp only [Piece.isQuoted, Bool.and_eq_true, beq_iff_eq, Item.kind_piece] at this
    exact this.1.1
  by_cases hne : rest = []
  · subst hne
    refine of_not ?_ fun t => ?_
    · rintro ⟨c, hc, hck⟩
      obtain rfl : q = c := by simpa [List.getLast?_cons] using hc
      rw [hqk] at hck
      cases hck
    · rw [hwrap]
      simp [wrap]
  · have hkeeps : i.keepsLine b = true := by simp [Item.keepsLine, hi]
    cases hl with
    | item _ hl =>
    cases hk with
    | item _ hk =>
    rw [hkeeps] at hl hk
    have he : ∀ j ∈ blanks ++ [q], j.endsLine = false := by
      intro j hj
      by_contra hends
      have hnewline := hl.kind_items j hj (by simpa using hends)
      rcases List.mem_append.1 hj with hj | hj
      · have := hb j hj
        simp [hnewline, Kind.isTrivia] at this
      · rw [List.mem_singleton.1 hj, hqk] at hnewline
        cases hnewline
    refine step hne hwrap ?_ (fun _ => ?_)
      (ih rest (by simp; omega) _ true (hl.along he) (hk.along he))
    · rw [← List.cons_append, List.getLast?_append_of_ne_nil _ hne]
    · rw [← List.map_cons, tagsFrom_items (.inl rfl)]
      rfl

theorem of_directive (hi : i.token.kind = .tag)
    (hn : glsl.tagName i.token.text = "import".toList → width? glsl true false [.quoted] gs = none)
    (hl : Lined b (.item i :: gs) s) (hk : Kept b (.item i :: gs))
    (ih : ∀ hs : List Group, hs.length < (Group.item i :: gs).length → ∀ n b, Lined b hs s →
      Kept b hs → EndsLoose d n b hs) : EndsLoose d n b (.item i :: gs) := by
  have hkeeps : i.keepsLine b = true := by simp [Item.keepsLine, hi]
  cases hl with
  | item _ hl =>
  cases hk with
  | item _ hk =>
  rw [hkeeps] at hl hk
  obtain ⟨line, rest, rfl, he, hr⟩ := hl.line
  have hwidth : width? glsl true false [.restOfLine] (line.map .item ++ rest) =
      some line.length := by
    refine width?_restOfLine he ?_
    rcases hr with ⟨hr, -⟩ | ⟨j, rest', hr, he, hk, -⟩
    · exact .inl hr
    · exact .inr ⟨j, rest', hr, he, hk⟩
  have hmatch := matchAt?_directive hi hn hwidth
  rw [← List.length_map (f := Group.item)] at hmatch
  have hwrap := Group.wrap_cons_some hmatch
  rcases hr with ⟨rfl, -⟩ | ⟨j, rest', rfl, hends, hj, hl'⟩
  · have htags : tagsFrom n (wrap glsl 0 (.item i :: (line.map .item ++ []))
        (toTrees glsl (.item i :: (line.map .item ++ [])))) =
          [⟨n, .directive, ((i :: line).map Item.piece).map Piece.leaf⟩] := by
      rw [hwrap, ← List.map_cons, tagsFrom_items (.inr rfl)]
      simp [wrap]
    constructor
    · refine iff_of_false ?_ ?_
      · rintro ⟨t, ht⟩
        rw [hwrap] at ht
        simp [wrap] at ht
      · rintro ⟨-, hlast⟩
        rw [htags] at hlast
        cases hlast
    · intro _ hnil
      rw [htags] at hnil
      cases hnil
  · have hnone : glsl.matchAt? (.item j :: rest') = none := by
      rw [matchAt?, if_pos (by simp [Group.isSkippable, hj])]
    rw [Group.wrap_cons_none hnone] at hwrap
    by_cases hne : rest' = []
    · subst hne
      refine of_not ?_ fun t => ?_
      · rintro ⟨c, hc, hck⟩
        obtain rfl : j = c := by simpa [List.getLast?_cons] using hc
        rw [hj] at hck
        cases hck
      · rw [hwrap]
        simp [wrap, toTree, leafOf, hj]
    · have hkept : Kept false rest' := by
        cases hk.along he with
        | item _ hk =>
          rw [Item.keepsLine, hends, hj] at hk
          exact hk
      have hwrap : wrap glsl 0 (.item i :: (line.map .item ++ .item j :: rest')) _ = [_, _] ++ _ :=
        hwrap
      refine step hne hwrap ?_ (fun h => by cases h) (ih rest' (by simp; omega) _ false hl' hkept)
      rw [← List.cons_append, List.append_cons, List.getLast?_append_of_ne_nil _ hne]

theorem single (hk : Kept b [g])
    (hwrap : wrap glsl 0 [g] (toTrees glsl [g]) = [toTree glsl g]) : EndsLoose d n b [g] := by
  cases g with
  | item i =>
    have hline (h : EndsWithCloser d [.item i]) : b = true := by
      obtain ⟨c, hc, hck⟩ := h
      obtain rfl : i = c := by simpa using hc
      cases hk with
      | item hi _ => exact hi d hck
    have htags : tagsFrom n [toTree glsl (.item i)] = [] := tagsFrom_leafOf n [i]
    constructor
    · rw [hwrap, htags]
      constructor
      · rintro ⟨t, ht⟩
        have hkind : i.token.kind = .closer d := by
          rw [toTree, leafOf] at ht
          exact (Tree.leaf.inj (Option.some.inj ht)).1
        have hcloser : EndsWithCloser d [.item i] := ⟨i, rfl, hkind⟩
        exact ⟨hcloser, by rw [hline hcloser]; rfl⟩
      · rintro ⟨⟨c, hc, hck⟩, -⟩
        obtain rfl : i = c := by simpa using hc
        exact ⟨i.token.text, by rw [toTree, leafOf, hck]; rfl⟩
    · exact fun h _ => hline h
  | stray i =>
    refine of_not (fun ⟨c, hc, _⟩ => by simp at hc) fun t => ?_
    rw [hwrap]
    simp [toTree]
  | block d' o inside c =>
    refine of_not (fun ⟨c, hc, _⟩ => by simp at hc) fun t => ?_
    rw [hwrap]
    simp [toTree]

theorem lastKind_single (hg : g.isTag = false) (hl : Lined b [g] (some true)) :
    Node.lastKind b (tagsFrom n [toTree glsl g]) = .importDirective := by
  cases g with
  | item i =>
    have htags : tagsFrom n [toTree glsl (.item i)] = [] := tagsFrom_leafOf n [i]
    cases hl with
    | item _ hl =>
      generalize hb : i.keepsLine b = b' at hl
      cases hl with
      | nil =>
        have hb : b = true := by
          cases b with
          | true => rfl
          | false => simp_all [Item.keepsLine, Group.isTag]
        rw [htags, hb]
        rfl
  | stray i =>
    cases hl with
    | stray _ hl => cases hl
  | block d o inside c =>
    rw [← List.nil_append [_]] at hl
    cases hl.after_block

theorem of_plain (hg : g.isTag = false) (hl : Lined b (g :: gs) s) (hk : Kept b (g :: gs))
    (ih : ∀ hs : List Group, hs.length < (g :: gs).length → ∀ n b, Lined b hs s →
      Kept b hs → EndsLoose d n b hs) : EndsLoose d n b (g :: gs) := by
  obtain hnone | ⟨k, taken, rest, rfl, hsome, -, -⟩ : glsl.matchAt? (g :: gs) = none ∨ _ :=
    matchAt?_plain hg
  · have hwrap : wrap glsl 0 (g :: gs) _ = [_] ++ _ := Group.wrap_cons_none hnone
    by_cases hne : gs = []
    · subst hne
      exact single hk hwrap
    · obtain ⟨b', hl, hl'⟩ | ⟨h, -⟩ := (show Lined b ([g] ++ gs) s from hl).split
      · refine step hne hwrap ?_ (fun h => ?_) (ih gs (by simp) _ b' hl' (Kept.right hl hk))
        · rw [← List.singleton_append, List.getLast?_append_of_ne_nil _ hne]
        · subst h
          exact lastKind_single hg hl
      · exact absurd h hne
  · have hwrap : wrap glsl 0 (g :: (taken ++ rest)) _ = [_] ++ _ := Group.wrap_cons_some hsome
    obtain ⟨pre, d', o, inside, c, hpre⟩ := matchAt?_ends hg hsome
    by_cases hne : rest = []
    · subst hne
      refine of_not ?_ fun t => ?_
      · rintro ⟨c', hc, -⟩
        rw [List.append_nil, hpre] at hc
        simp at hc
      · rw [hwrap]
        simp [wrap]
    · rw [← List.cons_append] at hl hk
      obtain ⟨b', hl, hl'⟩ | ⟨h, -⟩ := hl.split
      · have hb : b' = false := by
          rw [hpre] at hl
          exact hl.after_block
        subst hb
        refine step hne hwrap ?_ (fun h => by cases h)
          (ih rest (by simp) _ false hl' (Kept.right hl hk))
        rw [← List.cons_append, List.getLast?_append_of_ne_nil _ hne]
      · exact absurd h hne

theorem of_lined (d : Delimiter) (n : Nat) (hl : Lined b gs s) (hk : Kept b gs) :
    EndsLoose d n b gs := by
  -- by the number of groups, since a match takes several of them
  induction hlen : gs.length using Nat.strong_induction_on generalizing n b gs with
  | _ len ih =>
    subst hlen
    have ih (hs : List Group) (hlt : hs.length < gs.length) (n : Nat) (b : Bool)
        (hl : Lined b hs s) (hk : Kept b hs) : EndsLoose d n b hs := ih _ hlt n hl hk rfl
    cases gs with
    | nil => exact of_not (fun ⟨c, hc, _⟩ => by cases hc) fun t => by simp [wrap]
    | cons g gs =>
      by_cases hg : g.isTag = true
      · cases g with
        | item i =>
          have hi : i.token.kind = .tag := by simpa [Group.isTag] using hg
          by_cases hn : glsl.tagName i.token.text = "import".toList
          · cases hw : width? glsl true false [.quoted] gs with
            | some w => exact of_import hi hn hw hl hk ih
            | none => exact of_directive hi (fun _ => hw) hl hk ih
          · exact of_directive hi (fun h => absurd h hn) hl hk ih
        | _ => simp [Group.isTag] at hg
      · exact of_plain (by simpa using hg) hl hk ih

end EndsLoose

end ShaderInline
