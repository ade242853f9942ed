import ShaderInline.Proofs.LineIndex.Terminators
import ShaderInline.Proofs.Tree.Lossless
import ShaderInline.Proofs.Woven

/-! # Directives are only set in

Whatever a source map says, the directives for it can be inserted, and nothing else
happens to the text. Each of them stands between two leaves, at the start of a line
or behind a line break of its own, and not before the end of the version line. The
map may have gaps and overlaps and name offsets that the text does not have: each
range asks for a directive at the leaf in which it starts, or for none, and where
several ask at one leaf the last of them counts.
-/

namespace ShaderInline.LineDirective

open Piece

/-- A directive in a text, with the part of the text between it and the directive before. -/
structure Inset where
  before : Text
  startsLine : Bool
  line : Nat
  id : Nat
  deriving DecidableEq, Repr

namespace Inset

variable {w : LineDirective} {n : Nat} {i : Inset} {is as bs : List Inset}

/-- What stands before the marker of a directive: a line break, unless a line starts there. -/
def lead (i : Inset) : Text := if i.startsLine then [] else ['\n']

def text (w : LineDirective) (i : Inset) : Text :=
  i.lead ++ (w.marker ++ ' ' :: (Text.decimal i.line ++ ' ' :: (Text.decimal i.id ++ ['\n'])))

/-- The text up to the last directive, without the directives. -/
def source (is : List Inset) : Text := is.flatMap before

/-- The text up to the last directive, with the directives. -/
def result (w : LineDirective) (is : List Inset) : Text := is.flatMap fun i => i.before ++ i.text w

def offsets : Nat → List Inset → List Nat
  | _, [] => []
  | n, i :: is => (n + Text.size i.before) :: offsets (n + Text.size i.before) is

@[simp] theorem source_nil : source [] = [] := rfl

@[simp] theorem source_cons (i : Inset) (is : List Inset) :
    source (i :: is) = i.before ++ source is :=
  List.flatMap_cons

@[simp] theorem source_append (as bs : List Inset) : source (as ++ bs) = source as ++ source bs :=
  List.flatMap_append

@[simp] theorem result_cons (w : LineDirective) (i : Inset) (is : List Inset) :
    result w (i :: is) = i.before ++ i.text w ++ result w is :=
  List.flatMap_cons

theorem text_eq_render (w : LineDirective) (i : Inset) :
    i.text w = w.render i.startsLine i.line i.id := by
  simp [text, lead, render]

theorem offsets_append (n : Nat) (as bs : List Inset) :
    offsets n (as ++ bs) = offsets n as ++ offsets (n + Text.size (source as)) bs := by
  induction as generalizing n with
  | nil => rfl
  | cons i as ih => simp [offsets, ih, Nat.add_assoc]

theorem mem_offsets (h : as ≠ []) : n + Text.size (source as) ∈ offsets n as := by
  obtain ⟨xs, i, rfl⟩ := (List.eq_nil_or_concat' as).resolve_left h
  rw [offsets_append, source_append]
  apply List.mem_append_right
  simp [offsets, source, Nat.add_assoc]

/-- Behind another directive there is some text before the next one. -/
theorem before_ne_nil (h : (offsets n (as ++ i :: bs)).Pairwise (· < ·)) (has : as ≠ []) :
    i.before ≠ [] := by
  intro hi
  rw [offsets_append, offsets, hi] at h
  have hlt := (List.pairwise_append.1 h).2.2 _ (mem_offsets has) _ List.mem_cons_self
  exact absurd hlt (Nat.lt_irrefl _)

theorem lead_isLineBreak (h : (offsets n (as ++ i :: bs)).Pairwise (· < ·))
    (hi : i.startsLine = true → ∀ c ∈ (source (as ++ [i])).getLast?, Text.isLineBreak c = true) :
    ∀ c ∈ (result w as ++ i.before ++ i.lead).getLast?, Text.isLineBreak c = true := by
  unfold lead
  cases hs : i.startsLine with
  | false =>
    rintro c hc
    obtain rfl : '\n' = c := by simpa using hc
    rfl
  | true =>
    rw [if_pos rfl, List.append_nil]
    by_cases hb : i.before = []
    · have has : as = [] := by
        by_contra has
        exact before_ne_nil h has hb
      simp [has, hb, result]
    · have hi := hi hs
      rw [source_append, source_cons, source_nil, List.append_nil,
        List.getLast?_append_of_ne_nil _ hb] at hi
      rwa [List.getLast?_append_of_ne_nil _ hb]

end Inset

/-! ### What the ranges of a map ask for -/

/-- A directive that is asked for: the offset it is to stand at, and the place it is to tell. -/
structure Request where
  offset : Nat
  line : Nat
  resource : ResourceId
  deriving DecidableEq, Repr

/-- What a range asks for: a directive before the leaf in which it starts, or in which the text
behind the version line does. An empty range, and one before the end of the version line, asks for
nothing, and so does one that starts behind the text or at a place that is not known. -/
def request? (w : LineDirective) (d : Document) (m : SourceMap) (contents : Contents)
    (r : MapRange) : Option Request :=
  let start := max r.start (w.minOffset d)
  if r.start < r.stop ∧ w.minOffset d < r.stop then
    (d.leafAt? start).bind fun l => (m.query start).bind fun place =>
      (contents.get? place.resource).map fun content =>
        ⟨l.start, (LineIndex.ofText content).line place.offset, place.resource⟩
  else none

def requests (w : LineDirective) (d : Document) (m : SourceMap) (contents : Contents) :
    List Request :=
  m.ranges.filterMap (w.request? d m contents)

def Plan.add (w : LineDirective) (plan : Plan) (startsLine : Bool) (q : Request) : Plan :=
  ⟨(number plan.ids q.resource).2,
    put q.offset (w.render startsLine q.line (number plan.ids q.resource).1) plan.inserts⟩

variable {w : LineDirective} {s : Schema} {t : Text} {m : SourceMap} {contents : Contents}
  {plan : Plan} {x : Nat × Text} {n o : Nat} {qs : List Request} {q : Request}

theorem map_fst_leafStarting (o : Nat) (b : Bool) (ls : List Leaf) :
    (leafStarting o b ls).map Prod.fst = ls.find? fun l => l.start ≤ o && o < l.stop := by
  induction ls generalizing b with
  | nil => rfl
  | cons l ls ih =>
    rw [leafStarting, List.find?_cons]
    split
    next h => simp [h]
    next h => simp [h, ih]

theorem leafAt?_eq_none (h : Text.size t ≤ o) : (Document.parse s t).leafAt? o = none := by
  refine List.find?_eq_none.2 fun l hl => ?_
  obtain ⟨as, p, bs, he, hstart, htext, -⟩ := Document.exists_piece_of_mem_leaves hl
  have hsize := congrArg Text.size (textAll_ofText s t)
  rw [he, textAll_append, textAll_cons, Text.size_append, Text.size_append] at hsize
  simp only [Leaf.stop, hstart, htext, Bool.and_eq_true, decide_eq_true_eq]
  omega

theorem exists_pieces_minOffset (w : LineDirective) (s : Schema) (t : Text) : ∃ as bs,
    ofText s t = as ++ bs ∧ w.minOffset (.parse s t) = Text.size (textAll as) := by
  unfold minOffset
  split
  · exact Document.exists_pieces_endOfLine s t _
  · exact ⟨[], ofText s t, rfl, rfl⟩

theorem minOffset_le {as bs : List Piece} {p : Piece} (h : ofText s t = as ++ p :: bs)
    (hmin : w.minOffset (.parse s t) ≤ o) (ho : o < Text.size (textAll as) + Text.size p.text) :
    w.minOffset (.parse s t) ≤ Text.size (textAll as) := by
  obtain ⟨xs, ys, he, hxs⟩ := w.exists_pieces_minOffset s t
  rw [hxs] at hmin ⊢
  rcases List.append_eq_append_iff.1 (he.symm.trans h) with ⟨zs, rfl, -⟩ | ⟨zs, rfl, hz⟩
  · simp
  · cases zs with
    | nil => simp
    | cons z zs =>
      obtain ⟨rfl, -⟩ := List.cons_eq_cons.1 hz
      simp only [textAll_append, textAll_cons, Text.size_append] at hmin
      omega

/-- Where a directive may stand in a text. -/
structure Allowed (w : LineDirective) (s : Schema) (t : Text) (as : List Piece) (q : Request) :
    Prop where
  leaf : ∃ p bs, ofText s t = as ++ p :: bs
  offset : q.offset = Text.size (textAll as)
  min_le : w.minOffset (.parse s t) ≤ q.offset
  line_pos : 0 < q.line

theorem exists_leafStarting_piece (s : Schema) (ho : o < Text.size t) : ∃ l as p bs,
    (Document.parse s t).leafAt? o = some l ∧
    leafStarting o true (Document.parse s t).leaves = some (l, startsLine as) ∧
    ofText s t = as ++ p :: bs ∧ l.start = Text.size (textAll as) ∧
    o < Text.size (textAll as) + Text.size p.text := by
  obtain ⟨l, hl, -⟩ := Document.exists_leafAt? s ho
  have hfst : (leafStarting o true (Document.parse s t).leaves).map Prod.fst = some l := by
    rw [map_fst_leafStarting]
    exact hl
  obtain ⟨⟨l, b⟩, hstarting, rfl⟩ := Option.map_eq_some_iff.1 hfst
  have hpieces := hstarting
  rw [Document.leaves_parse] at hpieces
  obtain ⟨as, p, bs, hps, hstart, hstop, rfl⟩ :=
    leafStarting_eq_some (Document.isLeaf_parse s t) hpieces
  rw [Nat.zero_add] at hstart
  refine ⟨l, as, p, bs, hl, ?_, hps, hstart, hstart ▸ hstop⟩
  rw [startsLine_eq_getD, hstarting]

/-- A range adds what it asks for to a plan, and nothing else. -/
theorem planRange_cases (w : LineDirective) (s : Schema) (t : Text) (m : SourceMap)
    (contents : Contents) (plan : Plan) (r : MapRange) :
    let plan' := w.planRange (.parse s t) (Document.parse s t).leaves m contents
      (w.minOffset (.parse s t)) plan r
    (w.request? (.parse s t) m contents r = none ∧ plan' = plan) ∨
      ∃ q as, w.request? (.parse s t) m contents r = some q ∧ w.Allowed s t as q ∧
        plan' = plan.add w (startsLine as) q := by
  unfold request? planRange
  by_cases hr : r.start < r.stop ∧ w.minOffset (.parse s t) < r.stop
  · dsimp only
    rw [if_pos hr, if_neg (by simpa using hr), Document.size_parse]
    rcases Nat.lt_or_ge (max r.start (w.minOffset (.parse s t))) (Text.size t) with hlt | hge
    · obtain ⟨l, as, p, bs, hl, hstarting, hps, hstart, hstop⟩ := exists_leafStarting_piece s hlt
      rw [if_neg (Nat.not_le_of_lt hlt), hl, hstarting]
      cases m.query (max r.start (w.minOffset (.parse s t))) with
      | none => exact .inl ⟨rfl, rfl⟩
      | some place =>
        dsimp only [Option.bind_some]
        cases contents.get? place.resource with
        | none => exact .inl ⟨rfl, rfl⟩
        | some content =>
          have hmin := minOffset_le hps (Nat.le_max_right _ _) hstop
          exact .inr ⟨_, as, rfl, ⟨⟨p, bs, hps⟩, hstart, hstart ▸ hmin,
            LineIndex.line_pos content _⟩, rfl⟩
    · rw [if_pos hge, leafAt?_eq_none hge]
      exact .inl ⟨rfl, rfl⟩
  · refine .inl ⟨if_neg hr, if_pos ?_⟩
    simp only [Bool.or_eq_true, decide_eq_true_eq]
    omega

/-! ### Plans for any map -/

/-- The request that counts at an offset: of several the last. -/
def Request.lastAt (qs : List Request) (o : Nat) : Option Request :=
  qs.reverse.find? (·.offset == o)

theorem Request.lastAt_append (qs : List Request) (q : Request) (o : Nat) :
    lastAt (qs ++ [q]) o = if q.offset = o then some q else lastAt qs o := by
  unfold lastAt
  rw [List.reverse_append, List.reverse_singleton, List.singleton_append, List.find?_cons]
  by_cases h : q.offset = o
  · rw [if_pos h, beq_iff_eq.2 h]
  · rw [if_neg h, beq_eq_false_iff_ne.2 h]

theorem number_snd (ids : Numbering) (id : ResourceId) :
    (number ids id).2 = if id ∈ ids then ids else ids ++ [id] := by
  unfold number
  split
  next n hn =>
    obtain ⟨h, hid, -⟩ := List.findIdx?_eq_some_iff_getElem.1 hn
    rw [if_pos (eq_of_beq hid ▸ List.getElem_mem h)]
  next hn =>
    have hnot : id ∉ ids := fun h => by simpa using List.findIdx?_eq_none_iff.1 hn id h
    rw [if_neg hnot]

theorem nodup_number {ids : Numbering} (h : ids.Nodup) (id : ResourceId) :
    (number ids id).2.Nodup := by
  rw [number_snd]
  split
  · exact h
  next hid => exact List.concat_eq_append ▸ h.concat hid

/-- Numbering one more resource keeps the resources in the order in which they come up. -/
theorem number_eraseDups (ids : List ResourceId) (id : ResourceId) :
    (number ids.eraseDups id).2 = (ids ++ [id]).eraseDups := by
  rw [number_snd, List.eraseDups_append]
  by_cases h : id ∈ ids <;> simp [List.removeAll, List.eraseDups_cons, h]

/-- A plan that does what is asked for: directives at just the offsets that are asked for, each for
the last request at its offset, and the resources numbered in the order of the requests. -/
structure Plan.Meets (w : LineDirective) (s : Schema) (t : Text) (qs : List Request)
    (plan : Plan) : Prop where
  sorted : plan.inserts.Pairwise fun p q => p.1 < q.1
  nodup : plan.ids.Nodup
  ids_eq : plan.ids = (qs.map Request.resource).eraseDups
  asked : ∀ x ∈ plan.inserts, ∃ q as id, Request.lastAt qs x.1 = some q ∧ w.Allowed s t as q ∧
    x = (q.offset, w.render (startsLine as) q.line id) ∧ plan.ids[id]? = some q.resource
  given : ∀ q ∈ qs, ∃ x ∈ plan.inserts, x.1 = q.offset

theorem Plan.Meets.add {as : List Piece} (h : plan.Meets w s t qs) (hq : w.Allowed s t as q) :
    (plan.add w (startsLine as) q).Meets w s t (qs ++ [q]) := by
  obtain ⟨hids, hid⟩ := number_spec plan.ids q.resource
  constructor
  · exact sorted_put h.sorted
  · exact nodup_number h.nodup _
  · rw [Plan.add, h.ids_eq, number_eraseDups, List.map_append, List.map_singleton]
  · intro x hx
    rcases (mem_put h.sorted).1 hx with rfl | ⟨hx, hne⟩
    · exact ⟨q, as, _, by rw [Request.lastAt_append, if_pos rfl], hq, rfl, hid⟩
    · obtain ⟨q', as', id, hlast, hq', hx', hid'⟩ := h.asked x hx
      obtain ⟨hlt, hget⟩ := List.getElem?_eq_some_iff.1 hid'
      refine ⟨q', as', id, ?_, hq', hx', ?_⟩
      · rw [Request.lastAt_append, if_neg hne.symm, hlast]
      · rw [Plan.add, List.prefix_iff_getElem?.1 hids id hlt, hget]
  · intro q' hq'
    by_cases hsame : q'.offset = q.offset
    · exact ⟨_, (mem_put h.sorted).2 (.inl rfl), hsame.symm⟩
    · rcases List.mem_append.1 hq' with hq' | hq'
      · obtain ⟨x, hx, hxo⟩ := h.given q' hq'
        exact ⟨x, (mem_put h.sorted).2 (.inr ⟨hx, hxo ▸ hsame⟩), hxo⟩
      · exact absurd (List.mem_singleton.1 hq' ▸ rfl) hsame

theorem meets_foldl (rs : List MapRange) (h : plan.Meets w s t qs) :
    (rs.foldl (w.planRange (.parse s t) (Document.parse s t).leaves m contents
      (w.minOffset (.parse s t))) plan).Meets w s t
        (qs ++ rs.filterMap (w.request? (.parse s t) m contents)) := by
  induction rs generalizing plan qs with
  | nil => simpa using h
  | cons r rs ih =>
    rw [List.foldl_cons]
    rcases w.planRange_cases s t m contents plan r with ⟨hr, hplan⟩ | ⟨q, as, hr, hq, hplan⟩
    · rw [hplan, List.filterMap_cons_none hr]
      exact ih h
    · rw [hplan, List.filterMap_cons_some hr, List.append_cons]
      exact ih (h.add hq)

theorem meets_plan (w : LineDirective) (s : Schema) (t : Text) (m : SourceMap)
    (contents : Contents) :
    (w.plan (.parse s t) m contents).Meets w s t (w.requests (.parse s t) m contents) := by
  have hnil : (⟨[], []⟩ : Plan).Meets w s t [] := ⟨.nil, .nil, rfl, by simp, by simp⟩
  exact meets_foldl m.ranges hnil

/-! ### Setting a plan in -/

theorem exists_mem_placeLeaves {ps as bs : List Piece} {q : Piece} {ls : List (Kind × Text)}
    (h : List.Forall₂ IsLeaf ps ls) (hps : ps = as ++ q :: bs) :
    ∃ l ∈ Tree.placeLeaves n ls, l.start = n + Text.size (textAll as) := by
  induction h generalizing n as with
  | nil => simp at hps
  | @cons p kt ps ls hp _ ih =>
    cases as with
    | nil => exact ⟨_, List.mem_cons_self, rfl⟩
    | cons a as =>
      obtain ⟨rfl, htail⟩ := List.cons_eq_cons.1 hps
      obtain ⟨l, hl, hstart⟩ := ih (n := n + Text.size kt.2) htail
      refine ⟨l, List.mem_cons_of_mem _ hl, ?_⟩
      rw [hstart, hp.1, textAll_cons, Text.size_append, Nat.add_assoc]

theorem isLineBreak_of_startsLine {as bs : List Piece} (h : ofText s t = as ++ bs)
    (hs : startsLine as = true) : ∀ c ∈ (textAll as).getLast?, Text.isLineBreak c = true := by
  intro c hc
  rcases List.eq_nil_or_concat' as with rfl | ⟨xs, p, rfl⟩
  · cases hc
  · have hp : p ∈ ofText s t := by simp [h]
    have hkind : p.kind = .newline := by simpa [startsLine] using hs
    have hcuts := cuts_ofText s t
    rw [textAll_append, textAll_cons, textAll_nil, List.append_nil,
      List.getLast?_append_of_ne_nil _ (hcuts.text_ne_nil hp)] at hc
    exact hcuts.newline_isLineBreak hp hkind c (List.mem_of_getLast? hc)

theorem Allowed.exists_leaf {as : List Piece} (h : w.Allowed s t as q) :
    ∃ l ∈ (Document.parse s t).leaves, l.start = q.offset := by
  obtain ⟨p, bs, he⟩ := h.leaf
  rw [Document.leaves_parse, h.offset, ← Nat.zero_add (Text.size _)]
  exact exists_mem_placeLeaves (Document.isLeaf_parse s t) he

theorem Plan.Meets.mem_offsets_iff (h : plan.Meets w s t qs) :
    o ∈ plan.inserts.map Prod.fst ↔ ∃ q ∈ qs, q.offset = o := by
  rw [List.mem_map]
  constructor
  · rintro ⟨x, hx, rfl⟩
    obtain ⟨q, as, id, hlast, -, rfl, -⟩ := h.asked x hx
    exact ⟨q, List.mem_reverse.1 (List.mem_of_find?_eq_some hlast), rfl⟩
  · rintro ⟨q, hq, rfl⟩
    exact h.given q hq

theorem Plan.Meets.exists_leaf (h : plan.Meets w s t qs) (ho : o ∈ plan.inserts.map Prod.fst) :
    w.minOffset (.parse s t) ≤ o ∧ ∃ l ∈ (Document.parse s t).leaves, l.start = o := by
  obtain ⟨x, hx, rfl⟩ := List.mem_map.1 ho
  obtain ⟨q, as, id, -, hq, rfl, -⟩ := h.asked x hx
  exact ⟨hq.min_le, hq.exists_leaf⟩

structure Plan.Tells (plan : Plan) (q : Request) (line id : Nat) : Prop where
  line_pos : 1 ≤ line
  line_eq : line = q.line
  resource : plan.ids[id]? = some q.resource

theorem Plan.Meets.exists_place (h : plan.Meets w s t qs) (hx : x ∈ plan.inserts) :
    ∃ u v b line id, t = u ++ v ∧ x = (Text.size u, w.render b line id) ∧
      (b = true → ∀ c ∈ u.getLast?, Text.isLineBreak c = true) ∧
      ∃ q, Request.lastAt qs (Text.size u) = some q ∧ plan.Tells q line id := by
  obtain ⟨q, as, id, hlast, hq, hx', hid⟩ := h.asked x hx
  obtain ⟨p, bs, he⟩ := hq.leaf
  have hu : x.1 = Text.size (textAll as) := by rw [hx', hq.offset]
  refine ⟨textAll as, textAll (p :: bs), startsLine as, q.line, id, ?_, ?_,
    isLineBreak_of_startsLine he, q, hu ▸ hlast, hq.line_pos, rfl, hid⟩
  · rw [← textAll_append, ← he, textAll_ofText]
  · rw [hx', hq.offset]

open Inset

theorem exists_insets {a : Text} (ha : Text.size a = n) {xs : List (Nat × Text)}
    (hs : xs.Pairwise fun p q => p.1 < q.1) (hn : ∀ x ∈ xs, n ≤ x.1)
    {P : Text → Bool → Nat → Nat → Prop}
    (hx : ∀ x ∈ xs, ∃ u v b line id, a ++ t = u ++ v ∧ x = (Text.size u, w.render b line id) ∧
      P u b line id) :
    ∃ is rest, t = source is ++ rest ∧ offsets n is = xs.map Prod.fst ∧
      Edit.Swept n t (xs.map fun x => .insert (.offset x.1) x.2) (result w is ++ rest) ∧
      ∀ as i bs, is = as ++ i :: bs → P (a ++ source (as ++ [i])) i.startsLine i.line i.id := by
  induction xs generalizing n a t with
  | nil => exact ⟨[], t, rfl, rfl, .done n t, by simp⟩
  | cons x xs ih =>
    obtain ⟨hlt, hrest⟩ := List.pairwise_cons.1 hs
    obtain ⟨u, v, b, line, id, he, rfl, hP⟩ := hx x List.mem_cons_self
    obtain ⟨c, rfl, rfl⟩ := Text.exists_append_of_size_le he
      (by rw [ha]; exact hn _ List.mem_cons_self)
    obtain ⟨is, rest, rfl, hoffsets, hswept, hall⟩ := ih (a := a ++ c) rfl hrest
      (fun y hy => (hlt y hy).le) fun y hy => by
        simpa using hx y (List.mem_cons_of_mem _ hy)
    have hsize : n + Text.size c = Text.size (a ++ c) := by rw [Text.size_append, ha]
    refine ⟨⟨c, b, line, id⟩ :: is, rest, by simp, ?_, ?_, ?_⟩
    · rw [offsets, hsize, hoffsets, List.map_cons]
    · have hnext := Edit.Swept.next (b := []) (e := .insert (.offset (Text.size (a ++ c)))
        (w.render b line id)) (n := n) (a := c) hsize.symm rfl hswept
      rw [result_cons, text_eq_render, List.map_cons, List.append_assoc, List.append_assoc]
      exact hnext
    · intro as i bs his
      cases as with
      | nil =>
        obtain ⟨rfl, -⟩ := List.cons_eq_cons.1 his
        simpa using hP
      | cons j as =>
        obtain ⟨rfl, htail⟩ := List.cons_eq_cons.1 his
        simpa using hall as i bs htail

/-- Injection never fails and only sets directives into a text: one before each leaf for which a
range asks, not before the end of the version line, and each at the start of a line of the new text.
It tells the line and the number of the resource that the last such range asks for. The resources
have their numbers in the order in which they come up. -/
theorem inject_insets (w : LineDirective) (s : Schema) (t : Text) (m : SourceMap)
    (contents : Contents) :
    let qs := w.requests (.parse s t) m contents
    ∃ inj is rest, w.inject (.parse s t) m contents = .ok inj ∧
      t = source is ++ rest ∧ inj.document.text = result w is ++ rest ∧
      (offsets 0 is).Pairwise (· < ·) ∧
      (∀ o, o ∈ offsets 0 is ↔ ∃ q ∈ qs, q.offset = o) ∧
      (∀ o ∈ offsets 0 is, w.minOffset (.parse s t) ≤ o ∧
        ∃ l ∈ (Document.parse s t).leaves, l.start = o) ∧
      (∀ as i bs, is = as ++ i :: bs →
        (∀ c ∈ (result w as ++ i.before ++ i.lead).getLast?, Text.isLineBreak c = true) ∧
        1 ≤ i.line ∧ i.id < inj.paths.length ∧
        ∃ q, Request.lastAt qs (Text.size (source (as ++ [i]))) = some q ∧
          i.line = q.line ∧ inj.paths[i.id]? = some q.resource) ∧
      inj.paths.Nodup ∧ inj.paths = (qs.map Request.resource).eraseDups := by
  have hplan := w.meets_plan s t m contents
  obtain ⟨is, rest, ht, hoffsets, hswept, hall⟩ := exists_insets (w := w) (t := t) Text.size_nil
    hplan.sorted (fun _ _ => Nat.zero_le _) fun x hx => hplan.exists_place hx
  have hsorted : (offsets 0 is).Pairwise (· < ·) := by
    rw [hoffsets, List.pairwise_map]
    exact hplan.sorted
  refine ⟨_, is, rest, inject_of_swept hswept, ht, Document.text_parse s _, hsorted,
    fun o => hoffsets ▸ hplan.mem_offsets_iff, fun o ho => hplan.exists_leaf (hoffsets ▸ ho), ?_,
    hplan.nodup, hplan.ids_eq⟩
  rintro as i bs rfl
  obtain ⟨hlead, q, hlast, htells⟩ := hall as i bs rfl
  obtain ⟨hid, -⟩ := List.getElem?_eq_some_iff.1 htells.resource
  exact ⟨lead_isLineBreak hsorted hlead, htells.line_pos, hid, q, hlast, htells.line_eq,
    htells.resource⟩

-- Two ranges meet inside a name: both ask for a directive before it, and the second one counts.
example :
    let a : ResourceId := ⟨['s'], ['a']⟩
    let b : ResourceId := ⟨['s'], ['b']⟩
    standard.requests (.parse .glsl "#version 1\nab;".toList)
      ⟨[⟨0, 12, a, 0, .verbatim⟩, ⟨12, 14, b, 2, .synthetic⟩], 14⟩
      [(a, "#version 1\na".toList), (b, "x\n\n".toList)] = [⟨11, 2, a⟩, ⟨11, 2, b⟩] := by
  cbv

end ShaderInline.LineDirective
