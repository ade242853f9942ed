import ShaderInline.Schema.Glsl
import ShaderInline.Proofs.Edit
import ShaderInline.Proofs.Tree.Leaves

/-! # One edit after another

A batch that is accepted does to a text what its edits do one after another,
made from right to left so that no edit moves what the next ones address. In
which order they were queued matters only for edits that replace nothing at one
and the same offset.
-/

namespace ShaderInline

open Text Schema

theorem Text.eq_of_splitAt? {n : Nat} {t a b : Text} (h : splitAt? n t = some (a, b)) :
    t = a ++ b ∧ size a = n := by
  fun_induction splitAt? n t generalizing a with
  | case1 t =>
    obtain ⟨rfl, rfl⟩ := Prod.mk.inj (Option.some.inj h)
    exact ⟨rfl, rfl⟩
  | case2 => cases h
  | case3 n c cs hc ih =>
    obtain ⟨⟨a', b'⟩, hcs, he⟩ := Option.map_eq_some_iff.1 h
    obtain ⟨rfl, rfl⟩ := Prod.mk.inj he
    obtain ⟨rfl, hsize⟩ := ih hcs
    refine ⟨rfl, ?_⟩
    rw [size_cons]
    omega
  | case4 => cases h

theorem Text.exists_append_of_isBoundary {n : Nat} {t : Text} (h : isBoundary n t = true) :
    ∃ a b, t = a ++ b ∧ size a = n := by
  obtain ⟨⟨a, b⟩, hab⟩ := Option.isSome_iff_exists.1 h
  exact ⟨a, b, eq_of_splitAt? hab⟩

namespace Edit

variable {n : Nat} {t u : Text} {a b e : Edit} {edits es fs queue : List Edit}

/-! ### The order of the sweep -/

theorem le_iff : le a b = true ↔ a.start < b.start ∨ a.start = b.start ∧ a.stop ≤ b.stop := by
  simp [le]

theorem le_trans (a b c : Edit) (hab : le a b = true) (hbc : le b c = true) : le a c = true := by
  rw [le_iff] at *
  omega

theorem le_total (a b : Edit) : (le a b || le b a) = true := by
  rw [Bool.or_eq_true, le_iff, le_iff]
  omega

def sameRange (e f : Edit) : Bool := f.start == e.start && f.stop == e.stop

theorem sameRange_iff : sameRange a b = true ↔ b.start = a.start ∧ b.stop = a.stop := by
  simp [sameRange]

theorem sameRange_of_le (hab : le a b = true) (hba : le b a = true) : sameRange a b = true := by
  rw [le_iff] at hab hba
  rw [sameRange_iff]
  omega

/-- Sorting keeps the edits of one range in the order of the queue. -/
theorem filter_mergeSort (e : Edit) (edits : List Edit) :
    (edits.mergeSort le).filter (sameRange e) = edits.filter (sameRange e) := by
  have hpair : (edits.filter (sameRange e)).Pairwise fun a b => le a b = true := by
    refine List.pairwise_of_forall_mem_list fun a ha b hb => ?_
    rw [List.mem_filter, sameRange_iff] at ha hb
    rw [le_iff]
    omega
  have hsub := List.sublist_mergeSort le_trans le_total hpair List.filter_sublist
  have hperm := (edits.mergeSort_perm le).filter (sameRange e)
  refine (List.Sublist.eq_of_length ?_ hperm.length_eq.symm).symm
  simpa using hsub.filter (sameRange e)

theorem sameRange_self (e : Edit) : sameRange e e = true := sameRange_iff.2 ⟨rfl, rfl⟩

theorem mem_iff_of_filter (h : ∀ e, es.filter (sameRange e) = fs.filter (sameRange e)) :
    e ∈ es ↔ e ∈ fs := by
  simpa [sameRange_self] using congrArg (e ∈ ·) (h e)

theorem eq_of_filter (hes : es.Pairwise fun a b => le a b = true)
    (hfs : fs.Pairwise fun a b => le a b = true)
    (h : ∀ e, es.filter (sameRange e) = fs.filter (sameRange e)) : es = fs := by
  induction es generalizing fs with
  | nil =>
    refine (List.eq_nil_iff_forall_not_mem.2 fun e he => ?_).symm
    exact absurd ((mem_iff_of_filter h).2 he) (by simp)
  | cons a es ih =>
    cases fs with
    | nil => exact absurd ((mem_iff_of_filter h).1 List.mem_cons_self) (by simp)
    | cons b fs =>
      obtain ⟨ha, hes⟩ := List.pairwise_cons.1 hes
      obtain ⟨hb, hfs'⟩ := List.pairwise_cons.1 hfs
      -- each of the two first edits is the least of all, so that they have one range
      have hrange : sameRange a b = true := by
        have hbmem : b ∈ a :: es := (mem_iff_of_filter h).2 List.mem_cons_self
        have hamem : a ∈ b :: fs := (mem_iff_of_filter h).1 List.mem_cons_self
        rcases List.mem_cons.1 hbmem with rfl | hba
        · exact sameRange_self b
        rcases List.mem_cons.1 hamem with rfl | hab
        · exact sameRange_self a
        exact sameRange_of_le (ha b hba) (hb a hab)
      have hhead := h a
      rw [List.filter_cons_of_pos (sameRange_self a), List.filter_cons_of_pos hrange] at hhead
      obtain ⟨rfl, -⟩ := List.cons_eq_cons.1 hhead
      congr 1
      refine ih hes hfs' fun e => ?_
      have he := h e
      by_cases hs : sameRange e a = true
      · rw [List.filter_cons_of_pos hs, List.filter_cons_of_pos hs] at he
        exact (List.cons_eq_cons.1 he).2
      · rwa [List.filter_cons_of_neg hs, List.filter_cons_of_neg hs] at he

/-! ### From the sweep to its parts -/

theorem misplaced?_eq_none_iff : misplaced? t edits = none ↔
    ∀ e ∈ edits, Text.isBoundary e.start t = true ∧ Text.isBoundary e.stop t = true := by
  simp [misplaced?, forall_and]

/-- A sweep that goes through cuts the text at the ends of every range. -/
theorem Swept.of_sweep {m : Text} (hm : size m = n)
    (hb : ∀ e ∈ es, Text.isBoundary e.start (m ++ t) = true ∧
      Text.isBoundary e.stop (m ++ t) = true)
    (hr : ∀ e ∈ es, e.start ≤ e.stop) (h : sweep n t es = .ok u) : Swept n t es u := by
  induction es generalizing n m t u with
  | nil =>
    obtain rfl := Except.ok.inj h
    exact .done n t
  | cons e es ih =>
    obtain ⟨⟨hstart, hstop⟩, hb⟩ := List.forall_mem_cons.1 hb
    obtain ⟨hle, hr⟩ := List.forall_mem_cons.1 hr
    rw [sweep] at h
    split at h
    next => cases h
    next hn =>
      obtain ⟨x, y, hxy, hx⟩ := exists_append_of_isBoundary hstart
      obtain ⟨kept, rfl, rfl⟩ := exists_append_of_size_le hxy (by omega)
      rw [hxy] at hstop hb
      obtain ⟨x', y', hxy', hx'⟩ := exists_append_of_isBoundary hstop
      obtain ⟨old, rfl, rfl⟩ := exists_append_of_size_le hxy' (by omega)
      rw [size_append] at hx hx'
      have hkept : e.start - n = size kept := by omega
      have hold : e.stop - e.start = size old := by rw [size_append] at hx'; omega
      simp only [hkept, hold, takeBytes_size_append, dropBytes_size_append] at h
      split at h
      next tail htail =>
        obtain rfl := Except.ok.inj h
        rw [List.append_assoc]
        refine .next (by omega) (by omega) (ih (m := m ++ kept ++ old) ?_ ?_ hr htail)
        · rw [size_append, size_append]
          omega
        · simpa using hb
      next => cases h

theorem apply_eq_ok_iff (hr : ∀ e ∈ edits, e.start ≤ e.stop) : Edit.apply t edits = .ok u ↔
    misplaced? t edits = none ∧ Swept 0 t (edits.mergeSort le) u := by
  rw [Edit.apply]
  constructor
  · intro h
    split at h
    next => cases h
    next hnone =>
      refine ⟨hnone, .of_sweep (m := []) rfl (fun e he => ?_) (fun e he => ?_) h⟩
      · exact misplaced?_eq_none_iff.1 hnone e (List.mem_mergeSort.1 he)
      · exact hr e (List.mem_mergeSort.1 he)
  · rintro ⟨hnone, h⟩
    rw [hnone]
    exact h.sweep_eq

/-! ### From right to left -/

/-- A text with one edit made in it: what stands in the range gives way to what the edit makes of
the text that stands there in `source`. -/
def splice (source t : Text) (e : Edit) : Text :=
  takeBytes e.start t ++ e.change (takeBytes (e.stop - e.start) (dropBytes e.start source)) ++
    dropBytes e.stop t

/-- Whether an edit, with its place in the queue, is made no later than another one: it starts
further right or stops further right, or it was queued later. -/
def comesFirst (a b : Edit × Nat) : Bool :=
  b.1.start < a.1.start || (b.1.start == a.1.start &&
    (b.1.stop < a.1.stop || (b.1.stop == a.1.stop && b.2 ≤ a.2)))

def rightToLeft (edits : List Edit) : List Edit := (edits.zipIdx.mergeSort comesFirst).map (·.1)

theorem comesFirst_eq (a b : Edit × Nat) : comesFirst a b = List.zipIdxLE le b a := by
  rw [Bool.eq_iff_iff, List.zipIdxLE]
  simp only [comesFirst, le]
  split_ifs <;> (simp at *; omega)

theorem eq_of_comesFirst {a b : Edit × Nat} (ha : a ∈ edits.zipIdx) (hb : b ∈ edits.zipIdx)
    (hab : comesFirst a b = true) (hba : comesFirst b a = true) : a = b := by
  have hplace : a.2 = b.2 := by
    simp only [comesFirst, Bool.or_eq_true, Bool.and_eq_true, decide_eq_true_eq,
      beq_iff_eq] at hab hba
    omega
  rw [List.mem_zipIdx_iff_getElem?] at ha hb
  rw [hplace] at ha
  exact Prod.ext (Option.some.inj (ha.symm.trans hb)) hplace

theorem rightToLeft_eq (edits : List Edit) :
    rightToLeft edits = (edits.mergeSort le).reverse := by
  have htrans := List.zipIdxLE_trans le_trans
  have htotal := List.zipIdxLE_total le_total
  have hsorted : edits.zipIdx.mergeSort comesFirst =
      (edits.zipIdx.mergeSort (List.zipIdxLE le)).reverse := by
    refine List.Perm.eq_of_pairwise (fun a b ha hb => ?_) (List.pairwise_mergeSort ?_ ?_ _) ?_ ?_
    · rw [List.mem_mergeSort] at ha
      rw [List.mem_reverse, List.mem_mergeSort] at hb
      exact eq_of_comesFirst ha hb
    · intro a b c hab hbc
      rw [comesFirst_eq] at hab hbc ⊢
      exact htrans c b a hbc hab
    · intro a b
      rw [comesFirst_eq, comesFirst_eq]
      exact htotal b a
    · rw [List.pairwise_reverse]
      simp only [comesFirst_eq]
      exact List.pairwise_mergeSort htrans htotal _
    · exact (List.mergeSort_perm _ _).trans
        ((List.mergeSort_perm _ _).symm.trans (List.reverse_perm _).symm)
  rw [rightToLeft, hsorted, List.map_reverse, List.mergeSort_zipIdx]

theorem splice_eq {m old : Text} (hm : size m = e.start) (hold : e.stop = e.start + size old)
    (x y : Text) : splice (m ++ (old ++ x)) (m ++ (old ++ y)) e = m ++ (e.change old ++ y) := by
  have hbefore : takeBytes e.start (m ++ (old ++ y)) = m := by rw [← hm, takeBytes_size_append]
  have hrange : takeBytes (e.stop - e.start) (dropBytes e.start (m ++ (old ++ x))) = old := by
    rw [hold, Nat.add_sub_cancel_left, ← hm, dropBytes_size_append, takeBytes_size_append]
  have hafter : dropBytes e.stop (m ++ (old ++ y)) = y := by
    rw [hold, ← hm, dropBytes_size_add, dropBytes_size_append]
  rw [splice, hbefore, hrange, hafter, List.append_assoc]

/-- Edits that stand in order, made one after another from the last to the first. -/
theorem Swept.foldr_splice {m source : Text} (h : Swept n t es u) (hm : size m = n)
    (hs : source = m ++ t) : es.foldr (fun e t => splice source t e) source = m ++ u := by
  induction h generalizing m with
  | done => exact hs
  | @next n kept old rest u e es hstart hstop _ ih =>
    have hkept : size (m ++ kept) = e.start := by rw [size_append, hm, hstart]
    have hrest := ih (m := m ++ kept ++ old) (by rw [size_append, hkept, hstop]) (by simp [hs])
    rw [List.append_assoc] at hrest
    rw [List.foldr_cons, hrest, hs, ← List.append_assoc m kept, splice_eq hkept hstop,
      List.append_assoc]

/-! ### Queues -/

theorem Swept.pairwise_stop_le (h : Swept n t es u) : es.Pairwise fun a b => a.stop ≤ b.start := by
  induction h with
  | done => exact .nil
  | next _ _ h ih => exact .cons (fun e he => (h.ordered e he).1) ih

def isEmptyAt (o : Nat) (e : Edit) : Bool := e.start == o && e.stop == o

/-- Only edits that replace nothing can share their range with others of an accepted batch. -/
theorem Swept.length_filter_le (h : Swept n t es u) (he : e.start < e.stop) :
    (es.filter (sameRange e)).length ≤ 1 := by
  have hpair := h.pairwise_stop_le.filter (sameRange e)
  rcases hf : es.filter (sameRange e) with - | ⟨a, - | ⟨b, fs⟩⟩
  · simp
  · simp
  · exfalso
    have ha : a ∈ es.filter (sameRange e) := by simp [hf]
    have hb : b ∈ es.filter (sameRange e) := by simp [hf]
    rw [List.mem_filter, sameRange_iff] at ha hb
    rw [hf] at hpair
    have := (List.pairwise_cons.1 hpair).1 b List.mem_cons_self
    omega

/-- A queue in another order stands in the same order for the sweep, if those edits that replace
nothing at one offset follow each other as before. -/
theorem mergeSort_eq_of_perm (hr : ∀ e ∈ edits, e.start ≤ e.stop)
    (h : Swept n t (edits.mergeSort le) u) (hp : queue.Perm edits)
    (hq : ∀ o, queue.filter (isEmptyAt o) = edits.filter (isEmptyAt o)) :
    queue.mergeSort le = edits.mergeSort le := by
  refine eq_of_filter (List.pairwise_mergeSort le_trans le_total _)
    (List.pairwise_mergeSort le_trans le_total _) fun e => ?_
  rw [filter_mergeSort, filter_mergeSort]
  have hfilter := hp.filter (sameRange e)
  rcases lt_trichotomy e.start e.stop with hlt | heq | hgt
  · have hlen := h.length_filter_le hlt
    rw [filter_mergeSort] at hlen
    rcases hf : edits.filter (sameRange e) with - | ⟨a, - | ⟨b, fs⟩⟩
    · rw [hf] at hfilter
      exact hfilter.eq_nil
    · rw [hf] at hfilter
      exact List.perm_singleton.1 hfilter
    · simp [hf] at hlen
  · have hempty : isEmptyAt e.start = sameRange e := by
      funext f
      rw [isEmptyAt, sameRange, ← heq]
    rw [← hempty]
    exact hq e.start
  · have hnil : edits.filter (sameRange e) = [] := by
      rw [List.filter_eq_nil_iff]
      intro f hf hs
      have := hr f hf
      rw [sameRange_iff] at hs
      omega
    rw [hnil] at hfilter ⊢
    exact hfilter.eq_nil

theorem apply_eq_of_perm (hr : ∀ e ∈ edits, e.start ≤ e.stop) (h : Edit.apply t edits = .ok u)
    (hp : queue.Perm edits)
    (hq : ∀ o, queue.filter (isEmptyAt o) = edits.filter (isEmptyAt o)) :
    Edit.apply t queue = .ok u := by
  obtain ⟨hplace, hswept⟩ := (apply_eq_ok_iff hr).1 h
  refine (apply_eq_ok_iff fun e he => hr e (hp.mem_iff.1 he)).2 ⟨?_, ?_⟩
  · rw [misplaced?_eq_none_iff] at hplace ⊢
    exact fun e he => hplace e (hp.mem_iff.1 he)
  · rwa [mergeSort_eq_of_perm hr hswept hp hq]

end Edit

namespace Document

theorem commit_eq_ok {d : Document} {es : List Edit} {u : Text} (h : Edit.Swept 0 d.text es u) :
    d.commit es = .ok (parse d.schema u) := by
  rw [commit, h.apply_eq]
  rfl

/-- A batch of ranges that is accepted gives the text that its edits give one after another from
right to left, each fed with what stood in its range before the batch. Queued in another order they
give the same document, as long as edits that replace nothing at one offset follow each other as
before. -/
theorem commit_eq_rightToLeft {d d' : Document} {edits : List Edit}
    (hr : ∀ e ∈ edits, e.start ≤ e.stop) (h : d.commit edits = .ok d') :
    d'.text = (Edit.rightToLeft edits).foldl (Edit.splice d.text) d.text ∧
      ∀ queue : List Edit, queue.Perm edits →
        (∀ o, queue.filter (Edit.isEmptyAt o) = edits.filter (Edit.isEmptyAt o)) →
          d.commit queue = .ok d' := by
  rw [commit] at h
  cases hu : Edit.apply d.text edits with
  | error f =>
    rw [hu] at h
    cases h
  | ok u =>
    rw [hu] at h
    obtain rfl := Except.ok.inj h
    obtain ⟨-, hswept⟩ := (Edit.apply_eq_ok_iff hr).1 hu
    constructor
    · rw [text_parse, Edit.rightToLeft_eq, List.foldl_reverse]
      exact (hswept.foldr_splice (m := []) rfl rfl).symm
    · intro queue hp hq
      rw [commit, Edit.apply_eq_of_perm hr hu hp hq]
      rfl

def editsOfLetter : List Edit :=
  [.insert (.offset 2) ['x'], .insert (.offset 2) ['y'], .replace 2 3 ['B']]

def editsOfBlock : List Edit :=
  [.insert (.offset 3) ['z'], ⟨3, 6, fun old => '"' :: old ++ ['"']⟩]

theorem commit_eq_rightToLeft_halves :
    (parse glsl "αb{c}".toList).commit (editsOfLetter ++ editsOfBlock) =
      .ok (parse glsl "αxyBz\"{c}\"".toList) ∧
    (parse glsl "αxyBz\"{c}\"".toList).text =
      (Edit.rightToLeft (editsOfLetter ++ editsOfBlock)).foldl
        (Edit.splice (parse glsl "αb{c}".toList).text) (parse glsl "αb{c}".toList).text ∧
    (parse glsl "αb{c}".toList).commit (editsOfBlock ++ editsOfLetter) =
      .ok (parse glsl "αxyBz\"{c}\"".toList) := by
  have hswept : Edit.Swept 0 "αb{c}".toList (editsOfLetter ++ editsOfBlock)
      "αxyBz\"{c}\"".toList :=
    .next (a := ['α']) (b := []) rfl rfl <| .next (a := []) (b := []) rfl rfl <|
      .next (a := []) (b := ['b']) rfl rfl <| .next (a := []) (b := []) rfl rfl <|
        .next (a := []) (b := "{c}".toList) (c := []) rfl rfl <| .done 6 []
  have hr := fun e he => (hswept.ordered e he).2
  rw [← text_parse glsl "αb{c}".toList] at hswept
  have hcommit := commit_eq_ok hswept
  obtain ⟨htext, hqueue⟩ := commit_eq_rightToLeft hr hcommit
  refine ⟨hcommit, htext, hqueue _ List.perm_append_comm fun o => ?_⟩
  rw [List.filter_append, List.filter_append]
  -- the two halves have no offset at which both of them replace nothing
  by_cases h2 : 2 = o
  · subst h2
    rfl
  · have hnil : editsOfLetter.filter (Edit.isEmptyAt o) = [] := by
      simp [editsOfLetter, Edit.isEmptyAt, Edit.insert, Edit.replace, Position.resolve, h2]
    rw [hnil, List.append_nil, List.nil_append]

/-- The whole of an empty text with a mark put before it. -/
def markOfEmpty : Edit := .transform (parse glsl []).rootNode ('p' :: ·)

/-- Beside a single insertion the place of such a mark in the queue matters. -/
theorem commit_mark_order :
    (parse glsl []).commit [.insert (.offset 0) ['a'], markOfEmpty] =
      .ok (parse glsl ['a', 'p']) ∧
    (parse glsl []).commit [markOfEmpty, .insert (.offset 0) ['a']] =
      .ok (parse glsl ['p', 'a']) ∧
    (parse glsl ['a', 'p']).text ≠ (parse glsl ['p', 'a']).text := by
  refine ⟨commit_eq_ok ?_, commit_eq_ok ?_, ?_⟩
  · rw [text_parse]
    exact .next (a := []) (b := []) (c := []) rfl rfl <|
      .next (a := []) (b := []) rfl rfl <| .done 0 []
  · rw [text_parse]
    exact .next (a := []) (b := []) (c := []) rfl rfl <|
      .next (a := []) (b := []) rfl rfl <| .done 0 []
  · rw [text_parse, text_parse]
    decide

end Document
end ShaderInline
