import ShaderInline.Proofs.LineDirective
import ShaderInline.Proofs.Text.Decimal
import ShaderInline.Proofs.Text.Trim
import ShaderInline.Proofs.Token.Kinds

/-! # Directives woven into a text

A line directive is inserted between two pieces of a text, at the start of a
line or with a line break before it. So the text with its directives is cut into
the same pieces as before, and into those of the directives between them.
-/

namespace ShaderInline

open Schema Piece

/-! ### What a directive is cut into -/

namespace Text

variable {c : Char}

theorem isBlank_digit (h : c.isDigit = true) : isBlank c = false := by
  apply isBlank_wordPart
  simp [isWordPart, Char.isAlphanum, h]

theorem isWordStart_digit (h : c.isDigit = true) : isWordStart c = false := by
  have hc := toNat_of_isDigit h
  rw [Bool.eq_false_iff]
  intro hw
  simp only [isWordStart, Char.isAlpha, Char.isUpper, Char.isLower, Bool.or_eq_true,
    Bool.and_eq_true, decide_eq_true_eq, UInt32.le_iff_toNat_le, ge_iff_le, beq_iff_eq] at hw
  change ((65 ≤ c.toNat ∧ c.toNat ≤ 90) ∨ (97 ≤ c.toNat ∧ c.toNat ≤ 122)) ∨ c = '_' at hw
  rcases hw with (hw | hw) | rfl
  · omega
  · omega
  · cases h

end Text

namespace Lexeme

variable {c : Char} {cs : Text}

theorem plain_digit (h : c.isDigit = true) (cs : Text) :
    plain glsl c cs = ⟨.number, numberExtra (isHex c cs) c cs, none⟩ := by
  have hne {d : Char} (hd : d.isDigit = false) : (c == d) = false := by
    rw [beq_eq_false_iff_ne]
    rintro rfl
    simp [hd] at h
  rw [plain, hne (by decide), hne (by decide), Text.isBlank_digit h, isTagMark_glsl,
    hne (by decide), hne (by decide), Text.isWordStart_digit h, h]
  rfl

theorem numberExtra_digits {x : Text} (hds : ∀ d ∈ cs, Char.isDigit d = true)
    (hx : ∀ c ∈ x.head?, c = ' ' ∨ c = '\n') (hex : Bool) (last : Char) :
    numberExtra hex last (cs ++ x) = cs.length := by
  induction cs generalizing last with
  | nil =>
    cases x with
    | nil => rfl
    | cons c x =>
      rcases hx c rfl with rfl | rfl <;> simp [numberExtra_cons, continuesNumber]
  | cons d ds ih =>
    obtain ⟨hd, hds⟩ := List.forall_mem_cons.1 hds
    have hc : continuesNumber hex last d = true := by simp [continuesNumber, Char.isAlphanum, hd]
    rw [List.cons_append, numberExtra_cons, if_pos hc, ih hds, List.length_cons]

end Lexeme

namespace Cuts

variable {t r x y : Text} {as bs ps : List Piece} {p q : Piece}

theorem space (hx : ∀ c ∈ x.head?, Text.isBlank c = false) :
    Cuts glsl (' ' :: x) [⟨.whitespace, [' '], none⟩] x := by
  refine .next (p := []) ?_ (.done x)
  have htake : x.takeWhile (fun d => Text.isBlank d && !Text.isLineBreak d) = [] := by
    cases x with
    | nil => rfl
    | cons c x => simp [hx c rfl]
  rw [Lexeme.read_of_ne_slash (by decide), List.nil_append, Lexeme.plain, htake]
  rfl

theorem number (n : Nat) (hx : ∀ c ∈ x.head?, c = ' ' ∨ c = '\n') :
    Cuts glsl (Text.decimal n ++ x) [⟨.number, Text.decimal n, none⟩] x := by
  obtain ⟨c, cs, hcs, hdigits⟩ := Text.exists_decimal n
  obtain ⟨hc, hds⟩ := List.forall_mem_cons.1 hdigits
  rw [hcs]
  refine .next ?_ (.done x)
  have hslash : c ≠ '/' := by
    rintro rfl
    simp at hc
  rw [Lexeme.read_of_ne_slash hslash, Lexeme.plain_digit hc, Lexeme.numberExtra_digits hds hx]

theorem marker (x : Text) : Cuts glsl (LineDirective.standardMarker ++ ' ' :: x)
    [⟨.tag, LineDirective.standardMarker, none⟩] (' ' :: x) := by
  refine .next (c := '#') (p := "line".toList) ?_ (.done _)
  rw [Lexeme.read_of_ne_slash (by decide)]
  rfl

theorem carriageReturn (hy : y.head? ≠ some '\n') :
    Cuts glsl ('\r' :: y) [⟨.newline, ['\r'], none⟩] y := by
  refine .next (p := []) ?_ (.done y)
  rw [Lexeme.read_of_ne_slash (by decide), List.nil_append, Lexeme.plain, if_neg (by decide),
    if_pos (by decide), if_neg (by simpa using hy)]
  rfl

/-! ### What comes before a directive -/

theorem newline_fault (h : Cuts glsl t ps r) (hp : p ∈ ps) (hk : p.kind = .newline) :
    p.fault = none := by
  obtain ⟨c, q, rest, -, hr⟩ := h.exists_read hp
  have hc := Lexeme.read_newline (s := glsl) (by rw [hr, hk])
  rw [Lexeme.read_eq_plain (by rw [hr, hk]; rfl)] at hr
  have hfault : (Lexeme.plain glsl c (q ++ rest)).fault = p.fault := by rw [hr]
  rw [Text.isLineBreak, Bool.or_eq_true, beq_iff_eq, beq_iff_eq] at hc
  rcases hc with rfl | rfl
  · exact hfault.symm
  · exact hfault.symm

theorem newline (h : Cuts glsl t ps r) (hp : p ∈ ps) (hk : p.kind = .newline)
    (hy : y.head? ≠ some '\n') : Cuts glsl (p.text ++ y) [p] y := by
  have hf := h.newline_fault hp hk
  have ht := h.newline_text hp hk
  obtain ⟨k, t, f⟩ := p
  obtain rfl : k = .newline := hk
  obtain rfl : f = none := hf
  rcases ht with rfl | rfl | rfl
  · exact .feed y
  · exact .carriageReturn hy
  · exact .returnFeed y

theorem fault_ne (h : Cuts glsl t (as ++ q :: bs) r) :
    ∀ p, as.getLast? = some p → p.fault ≠ some .unterminatedComment := by
  intro p hp hf
  obtain ⟨xs, rfl⟩ := List.getLast?_eq_some_iff.1 hp
  rw [List.append_assoc] at h
  exact absurd (h.eq_nil_of_unterminated hf).1 (by simp)

end Cuts

def Piece.startsLine (as : List Piece) : Bool := as.getLast?.all (·.kind == .newline)

theorem Piece.startsLine_eq_getD (as : List Piece) :
    startsLine as = (as.getLast?.map (·.kind == .newline)).getD true := by
  unfold startsLine
  cases as.getLast? <;> rfl

/-- Pieces up to a line break stay as they are before anything but a line feed. -/
theorem Cuts.before_newline {t r y : Text} {as bs : List Piece} {p : Piece}
    (h : Cuts glsl t (as ++ p :: bs) r) (hk : p.kind = .newline) (hy : y.head? ≠ some '\n') :
    Cuts glsl (textAll (as ++ [p]) ++ y) (as ++ [p]) y := by
  have hp : p ∈ as ++ p :: bs := by simp
  have hne : p.text ≠ [] := h.text_ne_nil hp
  -- the line break itself is the same; what comes before it looks no further
  have has : Cuts glsl (textAll as ++ (p.text ++ y)) as (p.text ++ y) := by
    refine h.split.1.congr fun a ha => ⟨h.fault_ne a ha, .inl ?_⟩
    rw [textAll_cons, List.append_assoc, List.head?_append_of_ne_nil _ hne,
      List.head?_append_of_ne_nil _ hne]
  simpa using has.trans (h.newline hp hk hy)

/-- Pieces stay as they are before a line break, or at the start of a line before a mark. -/
theorem Cuts.before_line {t r y : Text} {as bs : List Piece} {q : Piece}
    (h : Cuts glsl t (as ++ q :: bs) r)
    (hy : y.head? = some (if startsLine as then '#' else '\n')) :
    Cuts glsl (textAll as ++ y) as y := by
  rcases List.eq_nil_or_concat' as with rfl | ⟨xs, p, rfl⟩
  · exact .done y
  have hlast : (xs ++ [p]).getLast? = some p := List.getLast?_concat
  have h' : Cuts glsl t (xs ++ p :: (q :: bs)) r := by simpa using h
  by_cases hk : p.kind = .newline
  · rw [startsLine, hlast, Option.all_some, hk, beq_self_eq_true, if_pos rfl] at hy
    exact h'.before_newline hk (by simp [hy])
  · rw [startsLine, hlast, Option.all_some, beq_eq_false_iff_ne.2 hk, if_neg (by simp)] at hy
    refine h.split.1.congr fun a ha => ⟨h.fault_ne a ha, .inr ⟨?_, ?_, fun hr => ?_, ?_⟩⟩
    · simp [hy, Text.isLineBreak]
    · simp [hy, Text.isLineBreak]
    · obtain rfl : p = a := Option.some.inj (hlast.symm.trans ha)
      exact absurd (Closed.eq_of_carriageReturn h'.split.2 hr ▸ rfl) hk
    · simp [hy]

namespace LineDirective

abbrev standard : LineDirective := ofMarker standardMarker

def telling (line id : Nat) : List Piece :=
  [⟨.tag, standardMarker, none⟩, ⟨.whitespace, [' '], none⟩, ⟨.number, Text.decimal line, none⟩,
    ⟨.whitespace, [' '], none⟩, ⟨.number, Text.decimal id, none⟩]

def rendered (startsLine : Bool) (line id : Nat) : List Piece :=
  (if startsLine then [] else [lineFeed]) ++ telling line id ++ [lineFeed]

theorem textAll_rendered (b : Bool) (line id : Nat) :
    textAll (rendered b line id) = standard.render b line id := by
  cases b <;> simp [rendered, telling, render, standard, ofMarker, lineFeed]

theorem isBlank_decimal (n : Nat) (x : Text) :
    ∀ c ∈ (Text.decimal n ++ x).head?, Text.isBlank c = false := by
  obtain ⟨c, cs, hcs, hdigits⟩ := Text.exists_decimal n
  simpa [hcs] using Text.isBlank_digit (hdigits c List.mem_cons_self)

theorem cuts_rendered (b : Bool) (line id : Nat) (x : Text) :
    Cuts glsl (standard.render b line id ++ x) (rendered b line id) x := by
  have htell : Cuts glsl (standardMarker ++ ' ' :: (Text.decimal line ++
      ' ' :: (Text.decimal id ++ '\n' :: x))) (telling line id ++ [lineFeed]) x := by
    refine (Cuts.marker _).trans ((Cuts.space (isBlank_decimal _ _)).trans
      ((Cuts.number line ?_).trans ((Cuts.space (isBlank_decimal _ _)).trans
        ((Cuts.number id ?_).trans (.feed x)))))
    · simp
    · simp
  cases b with
  | true => simpa [rendered, render, standard, ofMarker] using htell
  | false => simpa [rendered, render, standard, ofMarker] using (Cuts.feed _).trans htell

/-! ### Insertions between pieces -/

def insertion (w : LineDirective) (n : Nat) (as : List Piece) (line id : Nat) : Nat × Text :=
  (n + Text.size (textAll as), w.render (startsLine as) line id)

theorem insertion_fst (w : LineDirective) (n : Nat) (as : List Piece) (line id : Nat) :
    (w.insertion n as line id).1 = n + Text.size (textAll as) := rfl

def Placed (w : LineDirective) (n : Nat) (ps : List Piece) (x : Nat × Text) : Prop :=
  ∃ as q bs line id, ps = as ++ q :: bs ∧ x = w.insertion n as line id

/-- Pieces that start at an offset, with directives between them. -/
inductive Woven : Nat → List Piece → List (Nat × Text) → List Piece → Prop where
  | done (n : Nat) (ps : List Piece) : Woven n ps [] ps
  | next {n line id : Nat} {as bs us : List Piece} {q : Piece} {ins : List (Nat × Text)} :
      (∀ x ∈ ins, n + Text.size (textAll as) < x.1) →
      Woven (n + Text.size (textAll as)) (q :: bs) ins us →
      Woven n (as ++ q :: bs) (standard.insertion n as line id :: ins)
        (as ++ (rendered (startsLine as) line id ++ us))

variable {w : LineDirective} {n : Nat} {ps as bs us : List Piece} {q : Piece} {x : Nat × Text}
  {ins : List (Nat × Text)} {t : Text}

theorem Placed.tail (h : w.Placed n (as ++ q :: bs) x) (hlt : n + Text.size (textAll as) < x.1) :
    w.Placed (n + Text.size (textAll as)) (q :: bs) x := by
  obtain ⟨as', q', bs', line, id, heq, rfl⟩ := h
  rcases List.append_eq_append_iff.1 heq with ⟨xs, rfl, hx⟩ | ⟨xs, rfl, hx⟩
  · have hne : xs ≠ [] := by
      rintro rfl
      simp [insertion] at hlt
    have hstart : startsLine (as ++ xs) = startsLine xs := by
      rw [startsLine, startsLine, List.getLast?_append_of_ne_nil _ hne]
    refine ⟨xs, q', bs', line, id, hx, ?_⟩
    rw [insertion, insertion, hstart, textAll_append, Text.size_append, Nat.add_assoc]
  · simp [insertion] at hlt

theorem exists_woven (hs : ins.Pairwise fun p q => p.1 < q.1)
    (hp : ∀ x ∈ ins, standard.Placed n ps x) : ∃ us, Woven n ps ins us := by
  induction ins generalizing n ps with
  | nil => exact ⟨ps, .done n ps⟩
  | cons x ins ih =>
    obtain ⟨hlt, hrest⟩ := List.pairwise_cons.1 hs
    obtain ⟨hx, hins⟩ := List.forall_mem_cons.1 hp
    obtain ⟨as, q, bs, line, id, rfl, rfl⟩ := hx
    obtain ⟨us, hus⟩ := ih hrest fun y hy => (hins y hy).tail (hlt y hy)
    exact ⟨_, .next hlt hus⟩

namespace Woven

theorem cuts (h : Woven n ps ins us) (hc : Cuts glsl t ps []) : Cuts glsl (textAll us) us [] := by
  induction h generalizing t with
  | done n ps => simpa using (hc.eq_append ▸ hc : Cuts glsl (textAll ps ++ []) ps [])
  | @next n line id as bs us q ins _ _ ih =>
    have hbefore : Cuts glsl (textAll as ++ (standard.render (startsLine as) line id ++
        textAll us)) as (standard.render (startsLine as) line id ++ textAll us) :=
      hc.before_line (by cases startsLine as <;> rfl)
    have hrest := hbefore.trans ((cuts_rendered _ line id _).trans (ih hc.split.2))
    simpa [textAll_rendered] using hrest

/-- Weaving pieces is inserting texts. -/
theorem swept (h : Woven n ps ins us) : Edit.Swept n (textAll ps)
    (ins.map fun x => .insert (.offset x.1) x.2) (textAll us) := by
  induction h with
  | done n ps => exact .done n _
  | @next n line id as bs us q ins _ _ ih =>
    rw [List.map_cons, textAll_append, textAll_append, textAll_append, textAll_rendered]
    exact .next (b := []) rfl rfl ih

end Woven

/-! ### Plans -/

theorem mem_of_mem_put {i : Nat} {u : Text} {ps : List (Nat × Text)} (h : x ∈ put i u ps) :
    x = (i, u) ∨ x ∈ ps := by
  induction ps with
  | nil => simpa [put] using h
  | cons p ps ih =>
    obtain ⟨j, v⟩ := p
    rw [put] at h
    split_ifs at h with h₁ h₂
    · exact List.mem_cons.1 h
    · subst h₂
      exact (List.mem_cons.1 h).imp_right (List.mem_cons_of_mem _)
    · rcases List.mem_cons.1 h with rfl | h
      · exact .inr List.mem_cons_self
      · exact (ih h).imp_right (List.mem_cons_of_mem _)

theorem leafStarting_eq_some {ls : List (Kind × Text)} {l : Leaf} {o : Nat} {b b' : Bool}
    (h : List.Forall₂ IsLeaf ps ls)
    (hl : leafStarting o b (Tree.placeLeaves n ls) = some (l, b')) :
    ∃ as q bs, ps = as ++ q :: bs ∧ l.start = n + Text.size (textAll as) ∧
      o < l.start + Text.size q.text ∧
      b' = (as.getLast?.map (·.kind == .newline)).getD b := by
  induction h generalizing n b with
  | nil => cases hl
  | @cons p kt ps ls hp _ ih =>
    rw [Tree.placeLeaves, leafStarting] at hl
    split at hl
    next ho =>
      obtain ⟨rfl, rfl⟩ := Prod.mk.inj (Option.some.inj hl)
      rw [Bool.and_eq_true, decide_eq_true_eq, decide_eq_true_eq, Leaf.stop, hp.1] at ho
      exact ⟨[], p, ps, rfl, rfl, ho.2, rfl⟩
    next =>
      obtain ⟨as, q, bs, rfl, hs, ho, hb⟩ := ih hl
      have hkind : (kt.1 == Kind.newline) = (p.kind == .newline) := by
        rcases hp.2 with hk | ⟨hk, d, hd⟩
        · rw [hk]
        · rw [hk, hd]
          rfl
      refine ⟨p :: as, q, bs, rfl, ?_, ho, ?_⟩
      · rw [hs, hp.1, textAll_cons, Text.size_append, Nat.add_assoc]
      · rw [hb, hkind, List.getLast?_cons, Option.map_some, Option.getD_some,
          ← Option.getD_map (fun p : Piece => p.kind == .newline)]

theorem mem_planRange {d : Document} {leaves : List Leaf} {m : SourceMap} {contents : Contents}
    {min : Nat} {plan : Plan} {r : MapRange}
    (hx : x ∈ (w.planRange d leaves m contents min plan r).inserts) :
    x ∈ plan.inserts ∨ ∃ l b line id, leafStarting (max r.start min) true leaves = some (l, b) ∧
      x = (l.start, w.render b line id) := by
  unfold planRange at hx
  split at hx
  · exact .inl hx
  dsimp only at hx
  split at hx
  · exact .inl hx
  split at hx
  · exact .inl hx
  split at hx
  · exact .inl hx
  split at hx
  · exact .inl hx
  next l b hl =>
    rcases mem_of_mem_put hx with rfl | hx
    · exact .inr ⟨l, b, _, _, hl, rfl⟩
    · exact .inl hx

theorem mem_plan {d : Document} {m : SourceMap} {contents : Contents}
    (hx : x ∈ (w.plan d m contents).inserts) : ∃ r ∈ m.ranges, ∃ l b line id,
      leafStarting (max r.start (w.minOffset d)) true d.leaves = some (l, b) ∧
        x = (l.start, w.render b line id) := by
  have hfold (rs : List MapRange) (plan : Plan)
      (hx : x ∈ (rs.foldl (w.planRange d d.leaves m contents (w.minOffset d)) plan).inserts) :
      x ∈ plan.inserts ∨ ∃ r ∈ rs, ∃ l b line id,
        leafStarting (max r.start (w.minOffset d)) true d.leaves = some (l, b) ∧
          x = (l.start, w.render b line id) := by
    induction rs generalizing plan with
    | nil => exact .inl hx
    | cons r rs ih =>
      rcases ih _ hx with hx | ⟨r', hr', h⟩
      · exact (mem_planRange hx).imp_right fun h => ⟨r, List.mem_cons_self, h⟩
      · exact .inr ⟨r', List.mem_cons_of_mem _ hr', h⟩
  exact (hfold m.ranges ⟨[], []⟩ hx).resolve_left (by simp)

theorem placed_plan {m : SourceMap} {contents : Contents}
    (hx : x ∈ (w.plan (.parse glsl t) m contents).inserts) : w.Placed 0 (ofText glsl t) x := by
  obtain ⟨r, -, l, b, line, id, hl, rfl⟩ := mem_plan hx
  rw [Document.leaves_parse] at hl
  obtain ⟨as, q, bs, hps, hs, -, rfl⟩ := leafStarting_eq_some (Document.isLeaf_parse glsl t) hl
  refine ⟨as, q, bs, line, id, hps, ?_⟩
  rw [hs, insertion, startsLine_eq_getD]

end LineDirective
end ShaderInline
