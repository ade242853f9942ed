import ShaderInline.Proofs.Expand.Context
import ShaderInline.Proofs.Expand.FirstLine
import ShaderInline.Proofs.Text.Trim
import ShaderInline.Proofs.Tree.Seam
import ShaderInline.Proofs.Woven

/-! # Line directives among other directives

An inserted line directive is a node of its own, and the directives around it
stay as they are, unless it is inserted into one of them: where a line goes on
after a backslash, the start of the next line is still inside the directive.
-/

namespace ShaderInline

open Schema Piece

theorem Cuts.kind_backslash {t r : Text} {ps : List Piece} {p : Piece} (h : Cuts glsl t ps r)
    (hp : p ∈ ps) (ht : p.text = ['\\']) : p.kind.isTrivia = false ∧ p.kind ≠ .tag := by
  obtain ⟨c, q, rest, hcq, hr⟩ := h.exists_read hp
  obtain ⟨rfl, rfl⟩ := List.cons_eq_cons.1 (ht.symm.trans hcq)
  have hkind : p.kind = (Lexeme.read glsl '\\' ([] ++ rest)).kind := by rw [hr]
  rw [Lexeme.read_of_ne_slash (by decide)] at hkind
  have hsingle : (Lexeme.plain glsl '\\' ([] ++ rest)) = Lexeme.single '\\' := by
    simp [Lexeme.plain, Text.isBlank, Lexeme.isTagMark_glsl, Text.isWordStart]
  rw [hkind, hsingle]
  decide

/-- Whether an insertion leaves a node alone: it comes before the node or after it, or right behind
it and on a line of its own. -/
def Node.IsClear (v : Node) (x : Nat × Text) : Prop :=
  x.1 ≤ v.start ∨ v.stop < x.1 ∨ x.1 = v.stop ∧ x.2.head? = some '\n'

namespace LineDirective

def shift (ins : List (Nat × Text)) (o : Nat) : Nat :=
  ((ins.filter (·.1 ≤ o)).map fun x => Text.size x.2).sum

structure Announces (v : Node) (line id : Nat) : Prop where
  kind : v.kind = .directive
  text : v.text = standardMarker ++ ' ' :: Text.decimal line ++ ' ' :: Text.decimal id
  name : v.directiveName? = some "line".toList
  arguments : v.arguments = Text.decimal line ++ ' ' :: Text.decimal id

/-- Whether inserted directives are directives of their own after the insertion, each right before
the line that it is about, and the directives from before are still there. -/
structure Stays (moves : Nat → Nat) (ins : List (Nat × Text)) (before after : List Node) :
    Prop where
  own : ∀ x ∈ ins, ∃ startsLine line id,
    x.2 = standard.render startsLine line id ∧
      ∃ v ∈ after, Announces v line id ∧ v.stop + 1 = x.1 + moves x.1
  kept : ∀ v ∈ before, v.moved (moves v.start) ∈ after

variable {n o line id : Nat} {b : Bool} {ins : List (Nat × Text)} {t u : Text}

theorem shift_cons (x : Nat × Text) (ins : List (Nat × Text)) (o : Nat) :
    shift (x :: ins) o = (if x.1 ≤ o then Text.size x.2 else 0) + shift ins o := by
  by_cases h : x.1 ≤ o <;> simp [shift, h]

theorem shift_eq_zero (h : ∀ x ∈ ins, o < x.1) : shift ins o = 0 := by
  have hnil : ins.filter (·.1 ≤ o) = [] := by
    rw [List.filter_eq_nil_iff]
    intro x hx
    simpa using h x hx
  rw [shift, hnil]
  rfl

/-! ### The directive itself -/

theorem textAll_telling (line id : Nat) : textAll (telling line id) =
    standardMarker ++ ' ' :: Text.decimal line ++ ' ' :: Text.decimal id := by
  simp [telling]

theorem trim_numbers (line id : Nat) :
    Text.trim (' ' :: (Text.decimal line ++ ' ' :: Text.decimal id)) =
      Text.decimal line ++ ' ' :: Text.decimal id := by
  obtain ⟨d, ds, hds, -⟩ := Text.exists_decimal id
  have hne : Text.decimal id ≠ [] := by simp [hds]
  rw [Text.trim_space, Text.trim, Text.trimStart_eq_self (isBlank_decimal line _),
    Text.trimEnd_eq_self_iff]
  intro c hc
  rw [List.append_cons, List.getLast?_append_of_ne_nil _ hne] at hc
  exact Text.isBlank_digit (Text.isDigit_of_mem_decimal (List.mem_of_getLast? hc))

theorem announces_telling (n line id : Nat) :
    Announces ⟨n, .directive, (telling line id).map leaf⟩ line id := by
  refine ⟨rfl, ?_, ?_, ?_⟩
  · rw [Node.text, Tree.textAll_leaf, textAll_telling]
  · exact Node.directiveName?_leaf rfl
  · rw [← trim_numbers]
    simp [Node.arguments, telling, leaf, Node.afterTag, Tree.textAll, Tree.text]

theorem decimal_ne_backslash (n : Nat) : Text.decimal n ≠ ['\\'] := by
  obtain ⟨c, cs, hcs, hc⟩ := Text.exists_decimal n
  rw [hcs]
  rintro he
  obtain ⟨rfl, -⟩ := List.cons_eq_cons.1 he
  exact absurd (hc '\\' List.mem_cons_self) (by decide)

theorem restOfLine_telling (last : Text) (line id : Nat) (us : List Piece) :
    restOfLine last (telling line id ++ lineFeed :: us) = telling line id := by
  have hend : (Text.decimal id != ['\\']) = true := by simpa using decimal_ne_backslash id
  simp [telling, restOfLine, lineFeed, hend]

theorem clean_line (line id : Nat) : Clean (telling line id ++ [lineFeed]) ∧
    ∀ n, tagNodes 0 n (telling line id ++ [lineFeed]) =
      [⟨n, .directive, (telling line id).map leaf⟩] := by
  obtain ⟨tag, line', htell, htag⟩ : ∃ tag line', telling line id = tag :: line' ∧
      tag = ⟨.tag, standardMarker, none⟩ := ⟨_, _, rfl, rfl⟩
  have hrest : restOfLine tag.text (line' ++ [lineFeed]) = line' := by
    have h := restOfLine_telling [] line id []
    rw [htell, List.cons_append, restOfLine, if_neg (by simp [htag])] at h
    exact (List.cons_eq_cons.1 h).2
  have hname : glsl.tagName tag.text = "import".toList → quoted? line' = none := by
    rw [htag]
    intro h
    exact absurd h (by decide)
  rw [htell, List.cons_append]
  refine ⟨.ofLine (by rw [htag]) hname hrest (by simp [lineFeed]), fun n => ?_⟩
  simpa using Clean.tagNodes_line (by rw [htag]) hname hrest n []

def lead (startsLine : Bool) : List Piece := if startsLine then [] else [lineFeed]

theorem rendered_eq (b : Bool) (line id : Nat) :
    rendered b line id = lead b ++ (telling line id ++ [lineFeed]) := by
  rw [rendered, List.append_assoc, lead]

theorem clean_rendered (b : Bool) (line id : Nat) : Clean (rendered b line id) := by
  have hlead : Clean (lead b) := by
    cases b with
    | true => exact .nil
    | false => exact .other (by simp [lineFeed])
  rw [rendered_eq]
  exact hlead.append (clean_line line id).1

theorem tagNodes_rendered (b : Bool) (line id n : Nat) : tagNodes 0 n (rendered b line id) =
    [⟨n + Text.size (textAll (lead b)), .directive, (telling line id).map leaf⟩] := by
  rw [rendered_eq, ← (clean_line line id).2]
  cases b with
  | true => simp [lead]
  | false =>
    change tagNodes 0 n (lineFeed :: (telling line id ++ [lineFeed])) = _
    rw [tagNodes_other (by simp [lineFeed])]
    simp [lead]

theorem size_render (b : Bool) (line id : Nat) :
    Text.size (standard.render b line id) =
      Text.size (textAll (lead b)) + Text.size (textAll (telling line id)) + 1 := by
  have hbreak : Text.size lineFeed.text = 1 := by decide
  rw [← textAll_rendered, rendered_eq]
  simp [hbreak, Nat.add_assoc]

theorem head?_render (b : Bool) (line id : Nat) :
    (standard.render b line id).head? = some (if b then '#' else '\n') := by
  cases b <;> rfl

/-! ### One insertion -/

section

variable {as bs us pre line' : List Piece} {q tag : Piece} {d : Nat} {v : Node}

/-- Whether the directives of pieces are those before an insertion and those after it, and what is
inserted adds one between them. -/
structure Parts (n : Nat) (as bs : List Piece) (line id : Nat) : Prop where
  subset : directives n (as ++ bs) ⊆
    directives n as ++ directives (n + Text.size (textAll as)) bs
  superset : directives (n + Text.size (textAll as)) bs ⊆ directives n (as ++ bs)
  woven : ∀ m us, directives m (as ++ (rendered (startsLine as) line id ++ us)) =
    directives m as ++ ⟨m + Text.size (textAll as) + Text.size (textAll (lead (startsLine as))),
      .directive, (telling line id).map leaf⟩ ::
        directives (m + Text.size (textAll as) +
          Text.size (standard.render (startsLine as) line id)) us

theorem directives_rendered (b : Bool) (line id m : Nat) (us : List Piece) :
    directives m (rendered b line id ++ us) =
      ⟨m + Text.size (textAll (lead b)), .directive, (telling line id).map leaf⟩ ::
        directives (m + Text.size (standard.render b line id)) us := by
  rw [(clean_rendered b line id).directives_append, textAll_rendered, directives,
    tagNodes_rendered]
  rfl

theorem Parts.of_eq (happ : directives n (as ++ bs) =
      directives n as ++ directives (n + Text.size (textAll as)) bs)
    (hw : ∀ m us, directives m (as ++ (rendered (startsLine as) line id ++ us)) =
      directives m as ++ directives (m + Text.size (textAll as))
        (rendered (startsLine as) line id ++ us)) : Parts n as bs line id := by
  refine ⟨?_, ?_, fun m us => by rw [hw, directives_rendered]⟩
  · rw [happ]
    exact List.Subset.refl _
  · rw [happ]
    exact List.subset_append_right _ _

theorem directives_newline (h : InLine as pre tag line') (hq : q.kind = .newline)
    (hl : (InLine.last tag line').text ≠ ['\\']) (m : Nat) (cs : List Piece) :
    directives m (as ++ q :: cs) =
      directives m as ++ directives (m + Text.size (textAll as)) (q :: cs) := by
  rw [directives, h.tagNodes_newline hq hl, List.filter_append]
  rfl

theorem directives_woven (h : InLine as pre tag line') (hs : startsLine as = false)
    (hl : (InLine.last tag line').text ≠ ['\\']) (m : Nat) (us : List Piece) :
    directives m (as ++ (rendered (startsLine as) line id ++ us)) =
      directives m as ++ directives (m + Text.size (textAll as))
        (rendered (startsLine as) line id ++ us) := by
  rw [hs]
  exact directives_newline h rfl hl m _

theorem newline_of_restOfLine {last : Text} (hne : q.text ≠ [])
    (h : Text.size (textAll (restOfLine last (q :: bs))) = 0) :
    restOfLine last (q :: bs) = [] ∧ q.kind = .newline ∧ last ≠ ['\\'] := by
  rw [restOfLine] at h ⊢
  split at h
  next he =>
    rw [if_pos he]
    simp only [Bool.and_eq_true, beq_iff_eq, bne_iff_ne] at he
    exact ⟨rfl, he⟩
  next =>
    have hpos := Text.size_pos_iff.2 hne
    rw [textAll_cons, Text.size_append] at h
    omega

theorem startsLine_eq (h : InLine as pre tag line') :
    startsLine as = ((InLine.last tag line').kind == .newline) := by
  rw [startsLine, h.getLast?_eq, Option.all_some]

theorem last_of_import (hc : Cuts glsl t (as ++ bs) u) (hin : InLine as pre tag line')
    (h : (InLine.last tag line').kind.isTrivia = true ∨ line' = []) :
    startsLine as = false ∧ (InLine.last tag line').text ≠ ['\\'] := by
  have hmem := List.mem_append_left bs (List.mem_of_getLast? hin.getLast?_eq)
  rw [startsLine_eq hin, beq_eq_false_iff_ne]
  constructor
  · intro hk
    rcases h with htrivia | rfl
    · simp [hk, Kind.isTrivia] at htrivia
    · exact absurd (hin.kind.symm.trans hk) (by simp)
  · intro ht
    obtain ⟨hb, hb'⟩ := hc.kind_backslash hmem ht
    rcases h with htrivia | rfl
    · simp [hb] at htrivia
    · exact hb' hin.kind

/-- An insertion that is clear of all directives parts them. -/
theorem parts_of_clear (hc : Cuts glsl t (as ++ q :: bs) u)
    (h : ∀ v ∈ directives n (as ++ q :: bs), v.IsClear (standard.insertion n as line id)) :
    Parts n as (q :: bs) line id := by
  have hnea : ∀ p ∈ as, p.text ≠ [] := fun p hp => hc.text_ne_nil (List.mem_append_left _ hp)
  obtain hclean | ⟨pre, tag, line', hin⟩ := Clean.or_inLine hnea
  · exact .of_eq (hclean.directives_append n _) fun m us => hclean.directives_append m _
  obtain ⟨hkind, happ⟩ | hi := hin.import_or (q :: bs)
  · -- an import is cut, which is no directive; its tag becomes one
    obtain ⟨hs, hl⟩ := last_of_import hc hin (hkind.imp_right And.left)
    refine ⟨?_, ?_, fun m us => by rw [directives_woven hin hs hl, directives_rendered]⟩
    · rw [happ, hin.directives_self n, List.append_assoc]
      rintro v hv
      exact (List.mem_append.1 hv).elim (List.mem_append_left _)
        fun hv => List.mem_append_right _ (List.mem_cons_of_mem _ hv)
    · rw [happ]
      exact List.subset_append_right _ _
  · obtain ⟨rest, hrest, -⟩ := exists_restOfLine (InLine.last tag line').text (q :: bs)
    have happ := hin.directives_append hrest rfl hi n
    have hclear := h _ (by rw [happ]; exact List.mem_append_right _ List.mem_cons_self)
    have hlt := hin.size_lt hnea
    have hsize := hin.size_eq
    rw [Node.IsClear, Node.stop_leaf, insertion, head?_render] at hclear
    simp only [textAll_append, textAll_cons, Text.size_append] at hclear
    obtain ⟨hstop, hhead⟩ : Text.size (textAll
        (restOfLine (InLine.last tag line').text (q :: bs))) = 0 ∧
          some (if startsLine as then '#' else '\n') = some '\n' := by
      rcases hclear with hle | hlt | ⟨heq, hhead⟩
      · omega
      · omega
      · exact ⟨by omega, hhead⟩
    obtain ⟨-, hq, hl⟩ := newline_of_restOfLine (hc.text_ne_nil (by simp)) hstop
    have hs : startsLine as = false := by
      by_contra hs
      rw [Bool.not_eq_false] at hs
      simp [hs] at hhead
    exact .of_eq (directives_newline hin hq hl n bs) (directives_woven hin hs hl)

/-- After a line break or a backslash in its line, a directive takes what is inserted. -/
theorem directives_absorbed (hc : Cuts glsl t (as ++ q :: bs) u) (hin : InLine as pre tag line')
    (hb : startsLine as = true ∨ (InLine.last tag line').text = ['\\']) (m : Nat)
    (us : List Piece) :
    directives m (as ++ (rendered (startsLine as) line id ++ us)) = directives m pre ++
      ⟨m + Text.size (textAll pre), .directive,
        (tag :: (line' ++ (lead (startsLine as) ++ telling line id))).map leaf⟩ ::
        directives (m + Text.size (textAll as) +
          Text.size (textAll (lead (startsLine as) ++ telling line id))) (lineFeed :: us) := by
  have hmem : InLine.last tag line' ∈ as ++ q :: bs :=
    List.mem_append_left _ (List.mem_of_getLast? hin.getLast?_eq)
  have hcs : rendered (startsLine as) line id ++ us =
      (lead (startsLine as) ++ telling line id) ++ lineFeed :: us := by simp [rendered_eq]
  refine hin.directives_append hcs ?_ (fun hn => ?_) m
  · rw [hcs, List.append_assoc]
    rcases hb with hb | hb
    · simpa [hb, lead] using restOfLine_telling _ line id us
    · cases hs : startsLine as with
      | true => simpa [lead] using restOfLine_telling _ line id us
      | false =>
        have hstep : restOfLine ['\\'] (lineFeed :: (telling line id ++ lineFeed :: us)) =
            lineFeed :: restOfLine ['\n'] (telling line id ++ lineFeed :: us) := rfl
        rw [hb]
        exact hstep.trans (congrArg _ (restOfLine_telling _ line id us))
  · rcases hb with hb | hb
    · rw [startsLine_eq hin, beq_iff_eq] at hb
      exact hin.quoted?_eq_none (by rw [hb]; rfl) (by simp [isQuoted, hb]) (by simp [hb]) hn _
    · obtain ⟨hk, ht⟩ := hc.kind_backslash hmem hb
      have hq : (InLine.last tag line').isQuoted = false := by
        simp [isQuoted, hb, Text.size]
      exact hin.quoted?_eq_none hk hq ht hn _

theorem Announces.start_eq {b' : Bool} {line' id' : Nat} (hv : Announces v line' id')
    (hr : standard.render b line id = standard.render b' line' id')
    (hstop : v.stop + 1 = o + Text.size (standard.render b line id)) :
    v.start = o + Text.size (textAll (lead b)) := by
  have hb : b = b' := by
    have hhead := congrArg List.head? hr
    rw [head?_render, head?_render] at hhead
    cases b <;> cases b' <;> simp_all
  rw [hr, size_render, Node.stop_eq, hv.text, ← textAll_telling] at hstop
  rw [hb]
  omega

theorem shift_behind (ho : n + Text.size (textAll as) ≤ o) (d : Nat) :
    shift (standard.insertion n as line id :: ins) o + d =
      shift ins o + (d + Text.size (standard.render (startsLine as) line id)) := by
  simp only [shift_cons, insertion, if_pos ho]
  omega

theorem shift_before (hins : ∀ x ∈ ins, n + Text.size (textAll as) < x.1)
    (ho : o < n + Text.size (textAll as)) :
    shift (standard.insertion n as line id :: ins) o = 0 := by
  refine shift_eq_zero (List.forall_mem_cons.2 ⟨ho, fun x hx => ?_⟩)
  exact ho.trans (hins x hx)

/-- Where a directive has taken what is inserted, no other one announces it. -/
theorem not_own_of_absorbed (hc : Cuts glsl t (as ++ q :: bs) u)
    (hin : InLine as pre tag line')
    (hb : startsLine as = true ∨ (InLine.last tag line').text = ['\\']) {m : Nat}
    (hv : v ∈ directives m (as ++ (rendered (startsLine as) line id ++ us))) :
    v.start ≠ m + Text.size (textAll as) + Text.size (textAll (lead (startsLine as))) := by
  have hnea : ∀ p ∈ as, p.text ≠ [] := fun p hp => hc.text_ne_nil (List.mem_append_left _ hp)
  have hlt := hin.size_lt hnea
  rw [directives_absorbed hc hin hb, List.mem_append, List.mem_cons] at hv
  rcases hv with hv | rfl | hv
  · have := stop_of_mem_directives (hin.text_ne_nil hnea) hv
    omega
  · dsimp only
    omega
  · have := le_start_of_mem_directives hv
    have htell : 0 < Text.size (textAll (telling line id)) := by
      rw [textAll_telling]
      exact Text.size_pos_iff.2 (by simp [standardMarker])
    rw [textAll_append, Text.size_append] at this
    omega

/-- A directive that stays and in whose line a directive is inserted ends right before that one. -/
theorem Stays.clear_inLine (hc : Cuts glsl t (as ++ q :: bs) u)
    (hins : ∀ x ∈ ins, n + Text.size (textAll as) < x.1) (hin : InLine as pre tag line')
    {more : List Piece}
    (hmem : ⟨n + Text.size (textAll pre), .directive, (tag :: (line' ++ more)).map leaf⟩ ∈
      directives n (as ++ q :: bs))
    (h : Stays (shift (standard.insertion n as line id :: ins) · + d)
      (standard.insertion n as line id :: ins) (directives n (as ++ q :: bs))
      (directives (n + d) (as ++ (rendered (startsLine as) line id ++ us)))) :
    (⟨n + Text.size (textAll pre), .directive, (tag :: (line' ++ more)).map leaf⟩ : Node).IsClear
      (standard.insertion n as line id) := by
  have hnea : ∀ p ∈ as, p.text ≠ [] := fun p hp => hc.text_ne_nil (List.mem_append_left _ hp)
  have hlt := hin.size_lt hnea
  by_cases hb : startsLine as = true ∨ (InLine.last tag line').text = ['\\']
  · -- the line goes on, so that the inserted directive is none
    exfalso
    obtain ⟨b', l', i', hr, v, hv, hdir, hstop⟩ := h.own _ List.mem_cons_self
    refine not_own_of_absorbed hc hin hb hv (hdir.start_eq hr ?_)
    rw [hstop, insertion_fst, shift_behind le_rfl, shift_eq_zero hins]
    omega
  · obtain ⟨hs, hl⟩ := not_or.1 hb
    rw [Bool.not_eq_true] at hs
    have hkept := h.kept _ hmem
    have hzero : shift (standard.insertion n as line id :: ins) (n + Text.size (textAll pre)) = 0 :=
      shift_before hins (by omega)
    simp only [Node.moved, hzero, Nat.zero_add] at hkept
    rw [directives_woven hin hs hl, hin.directives_self, List.append_assoc, List.mem_append,
      List.mem_append, List.mem_singleton] at hkept
    obtain rfl : more = [] := by
      rcases hkept with hv | hv | hv
      · have := stop_of_mem_directives (hin.text_ne_nil hnea) hv
        dsimp only at this
        omega
      · have hchildren := congrArg (fun v : Node => v.children.length) hv
        exact List.length_eq_zero_iff.1 (by simpa using hchildren)
      · have := le_start_of_mem_directives hv
        dsimp only at this
        omega
    refine .inr (.inr ⟨?_, ?_⟩)
    · rw [Node.stop_leaf, insertion, hin.eq]
      simp [Nat.add_assoc]
    · rw [insertion, head?_render, hs]
      rfl

theorem Stays.clear (hc : Cuts glsl t (as ++ q :: bs) u)
    (hins : ∀ x ∈ ins, n + Text.size (textAll as) < x.1)
    (h : Stays (shift (standard.insertion n as line id :: ins) · + d)
      (standard.insertion n as line id :: ins) (directives n (as ++ q :: bs))
      (directives (n + d) (as ++ (rendered (startsLine as) line id ++ us)))) :
    ∀ v ∈ directives n (as ++ q :: bs), v.IsClear (standard.insertion n as line id) := by
  intro v hv
  have hnea : ∀ p ∈ as, p.text ≠ [] := fun p hp => hc.text_ne_nil (List.mem_append_left _ hp)
  have hbehind {m : Nat} {ps : List Piece} (hle : n + Text.size (textAll as) ≤ m)
      (hv : v ∈ directives m ps) : v.IsClear (standard.insertion n as line id) :=
    .inl (hle.trans (le_start_of_mem_directives hv))
  obtain hclean | ⟨pre, tag, line', hin⟩ := Clean.or_inLine hnea
  · rw [hclean.directives_append, List.mem_append] at hv
    rcases hv with hv | hv
    · obtain ⟨hmem, hk⟩ := mem_directives.1 hv
      exact .inr (.inl (hclean.stop_lt n v hmem hk))
    · exact hbehind le_rfl hv
  have hfront (hv : v ∈ directives n pre) : v.IsClear (standard.insertion n as line id) := by
    have hstop := (stop_of_mem_directives (hin.text_ne_nil hnea) hv).2
    have hlt := hin.size_lt hnea
    refine .inr (.inl (hstop.trans_lt ?_))
    rw [insertion_fst]
    omega
  obtain ⟨-, happ⟩ | hi := hin.import_or (q :: bs)
  · rw [happ, List.mem_append] at hv
    exact hv.elim hfront (hbehind le_rfl)
  · obtain ⟨rest, hrest, -⟩ := exists_restOfLine (InLine.last tag line').text (q :: bs)
    have happ := hin.directives_append hrest rfl hi n
    rw [happ, List.mem_append, List.mem_cons] at hv
    rcases hv with hv | rfl | hv
    · exact hfront hv
    · refine h.clear_inLine hc hins hin ?_
      rw [happ]
      exact List.mem_append_right _ List.mem_cons_self
    · exact hbehind (Nat.le_add_right _ _) hv

theorem Parts.mem_rest (hp : Parts n as bs line id) (hne : ∀ p ∈ as, p.text ≠ []) {m : Nat}
    (hv : v ∈ directives m (as ++ (rendered (startsLine as) line id ++ us)))
    (hstop : m + Text.size (textAll as) + Text.size (standard.render (startsLine as) line id) ≤
      v.stop) :
    v ∈ directives (m + Text.size (textAll as) +
      Text.size (standard.render (startsLine as) line id)) us := by
  have hrender := size_render (startsLine as) line id
  rw [hp.woven, List.mem_append, List.mem_cons] at hv
  rcases hv with hv | rfl | hv
  · have := (stop_of_mem_directives hne hv).2
    omega
  · rw [Node.stop_leaf] at hstop
    omega
  · exact hv

theorem Parts.stays_rest (hp : Parts n as bs line id) (hne : ∀ p ∈ as, p.text ≠ [])
    (hins : ∀ x ∈ ins, n + Text.size (textAll as) < x.1)
    (h : Stays (shift (standard.insertion n as line id :: ins) · + d)
      (standard.insertion n as line id :: ins) (directives n (as ++ bs))
      (directives (n + d) (as ++ (rendered (startsLine as) line id ++ us)))) :
    Stays (shift ins · + (d + Text.size (standard.render (startsLine as) line id))) ins
      (directives (n + Text.size (textAll as)) bs)
      (directives (n + d + Text.size (textAll as) +
        Text.size (standard.render (startsLine as) line id)) us) := by
  constructor
  · intro x hx
    have hlt := hins x hx
    obtain ⟨b, l, i, hr, v, hv, hdir, hstop⟩ := h.own x (List.mem_cons_of_mem _ hx)
    rw [shift_behind hlt.le] at hstop
    exact ⟨b, l, i, hr, v, hp.mem_rest hne hv (by omega), hdir, hstop⟩
  · intro v hv
    have hle := le_start_of_mem_directives hv
    have hkept := h.kept v (hp.superset hv)
    rw [shift_behind hle] at hkept
    refine hp.mem_rest hne hkept ?_
    rw [Node.stop_eq, Node.moved_start]
    omega

theorem Parts.stays (hp : Parts n as bs line id) (hne : ∀ p ∈ as, p.text ≠ [])
    (hins : ∀ x ∈ ins, n + Text.size (textAll as) < x.1)
    (h : Stays (shift ins · + (d + Text.size (standard.render (startsLine as) line id))) ins
      (directives (n + Text.size (textAll as)) bs)
      (directives (n + d + Text.size (textAll as) +
        Text.size (standard.render (startsLine as) line id)) us)) :
    Stays (shift (standard.insertion n as line id :: ins) · + d)
      (standard.insertion n as line id :: ins) (directives n (as ++ bs))
      (directives (n + d) (as ++ (rendered (startsLine as) line id ++ us))) := by
  rw [hp.woven]
  constructor
  · refine List.forall_mem_cons.2 ⟨⟨_, line, id, rfl, _, List.mem_append_right _
      List.mem_cons_self, announces_telling _ line id, ?_⟩, fun x hx => ?_⟩
    · have hrender := size_render (startsLine as) line id
      rw [Node.stop_leaf, insertion_fst, shift_behind le_rfl, shift_eq_zero hins]
      omega
    · obtain ⟨b, l, i, hr, v, hv, hdir, hstop⟩ := h.own x hx
      refine ⟨b, l, i, hr, v, List.mem_append_right _ (List.mem_cons_of_mem _ hv), hdir, ?_⟩
      rw [hstop, shift_behind (hins x hx).le]
  · intro v hv
    rcases List.mem_append.1 (hp.subset hv) with hv | hv
    · have := stop_of_mem_directives hne hv
      rw [shift_before hins (by omega), Nat.zero_add]
      exact List.mem_append_left _ (moved_mem_directives d hv)
    · rw [shift_behind (le_start_of_mem_directives hv)]
      exact List.mem_append_right _ (List.mem_cons_of_mem _ (h.kept v hv))

end

/-- Inserted directives stay apart from all others just if each of them is clear of these. -/
theorem Woven.stays_iff {ps us : List Piece} (h : Woven n ps ins us) (hc : Cuts glsl t ps [])
    (d : Nat) : Stays (shift ins · + d) ins (directives n ps) (directives (n + d) us) ↔
      ∀ x ∈ ins, ∀ v ∈ directives n ps, v.IsClear x := by
  induction h generalizing t d with
  | done n ps =>
    refine ⟨fun _ => by simp, fun _ => ⟨by simp, fun v hv => ?_⟩⟩
    simpa [shift] using moved_mem_directives d hv
  | @next n line id as bs us q ins hins _ ih =>
    have hne : ∀ p ∈ as, p.text ≠ [] := fun p hp => hc.text_ne_nil (List.mem_append_left _ hp)
    have ih := ih hc.split.2 (d + Text.size (standard.render (startsLine as) line id))
    have hoffset : n + Text.size (textAll as) +
        (d + Text.size (standard.render (startsLine as) line id)) = n + d +
          Text.size (textAll as) + Text.size (standard.render (startsLine as) line id) := by omega
    rw [hoffset] at ih
    constructor
    · intro hst
      have hfirst := hst.clear hc hins
      have hparts := parts_of_clear hc hfirst
      have hrest := ih.1 (hparts.stays_rest hne hins hst)
      refine List.forall_mem_cons.2 ⟨hfirst, fun x hx v hv => ?_⟩
      rcases List.mem_append.1 (hparts.subset hv) with hv | hv
      · have := (stop_of_mem_directives hne hv).2
        exact .inr (.inl (this.trans_lt (hins x hx)))
      · exact hrest x hx v hv
    · intro hclear
      obtain ⟨hfirst, hrest⟩ := List.forall_mem_cons.1 hclear
      have hparts := parts_of_clear hc hfirst
      refine hparts.stays hne hins (ih.2 fun x hx v hv => ?_)
      exact hrest x hx v (hparts.superset hv)

theorem exists_inject_stays {m : SourceMap} {contents : Contents} (h : m.Covers t contents) :
    ∃ inj, standard.inject (.parse glsl t) m contents = .ok inj ∧
      Edit.apply t (standard.plan (.parse glsl t) m contents).edits = .ok inj.document.text ∧
      (Stays (shift (standard.plan (.parse glsl t) m contents).inserts)
          (standard.plan (.parse glsl t) m contents).inserts
          ((Document.parse glsl t).query .directive none) (inj.document.query .directive none) ↔
        ∀ x ∈ (standard.plan (.parse glsl t) m contents).inserts,
          ∀ v ∈ (Document.parse glsl t).query .directive none, v.IsClear x) := by
  have hplaced : ∀ x ∈ (standard.plan (.parse glsl t) m contents).inserts,
      standard.Placed 0 (ofText glsl t) x := fun x hx => placed_plan hx
  obtain ⟨us, hwoven⟩ := exists_woven (standard.sound_plan h).sorted hplaced
  have hcuts := hwoven.cuts (cuts_ofText glsl t)
  have hswept := hwoven.swept
  rw [textAll_ofText] at hswept
  obtain ⟨u, hu, hinj⟩ := standard.inject_eq h
  obtain rfl : textAll us = u := Except.ok.inj (hswept.apply_eq.symm.trans hu.apply_eq)
  refine ⟨_, hinj, by rw [hu.apply_eq, Document.text_parse], ?_⟩
  have hus : ofText glsl (textAll us) = us := by simpa using hcuts.ofText_eq
  rw [Document.query_directive, Document.query_directive, hus]
  exact hwoven.stays_iff (cuts_ofText glsl t) 0

/-- Whether planned directives are clear of others can be told from the ranges of the map. -/
theorem clear_of_ranges {d : Document} {m : SourceMap} {contents : Contents}
    (h : ∀ r ∈ m.ranges, ∀ p ∈ leafStarting (max r.start (standard.minOffset d)) true d.leaves,
      ∀ v ∈ d.query .directive none, p.1.start ≤ v.start ∨ v.stop < p.1.start ∨
        p.1.start = v.stop ∧ p.2 = false) :
    ∀ x ∈ (standard.plan d m contents).inserts, ∀ v ∈ d.query .directive none, v.IsClear x := by
  intro x hx v hv
  obtain ⟨r, hr, l, b, line, id, hl, rfl⟩ := mem_plan hx
  rcases h r hr (l, b) hl v hv with hle | hlt | ⟨hstop, hb⟩
  · exact .inl hle
  · exact .inr (.inl hlt)
  · refine .inr (.inr ⟨hstop, ?_⟩)
    rw [head?_render]
    simpa using hb

/-- The last range of a map gets a directive, unless it ends before the first allowed offset. -/
theorem exists_mem_plan {m : SourceMap} {contents : Contents} (h : m.Covers t contents)
    {r : MapRange} (hr : m.ranges.getLast? = some r)
    (hmin : standard.minOffset (.parse glsl t) < r.stop)
    (hl : (leafStarting (max r.start (standard.minOffset (.parse glsl t))) true
      (Document.parse glsl t).leaves).map (·.1.start) = some o) :
    ∃ x ∈ (standard.plan (.parse glsl t) m contents).inserts, x.1 = o := by
  obtain ⟨rs, hm⟩ := List.getLast?_eq_some_iff.1 hr
  have hmem : r ∈ m.ranges := by simp [hm]
  have hsize : max r.start (standard.minOffset (.parse glsl t)) < Text.size t := by
    have := h.tiles.start_lt_stop r hmem
    have := h.size_eq ▸ h.tiles.stop_le r hmem
    omega
  obtain ⟨l, b, hleaf, hcut⟩ := Document.exists_leafStarting hsize
  rw [hleaf, Option.map_some, Option.some_inj] at hl
  obtain ⟨_, _, -, -, hforce⟩ := standard.exists_inForce h hm hmin hcut le_rfl (by simp)
  obtain ⟨_, hx⟩ := hforce.mem
  exact ⟨_, hx, hl⟩

end LineDirective

theorem Unfolds.eq_of_single {env : ExpandEnv} {chain : List ResourceId} {r child : Resource}
    {s : Site} {cs : List Chunk} (h : Unfolds env chain r 0 r.content [s] cs)
    (ht : env.target chain r s = .ok child) (hc : child.document.sites = []) :
    cs = .copied r 0 (Text.takeBytes s.start r.content) :: .quote r s ::
      .copied child 0 child.content :: (Chunk.lineEnd child child.content ++
        [.copied r s.stop (Text.dropBytes s.stop r.content)]) := by
  cases h with
  | failed _ _ ht' => cases ht'.symm.trans ht
  | @expanded _ _ _ _ _ rest gap imp _ _ cs ds hsplit hs ht' hds hcs =>
    obtain rfl := Except.ok.inj (ht'.symm.trans ht)
    rw [hc] at hds
    cases hds with
    | done =>
    cases hcs with
    | done =>
    have htext := hsplit.cuts.eq_append
    have hgap : Text.takeBytes s.start r.content = textAll gap := by
      rw [htext, hs, textAll_append, List.append_assoc, Site.ofPieces, Nat.zero_add,
        Text.takeBytes_size_append]
    have hrest : Text.dropBytes s.stop r.content = rest := by
      rw [htext, hs, Site.ofPieces, Nat.zero_add, ← Text.size_append, ← textAll_append,
        Text.dropBytes_size_append]
    simp [hgap, hrest]

namespace ExpandEnv

theorem exists_ran_single (env : ExpandEnv) {root : Resource} (hr : root.IsGlsl)
    (hcancel : env.cancelAfter = none) (s : Site) (id : ResourceId) (t : Text)
    (hs : (root.document.sites.map fun s => (s.start, s.stop, s.reference, s.text)) =
      [(s.start, s.stop, s.reference, s.text)])
    (ht : (root.document.sites.any fun s => (env.target [root.id] root s).toOption.any
      fun x => x.id == id && x.content == t) = true)
    (hc : (Document.parse glsl t).sites.isEmpty = true) :
    ∃ e, env.run root = .ok e ∧ Ran env root e (.copied root 0 (Text.takeBytes s.start root.content)
      :: .quote root s :: .copied (.parse glsl id t) 0 t :: (Chunk.lineEnd (.parse glsl id t) t ++
        [.copied root s.stop (Text.dropBytes s.stop root.content)])) := by
  obtain ⟨e, he⟩ := exists_run hr hcancel
  obtain ⟨cs, hran⟩ := exists_ran hr he
  obtain ⟨s', hs', htarget⟩ := exists_target hr id t ht
  have hsites : root.document.sites = [s] := by
    obtain ⟨a, ha⟩ := List.length_eq_one_iff.1 (by simpa using congrArg List.length hs)
    rw [ha] at hs ⊢
    obtain ⟨h₁, h₂, h₃, h₄⟩ : a.start = s.start ∧ a.stop = s.stop ∧ a.reference = s.reference ∧
        a.text = s.text := by simpa using hs
    obtain ⟨start, stop, reference, text⟩ := a
    subst h₁ h₂ h₃ h₄
    rfl
  obtain rfl : s' = s := by simpa [hsites] using hs'
  have hunfolds := hran.unfolds
  rw [hsites] at hunfolds
  obtain rfl := hunfolds.eq_of_single htarget (List.isEmpty_iff.1 hc)
  exact ⟨e, he, hran⟩

/-- For every root and every store, the line directives that are inserted into an expansion are
directives of their own and leave all others as they are just if each is clear of these: none is
inserted into a directive, or right behind one without a line break between. -/
theorem run_inject_directives {env : ExpandEnv} {id : ResourceId} {t : Text} {e : Expanded}
    (h : env.run (.parse glsl id t) = .ok e) :
    let m := e.map.getD (.identity id e.document.size)
    let plan := LineDirective.standard.plan e.document m e.contents
    ∃ inj, LineDirective.standard.inject e.document m e.contents = .ok inj ∧
      Edit.apply e.document.text plan.edits = .ok inj.document.text ∧
      (LineDirective.Stays (LineDirective.shift plan.inserts) plan.inserts
          (e.document.query .directive none) (inj.document.query .directive none) ↔
        ∀ x ∈ plan.inserts, ∀ v ∈ e.document.query .directive none, v.IsClear x) := by
  intro m plan
  obtain ⟨cs, hran⟩ := exists_ran (Resource.isGlsl_parse id t) h
  have hm : m = SourceMap.ofChunks cs := hran.map_eq
  have hplan : plan = LineDirective.standard.plan (.parse glsl (Chunk.textAll cs))
      (.ofChunks cs) e.contents := by rw [← hm, ← hran.document]
  rw [hplan, hm, hran.document, Document.text_parse]
  exact LineDirective.exists_inject_stays hran.covers

/-- A root with a version line and a directive after its import. The imported directive goes on
after a backslash, and its text ends without a line break. -/
theorem run_inject_directives_continued :
    let root := Resource.parse glsl ⟨"s".toList, "m".toList⟩
      "#version 330\n@import \"a\" \n#define B 1\n".toList
    let store : Store := fun i =>
      .ok (if i.path = "a".toList then some "int é;\n#define A \\\n 1".toList else none)
    let env : ExpandEnv := ⟨store, ⟨"s".toList, []⟩, 3, none⟩
    ∃ e, env.run root = .ok e ∧
      let m := e.map.getD (.identity root.id e.document.size)
      let plan := LineDirective.standard.plan e.document m e.contents
      (e.document.query .directive none).length = 3 ∧
      ∃ inj, LineDirective.standard.inject e.document m e.contents = .ok inj ∧
        LineDirective.Stays (LineDirective.shift plan.inserts) plan.inserts
          (e.document.query .directive none) (inj.document.query .directive none) := by
  intro root store env
  have hroot : root.IsGlsl := Resource.isGlsl_parse _ _
  obtain ⟨e, he, hran⟩ := exists_ran_single env hroot rfl
    ⟨13, 24, "a".toList, "@import \"a\"".toList⟩ ⟨"s".toList, "a".toList⟩
    "int é;\n#define A \\\n 1".toList (by decide +kernel) (by decide +kernel) (by decide +kernel)
  refine ⟨e, he, ?_⟩
  intro m plan
  obtain ⟨inj, hinj, -, hstays⟩ := run_inject_directives he
  have hm : m = SourceMap.ofChunks _ := hran.map_eq
  have hclear : ∀ x ∈ plan.inserts, ∀ v ∈ e.document.query .directive none, v.IsClear x := by
    refine LineDirective.clear_of_ranges ?_
    rw [hm, hran.document]
    decide +kernel
  exact ⟨by rw [hran.document]; decide +kernel, inj, hinj, hstays.2 hclear⟩

/-- A directive that ends with an escaped line break takes the line directive behind it. -/
theorem run_inject_directives_absorbed :
    let root := Resource.parse glsl ⟨"s".toList, "m".toList⟩ "@import \"a\"\nint x;\n".toList
    let store : Store := fun i =>
      .ok (if i.path = "a".toList then some "#define A \\\n".toList else none)
    let env : ExpandEnv := ⟨store, ⟨"s".toList, []⟩, 3, none⟩
    ∃ e, env.run root = .ok e ∧
      let m := e.map.getD (.identity root.id e.document.size)
      let plan := LineDirective.standard.plan e.document m e.contents
      ∃ inj, LineDirective.standard.inject e.document m e.contents = .ok inj ∧
        ¬ LineDirective.Stays (LineDirective.shift plan.inserts) plan.inserts
          (e.document.query .directive none) (inj.document.query .directive none) := by
  intro root store env
  have hroot : root.IsGlsl := Resource.isGlsl_parse _ _
  obtain ⟨e, he, hran⟩ := exists_ran_single env hroot rfl
    ⟨0, 11, "a".toList, "@import \"a\"".toList⟩ ⟨"s".toList, "a".toList⟩
    "#define A \\\n".toList (by decide +kernel) (by decide +kernel) (by decide +kernel)
  refine ⟨e, he, ?_⟩
  intro m plan
  have hm : m = SourceMap.ofChunks _ := hran.map_eq
  obtain ⟨inj, hinj, -, hstays⟩ := LineDirective.exists_inject_stays hran.covers
  obtain ⟨x, hx, hxo⟩ := LineDirective.exists_mem_plan (o := 30)
    (r := ⟨30, 38, root.id, 11, .verbatim⟩) hran.covers (by decide +kernel) (by decide +kernel)
    (by decide +kernel)
  rw [← hm, ← hran.document] at hinj hstays hx
  refine ⟨inj, hinj, fun h => ?_⟩
  -- the directive from 18 on ends where the one of the last range is inserted
  have hv : (e.document.query .directive none).any (fun v => v.start == 18 && v.stop == 30) := by
    rw [hran.document]
    decide +kernel
  have hstarts : ∀ r ∈ m.ranges, ∀ p ∈ LineDirective.leafStarting
      (max r.start (LineDirective.standard.minOffset e.document)) true e.document.leaves,
      p.1.start = 30 → p.2 = true := by
    rw [hm, hran.document]
    decide +kernel
  obtain ⟨v, hv, hvat⟩ := List.any_eq_true.1 hv
  obtain ⟨hstart, hstop⟩ : v.start = 18 ∧ v.stop = 30 := by simpa using hvat
  obtain ⟨r, hr, l, b, line, n, hleaf, rfl⟩ := LineDirective.mem_plan hx
  obtain rfl := hstarts r hr (l, b) hleaf hxo
  have hclear := hstays.1 h _ hx v hv
  rw [Node.IsClear, LineDirective.head?_render, hxo, hstart, hstop] at hclear
  simp at hclear

end ExpandEnv
end ShaderInline
