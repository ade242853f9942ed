import ShaderInline.Proofs.Expand.Sections
import ShaderInline.Proofs.Tree.Marks

/-! # What failed imports take with them

The warning that takes the place of a failed import is a comment to the end of
the line. It covers what comes after the import in its line, and a slash right
before an import makes such a comment of the import. All other tokens stay.
-/

namespace ShaderInline

open Schema Piece

def Piece.covers (imported covered : Bool) (ps : List Piece) : List (Mark × Bool) :=
  ps.map fun p => (p.mark imported, covered)

namespace Mark

def isSlashBefore (next : Option Mark) (m : Mark) : Bool :=
  !m.imported && m.text == ['/'] && next.any imported

/-- The tokens, each with whether a comment covers it once the imports have failed. -/
def coverFrom : (covered : Bool) → List Mark → List (Mark × Bool)
  | _, [] => []
  | covered, m :: ms =>
    if m.kind = .newline then (m, false) :: coverFrom false ms
    else
      (m, covered || m.isSlashBefore ms.head?) ::
        coverFrom (covered || m.isSlashBefore ms.head? || (m.imported && m.kind == .string)) ms

/-- The significant tokens that belong to no import and are not covered. -/
def kept (xs : List (Mark × Bool)) : List (Kind × Text) :=
  (xs.filter fun x => x.1.isSignificant && !x.1.imported && !x.2).map (·.1.token)

/-- No covered token goes past the end of its line. -/
def Flat (xs : List (Mark × Bool)) : Prop :=
  ∀ x ∈ xs, x.2 = true → ∀ c ∈ x.1.text, Text.isLineBreak c = false

theorem flat_iff {xs : List (Mark × Bool)} :
    (xs.all fun x => !x.2 || x.1.text.all (!Text.isLineBreak ·)) = true ↔ Flat xs := by
  simp [Flat, or_iff_not_imp_left]

instance (xs : List (Mark × Bool)) : Decidable (Flat xs) := decidable_of_iff _ flat_iff

variable {b : Bool} {m : Mark} {ms ns : List Mark}

@[simp] theorem kept_nil : kept [] = [] := rfl

@[simp] theorem kept_append (xs ys : List (Mark × Bool)) :
    kept (xs ++ ys) = kept xs ++ kept ys := by
  simp [kept]

@[simp] theorem kept_covered (ps : List Piece) : kept (covers b true ps) = [] := by
  simp [kept, covers]

@[simp] theorem kept_imported (ps : List Piece) : kept (covers true b ps) = [] := by
  simp [kept, covers]

theorem flat_append {xs ys : List (Mark × Bool)} : Flat (xs ++ ys) ↔ Flat xs ∧ Flat ys :=
  List.forall_mem_append

theorem Flat.isLineBreak {ps : List Piece} (h : Flat (covers b true ps)) :
    ∀ c ∈ textAll ps, Text.isLineBreak c = false := by
  intro c hc
  obtain ⟨p, hp, hc⟩ := List.mem_flatMap.1 hc
  exact h (p.mark b, true) (List.mem_map.2 ⟨p, hp, rfl⟩) rfl c hc

@[simp] theorem map_fst_coverFrom (b : Bool) (ms : List Mark) :
    (coverFrom b ms).map (·.1) = ms := by
  induction ms generalizing b with
  | nil => rfl
  | cons m ms ih =>
    rw [coverFrom]
    split
    · rw [List.map_cons, ih]
    · rw [List.map_cons, ih]

theorem coverFrom_newline (h : m.kind = .newline) (ms : List Mark) :
    coverFrom b (m :: ms) = (m, false) :: coverFrom false ms := by
  rw [coverFrom, if_pos h]

theorem coverFrom_cons (h : m.kind ≠ .newline) (ms : List Mark) : coverFrom b (m :: ms) =
    (m, b || m.isSlashBefore ms.head?) ::
      coverFrom (b || m.isSlashBefore ms.head? || (m.imported && m.kind == .string)) ms := by
  rw [coverFrom, if_neg h]

/-- A comment covers all up to the end of the line. -/
theorem coverFrom_covered {ps : List Piece} (h : ∀ p ∈ ps, p.kind ≠ .newline) (ns : List Mark) :
    coverFrom true (ps.map (Piece.mark b) ++ ns) = covers b true ps ++ coverFrom true ns := by
  induction ps with
  | nil => rfl
  | cons p ps ih =>
    rw [List.forall_mem_cons] at h
    rw [List.map_cons, List.cons_append, coverFrom_cons h.1, Bool.true_or, Bool.true_or, ih h.2]
    rfl

theorem coverFrom_own {ps : List Piece} (h : ns.head?.any imported = true →
      ∀ p, ps.getLast? = some p → p.text ≠ ['/']) :
    coverFrom false (ps.map (Piece.mark false) ++ ns) =
      covers false false ps ++ coverFrom false ns := by
  induction ps with
  | nil => rfl
  | cons p ps ih =>
    have ih := ih fun hn q hq => h hn q (by
      cases ps with
      | nil => cases hq
      | cons => simpa using hq)
    have hslash : (p.mark false).isSlashBefore (ps.map (Piece.mark false) ++ ns).head? = false := by
      cases ps with
      | cons q ps => simp [isSlashBefore]
      | nil =>
        cases hn : ns.head?.any imported with
        | false => simp [isSlashBefore, hn]
        | true => simp [isSlashBefore, h hn p rfl]
    rw [List.map_cons, List.cons_append, covers, List.map_cons, List.cons_append, ← covers, ← ih]
    by_cases hk : (p.mark false).kind = .newline
    · rw [coverFrom_newline hk]
    · rw [coverFrom_cons hk, hslash]
      rfl

theorem coverFrom_plain (ps : List Piece) :
    coverFrom false (ps.map (Piece.mark false)) = covers false false ps := by
  have h : coverFrom false (ps.map (Piece.mark false) ++ []) = _ :=
    coverFrom_own fun hn => by cases hn
  simpa [coverFrom] using h

theorem coverFrom_slash {p : Piece} (hp : p.text = ['/']) (hk : p.kind ≠ .newline)
    (hn : ns.head?.any imported = true) :
    coverFrom false (p.mark false :: ns) = covers false true [p] ++ coverFrom true ns := by
  have hslash : (p.mark false).isSlashBefore ns.head? = true := by simp [isSlashBefore, hp, hn]
  rw [coverFrom_cons hk, hslash]
  rfl

theorem coverFrom_imported {ps : List Piece}
    (h : ∀ p ∈ ps, p.kind ≠ .newline ∧ p.kind ≠ .string) (ns : List Mark) :
    coverFrom false (ps.map (Piece.mark true) ++ ns) =
      covers true false ps ++ coverFrom false ns := by
  induction ps with
  | nil => rfl
  | cons p ps ih =>
    rw [List.forall_mem_cons] at h
    have hstring : (p.kind == .string) = false := beq_false_of_ne h.1.2
    rw [List.map_cons, List.cons_append, coverFrom_cons h.1.1]
    simp [isSlashBefore, hstring, ih h.2, covers]

end Mark

namespace IsImport

variable {imp : List Piece}

theorem exists_string (h : IsImport imp) : ∃ ps q, imp = ps ++ [q] ∧ q.kind = .string ∧
    ∀ p ∈ ps, p.kind ≠ .newline ∧ p.kind ≠ .string := by
  cases h with
  | @intro tag quoted blanks ht _ hb hq =>
    have hk : quoted.kind = .string := by
      simp only [isQuoted, Bool.and_eq_true, beq_iff_eq] at hq
      exact hq.1.1
    refine ⟨tag :: blanks, quoted, rfl, hk, ?_⟩
    rw [List.forall_mem_cons]
    refine ⟨by simp [ht], fun p hp => ⟨?_, ?_⟩⟩
    · rintro hn
      have := hb p hp
      rw [hn] at this
      cases this
    · rintro hs
      have := hb p hp
      rw [hs] at this
      cases this

theorem ne_newline (h : IsImport imp) : ∀ p ∈ imp, p.kind ≠ .newline := by
  obtain ⟨ps, q, rfl, hq, hps⟩ := h.exists_string
  intro p hp
  rcases List.mem_append.1 hp with hp | hp
  · exact (hps p hp).1
  · rw [List.mem_singleton.1 hp, hq]
    simp

theorem coverFrom_eq (h : IsImport imp) (ns : List Mark) :
    Mark.coverFrom false (imp.map (Piece.mark true) ++ ns) =
      covers true false imp ++ Mark.coverFrom true ns := by
  obtain ⟨ps, q, rfl, hq, hps⟩ := h.exists_string
  have hk : (q.mark true).kind ≠ .newline := by
    rw [mark_kind, hq]
    simp
  rw [List.map_append, List.append_assoc, Mark.coverFrom_imported hps, List.map_singleton,
    List.singleton_append, Mark.coverFrom_cons hk]
  simp [Mark.isSlashBefore, hq, covers]

theorem head?_marks (h : IsImport imp) (ns : List Mark) :
    (imp.map (Piece.mark true) ++ ns).head?.any Mark.imported = true := by
  cases h
  rfl

end IsImport

/-! ### The tokens of a text -/

namespace Piece

def tokens (ps : List Piece) : List (Kind × Text) :=
  ((ps.map (mark false)).filter Mark.isSignificant).map Mark.token

@[simp] theorem tokens_append (ps qs : List Piece) :
    tokens (ps ++ qs) = tokens ps ++ tokens qs := by
  simp [tokens]

@[simp] theorem kept_own (ps : List Piece) : Mark.kept (covers false false ps) = tokens ps := by
  simp [Mark.kept, tokens, covers, List.filter_map, Function.comp_def]

variable {t x y w : Text}

def AfterLine : List Piece → Prop
  | [] => True
  | p :: _ => p.kind = .newline

theorem exists_line (ps : List Piece) :
    ∃ qs rs, ps = qs ++ rs ∧ (∀ p ∈ qs, p.kind ≠ .newline) ∧ AfterLine rs := by
  induction ps with
  | nil => exact ⟨[], [], rfl, by simp, trivial⟩
  | cons p ps ih =>
    by_cases hp : p.kind = .newline
    · exact ⟨[], p :: ps, rfl, by simp, hp⟩
    · obtain ⟨qs, rs, rfl, hqs, hrs⟩ := ih
      exact ⟨p :: qs, rs, rfl, List.forall_mem_cons.2 ⟨hp, hqs⟩, hrs⟩

theorem AfterLine.coverFrom_eq {rs : List Piece} (h : AfterLine rs) {ns : List Mark}
    (hn : rs = [] → ns = []) : Mark.coverFrom true (rs.map (mark false) ++ ns) =
      Mark.coverFrom false (rs.map (mark false) ++ ns) := by
  cases rs with
  | nil =>
    rw [hn rfl]
    rfl
  | cons p rs =>
    have hk : (p.mark false).kind = .newline := h
    rw [List.map_cons, List.cons_append, Mark.coverFrom_newline hk, Mark.coverFrom_newline hk]

theorem AfterLine.head? {t x y : Text} {rs : List Piece} (h : AfterLine rs)
    (hc : Cuts glsl t rs x) (hy : rs = [] → y = []) :
    (textAll rs ++ y).head?.all Text.isLineBreak = true := by
  cases rs with
  | nil =>
    rw [hy rfl]
    rfl
  | cons p rs =>
    obtain ⟨c, q, hp, hb⟩ := hc.newline_head List.mem_cons_self h
    rw [textAll_cons, hp]
    simpa using hb

theorem tokens_comment (hw : ∀ c ∈ w, Text.isLineBreak c = false)
    (hy : y.head?.all Text.isLineBreak = true) :
    tokens (ofText glsl ('/' :: '/' :: (w ++ y))) = tokens (ofText glsl y) := by
  rw [(Cuts.lineComment hw hy).ofText_eq, tokens_append]
  rfl

theorem tokens_feed (x : Text) : tokens (ofText glsl ('\n' :: x)) = tokens (ofText glsl x) := by
  rw [(Cuts.feed x).ofText_eq, tokens_append]
  rfl

theorem tokens_comment_feed (hw : ∀ c ∈ w, Text.isLineBreak c = false) (x : Text) :
    tokens (ofText glsl ('/' :: '/' :: (w ++ '\n' :: x))) = tokens (ofText glsl x) := by
  rw [tokens_comment hw rfl, tokens_feed]

end Piece

theorem Document.tokens_parse (t : Text) :
    (Document.parse glsl t).tokens = Piece.tokens (ofText glsl t) := by
  rw [tokens, marks_parse]
  generalize (Document.parse glsl t).sites = ss
  generalize ofText glsl t = ps
  generalize 0 = n
  induction ps generalizing n with
  | nil => rfl
  | cons p ps ih =>
    have hp (b : Bool) : (p.mark b).isSignificant = (p.mark false).isSignificant := rfl
    rw [Site.marksFrom, List.filter_cons, hp]
    unfold Piece.tokens at ih ⊢
    rw [List.map_cons, List.filter_cons]
    split
    · rw [List.map_cons, ih]
      rfl
    · exact ih _

/-! ### The output of a run -/

open ShaderInline.Mark (coverFrom kept Flat)

theorem Inline.exists_header (s : Site) : ∃ w, Inline.header s = '/' :: (w ++ ['\n']) ∧
    ((∀ c ∈ s.text, Text.isLineBreak c = false) → ∀ c ∈ w, Text.isLineBreak c = false) := by
  refine ⟨"* ".toList ++ (Text.partCommentEnds s.text ++ " */".toList), by simp [header], ?_⟩
  intro hs c hc
  have hlead : ("* ".toList.all (!Text.isLineBreak ·)) = true := by decide
  have htail : (" */".toList.all (!Text.isLineBreak ·)) = true := by decide
  simp only [List.all_eq_true, Bool.not_eq_true'] at hlead htail
  rcases List.mem_append.1 hc with hc | hc
  · exact hlead c hc
  rcases List.mem_append.1 hc with hc | hc
  · rcases Text.mem_partCommentEnds hc with hc | rfl
    · exact hs c hc
    · rfl
  · exact htail c hc

namespace Split

variable {σ : Search} {t rest x : Text} {gap imp : List Piece} {s : Site} {ns : List Mark}

/-- What is covered from the text before an import on: what comes after it, and also the import
itself and the slash if one comes right before it. -/
theorem coverFrom_cases (h : Split σ t gap imp rest) (ns : List Mark) :
    (∀ p, gap.getLast? = some p → p.text ≠ ['/']) ∧
      coverFrom false (gap.map (mark false) ++ (imp.map (mark true) ++ ns)) =
        covers false false gap ++ (covers true false imp ++ coverFrom true ns) ∨
    ∃ qs p, gap = qs ++ [p] ∧ p.text = ['/'] ∧
      coverFrom false (gap.map (mark false) ++ (imp.map (mark true) ++ ns)) =
        covers false false qs ++ (covers false true [p] ++
          (covers true true imp ++ coverFrom true ns)) := by
  by_cases hslash : ∀ p, gap.getLast? = some p → p.text ≠ ['/']
  · exact .inl ⟨hslash, by rw [Mark.coverFrom_own fun _ => hslash, h.isImport.coverFrom_eq]⟩
  · push Not at hslash
    obtain ⟨p, hp, hpt⟩ := hslash
    obtain ⟨qs, rfl⟩ := List.getLast?_eq_some_iff.1 hp
    have hk : p.kind ≠ .newline := by
      intro hk
      obtain ⟨c, q, hc, hb⟩ := h.cuts.newline_head (by simp) hk
      rw [hpt] at hc
      obtain rfl := (List.cons_eq_cons.1 hc).1
      cases hb
    refine .inr ⟨qs, p, rfl, hpt, ?_⟩
    rw [List.map_append, List.append_assoc, List.map_singleton, List.singleton_append,
      Mark.coverFrom_own (fun hn => by cases hn),
      Mark.coverFrom_slash hpt hk (h.isImport.head?_marks ns),
      Mark.coverFrom_covered h.isImport.ne_newline]

theorem exists_drop {qs rs : List Piece} (h : Split σ t (qs ++ rs) imp rest) :
    ∃ σ' t', Split σ' t' rs imp rest := by
  obtain ⟨e, he⟩ := h.code
  rw [Search.run_append] at he
  obtain ⟨σ', -, hσ'⟩ := Option.bind_eq_some_iff.1 he
  have hcuts := h.cuts
  rw [List.append_assoc] at hcuts
  exact ⟨σ', _, hcuts.split.2, ⟨e, hσ'⟩, h.isImport⟩

theorem flat_after (h : Split σ t gap imp rest)
    (hflat : Flat (coverFrom false (gap.map (mark false) ++ (imp.map (mark true) ++ ns)))) :
    Flat (coverFrom true ns) := by
  rcases h.coverFrom_cases ns with ⟨-, hcover⟩ | ⟨qs, p, -, -, hcover⟩
  · rw [hcover, Mark.flat_append, Mark.flat_append] at hflat
    exact hflat.2.2
  · rw [hcover, Mark.flat_append, Mark.flat_append, Mark.flat_append] at hflat
    exact hflat.2.2.2

/-- The tokens of a text up to a failed import and of what takes its place. -/
theorem tokens_failed (h : Split σ t gap imp rest) (hs : s.text = textAll imp)
    (hx : tokens (ofText glsl x) = kept (coverFrom true ns))
    (hflat : Flat (coverFrom false (gap.map (mark false) ++ (imp.map (mark true) ++ ns)))) :
    tokens (ofText glsl (textAll gap ++ (Inline.header s ++ x))) =
      kept (coverFrom false (gap.map (mark false) ++ (imp.map (mark true) ++ ns))) := by
  rcases h.coverFrom_cases ns with ⟨hslash, hcover⟩ | ⟨qs, p, rfl, hp, hcover⟩
  · have hquote : tokens (Inline.quotation s) = [] := rfl
    rw [hcover, (h.cuts_quotation hslash s x).ofText_eq]
    simp [hx, hquote]
  · rw [hcover, Mark.flat_append, Mark.flat_append, Mark.flat_append] at hflat
    obtain ⟨w, hw, hbreak⟩ := Inline.exists_header s
    have htext : textAll (qs ++ [p]) ++ (Inline.header s ++ x) =
        textAll qs ++ '/' :: '/' :: (w ++ '\n' :: x) := by simp [hp, hw]
    rw [htext, (h.cuts_slash hp _).ofText_eq, tokens_append,
      tokens_comment_feed (hbreak (hs ▸ hflat.2.2.1.isLineBreak)), hx, hcover]
    simp

theorem tokens_failed_covered {w : Text} (h : Split σ t gap imp rest) (hs : s.text = textAll imp)
    (hx : Flat (coverFrom true ns) → tokens (ofText glsl x) = kept (coverFrom true ns))
    (hw : ∀ c ∈ w, Text.isLineBreak c = false)
    (hflat : Flat (coverFrom true (gap.map (mark false) ++ (imp.map (mark true) ++ ns)))) :
    tokens (ofText glsl ('/' :: '/' :: (w ++ (textAll gap ++ (Inline.header s ++ x))))) =
      kept (coverFrom true (gap.map (mark false) ++ (imp.map (mark true) ++ ns))) := by
  obtain ⟨qs, rs, rfl, hqs, hrs⟩ := exists_line gap
  rw [List.map_append, List.append_assoc, Mark.coverFrom_covered hqs] at hflat ⊢
  cases rs with
  | nil =>
    -- the comment also covers the import
    rw [List.map_nil, List.nil_append, Mark.coverFrom_covered h.isImport.ne_newline] at hflat ⊢
    rw [Mark.flat_append, Mark.flat_append] at hflat
    obtain ⟨u, hu, hub⟩ := Inline.exists_header s
    have hline : ∀ c ∈ w ++ (textAll qs ++ '/' :: u), Text.isLineBreak c = false := by
      rw [List.forall_mem_append, List.forall_mem_append, List.forall_mem_cons]
      exact ⟨hw, hflat.1.isLineBreak, rfl, hub (hs ▸ hflat.2.1.isLineBreak)⟩
    have htext : w ++ (textAll (qs ++ []) ++ (Inline.header s ++ x)) =
        w ++ (textAll qs ++ '/' :: u) ++ '\n' :: x := by simp [hu]
    rw [htext, tokens_comment_feed hline, hx hflat.2.2]
    simp
  | cons p rs =>
    obtain ⟨σ, t', hdrop⟩ := h.exists_drop
    rw [hrs.coverFrom_eq nofun] at hflat ⊢
    rw [Mark.flat_append] at hflat
    have hline : ∀ c ∈ w ++ textAll qs, Text.isLineBreak c = false := by
      rw [List.forall_mem_append]
      exact ⟨hw, hflat.1.isLineBreak⟩
    have htext : w ++ (textAll (qs ++ p :: rs) ++ (Inline.header s ++ x)) =
        w ++ textAll qs ++ (textAll (p :: rs) ++ (Inline.header s ++ x)) := by simp
    rw [htext, tokens_comment hline (hrs.head? hdrop.cuts.split.1 nofun),
      hdrop.tokens_failed hs (hx (hdrop.flat_after hflat.2)) hflat.2]
    simp

end Split

namespace Unfolds

variable {env : ExpandEnv} {chain : List ResourceId} {r : Resource} {n : Nat} {t : Text}
  {ss : List Site} {cs : List Chunk}

theorem marksFrom_eq {σ : Search} {gap imp : List Piece} {s : Site} {rest : Text}
    (hsplit : Split σ t gap imp rest) (hs : s = Site.ofPieces (n + Text.size (textAll gap)) imp)
    (h : Unfolds env chain r s.stop rest ss cs) :
    Site.marksFrom (s :: ss) n (ofText glsl t) = gap.map (mark false) ++ (imp.map (mark true) ++
      Site.marksFrom ss s.stop (ofText glsl rest)) := by
  have hstart : s.start = n + Text.size (textAll gap) := by rw [hs]; rfl
  have hstop : s.stop = s.start + Text.size (textAll imp) := by rw [hs]; rfl
  have hne := fun p hp => hsplit.cuts.text_ne_nil (p := p) hp
  have hbefore : ∀ s' ∈ s :: ss, n + Text.size (textAll gap) ≤ s'.start := by
    rw [List.forall_mem_cons]
    refine ⟨hstart.ge, fun s' hs' => ?_⟩
    have := h.le_start s' hs'
    omega
  rw [hsplit.cuts.ofText_eq, List.append_assoc, Site.marksFrom_append, Site.marksFrom_append,
    Site.marksFrom_before hbefore fun p hp => hne p (List.mem_append_left _ hp), ← hstart, ← hstop,
    Site.marksFrom_inside List.mem_cons_self le_rfl hstop.ge, Site.marksFrom_after le_rfl
      fun p hp => (cuts_ofText glsl rest).text_ne_nil hp]

theorem marksFrom_nil (n : Nat) (t : Text) :
    Site.marksFrom [] n (ofText glsl t) = (ofText glsl t).map (mark false) :=
  Site.marksFrom_before (by simp) fun _ hp => (cuts_ofText glsl t).text_ne_nil hp

theorem textAll_failed (r : Resource) (n : Nat) (gap : List Piece) (s : Site) (p : Problem)
    (cs : List Chunk) : Chunk.textAll (.copied r n (textAll gap) :: .quote r s ::
      .warning r s p :: cs) = textAll gap ++ (Inline.header s ++
        (Inline.warning s p ++ Chunk.textAll cs)) := by
  simp

theorem tokens_covered (h : Unfolds env chain r n t ss cs)
    (hfail : ∀ s ∈ ss, ∃ d, env.target chain r s = .error d)
    (hflat : Flat (coverFrom true (Site.marksFrom ss n (ofText glsl t)))) {w : Text}
    (hw : ∀ c ∈ w, Text.isLineBreak c = false) :
    tokens (ofText glsl ('/' :: '/' :: (w ++ Chunk.textAll cs))) =
      kept (coverFrom true (Site.marksFrom ss n (ofText glsl t))) := by
  induction h generalizing w with
  | @done chain r n t =>
    rw [marksFrom_nil] at hflat ⊢
    have hcuts := cuts_ofText glsl t
    obtain ⟨qs, rs, hps, hqs, hrs⟩ := exists_line (ofText glsl t)
    have hcover : coverFrom true ((ofText glsl t).map (mark false)) =
        covers false true qs ++ covers false false rs := by
      have hrest := hrs.coverFrom_eq fun _ => (rfl : ([] : List Mark) = [])
      rw [List.append_nil, Mark.coverFrom_plain] at hrest
      rw [hps, List.map_append, Mark.coverFrom_covered hqs, hrest]
    rw [hcover, Mark.flat_append] at hflat
    rw [hps] at hcuts
    have htext : w ++ Chunk.textAll [.copied r n t] = w ++ textAll qs ++ (textAll rs ++ []) := by
      simpa using hcuts.eq_append
    have hline : ∀ c ∈ w ++ textAll qs, Text.isLineBreak c = false := by
      rw [List.forall_mem_append]
      exact ⟨hw, hflat.1.isLineBreak⟩
    rw [htext, tokens_comment hline (hrs.head? hcuts.split.2 fun _ => rfl), hcover,
      hcuts.split.2.ofText_eq]
    simp
  | @failed chain r n t rest gap imp s ss cs d hsplit hs htarget hcs ih =>
    rw [List.forall_mem_cons] at hfail
    rw [hcs.marksFrom_eq hsplit hs] at hflat ⊢
    have hstext : s.text = textAll imp := by rw [hs]; rfl
    obtain ⟨v, hv, hvb⟩ := Inline.exists_warning (hs ▸ hsplit.isLineBreak_reference) d.problem
    rw [textAll_failed]
    refine hsplit.tokens_failed_covered hstext (fun hflat' => ?_) hw hflat
    rw [hv]
    exact ih hfail.2 hflat' hvb
  | @expanded chain r child n t rest gap imp s ss cs ds hsplit hs htarget =>
    rw [List.forall_mem_cons] at hfail
    obtain ⟨⟨d, hd⟩, -⟩ := hfail
    rw [htarget] at hd
    cases hd

/-- The tokens of the output of a text, if all imports fail. -/
theorem tokens_eq (h : Unfolds env chain r n t ss cs)
    (hfail : ∀ s ∈ ss, ∃ d, env.target chain r s = .error d)
    (hflat : Flat (coverFrom false (Site.marksFrom ss n (ofText glsl t)))) :
    tokens (ofText glsl (Chunk.textAll cs)) =
      kept (coverFrom false (Site.marksFrom ss n (ofText glsl t))) := by
  cases h with
  | done =>
    rw [marksFrom_nil, Mark.coverFrom_plain]
    simp
  | @failed _ _ _ _ rest gap imp s ss cs d hsplit hs htarget hcs =>
    rw [List.forall_mem_cons] at hfail
    rw [hcs.marksFrom_eq hsplit hs] at hflat ⊢
    obtain ⟨v, hv, hvb⟩ := Inline.exists_warning (hs ▸ hsplit.isLineBreak_reference) d.problem
    have hafter := hcs.tokens_covered hfail.2 (hsplit.flat_after hflat) hvb
    rw [← List.cons_append, ← List.cons_append, ← hv] at hafter
    have hstext : s.text = textAll imp := by rw [hs]; rfl
    rw [textAll_failed]
    exact hsplit.tokens_failed hstext hafter hflat
  | expanded _ _ htarget =>
    rw [List.forall_mem_cons] at hfail
    obtain ⟨⟨d, hd⟩, -⟩ := hfail
    rw [htarget] at hd
    cases hd

end Unfolds

def Document.cover (d : Document) : List (Mark × Bool) := coverFrom false d.marks

theorem Document.ownTokens_eq (d : Document) : d.ownTokens =
    (d.cover.filter fun x => x.1.isSignificant && !x.1.imported).map (·.1.token) := by
  have hmarks : d.marks = d.cover.map (·.1) := (Mark.map_fst_coverFrom false d.marks).symm
  rw [ownTokens, hmarks, List.filter_map, List.map_map]
  rfl

theorem Mark.kept_eq_iff (xs : List (Mark × Bool)) :
    kept xs = (xs.filter fun x => x.1.isSignificant && !x.1.imported).map (·.1.token) ↔
      ∀ x ∈ xs, x.2 = true → x.1.isSignificant = true → x.1.imported = true := by
  have hfilter : kept xs = ((xs.filter fun x => x.1.isSignificant && !x.1.imported).filter
      (!·.2)).map (·.1.token) := by
    rw [kept, List.filter_filter]
    congr 2
    funext x
    exact Bool.and_comm _ _
  rw [hfilter]
  constructor
  · intro h x hx hcov hsig
    have hlen := congrArg List.length h
    rw [List.length_map, List.length_map, List.length_filter_eq_length_iff] at hlen
    by_contra himp
    rw [Bool.not_eq_true] at himp
    have := hlen x (List.mem_filter.2 ⟨hx, by rw [hsig, himp]; rfl⟩)
    rw [hcov] at this
    cases this
  · intro h
    rw [List.filter_eq_self.2]
    intro x hx
    obtain ⟨hx, hown⟩ := List.mem_filter.1 hx
    rw [Bool.and_eq_true, Bool.not_eq_true'] at hown
    rw [Bool.not_eq_true']
    by_contra hcov
    have := h x hx (by simpa using hcov) hown.1
    rw [hown.2] at this
    cases this

theorem Ran.tokens_eq {env : ExpandEnv} {root : Resource} {e : Expanded} {cs : List Chunk}
    (h : Ran env root e cs) (hr : root.IsGlsl)
    (hfail : ∀ s ∈ root.document.sites, ∃ d, env.target [root.id] root s = .error d)
    (hflat : Flat root.document.cover) : e.document.tokens = kept root.document.cover := by
  have hcover : root.document.cover = coverFrom false
      (Site.marksFrom root.document.sites 0 (ofText glsl root.content)) := by
    rw [Document.cover, show root.document = _ from hr, Document.marks_parse]
  rw [hcover] at hflat ⊢
  rw [h.document, Document.tokens_parse]
  exact h.unfolds.tokens_eq hfail hflat

namespace ExpandEnv

theorem exists_target_empty (options : Reference.Options) (maxDepth : Nat) (chain : List ResourceId)
    (r : Resource) (s : Site) :
    ∃ d, (⟨fun _ => .ok none, options, maxDepth, none⟩ : ExpandEnv).target chain r s =
      .error d := by
  rcases ht : (⟨fun _ => .ok none, options, maxDepth, none⟩ : ExpandEnv).target chain r s with d | c
  · exact ⟨d, rfl⟩
  · cases (ofReference_eq_ok (target_eq_ok ht).1).2

/-- If all imports of a root fail and no comment that goes on to the next line is covered, then
just the tokens stay that are not covered. So all tokens outside of the imports stay if and only if
none is covered. -/
theorem run_failed_tokens {env : ExpandEnv} {id : ResourceId} {t : Text} {e : Expanded}
    (hfail : ∀ s ∈ (Document.parse glsl t).sites,
      ∃ d, env.target [id] (.parse glsl id t) s = .error d)
    (hflat : Flat (Document.parse glsl t).cover) (h : env.run (.parse glsl id t) = .ok e) :
    e.document.tokens = kept (Document.parse glsl t).cover ∧
      (e.document.tokens = (Document.parse glsl t).ownTokens ↔
        ∀ x ∈ (Document.parse glsl t).cover, x.2 = true → x.1.isSignificant = true →
          x.1.imported = true) := by
  have hroot := Resource.isGlsl_parse id t
  obtain ⟨cs, hran⟩ := exists_ran hroot h
  have htokens : e.document.tokens = kept (Document.parse glsl t).cover :=
    hran.tokens_eq hroot hfail hflat
  refine ⟨htokens, ?_⟩
  rw [htokens, Document.ownTokens_eq]
  exact Mark.kept_eq_iff _

/-- A root in which all that follows the imports in their lines is a comment and a further import,
while other comments go on to the next line and a delimiter closes nothing. -/
theorem run_failed_tokens_alone :
    let root := Resource.parse glsl ⟨"s".toList, "m".toList⟩
      "/* é\n */ \x7d @import \"x\" /* a */ @import \"y\"\nfloat a;".toList
    let env : ExpandEnv := ⟨fun _ => .ok none, ⟨"s".toList, []⟩, 3, none⟩
    root.document.sites.length = 2 ∧
      (∀ s ∈ root.document.sites, ∃ d, env.target [root.id] root s = .error d) ∧
      Flat root.document.cover ∧
      ∃ e, env.run root = .ok e ∧ e.document.tokens = root.document.ownTokens := by
  intro root env
  have hfail : ∀ s ∈ root.document.sites, ∃ d, env.target [root.id] root s = .error d := by
    intro s hs
    exact exists_target_empty _ _ _ _ s
  have hflat : Flat root.document.cover := by decide +kernel
  obtain ⟨e, he⟩ : ∃ e, env.run root = .ok e := exists_run (Resource.isGlsl_parse _ _) rfl
  exact ⟨by decide +kernel, hfail, hflat, e, he,
    (run_failed_tokens hfail hflat he).2.2 (by decide +kernel)⟩

/-- Code that follows a failed import in its line is lost. -/
theorem run_failed_tokens_ne :
    let root := Resource.parse glsl ⟨"s".toList, "m".toList⟩ "@import \"x\" float a;\n".toList
    let env : ExpandEnv := ⟨fun _ => .ok none, ⟨"s".toList, []⟩, 3, none⟩
    root.document.faults = [] ∧
      (∀ s ∈ root.document.sites, ∃ d, env.target [root.id] root s = .error d) ∧
      ∃ e, env.run root = .ok e ∧ e.document.tokens ≠ root.document.ownTokens := by
  intro root env
  have hroot : root.IsGlsl := Resource.isGlsl_parse _ _
  have hfail : ∀ s ∈ root.document.sites, ∃ d, env.target [root.id] root s = .error d := by
    intro s hs
    exact exists_target_empty _ _ _ _ s
  obtain ⟨e, he⟩ : ∃ e, env.run root = .ok e := exists_run hroot rfl
  obtain ⟨cs, hran⟩ := exists_ran hroot he
  refine ⟨by decide +kernel, hfail, e, he, ?_⟩
  rw [hran.tokens_eq hroot hfail (by decide +kernel)]
  decide +kernel

end ExpandEnv
end ShaderInline
