import ShaderInline.Proofs.Expand.Sections

/-! # No import is left

A search for imports that stands in the line of a tag finds no more than one
that stands in code. The comment before an inlined resource ends such a line, so
that nothing in the output of a tidy run comes to stand where it could be read
as an import. Running again changes nothing.
-/

namespace ShaderInline

open Schema Piece

namespace Search

variable {s s' σ : Search} {p : Piece} {ps : List Piece}

/-- The same search, or one that stands in the line of a tag instead. -/
def Behind (s s' : Search) : Prop := s' = s ∨ s' = ⟨.line, s.escaped⟩

theorem Behind.refl (s : Search) : s.Behind s := .inl rfl

theorem Behind.step (h : s.Behind σ) (hp : s.step p = some s') :
    ∃ σ', σ.step p = some σ' ∧ s'.Behind σ' := by
  rcases h with rfl | rfl
  · exact ⟨s', hp, .refl s'⟩
  obtain ⟨m, hm, rfl⟩ := Option.map_eq_some_iff.1 hp
  refine ⟨_, rfl, ?_⟩
  cases he : p.kind == .newline && !s.escaped with
  | false => exact .inr rfl
  | true =>
    -- the end of the line brings both searches back to code
    rw [Bool.and_eq_true, beq_iff_eq] at he
    rw [he.1, he.2, beq_self_eq_true, Bool.and_self, Mode.next_newline he.1] at hm
    exact .inl (by rw [← Option.some.inj hm]; rfl)

theorem Behind.run (h : s.Behind σ) (hp : s.run ps = some s') :
    ∃ σ', σ.run ps = some σ' ∧ s'.Behind σ' := by
  induction ps generalizing s σ with
  | nil => exact ⟨σ, rfl, by simpa [← Option.some.inj hp] using h⟩
  | cons p ps ih =>
    rw [run_cons] at hp
    obtain ⟨s₁, hs₁, hp⟩ := Option.bind_eq_some_iff.1 hp
    obtain ⟨σ₁, hσ₁, h₁⟩ := h.step hs₁
    obtain ⟨σ', hσ', h'⟩ := ih h₁ hp
    exact ⟨σ', by rw [run_cons, hσ₁]; exact hσ', h'⟩

/-- After a line break a search stands in code, or in the line of a tag that goes on. -/
theorem behind_newline (s : Search) (hk : p.kind = .newline) (ht : (p.text == ['\\']) = false) :
    ∃ σ, s.step p = some σ ∧ start.Behind σ := by
  cases he : s.escaped with
  | false =>
    refine ⟨start, ?_, .refl start⟩
    simp [step, he, hk, Mode.next_newline, ht, start]
  | true =>
    obtain ⟨m, e⟩ := s
    cases m <;> simp_all [step, Mode.next, Kind.isTrivia, isQuoted, Behind, start]

theorem exists_endLine (ps : List Piece) : ∃ qs p, endLine ps = qs ++ [p] ∧ qs <+: ps ∧
    p.kind = .newline ∧ (p.text == ['\\']) = false := by
  unfold endLine
  split
  · exact ⟨ps.dropLast, _, rfl, List.dropLast_prefix ps, rfl, rfl⟩
  · exact ⟨ps, lineFeed, rfl, List.prefix_refl ps, rfl, rfl⟩

theorem behind_of_endLine (h : s.run (endLine ps) = some σ) : start.Behind σ := by
  obtain ⟨qs, p, hq, -, hk, ht⟩ := exists_endLine ps
  rw [hq, run_append] at h
  obtain ⟨s₁, -, h⟩ := Option.bind_eq_some_iff.1 h
  obtain ⟨σ', hσ', hb⟩ := s₁.behind_newline hk ht
  rw [run_cons, hσ'] at h
  exact Option.some.inj h ▸ hb

theorem exists_run_endLine (h : s.run ps = some s') : ∃ σ, s.run (endLine ps) = some σ := by
  obtain ⟨qs, p, hq, ⟨rs, rfl⟩, hk, ht⟩ := exists_endLine ps
  rw [run_append] at h
  obtain ⟨s₁, hs₁, -⟩ := Option.bind_eq_some_iff.1 h
  obtain ⟨σ, hσ, -⟩ := s₁.behind_newline hk ht
  exact ⟨σ, by rw [hq, run_append, hs₁, Option.bind_some, run_cons, hσ]; rfl⟩

theorem run_comment (s : Search) {u : Text} (hu : (u == ['\\']) = false) :
    s.run [⟨.blockComment, u, none⟩, lineFeed] = some start := by
  have hstep : s.step ⟨.blockComment, u, none⟩ = some ⟨s.mode, false⟩ := by
    obtain ⟨m, e⟩ := s
    cases m <;> simp [step, Mode.next, Kind.isTrivia, hu]
  have hfeed : (⟨s.mode, false⟩ : Search).step lineFeed = some start := by
    simp [step, lineFeed, Mode.next_newline, start]
  rw [run_cons, hstep, Option.bind_some, run_cons, hfeed]
  rfl

end Search

theorem IsImport.run_eq_none {ps : List Piece} (h : IsImport ps) (e : Bool) :
    (⟨.code, e⟩ : Search).run ps = none := by
  cases h with
  | @intro tag quoted blanks ht hn hb hq =>
    have hpending : ∀ e, (⟨.pending, e⟩ : Search).run (blanks ++ [quoted]) = none := by
      have hnt : quoted.kind.isTrivia = false := by
        simp only [isQuoted, Bool.and_eq_true, beq_iff_eq] at hq
        rw [hq.1.1]
        rfl
      induction blanks with
      | nil => intro e; simp [Search.run, Search.step, Mode.next, hnt, hq]
      | cons b bs ih =>
        intro e
        rw [List.cons_append, Search.run_cons, Search.step, Mode.next,
          if_pos (hb b List.mem_cons_self)]
        exact ih (fun p hp => hb p (List.mem_cons_of_mem _ hp)) _
    rw [Search.run_cons, Search.step, Mode.next_import ht hn]
    exact hpending _

theorem Layout.eq_nil_of_run {n : Nat} {t : Text} {s s' : Search} {ss : List Site}
    (h : Layout s n t ss) (hrun : s.run (ofText glsl t) = some s') : ss = [] := by
  cases h with
  | plain => rfl
  | site hsplit =>
    obtain ⟨e, he⟩ := hsplit.code
    rw [hsplit.cuts.ofText_eq, List.append_assoc, Search.run_append, he, Option.bind_some,
      Search.run_append, hsplit.isImport.run_eq_none] at hrun
    cases hrun

/-! ### The output of a run -/

def Unslashed (env : ExpandEnv) (chain : List ResourceId) (r : Resource) : Prop :=
  ∀ chain' r' s, Reached env chain r chain' r' → s ∈ r'.document.sites →
    (Text.takeBytes s.start r'.content).getLast? ≠ some '/'

theorem Unslashed.child {env : ExpandEnv} {chain : List ResourceId} {r c : Resource} {s : Site}
    (h : Unslashed env chain r) (hs : s ∈ r.document.sites)
    (ht : env.target chain r s = .ok c) : Unslashed env (chain ++ [c.id]) c :=
  fun chain' r' s' hr => h chain' r' s' (.step hs ht hr)

theorem Search.run_quotation (σ : Search) (s : Site) : σ.run (Inline.quotation s) = some .start :=
  σ.run_comment rfl

theorem Rest.ne_slash {env : ExpandEnv} {chain : List ResourceId} {r : Resource} {n : Nat}
    {t rest : Text} {gap imp : List Piece} {s : Site} {ss : List Site} {σ : Search}
    (h : Rest r n t (s :: ss)) (hsplit : Split σ t gap imp rest)
    (hs : s = Site.ofPieces (n + Text.size (textAll gap)) imp) (hu : Unslashed env chain r) :
    ∀ p, gap.getLast? = some p → p.text ≠ ['/'] := by
  intro p hp ht
  obtain ⟨a, hc, -, hstart, -⟩ := h.locate hsplit hs
  obtain ⟨qs, rfl⟩ := List.getLast?_eq_some_iff.1 hp
  refine hu chain r s (.refl chain r) h.mem ?_
  rw [hc, ← hstart, ← List.append_assoc, Text.takeBytes_size_append]
  simp [ht]

namespace Unfolds

variable {env : ExpandEnv} {chain : List ResourceId} {r : Resource} {n : Nat} {t : Text}
  {ss : List Site} {cs : List Chunk}

theorem behind_body (child : Resource) {ds : List Chunk} {σ : Search}
    (h : Closed (Chunk.textAll ds))
    (hrun : Search.start.run (ofText glsl (Chunk.textAll ds)) = some σ) :
    ∃ σ', Search.start.run
        (ofText glsl (Chunk.textAll (ds ++ Chunk.lineEnd child (Chunk.textAll ds)))) = some σ' ∧
      Search.start.Behind σ' := by
  unfold Chunk.lineEnd
  split
  next hl =>
    obtain ⟨u, hu⟩ := List.getLast?_eq_some_iff.1 hl
    rw [hu] at h hrun
    have hend := h.of_append_newline.ofText_append_newline []
    rw [ofText_nil, List.append_nil] at hend
    refine ⟨σ, by rw [List.append_nil, hu, hrun], ?_⟩
    rw [hend] at hrun
    exact Search.behind_of_endLine hrun
  next =>
    have hend := h.ofText_append_newline []
    rw [ofText_nil, List.append_nil] at hend
    obtain ⟨σ', hσ'⟩ := Search.exists_run_endLine hrun
    refine ⟨σ', ?_, Search.behind_of_endLine hσ'⟩
    rw [← hσ', ← hend]
    simp

theorem run_copied_quote {σ σ' : Search} {rest x : Text} {gap imp : List Piece}
    (hsplit : Split .start t gap imp rest) (hg : ∀ p, gap.getLast? = some p → p.text ≠ ['/'])
    (s : Site) (hσ : Search.start.Behind σ)
    (hx : Search.start.run (ofText glsl x) = some σ') :
    σ.run (ofText glsl (textAll gap ++ (Inline.header s ++ x))) = some σ' := by
  obtain ⟨e, he⟩ := hsplit.code
  obtain ⟨σ₁, hσ₁, -⟩ := hσ.run he
  rw [(hsplit.cuts_quotation hg s x).ofText_eq, Search.run_append, Search.run_append, hσ₁,
    Option.bind_some, Search.run_quotation, Option.bind_some, hx]

/-- A search through the output of a tidy run finds nothing. -/
theorem exists_run (h : Unfolds env chain r n t ss cs) (hr : r.IsGlsl) (htidy : Tidy env chain r)
    (hu : Unslashed env chain r) (hrest : Rest r n t ss) (ht : Closed t) {σ : Search}
    (hσ : Search.start.Behind σ) : ∃ σ', σ.run (ofText glsl (Chunk.textAll cs)) = some σ' := by
  induction h generalizing σ with
  | done hrun =>
    obtain ⟨σ', hσ', -⟩ := hσ.run hrun
    exact ⟨σ', by simpa using hσ'⟩
  | @failed chain r n t rest gap imp s ss cs d hsplit hs htarget hcs ih =>
    have hafter := hrest.after hsplit hs
    have hx := hcs.head?_after_failed htidy hrest.mem htarget hafter
    have hwarn := Inline.cuts_warning (hs ▸ hsplit.isLineBreak_reference) d.problem hx
    obtain ⟨σ', hσ'⟩ := ih hr htidy hu hafter (ht.rest hsplit.cuts) (.refl .start)
    have htail : Search.start.run
        (ofText glsl (Chunk.textAll (.warning r s d.problem :: cs))) = some σ' := by
      rw [Chunk.textAll_cons, Chunk.warning_text, hwarn.ofText_eq, Search.run_append]
      exact hσ'
    exact ⟨σ', run_copied_quote hsplit (hrest.ne_slash hsplit hs hu) s hσ htail⟩
  | @expanded chain r child n t rest gap imp s ss cs ds hsplit hs htarget hds _ ihd ih =>
    have hchild := ExpandEnv.isGlsl_target hr htarget
    have htidy' := htidy.child hrest.mem htarget
    have hcontent := htidy'.closed_content hchild
    have hclosed := hds.closed hchild htidy' (.whole child) hcontent
    obtain ⟨σ₂, hσ₂⟩ := ihd hchild htidy' (hu.child hrest.mem htarget) (.whole child) hcontent
      (.refl .start)
    obtain ⟨σ₃, hσ₃, hbehind⟩ := behind_body child hclosed hσ₂
    obtain ⟨σ', hσ'⟩ := ih hr htidy hu (hrest.after hsplit hs) (ht.rest hsplit.cuts) hbehind
    have hcut := (closed_body hclosed).cuts_of_getLast? (getLast?_body child ds) (Chunk.textAll cs)
    have htail : Search.start.run (ofText glsl
        (Chunk.textAll (ds ++ (Chunk.lineEnd child (Chunk.textAll ds) ++ cs)))) = some σ' := by
      rw [← List.append_assoc, Chunk.textAll_append, hcut.ofText_eq, Search.run_append, hσ₃]
      exact hσ'
    exact ⟨σ', run_copied_quote hsplit (hrest.ne_slash hsplit hs hu) s hσ htail⟩

end Unfolds

theorem Document.sites_eq_nil {t : Text} {σ : Search}
    (h : Search.start.run (ofText glsl t) = some σ) : (Document.parse glsl t).sites = [] :=
  (Document.layout_sites t).eq_nil_of_run h

theorem Document.imports_eq_nil {d : Document} (h : d.sites = []) : d.imports = [] :=
  List.map_eq_nil_iff.1 h

namespace ExpandEnv

theorem run_plain {env : ExpandEnv} {root : Resource} (hc : env.cancelAfter ≠ some 0)
    (h : root.document.sites = []) :
    ∃ e, env.run root = .ok e ∧ e.document = root.document ∧ e.hadImports = false := by
  have hn : ∀ p : Progress, p.loads = 0 → env.isCancelled p = false := by
    intro p hp
    cases hca : env.cancelAfter with
    | none => simp [isCancelled, hca]
    | some n =>
      have : n ≠ 0 := fun hz => hc (by rw [hca, hz])
      simp [isCancelled, hca, hp]
      omega
  have hwith (below : Below) (p : Progress) (hp : p.loads = 0) : env.expandWith below [] root p =
      (.ok ⟨root.document, .identity root.id root.document.size, false⟩, p) := by
    simp [expandWith, hn p hp, h]
  have htrace : ∃ m p, env.trace root = (.ok ⟨root.document, m, false⟩, p) := by
    unfold trace
    cases env.maxDepth with
    | zero => exact ⟨_, _, hwith none _ rfl⟩
    | succ k => exact ⟨_, _, hwith _ _ rfl⟩
  obtain ⟨m, p, hp⟩ := htrace
  rw [run, hp]
  exact ⟨_, rfl, rfl, rfl⟩

/-- Unless it is cancelled, a tidy run in which no import comes right after a slash yields a
document without imports, and running again changes nothing. -/
theorem run_imports_eq_nil {env : ExpandEnv} {id : ResourceId} {t : Text}
    (htidy : Tidy env [id] (.parse glsl id t)) (hu : Unslashed env [id] (.parse glsl id t)) :
    (env.cancelAfter = none → ∃ e, env.run (.parse glsl id t) = .ok e) ∧
    ∀ e, env.run (.parse glsl id t) = .ok e → e.document.imports = [] ∧
      ∀ (env' : ExpandEnv) (id' : ResourceId), env'.cancelAfter ≠ some 0 →
        ∃ e', env'.run (.parse glsl id' e.document.text) = .ok e' ∧
          e'.document = e.document ∧ e'.hadImports = false := by
  have hroot := Resource.isGlsl_parse id t
  refine ⟨exists_run hroot, fun e he => ?_⟩
  obtain ⟨cs, hran⟩ := exists_ran hroot he
  obtain ⟨σ, hσ⟩ := hran.unfolds.exists_run hroot htidy hu (.whole _) (htidy.closed_content hroot)
    (.refl .start)
  have hsites := Document.sites_eq_nil hσ
  refine ⟨by rw [hran.document]; exact Document.imports_eq_nil hsites, fun env' id' hc => ?_⟩
  rw [hran.document, Document.text_parse]
  exact run_plain hc hsites

/-- A root with an import in the middle of a line, one in a comment and one that fails, which
imports a resource that imports the root and ends in the line of a tag. -/
theorem run_imports_eq_nil_nested :
    let root := Resource.parse glsl ⟨"s".toList, "m".toList⟩
      "é @import \"a\"\x7d // @import \"a\"\n@import \"b\"".toList
    let store : Store := fun i =>
      .ok (if i.path = "a".toList then some "@import \"m\"\n#define A \\".toList else
        if i.path = "m".toList then some [] else none)
    let env : ExpandEnv := ⟨store, ⟨"s".toList, []⟩, 3, none⟩
    Tidy env [root.id] root ∧ Unslashed env [root.id] root ∧ root.document.imports.length = 2 ∧
      ∃ e, env.run root = .ok e ∧ e.document.imports = [] := by
  intro root store env
  have htidy : Tidy env [root.id] root := .of_allReached 1 (by decide +kernel)
  have hu : Unslashed env [root.id] root := by
    intro chain r s hr hs
    have hcheck : env.allReached (fun _ r => r.document.sites.all fun s =>
        (Text.takeBytes s.start r.content).getLast? != some '/') 1 [root.id] root = true := by
      decide +kernel
    have := hr.of_allReached hcheck
    rw [List.all_eq_true] at this
    simpa using this s hs
  obtain ⟨hrun, hfree⟩ := run_imports_eq_nil htidy hu
  obtain ⟨e, he⟩ := hrun rfl
  exact ⟨htidy, hu, by decide +kernel, e, he, (hfree e he).1⟩

end ExpandEnv
end ShaderInline
