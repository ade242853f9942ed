import ShaderInline.Proofs.Expand.Provenance
import ShaderInline.Proofs.Token.Kinds

/-! # The output is lexed by sections

A comment that quotes an import ends its line, an inlined resource ends with a
line break, and a warning is a comment of its own. So each part of the output of
a tidy run is lexed as if it stood alone.
-/

namespace ShaderInline

open Schema Piece

/-- No resource that is reached leaves a comment open, and each import that fails is followed in
its resource by a line break or by nothing. -/
structure Tidy (env : ExpandEnv) (chain : List ResourceId) (r : Resource) : Prop where
  closed : ∀ chain' r', Reached env chain r chain' r' →
    ∀ f ∈ r'.document.faults, f.fault ≠ .unterminatedComment
  ends : ∀ chain' r' s d, Reached env chain r chain' r' → s ∈ r'.document.sites →
    env.target chain' r' s = .error d →
    (Text.dropBytes s.stop r'.content).head?.all Text.isLineBreak = true

theorem Resource.IsGlsl.closed {r : Resource} (hr : r.IsGlsl)
    (h : ∀ f ∈ r.document.faults, f.fault ≠ .unterminatedComment) : Closed r.content := by
  intro p hp hf
  obtain ⟨t, ht, rfl⟩ := List.mem_map.1 hp
  have hf' : t.fault = some .unterminatedComment := hf
  rw [show r.document = _ from hr] at h
  exact h ⟨.unterminatedComment, t.start, t.stop⟩
    (List.mem_filterMap.2 ⟨t, ht, by simp [Token.faultAt?, hf']⟩) rfl

namespace Tidy

variable {env : ExpandEnv} {chain : List ResourceId} {r c : Resource} {s : Site}

theorem child (h : Tidy env chain r) (hs : s ∈ r.document.sites)
    (ht : env.target chain r s = .ok c) : Tidy env (chain ++ [c.id]) c :=
  ⟨fun chain' r' hr => h.closed chain' r' (.step hs ht hr),
    fun chain' r' s' d hr => h.ends chain' r' s' d (.step hs ht hr)⟩

theorem closed_content (h : Tidy env chain r) (hr : r.IsGlsl) : Closed r.content :=
  hr.closed (h.closed chain r (.refl chain r))

end Tidy

/-- Whether a check holds of all resources that are reached within some levels of imports, and no
more are reached below them. -/
def ExpandEnv.allReached (env : ExpandEnv) (p : List ResourceId → Resource → Bool) :
    (levels : Nat) → List ResourceId → Resource → Bool
  | 0, chain, r => p chain r && r.document.sites.all fun s => !(env.target chain r s).isOk
  | levels + 1, chain, r => p chain r && r.document.sites.all fun s =>
      match env.target chain r s with
      | .ok child => allReached env p levels (chain ++ [child.id]) child
      | .error _ => true

theorem Reached.of_allReached {env : ExpandEnv} {p : List ResourceId → Resource → Bool}
    {chain chain' : List ResourceId} {r r' : Resource} {levels : Nat}
    (hr : Reached env chain r chain' r') (h : env.allReached p levels chain r = true) :
    p chain' r' = true := by
  induction hr generalizing levels with
  | refl =>
    cases levels <;>
    · rw [ExpandEnv.allReached, Bool.and_eq_true] at h
      exact h.1
  | step hs ht _ ih =>
    cases levels with
    | zero =>
      rw [ExpandEnv.allReached, Bool.and_eq_true, List.all_eq_true] at h
      have := h.2 _ hs
      rw [ht] at this
      cases this
    | succ levels =>
      rw [ExpandEnv.allReached, Bool.and_eq_true, List.all_eq_true] at h
      have := h.2 _ hs
      rw [ht] at this
      exact ih this

namespace Tidy

variable {env : ExpandEnv} {chain : List ResourceId} {r : Resource}

def holdsAt (env : ExpandEnv) (chain : List ResourceId) (r : Resource) : Bool :=
  (r.document.faults.all fun f => f.fault != .unterminatedComment) &&
    r.document.sites.all fun s => (env.target chain r s).isOk ||
      (Text.dropBytes s.stop r.content).head?.all Text.isLineBreak

theorem of_allReached (levels : Nat) (h : env.allReached (holdsAt env) levels chain r = true) :
    Tidy env chain r := by
  have hat {chain' r'} (hr : Reached env chain r chain' r') := hr.of_allReached h
  simp only [holdsAt, Bool.and_eq_true, List.all_eq_true, bne_iff_ne, Bool.or_eq_true] at hat
  refine ⟨fun chain' r' hr => (hat hr).1, fun chain' r' s d hr hs hd => ?_⟩
  rcases (hat hr).2 s hs with hok | hends
  · rw [hd] at hok
    cases hok
  · exact hends

end Tidy

namespace Inline

variable {s : Site}

theorem getLast?_header (g : Text) (s : Site) : (g ++ header s).getLast? = some '\n' := by
  rw [header, ← List.append_assoc, List.getLast?_append]
  rfl

def quotation (s : Site) : List Piece :=
  [⟨.blockComment, "/* ".toList ++ (Text.partCommentEnds s.text ++ " */".toList), none⟩, lineFeed]

theorem closed_header (g : Text) (s : Site) : Closed (g ++ header s) := by
  have h := Closed.of_comment_end (g ++ ("/* ".toList ++ Text.partCommentEnds s.text))
  have h' := h.append_newline .nil
  simpa [header] using h'

theorem exists_warning (hs : ∀ c ∈ s.reference, Text.isLineBreak c = false) (p : Problem) :
    ∃ w, warning s p = '/' :: '/' :: w ∧ ∀ c ∈ w, Text.isLineBreak c = false := by
  have hlead : (" WARNING: import '".toList.all (!Text.isLineBreak ·)) = true := by decide
  have hmid : ("' ".toList.all (!Text.isLineBreak ·)) = true := by decide
  have hreason : (p.reason.all (!Text.isLineBreak ·)) = true := by cases p <;> decide
  refine ⟨" WARNING: import '".toList ++ s.reference ++ "' ".toList ++ p.reason, rfl, ?_⟩
  simp only [List.all_eq_true, Bool.not_eq_true'] at hlead hmid hreason
  simp only [List.forall_mem_append]
  exact ⟨⟨⟨hlead, hs⟩, hmid⟩, hreason⟩

theorem cuts_warning (hs : ∀ c ∈ s.reference, Text.isLineBreak c = false) (p : Problem) {x : Text}
    (hx : x.head?.all Text.isLineBreak = true) :
    Cuts glsl (warning s p ++ x) [⟨.lineComment, warning s p, none⟩] x := by
  obtain ⟨w, hw, hb⟩ := exists_warning hs p
  rw [hw]
  exact Cuts.lineComment hb hx

end Inline

theorem Node.mem_of_mem_unquote {c : Char} {t : Text} (h : c ∈ Node.unquote t) : c ∈ t := by
  unfold unquote at h
  split at h
  · split at h
    · exact List.mem_cons_of_mem _ (List.mem_of_mem_dropLast h)
    · exact h
  · exact h

theorem Split.isLineBreak_reference {σ : Search} {t rest : Text} {gap imp : List Piece} {n : Nat}
    (h : Split σ t gap imp rest) :
    ∀ c ∈ (Site.ofPieces n imp).reference, Text.isLineBreak c = false := by
  have hcuts := h.cuts.split.2
  cases h.isImport with
  | @intro tag quoted blanks _ _ _ hq =>
    have hk : quoted.kind = .string := by
      simp only [isQuoted, Bool.and_eq_true, beq_iff_eq] at hq
      exact hq.1.1
    have hb := hcuts.string_isLineBreak (p := quoted) (by simp) hk
    rw [Site.ofPieces, ← List.cons_append, List.getLast?_concat]
    exact fun c hc => hb c (Node.mem_of_mem_unquote hc)

namespace Split

variable {σ : Search} {t rest : Text} {gap imp : List Piece}

theorem exists_mark (h : Split σ t gap imp rest) :
    ∃ c q, textAll imp = c :: q ∧ glsl.isTagMark c = true := by
  have hcuts := h.cuts.split.2
  cases h.isImport with
  | intro ht _ _ _ =>
    obtain ⟨c, q, hp, hc⟩ := hcuts.tag_head List.mem_cons_self ht
    exact ⟨c, _, by rw [textAll_cons, hp, List.cons_append], hc⟩

/-- The text before an import keeps its pieces before the comment that quotes the import. -/
theorem cuts_quotation (h : Split σ t gap imp rest)
    (hg : ∀ p, gap.getLast? = some p → p.text ≠ ['/']) (s : Site) (x : Text) :
    Cuts glsl (textAll gap ++ (Inline.header s ++ x)) (gap ++ Inline.quotation s) x := by
  obtain ⟨c, q, hc, hm⟩ := h.exists_mark
  have hgap : Cuts glsl t gap (c :: (q ++ rest)) := by simpa [hc] using h.cuts.split.1
  have hquote : Cuts glsl (Inline.header s ++ x) (Inline.quotation s) x := by
    rw [Inline.header, List.append_assoc, List.append_assoc]
    exact Cuts.quotation s.text x
  exact (hgap.before_comment hm hg _).trans hquote

theorem cuts_slash {qs : List Piece} {p : Piece} (h : Split σ t (qs ++ [p]) imp rest)
    (hp : p.text = ['/']) (y : Text) : Cuts glsl (textAll qs ++ '/' :: y) qs ('/' :: y) := by
  have hqs : Cuts glsl t qs ('/' :: (textAll imp ++ rest)) := by
    simpa [hp] using h.cuts.split.1.split.1
  refine hqs.congr fun q hq => ⟨fun hf => ?_, .inl rfl⟩
  obtain ⟨qs', rfl⟩ := List.getLast?_eq_some_iff.1 hq
  exact absurd (hqs.eq_nil_of_unterminated hf).2.1 (by simp)

theorem head?_gap (h : Split σ t gap imp rest) (ht : t.head?.all Text.isLineBreak = true)
    (x : Text) : (textAll gap ++ x).head?.all Text.isLineBreak = true := by
  have he := h.cuts.eq_append
  cases hg : textAll gap with
  | nil =>
    obtain ⟨c, q, hp, hc⟩ := h.exists_mark
    rw [he, textAll_append, hg, hp] at ht
    simp [Lexeme.isLineBreak_of_isTagMark hc] at ht
  | cons c q =>
    rw [he, textAll_append, hg] at ht
    simpa using ht

end Split

namespace Unfolds

variable {env : ExpandEnv} {chain : List ResourceId} {r : Resource} {n : Nat} {t : Text}
  {ss : List Site} {cs : List Chunk}

theorem head?_textAll (h : Unfolds env chain r n t ss cs)
    (ht : t.head?.all Text.isLineBreak = true) :
    (Chunk.textAll cs).head?.all Text.isLineBreak = true := by
  cases h with
  | done => simpa using ht
  | failed hs => rw [Chunk.textAll_cons]; exact hs.head?_gap ht _
  | expanded hs => rw [Chunk.textAll_cons]; exact hs.head?_gap ht _

theorem getLast?_body (child : Resource) (ds : List Chunk) :
    (Chunk.textAll (ds ++ Chunk.lineEnd child (Chunk.textAll ds))).getLast? = some '\n' := by
  unfold Chunk.lineEnd
  split
  next h => simpa using h
  next => simp

theorem closed_body {child : Resource} {ds : List Chunk} (h : Closed (Chunk.textAll ds)) :
    Closed (Chunk.textAll (ds ++ Chunk.lineEnd child (Chunk.textAll ds))) := by
  unfold Chunk.lineEnd
  split
  next => simpa using h
  next => simpa using h.append_newline .nil

/-- What follows a failed import of a tidy run starts with a line break, also in the output. -/
theorem head?_after_failed {rest : Text} {s : Site} {d : Diagnostic}
    (h : Unfolds env chain r s.stop rest ss cs) (htidy : Tidy env chain r)
    (hs : s ∈ r.document.sites) (ht : env.target chain r s = .error d)
    (hrest : Rest r s.stop rest ss) : (Chunk.textAll cs).head?.all Text.isLineBreak = true := by
  refine h.head?_textAll ?_
  obtain ⟨a, ha, hn⟩ := hrest.content
  have := htidy.ends chain r s d (.refl chain r) hs ht
  rwa [ha, ← hn, Text.dropBytes_size_append] at this

/-- No comment of the output of a tidy run is left open. -/
theorem closed (h : Unfolds env chain r n t ss cs) (hr : r.IsGlsl) (htidy : Tidy env chain r)
    (hrest : Rest r n t ss) (ht : Closed t) : Closed (Chunk.textAll cs) := by
  induction h with
  | done => simpa using ht
  | @failed chain r n t rest gap imp s ss cs d hsplit hs htarget hcs ih =>
    have hafter := hrest.after hsplit hs
    have hx := hcs.head?_after_failed htidy hrest.mem htarget hafter
    have hwarn : Closed (Inline.warning s d.problem ++ Chunk.textAll cs) :=
      .of_cuts (Inline.cuts_warning (hs ▸ hsplit.isLineBreak_reference) _ hx) (by simp)
        (ih hr htidy hafter (ht.rest hsplit.cuts))
    simpa using (Inline.closed_header (textAll gap) s).append (Inline.getLast?_header _ s) hwarn
  | @expanded chain r child n t rest gap imp s ss cs ds hsplit hs htarget _ _ ihd ih =>
    have hchild := ExpandEnv.isGlsl_target hr htarget
    have htidy' := htidy.child hrest.mem htarget
    have hbody := ihd hchild htidy' (.whole child) (htidy'.closed_content hchild)
    have htail := (closed_body hbody).append (getLast?_body child ds)
      (ih hr htidy (hrest.after hsplit hs) (ht.rest hsplit.cuts))
    simpa using (Inline.closed_header (textAll gap) s).append (Inline.getLast?_header _ s) htail

end Unfolds
end ShaderInline
