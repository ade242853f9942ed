import ShaderInline.Proofs.Expand.Sections

/-! # Where the chunks of an output join

The text of a chunk starts a piece of the output, with two exceptions: the line
break after a resource that ends with a carriage return, and the comment after
text that ends with a slash. Each of them joins the one character before it.
-/

namespace ShaderInline

open Schema Piece

/-- How a chunk joins the chunks before it. -/
inductive Seam (t : Text) (xs : List Chunk) (c : Chunk) : Prop where
  | cut : IsCut t (Text.size (Chunk.textAll xs)) → Seam t xs c
  | feed {a : Text} : c.mapping = .synthetic → Chunk.textAll xs = a ++ ['\r'] →
      IsCut t (Text.size a) → Seam t xs c
  /-- The chunk quotes an import right after a slash. -/
  | slash {xs' : List Chunk} {b : Chunk} {a : Text} : c.mapping = .synthetic → xs = xs' ++ [b] →
      b.mapping = .verbatim → b.text = a ++ ['/'] → b.resource = c.resource →
      c.source = b.source + Text.size b.text → IsCut t (Text.size (Chunk.textAll xs' ++ a)) →
      Seam t xs c

namespace Seam

variable {t y : Text} {xs ds : List Chunk} {c : Chunk} {ps : List Piece}

theorem prepend (h : Seam t xs c) (hc : Cuts glsl (Chunk.textAll ds ++ t) ps t) :
    Seam (Chunk.textAll ds ++ t) (ds ++ xs) c := by
  have hps : Piece.textAll ps = Chunk.textAll ds := (List.append_cancel_right hc.eq_append).symm
  have hcut {n : Nat} (hn : IsCut t n) :
      IsCut (Chunk.textAll ds ++ t) (Text.size (Chunk.textAll ds) + n) := by
    have := hn.of_cuts hc
    rwa [hps] at this
  cases h with
  | cut h => exact .cut (by simpa using hcut h)
  | feed hm ht h =>
    exact .feed hm (by rw [Chunk.textAll_append, ht, List.append_assoc]) (by simpa using hcut h)
  | slash hm hx hb hs hr hso h =>
    refine .slash hm (by rw [hx, List.append_assoc]) hb hs hr hso ?_
    simpa [Nat.add_assoc] using hcut h

theorem extend (h : Seam t xs c) (hn : Text.size (Chunk.textAll xs) < Text.size t) (y : Text) :
    Seam (t ++ y) xs c := by
  cases h with
  | cut h => exact .cut (h.extend hn y)
  | feed hm ht h =>
    refine .feed hm ht (h.extend ?_ y)
    rw [ht, Text.size_append] at hn
    omega
  | slash hm hx hb hs hr hso h =>
    refine .slash hm hx hb hs hr hso (h.extend ?_ y)
    rw [hx] at hn
    simp [hs] at hn ⊢
    omega

/-- A seam is a cut of the text or comes one byte after one. -/
theorem le_isLastCut (h : Seam t xs c) {i : Nat}
    (hi : IsLastCut t (Text.size (Chunk.textAll xs)) i) :
    Text.size (Chunk.textAll xs) ≤ i + 1 := by
  cases h with
  | cut h =>
    have := hi.le_of_isCut _ h le_rfl
    omega
  | feed _ ht h =>
    have hone : Text.size ['\r'] = 1 := rfl
    rw [ht, Text.size_append, hone] at hi ⊢
    have := hi.le_of_isCut _ h (by omega)
    omega
  | @slash xs' b a _ hx _ hs _ _ h =>
    have hone : Text.size ['/'] = 1 := rfl
    have hsize : Text.size (Chunk.textAll xs) = Text.size (Chunk.textAll xs' ++ a) + 1 := by
      rw [hx, Chunk.textAll_append, Chunk.textAll_cons, hs, Chunk.textAll_nil, List.append_nil,
        ← List.append_assoc, Text.size_append, hone]
    rw [hsize] at hi ⊢
    have := hi.le_of_isCut _ h (by omega)
    omega

end Seam

def Seamed (cs : List Chunk) : Prop :=
  ∀ xs c ys, cs = xs ++ c :: ys → c.text ≠ [] → Seam (Chunk.textAll cs) xs c

namespace Seamed

variable {cs ds : List Chunk} {ps : List Piece}

theorem singleton (c : Chunk) : Seamed [c] := by
  intro xs c' ys h _
  obtain ⟨rfl, -⟩ : xs = [] ∧ _ := by
    cases xs with
    | nil => exact ⟨rfl, trivial⟩
    | cons x xs => simp at h
  exact .cut (.zero _)

theorem concat {c : Chunk} (hd : Seamed ds) (hc : Seam (Chunk.textAll ds ++ c.text) ds c) :
    Seamed (ds ++ [c]) := by
  intro xs c' ys h hne
  have htext : Chunk.textAll (ds ++ [c]) = Chunk.textAll ds ++ c.text := by simp
  rw [htext]
  rcases List.eq_nil_or_concat ys with rfl | ⟨ys, y, rfl⟩
  · obtain ⟨rfl, hcc⟩ := List.append_inj' h rfl
    obtain rfl := List.singleton_inj.1 hcc
    exact hc
  · rw [List.concat_eq_append, ← List.cons_append, ← List.append_assoc] at h
    obtain ⟨rfl, -⟩ := List.append_inj' h rfl
    refine (hd xs c' ys rfl hne).extend ?_ _
    have := Text.size_pos_iff.2 hne
    simp
    omega

theorem append (hd : Seamed ds) (hc : Seamed cs)
    (hcut : Cuts glsl (Chunk.textAll ds ++ Chunk.textAll cs) ps (Chunk.textAll cs)) :
    Seamed (ds ++ cs) := by
  intro xs c ys h hne
  rw [Chunk.textAll_append]
  rcases List.append_eq_append_iff.1 h with ⟨zs, rfl, hz⟩ | ⟨zs, rfl, hz⟩
  · exact (hc zs c ys hz hne).prepend hcut
  · cases zs with
    | nil =>
      rw [List.append_nil] at hcut ⊢
      have := (hc [] c ys hz.symm hne).prepend hcut
      rwa [List.append_nil] at this
    | cons z zs =>
      obtain ⟨rfl, -⟩ := List.cons_eq_cons.1 hz
      refine (hd xs _ zs rfl hne).extend ?_ _
      have := Text.size_pos_iff.2 hne
      simp
      omega

end Seamed

namespace Split

variable {σ : Search} {t rest : Text} {gap imp : List Piece} {r : Resource} {n : Nat} {s : Site}

/-- The comment that quotes an import joins a slash before it. -/
theorem seam (h : Split σ t gap imp rest)
    (hs : s = Site.ofPieces (n + Text.size (Piece.textAll gap)) imp) :
    Seam (Piece.textAll gap ++ Inline.header s) [.copied r n (Piece.textAll gap)] (.quote r s) := by
  by_cases hslash : ∀ p, gap.getLast? = some p → p.text ≠ ['/']
  · have hcut := (h.cuts_quotation hslash s []).split.1
    exact .cut ⟨gap, _, by simpa using hcut, by simp⟩
  · push Not at hslash
    obtain ⟨p, hp, hpt⟩ := hslash
    obtain ⟨qs, rfl⟩ := List.getLast?_eq_some_iff.1 hp
    have hcut := h.cuts_slash hpt (Inline.header s)
    have htext : Piece.textAll (qs ++ [p]) = Piece.textAll qs ++ ['/'] := by simp [hpt]
    have hcut' : IsCut (Piece.textAll (qs ++ [p]) ++ Inline.header s)
        (Text.size (Chunk.textAll [] ++ Piece.textAll qs)) := by
      rw [htext, List.append_assoc]
      exact ⟨qs, _, hcut, rfl⟩
    have hsource : s.start = n + Text.size (Piece.textAll (qs ++ [p])) := by rw [hs]; rfl
    exact .slash rfl (List.nil_append _).symm rfl htext rfl hsource hcut'

theorem seamed_append (h : Split σ t gap imp rest)
    (hs : s = Site.ofPieces (n + Text.size (Piece.textAll gap)) imp) {cs : List Chunk}
    (hcs : Seamed cs) : Seamed (.copied r n (Piece.textAll gap) :: .quote r s :: cs) := by
  have htext : Chunk.textAll [.copied r n (Piece.textAll gap), .quote r s] =
      Piece.textAll gap ++ Inline.header s := by simp
  have hhead : Seamed [.copied r n (Piece.textAll gap), .quote r s] := by
    refine (Seamed.singleton (.copied r n (Piece.textAll gap))).concat (c := .quote r s) ?_
    simpa using h.seam hs
  have hcut := (Inline.closed_header (Piece.textAll gap) s).cuts_of_getLast?
    (Inline.getLast?_header _ s) (Chunk.textAll cs)
  rw [← htext] at hcut
  exact hhead.append hcs hcut

end Split

namespace Unfolds

variable {env : ExpandEnv} {chain : List ResourceId} {r : Resource} {n : Nat} {t : Text}
  {ss : List Site} {cs : List Chunk}

/-- The line break after a resource joins a carriage return before it. -/
theorem seamed_body (child : Resource) {ds : List Chunk} (h : Seamed ds)
    (hc : Closed (Chunk.textAll ds)) : Seamed (ds ++ Chunk.lineEnd child (Chunk.textAll ds)) := by
  have hend := hc.cuts_endLine []
  unfold Chunk.lineEnd
  split
  next => simpa using h
  next =>
    refine h.concat ?_
    unfold endLine at hend
    split at hend
    next hl =>
      obtain ⟨qs, hqs⟩ := List.getLast?_eq_some_iff.1 hl
      have htext : Chunk.textAll ds = Piece.textAll qs ++ ['\r'] := by
        rw [← textAll_ofText glsl (Chunk.textAll ds), hqs]
        simp
      rw [hqs, List.dropLast_concat] at hend
      exact .feed rfl htext ⟨qs, _, hend.split.1, rfl⟩
    next => exact .cut ⟨_, _, hend.split.1, by simp⟩

theorem seamed (h : Unfolds env chain r n t ss cs) (hr : r.IsGlsl) (htidy : Tidy env chain r)
    (hrest : Rest r n t ss) (ht : Closed t) : Seamed cs := by
  induction h with
  | done => exact .singleton _
  | @failed chain r n t rest gap imp s ss cs d hsplit hs htarget hcs ih =>
    have hafter := hrest.after hsplit hs
    have hx := hcs.head?_after_failed htidy hrest.mem htarget hafter
    have hwarn := Inline.cuts_warning (hs ▸ hsplit.isLineBreak_reference) d.problem hx
    have htext : Chunk.textAll [.warning r s d.problem] = Inline.warning s d.problem := by simp
    rw [← htext] at hwarn
    have htail := (Seamed.singleton _).append (ih hr htidy hafter (ht.rest hsplit.cuts)) hwarn
    exact hsplit.seamed_append hs htail
  | @expanded chain r child n t rest gap imp s ss cs ds hsplit hs htarget hds _ ihd ih =>
    have hchild := ExpandEnv.isGlsl_target hr htarget
    have htidy' := htidy.child hrest.mem htarget
    have hcontent := htidy'.closed_content hchild
    have hclosed := hds.closed hchild htidy' (.whole child) hcontent
    have hbody := seamed_body child (ihd hchild htidy' (.whole child) hcontent) hclosed
    have htail := hbody.append (ih hr htidy (hrest.after hsplit hs) (ht.rest hsplit.cuts))
      ((closed_body hclosed).cuts_of_getLast? (getLast?_body child ds) (Chunk.textAll cs))
    rw [List.append_assoc] at htail
    exact hsplit.seamed_append hs htail

end Unfolds
end ShaderInline
