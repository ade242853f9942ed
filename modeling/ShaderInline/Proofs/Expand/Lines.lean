import ShaderInline.Proofs.Expand.Seams
import ShaderInline.Proofs.LineDirective
import ShaderInline.Proofs.LineIndex

/-! # Line directives tell the truth

Copied text after a directive has the line that the directive gives, plus the
line breaks in between. So the directives that are put into the output of a tidy
run tell for all copied text which line of which resource it comes from.
-/

namespace ShaderInline

open Schema Piece

theorem Chunk.Fits.line_eq {content a m b : Text} {c : Chunk} {d : Char} {k : Nat}
    (h : c.Fits content) (hv : c.mapping = .verbatim) (hc : c.text = a ++ (m ++ d :: b))
    (hk : k < d.utf8Size) (hd : Text.isLineBreak d = false) :
    (LineIndex.ofText content).line (c.source + Text.size a) + Text.lineBreaks m =
      (LineIndex.ofText content).line (c.source + (Text.size (a ++ m) + k)) := by
  obtain ⟨x, y, rfl, hx⟩ := h.2 hv
  have hne : (d :: (b ++ y)).head? ≠ some '\n' := by
    rintro hd'
    obtain rfl : d = '\n' := by simpa using hd'
    cases hd
  have hbreaks := LineIndex.line_lineBreaks (x ++ a) m hne
  have hinside := LineIndex.line_inside (a := x ++ a ++ m) (b := b ++ y) hk
  have htext : x ++ (c.text ++ y) = x ++ a ++ (m ++ d :: (b ++ y)) := by simp [hc]
  have htext' : x ++ a ++ m ++ d :: (b ++ y) = x ++ a ++ (m ++ d :: (b ++ y)) := by simp
  rw [htext'] at hinside
  rw [htext, ← hx, ← Text.size_append, ← hbreaks, ← hinside]
  simp [Nat.add_assoc]

theorem Chunk.Fits.line_slash {content a : Text} {c : Chunk} (h : c.Fits content)
    (hv : c.mapping = .verbatim) (hc : c.text = a ++ ['/']) :
    (LineIndex.ofText content).line (c.source + Text.size c.text) =
      (LineIndex.ofText content).line (c.source + Text.size a) := by
  obtain ⟨x, y, rfl, hx⟩ := h.2 hv
  have hchar := LineIndex.line_char (x ++ a) '/' y
  have htext : x ++ (c.text ++ y) = x ++ a ++ '/' :: y := by simp [hc]
  have hends : LineIndex.endsLine '/' y.head? = false := rfl
  rw [hends] at hchar
  rw [htext, ← hx, hc, ← Text.size_append, ← Text.size_append, ← List.append_assoc]
  simpa using hchar

theorem Text.isLineBreak_of_bytes {a b : Text} {c : Char} {k : Nat} (hk : k < c.utf8Size)
    (hf : (bytes (a ++ c :: b))[size a + k]? ≠ some 10)
    (hr : (bytes (a ++ c :: b))[size a + k]? ≠ some 13) : isLineBreak c = false := by
  rw [getElem?_bytes_char a b hk] at hf hr
  by_contra h
  rw [Bool.not_eq_false, isLineBreak, Bool.or_eq_true, beq_iff_eq, beq_iff_eq] at h
  rcases h with rfl | rfl
  · obtain rfl : k = 0 := by simpa [Char.utf8Size] using hk
    exact hf rfl
  · obtain rfl : k = 0 := by simpa [Char.utf8Size] using hk
    exact hr rfl

namespace LineDirective

/-- Whether a place is told by the directive in force at an offset: it gives the resource, and the
line with the line breaks after it added. -/
def Tells (w : LineDirective) (d : Document) (m : SourceMap) (contents : Contents) (o : Nat)
    (place : Location) : Prop :=
  ∃ p line id content, w.InForce (w.plan d m contents) o p line id ∧
    (w.plan d m contents).ids[id]? = some place.resource ∧
    contents.get? place.resource = some content ∧
    line + Text.lineBreaks (Text.takeBytes (o - p) (Text.dropBytes p d.text)) =
      (LineIndex.ofText content).line place.offset

/-- Whether the directives put into a document tell where all copied text comes from, from the
first allowed offset on. -/
structure Locates (w : LineDirective) (d : Document) (m : SourceMap) (contents : Contents)
    (inj : Injection) : Prop where
  paths_eq : inj.paths = (w.plan d m contents).ids
  inserted : Edit.apply d.text (w.plan d m contents).edits = .ok inj.document.text
  told : ∀ r ∈ m.ranges, r.mapping = .verbatim → ∀ o, r.contains o = true →
    w.minOffset d ≤ o → (Text.bytes d.text)[o]? ≠ some 10 → (Text.bytes d.text)[o]? ≠ some 13 →
    ∃ place, m.query o = some place ∧ w.Tells d m contents o place

end LineDirective

/-- What is known about the chunks of an output. -/
structure Joined (cs : List Chunk) (contents : Contents) : Prop where
  seamed : Seamed cs
  fits : ∀ c ∈ cs, ∃ content, contents.get? c.resource = some content ∧ c.Fits content

namespace Joined

variable {cs xs ys : List Chunk} {contents : Contents} {c : Chunk} {o : Nat} {w : LineDirective}

theorem covers (h : Joined cs contents) :
    (SourceMap.ofChunks cs).Covers (Chunk.textAll cs) contents := by
  refine SourceMap.covers_ofChunks fun c hc => ?_
  obtain ⟨content, hget, -⟩ := h.fits c hc
  exact ⟨content, hget⟩

theorem ranges_eq (hc : c.text ≠ []) : (SourceMap.ofChunks (xs ++ c :: ys)).ranges =
    Chunk.rangesFrom 0 xs ++ c.range (Text.size (Chunk.textAll xs)) ::
      Chunk.rangesFrom (Text.size (Chunk.textAll (xs ++ [c]))) ys := by
  simp [SourceMap.ofChunks, Chunk.rangesFrom_append, Chunk.rangesFrom, hc]

theorem isCut (h : Joined (xs ++ c :: ys) contents) (hc : c.text ≠ [])
    (hv : c.mapping = .verbatim) :
    IsCut (Chunk.textAll (xs ++ c :: ys)) (Text.size (Chunk.textAll xs)) := by
  cases h.seamed xs c ys rfl hc with
  | cut h => exact h
  | feed hm => rw [hv] at hm; cases hm
  | slash hm => rw [hv] at hm; cases hm

/-- The directive of copied text tells where it comes from as long as it is in force. -/
theorem tells_own (h : Joined (xs ++ c :: ys) contents) (hv : c.mapping = .verbatim)
    {u v : Text} {d : Char} {k : Nat} (hc : c.text = u ++ d :: v) (hk : k < d.utf8Size)
    (hd : Text.isLineBreak d = false) (ho : o = Text.size (Chunk.textAll xs ++ u) + k)
    (hmin : w.minOffset (.parse glsl (Chunk.textAll (xs ++ c :: ys))) ≤ o)
    (hlater : ∀ r ∈ Chunk.rangesFrom (Text.size (Chunk.textAll (xs ++ [c]))) ys, ∀ j,
      IsLastCut (Chunk.textAll (xs ++ c :: ys))
        (max r.start (w.minOffset (.parse glsl (Chunk.textAll (xs ++ c :: ys))))) j → o < j) :
    w.Tells (.parse glsl (Chunk.textAll (xs ++ c :: ys))) (SourceMap.ofChunks (xs ++ c :: ys))
      contents o ⟨c.resource, c.source + (o - Text.size (Chunk.textAll xs))⟩ := by
  have hne : c.text ≠ [] := by simp [hc]
  set t := Chunk.textAll (xs ++ c :: ys) with ht
  set min := w.minOffset (.parse glsl t) with hmo
  have htext : t = Chunk.textAll xs ++ (u ++ d :: (v ++ Chunk.textAll ys)) := by simp [ht, hc]
  -- the directive stands at the start of the text, or at the first allowed offset in it
  have hcut : IsCut t (max (Text.size (Chunk.textAll xs)) min) := by
    rcases max_choice (Text.size (Chunk.textAll xs)) min with hmax | hmax
    · rw [hmax]
      exact h.isCut hne hv
    · rw [hmax]
      exact w.isCut_minOffset t
  have hle : max (Text.size (Chunk.textAll xs)) min ≤ Text.size (Chunk.textAll xs ++ u) + k := by
    rw [ho, Text.size_append] at hmin
    rw [Text.size_append]
    omega
  have hstop : min < (c.range (Text.size (Chunk.textAll xs))).stop := by
    simp only [Chunk.range, hc]
    simp at ho ⊢
    omega
  obtain ⟨content, n, hget, hid, hforce⟩ := LineDirective.exists_inForce h.covers (ranges_eq hne)
    hstop ⟨hcut, le_rfl, fun _ _ hj => hj⟩ (ho ▸ hle) hlater
  obtain ⟨content', hget', hfits⟩ := h.fits c (by simp)
  obtain rfl := Option.some.inj (hget.symm.trans hget')
  refine ⟨_, _, n, content, hforce, hid, hget, ?_⟩
  obtain ⟨a, m, rfl, hp, hbetween⟩ := Text.exists_between htext hk hcut.exists_append
    (le_max_left _ _) hle
  rw [← ho] at hbetween
  have hsource : (c.range (Text.size (Chunk.textAll xs))).sourceOffset
      (max (Text.size (Chunk.textAll xs)) min) = c.source + Text.size a := by
    simp only [MapRange.sourceOffset, Chunk.range, hv, hp]
    omega
  have hoffset : o - Text.size (Chunk.textAll xs) = Text.size (a ++ m) + k := by
    rw [ho, Text.size_append]
    omega
  have hc' : c.text = a ++ (m ++ d :: v) := by rw [hc, List.append_assoc]
  change (LineIndex.ofText content).line ((c.range (Text.size (Chunk.textAll xs))).sourceOffset
    (max (Text.size (Chunk.textAll xs)) min)) + Text.lineBreaks (Text.takeBytes
      (o - max (Text.size (Chunk.textAll xs)) min) (Text.dropBytes
        (max (Text.size (Chunk.textAll xs)) min) (Document.parse glsl t).text)) = _
  rw [Document.text_parse, hbetween, hsource, hoffset]
  exact hfits.line_eq hv hc' hk hd

/-- The directive of a later range comes at most one byte before it. -/
theorem lt_of_isLastCut {r : MapRange} {min j : Nat} (h : Joined (xs ++ ys) contents)
    (hr : r ∈ Chunk.rangesFrom (Text.size (Chunk.textAll xs)) ys)
    (ho : o + 2 ≤ Text.size (Chunk.textAll xs)) (hmin : min ≤ o)
    (hj : IsLastCut (Chunk.textAll (xs ++ ys)) (max r.start min) j) : o < j := by
  obtain ⟨ys₁, c, ys₂, rfl, hc, rfl⟩ := Chunk.mem_rangesFrom.1 hr
  have hseam := h.seamed (xs ++ ys₁) c ys₂ (by simp) hc
  have hstart : max (c.range (Text.size (Chunk.textAll xs) + Text.size (Chunk.textAll ys₁))).start
      min = Text.size (Chunk.textAll (xs ++ ys₁)) := by
    rw [Chunk.textAll_append, Text.size_append]
    exact max_eq_left (by simp only [Chunk.range]; omega)
  rw [hstart] at hj
  have := hseam.le_isLastCut hj
  rw [Chunk.textAll_append, Text.size_append] at this
  omega

theorem tells_slash {zs : List Chunk} {c' : Chunk} {a : Text} (h : Joined cs contents)
    (hcs : cs = xs ++ [c] ++ c' :: zs) (hv : c.mapping = .verbatim) (hc : c.text = a ++ ['/'])
    (hc' : c'.text ≠ []) (hm : c'.mapping = .synthetic) (hres : c.resource = c'.resource)
    (hsource : c'.source = c.source + Text.size c.text)
    (ho : o = Text.size (Chunk.textAll xs) + Text.size a)
    (hcut : IsLastCut (Chunk.textAll cs) (o + 1) o)
    (hmin : w.minOffset (.parse glsl (Chunk.textAll cs)) ≤ o) :
    w.Tells (.parse glsl (Chunk.textAll cs)) (SourceMap.ofChunks cs) contents o
      ⟨c.resource, c.source + Text.size a⟩ := by
  have hone : Text.size ['/'] = 1 := rfl
  have hstart : Text.size (Chunk.textAll (xs ++ [c])) = o + 1 := by
    rw [ho, Chunk.textAll_append, Chunk.textAll_cons, Chunk.textAll_nil, List.append_nil, hc,
      Text.size_append, Text.size_append, hone, Nat.add_assoc]
  have hafter : o + 2 ≤ Text.size (Chunk.textAll (xs ++ [c] ++ [c'])) := by
    have := Text.size_pos_iff.2 hc'
    rw [Chunk.textAll_append, Text.size_append, hstart]
    simp
    omega
  have hranges : (SourceMap.ofChunks (xs ++ [c] ++ c' :: zs)).ranges = _ := ranges_eq hc'
  rw [← hcs, hstart] at hranges
  have hmax : max (c'.range (o + 1)).start (w.minOffset (.parse glsl (Chunk.textAll cs))) = o + 1 :=
    max_eq_left (Nat.le_succ_of_le hmin)
  have hstop : w.minOffset (.parse glsl (Chunk.textAll cs)) < (c'.range (o + 1)).stop := by
    simp only [Chunk.range]
    omega
  have hcs' : cs = xs ++ [c] ++ [c'] ++ zs := by rw [hcs, List.append_cons]
  obtain ⟨content, n, hget, hid, hforce⟩ := LineDirective.exists_inForce h.covers hranges hstop
    (hmax.symm ▸ hcut) le_rfl
    fun r hr j hj => lt_of_isLastCut (hcs' ▸ h) hr hafter hmin (hcs' ▸ hj)
  obtain ⟨content', hget', hfits⟩ := h.fits c (by simp [hcs])
  have hres' : (c'.range (o + 1)).resource = c.resource := hres.symm
  rw [hres'] at hget hid
  obtain rfl := Option.some.inj (hget.symm.trans hget')
  refine ⟨o, _, n, content, hforce, hid, hget, ?_⟩
  have hoffset : (c'.range (o + 1)).sourceOffset (max (c'.range (o + 1)).start
      (w.minOffset (.parse glsl (Chunk.textAll cs)))) = c.source + Text.size c.text := by
    simp only [MapRange.sourceOffset, Chunk.range, hm, hsource]
  rw [hoffset, hfits.line_slash hv hc, Nat.sub_self, Text.takeBytes_zero]
  rfl

/-- If the directive of a later range is in force in copied text already, then the range is that of
the comment that quotes the next import, and joins the slash that the text ends with. -/
theorem exists_slash {r : MapRange} {min j : Nat} (h : Joined (xs ++ c :: ys) contents)
    (hle : Text.size (Chunk.textAll xs) ≤ o) (hlt : o < Text.size (Chunk.textAll (xs ++ [c])))
    (hmin : min ≤ o) (hr : (Text.bytes (Chunk.textAll (xs ++ c :: ys)))[o]? ≠ some 13)
    (hmem : r ∈ Chunk.rangesFrom (Text.size (Chunk.textAll (xs ++ [c]))) ys)
    (hj : IsLastCut (Chunk.textAll (xs ++ c :: ys)) (max r.start min) j) (hjo : j ≤ o) :
    ∃ c' zs a, ys = c' :: zs ∧ c.text = a ++ ['/'] ∧ c'.text ≠ [] ∧ c'.mapping = .synthetic ∧
      c.resource = c'.resource ∧ c'.source = c.source + Text.size c.text ∧
      o = Text.size (Chunk.textAll xs) + Text.size a ∧
      IsLastCut (Chunk.textAll (xs ++ c :: ys)) (o + 1) o := by
  obtain ⟨ys₁, c', zs, rfl, hc', rfl⟩ := Chunk.mem_rangesFrom.1 hmem
  have hsize : Text.size (Chunk.textAll (xs ++ [c])) =
      Text.size (Chunk.textAll xs) + Text.size c.text := by simp
  have hcs : xs ++ c :: (ys₁ ++ c' :: zs) = xs ++ [c] ++ ys₁ ++ c' :: zs := by simp
  have hstart : max (c'.range (Text.size (Chunk.textAll (xs ++ [c])) +
      Text.size (Chunk.textAll ys₁))).start min =
      Text.size (Chunk.textAll (xs ++ [c] ++ ys₁)) := by
    rw [Chunk.textAll_append (xs ++ [c]), Text.size_append]
    exact max_eq_left (by simp only [Chunk.range]; omega)
  rw [hstart] at hj
  have hlt' : o < Text.size (Chunk.textAll (xs ++ [c] ++ ys₁)) := by
    rw [Chunk.textAll_append (xs ++ [c]), Text.size_append]
    omega
  cases h.seamed _ c' zs hcs hc' with
  | cut hcut =>
    have := hj.le_of_isCut _ hcut le_rfl
    omega
  | @feed a _ ha hcut =>
    rw [ha, Text.size_append, show Text.size ['\r'] = 1 from rfl] at hj hlt'
    have hja := hj.le_of_isCut _ hcut (Nat.le_succ _)
    have htext' : Chunk.textAll (xs ++ c :: (ys₁ ++ c' :: zs)) =
        a ++ '\r' :: Chunk.textAll (c' :: zs) := by
      rw [hcs, Chunk.textAll_append, ha, List.append_assoc]
      rfl
    have hoa : o = Text.size a + 0 := by omega
    rw [htext', hoa, Text.getElem?_bytes_char _ _ (by decide)] at hr
    exact absurd rfl hr
  | @slash xs' b a hm hx hb ha hres hsource hcut =>
    have hja := hj.le_of_isCut _ hcut (by simp [hx, ha])
    rcases List.eq_nil_or_concat ys₁ with rfl | ⟨ys₂, y, rfl⟩
    · rw [List.append_nil] at hx hj
      obtain ⟨rfl, hbc⟩ := List.append_inj' hx rfl
      obtain rfl := List.singleton_inj.1 hbc
      rw [Text.size_append] at hja
      have hone : Text.size c.text = Text.size a + 1 := by
        rw [ha, Text.size_append]
        rfl
      obtain rfl : j = o := by omega
      rw [show Text.size (Chunk.textAll (xs ++ [c])) = j + 1 by omega] at hj
      exact ⟨c', zs, a, rfl, ha, hc', hm, hres, hsource, by omega, hj⟩
    · rw [List.concat_eq_append, ← List.append_assoc] at hx
      obtain ⟨rfl, -⟩ := List.append_inj' hx rfl
      rw [Chunk.textAll_append (xs ++ [c]), Text.size_append, Text.size_append] at hja
      omega

theorem tells (h : Joined (xs ++ c :: ys) contents) (hv : c.mapping = .verbatim)
    (hle : Text.size (Chunk.textAll xs) ≤ o) (hlt : o < Text.size (Chunk.textAll (xs ++ [c])))
    (hmin : w.minOffset (.parse glsl (Chunk.textAll (xs ++ c :: ys))) ≤ o)
    (hf : (Text.bytes (Chunk.textAll (xs ++ c :: ys)))[o]? ≠ some 10)
    (hr : (Text.bytes (Chunk.textAll (xs ++ c :: ys)))[o]? ≠ some 13) :
    w.Tells (.parse glsl (Chunk.textAll (xs ++ c :: ys))) (SourceMap.ofChunks (xs ++ c :: ys))
      contents o ⟨c.resource, c.source + (o - Text.size (Chunk.textAll xs))⟩ := by
  have hsize : Text.size (Chunk.textAll (xs ++ [c])) =
      Text.size (Chunk.textAll xs) + Text.size c.text := by simp
  obtain ⟨u, d, v, k, hc, hok, hk⟩ :=
    Text.exists_char_at (t := c.text) (n := o - Text.size (Chunk.textAll xs)) (by omega)
  have ho : o = Text.size (Chunk.textAll xs ++ u) + k := by
    rw [Text.size_append]
    omega
  have htext : Chunk.textAll (xs ++ c :: ys) =
      Chunk.textAll xs ++ u ++ d :: (v ++ Chunk.textAll ys) := by simp [hc]
  have hd : Text.isLineBreak d = false := by
    rw [htext, ho] at hf hr
    exact Text.isLineBreak_of_bytes hk hf hr
  by_cases hlater : ∀ r ∈ Chunk.rangesFrom (Text.size (Chunk.textAll (xs ++ [c]))) ys, ∀ j,
      IsLastCut (Chunk.textAll (xs ++ c :: ys))
        (max r.start (w.minOffset (.parse glsl (Chunk.textAll (xs ++ c :: ys))))) j → o < j
  · exact h.tells_own hv hc hk hd ho hmin hlater
  · push Not at hlater
    obtain ⟨r, hmem, j, hj, hjo⟩ := hlater
    obtain ⟨c', zs, a, rfl, ha, hc', hm, hres, hsource, hoa, hcut⟩ :=
      h.exists_slash hle hlt hmin hr hmem hj hjo
    have hoff : o - Text.size (Chunk.textAll xs) = Text.size a := by omega
    rw [hoff]
    exact h.tells_slash (List.append_cons xs c _) hv ha hc' hm hres hsource hoa hcut hmin

end Joined

namespace Ran

variable {env : ExpandEnv} {root : Resource} {e : Expanded} {cs : List Chunk}

theorem joined (h : Ran env root e cs) (hr : root.IsGlsl) (htidy : Tidy env [root.id] root) :
    Joined cs e.contents :=
  ⟨h.unfolds.seamed hr htidy (.whole root) (htidy.closed_content hr), fun _ hc => h.exists_fits hc⟩

end Ran

namespace ExpandEnv

/-- The line directives that are put into the output of a tidy run tell where all its copied text
comes from. -/
theorem run_inject_locates {env : ExpandEnv} {id : ResourceId} {t : Text} {e : Expanded}
    (w : LineDirective) (htidy : Tidy env [id] (.parse glsl id t))
    (h : env.run (.parse glsl id t) = .ok e) :
    let m := e.map.getD (.identity id e.document.size)
    ∃ inj, w.inject e.document m e.contents = .ok inj ∧
      w.Locates e.document m e.contents inj := by
  intro m
  have hroot := Resource.isGlsl_parse id t
  obtain ⟨cs, hran⟩ := exists_ran hroot h
  have hjoined := hran.joined hroot htidy
  have hm : m = SourceMap.ofChunks cs := hran.map_eq
  rw [hm, hran.document]
  obtain ⟨inj, hinj, hpaths, happly⟩ := w.exists_inject hjoined.covers
  refine ⟨inj, hinj, hpaths, by rwa [Document.text_parse], fun r hr hv o ho hmin hf hcr => ?_⟩
  rw [Document.text_parse] at hf hcr
  obtain ⟨xs, c, ys, rfl, hc, rfl⟩ := Chunk.mem_rangesFrom.1 hr
  refine ⟨_, SourceMap.query_eq (SourceMap.tiles_ofChunks _) hr ho, ?_⟩
  simp only [Chunk.range, MapRange.contains, Nat.zero_add, Bool.and_eq_true,
    decide_eq_true_eq] at ho hv
  have htells := hjoined.tells (w := w) hv ho.1 (by simpa using ho.2) hmin hf hcr
  simpa [Chunk.range, MapRange.sourceOffset, hv] using htells

/-- A root with a version line that imports right after a slash, in the middle of a line, a
resource that ends with a carriage return, and at its end one that does not exist. -/
theorem run_inject_locates_nested :
    let root := Resource.parse glsl ⟨"s".toList, "m".toList⟩
      "#version 330\r\né /@import \"a\" float x;\n@import \"b\"".toList
    let store : Store := fun i =>
      .ok (if i.path = "a".toList then some "\n/* ü\n */ int i;\r".toList else none)
    let env : ExpandEnv := ⟨store, ⟨"s".toList, []⟩, 3, none⟩
    let w := LineDirective.ofMarker LineDirective.standardMarker
    Tidy env [root.id] root ∧ ∃ e, env.run root = .ok e ∧ e.hadImports = true ∧
      let m := e.map.getD (.identity root.id e.document.size)
      ∃ inj, w.inject e.document m e.contents = .ok inj ∧
        w.Locates e.document m e.contents inj := by
  intro root store env w
  have htidy : Tidy env [root.id] root := .of_allReached 1 (by decide +kernel)
  have hroot : root.IsGlsl := Resource.isGlsl_parse _ _
  have hsites : root.document.sites.isEmpty = false := by decide +kernel
  obtain ⟨e, he⟩ : ∃ e, env.run root = .ok e := exists_run hroot rfl
  obtain ⟨cs, hran⟩ := exists_ran hroot he
  have hi : e.hadImports = true := by rw [hran.hadImports, hsites, Bool.not_false]
  exact ⟨htidy, e, he, hi, run_inject_locates w htidy he⟩

end ExpandEnv
end ShaderInline
