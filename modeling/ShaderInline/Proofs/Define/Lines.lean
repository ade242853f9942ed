import ShaderInline.Proofs.Define
import ShaderInline.Proofs.Text.Trim
import ShaderInline.Proofs.Tree.LineEnd

/-! # One directive for each define

Defines that are put into a document are read back as one directive each, and
the other directives stay as they are, just if a line break ends the line of
every define and the version line before them. That is more than a check of the
defines sees to: a value may end with a backslash or leave a comment open.
-/

namespace ShaderInline

open Schema Piece

namespace Piece

theorem restOfLine_eq_self {ps : List Piece} (h : ∀ p ∈ ps, p.kind ≠ .newline) (last : Text) :
    restOfLine last ps = ps := by
  induction ps generalizing last with
  | nil => rfl
  | cons p ps ih =>
    obtain ⟨hp, hps⟩ := List.forall_mem_cons.1 h
    rw [restOfLine, if_neg (by simp [hp]), ih hps]

theorem kind_ne_newline {t : Text} (h : ∀ c ∈ t, Text.isLineBreak c = false) :
    ∀ p ∈ ofText glsl t, p.kind ≠ .newline := by
  intro p hp hk
  obtain ⟨c, q, hc, hbreak⟩ := (cuts_ofText glsl t).newline_head hp hk
  have hmem : c ∈ textAll (ofText glsl t) := List.mem_flatMap.2 ⟨p, hp, by simp [hc]⟩
  rw [textAll_ofText] at hmem
  simp [h c hmem] at hbreak

end Piece

theorem Piece.directives_add (n d : Nat) (ps : List Piece) :
    directives (n + d) ps = (directives n ps).map (Node.moved d) := by
  rw [directives, directives, tagNodes_add, List.filter_map]
  rfl

theorem Node.arguments_leaf {n : Nat} {k : Kind} {tag : Piece} {line : List Piece}
    (hk : tag.kind = .tag) : (⟨n, k, (tag :: line).map leaf⟩ : Node).arguments =
      Text.trim (textAll line) := by
  rw [arguments, List.map_cons, leaf, hk, afterTag, Tree.textAll_leaf]

namespace Defines

/-- What a define says: its name, and its value if it is not empty. -/
def body (e : Text × Option Text) : Text :=
  if e.2.getD [] = [] then e.1 else e.1 ++ ' ' :: e.2.getD []

def directive (e : Text × Option Text) : Text := "#define ".toList ++ body e

theorem line_eq (e : Text × Option Text) : line e.1 e.2 = directive e ++ ['\n'] := by
  obtain ⟨name, value⟩ := e
  unfold line directive body
  generalize "#define ".toList = tag
  cases value with
  | none => simp
  | some value => cases value <;> simp

structure Declares (e : Text × Option Text) (v : Node) : Prop where
  kind : v.kind = .directive
  text : v.text = directive e
  name : v.directiveName? = some "define".toList
  arguments : v.arguments =
    if e.2.getD [] = [] then e.1 else Text.trim (e.1 ++ ' ' :: e.2.getD [])

variable {d : Defines} {e : Text × Option Text} {es : List (Text × Option Text)} {n : Nat}
  {source t x : Text} {v : Node}

/-! ### The line of one define -/

theorem check_eq_ok_iff {name : Text} {value : Option Text} : check name value = .ok () ↔
    isIdentifier name = true ∧ ∀ c ∈ value.getD [], Text.isLineBreak c = false := by
  rw [check]
  split
  next h => simp_all
  next h =>
    split
    next h' => cases value <;> simp_all
    next h' => cases value <;> simp_all

theorem checkAll_eq_ok_iff : checkAll es = .ok () ↔ ∀ e ∈ es, check e.1 e.2 = .ok () := by
  induction es with
  | nil => simp [checkAll]
  | cons e es ih =>
    obtain ⟨name, value⟩ := e
    rw [checkAll, List.forall_mem_cons, ← ih]
    cases h : check name value <;> simp

theorem isWordPart_of_isIdentifier {name : Text} (h : isIdentifier name = true) :
    ∀ c ∈ name, Text.isWordPart c = true := by
  cases name with
  | nil => simp
  | cons c cs =>
    rw [isIdentifier, Bool.and_eq_true, List.all_eq_true] at h
    refine List.forall_mem_cons.2 ⟨?_, h.2⟩
    have hc := h.1
    simp only [Text.isWordStart, Text.isWordPart, Char.isAlphanum, Bool.or_eq_true] at hc ⊢
    tauto

theorem isLineBreak_body (h : check e.1 e.2 = .ok ()) :
    ∀ c ∈ ' ' :: body e, Text.isLineBreak c = false := by
  obtain ⟨hname, hvalue⟩ := check_eq_ok_iff.1 h
  have hword : ∀ c ∈ e.1, Text.isLineBreak c = false := fun c hc =>
    Lexeme.isLineBreak_wordPart (isWordPart_of_isIdentifier hname c hc)
  refine List.forall_mem_cons.2 ⟨rfl, ?_⟩
  rw [body]
  split
  next => exact hword
  next => exact List.forall_mem_append.2 ⟨hword, List.forall_mem_cons.2 ⟨rfl, hvalue⟩⟩

def tag : Piece := ⟨.tag, "#define".toList, none⟩

theorem cuts_tag (x : Text) : Cuts glsl ("#define ".toList ++ x) [tag] (' ' :: x) := by
  refine .next (c := '#') (p := "define".toList) ?_ (.done _)
  rw [Lexeme.read_of_ne_slash (by decide)]
  rfl

theorem leads_directive (h : check e.1 e.2 = .ok ()) :
    Leads "define".toList (ofText glsl (directive e)) [] tag (ofText glsl (' ' :: body e)) [] := by
  have heq : ofText glsl (directive e) = [tag] ++ ofText glsl (' ' :: body e) :=
    (cuts_tag _).ofText_eq
  have hline := restOfLine_eq_self (kind_ne_newline (isLineBreak_body h)) tag.text
  rw [heq]
  exact ⟨by simp, by simp, rfl, by decide, by rwa [List.append_nil]⟩

theorem declares_node (h : check e.1 e.2 = .ok ()) (n : Nat) :
    Declares e ⟨n, .directive, (tag :: ofText glsl (' ' :: body e)).map leaf⟩ := by
  obtain ⟨hname, -⟩ := check_eq_ok_iff.1 h
  refine ⟨rfl, ?_, Node.directiveName?_leaf rfl, ?_⟩
  · rw [Node.text, Tree.textAll_leaf, textAll_cons, textAll_ofText]
    rfl
  · rw [Node.arguments_leaf rfl, textAll_ofText, Text.trim_space, body]
    split
    next =>
      refine Text.trim_eq_self fun c hc => ?_
      exact Text.isBlank_wordPart (isWordPart_of_isIdentifier hname c hc)
    next => rfl

theorem directives_ended (h : check e.1 e.2 = .ok ())
    (hend : canEndLine (ofText glsl (directive e)) = true) (n : Nat) (x : Text) :
    ∃ v, Declares e v ∧ directives n (ofText glsl (line e.1 e.2 ++ x)) =
      v :: directives (n + Text.size (line e.1 e.2)) (ofText glsl x) := by
  have hvs := (leads_directive h).directives_ended (by decide) hend n x
  rw [← line_eq, textAll_nil, Text.size_nil, Nat.add_zero] at hvs
  refine ⟨_, declares_node h n, ?_⟩
  rw [← hvs, line_eq, List.append_assoc, List.singleton_append]

/-- A define whose line does not end takes in the line break. -/
theorem directives_longer (h : check e.1 e.2 = .ok ())
    (hend : canEndLine (ofText glsl (directive e)) = false) (n : Nat) (x : Text) :
    ∃ v vs, directives n (ofText glsl (line e.1 e.2 ++ x)) = v :: vs ∧ ¬ Declares e v := by
  have hleads := leads_directive h
  have htext : textAll (tag :: ofText glsl (' ' :: body e)) = directive e := hleads.textAll_eq
  have hlast : (directive e).getLast?.any Text.isLineBreak = false := by
    rw [← htext, textAll_cons, textAll_ofText,
      List.getLast?_append_of_ne_nil _ (List.cons_ne_nil _ _), Option.any_eq_false]
    intro c hc
    simp [isLineBreak_body h c (List.mem_of_getLast? hc)]
  obtain ⟨v, vs, hvs, hlt⟩ := hleads.directives_longer (by decide) hend (y := '\n' :: x)
    (by rw [hlast]; rfl) n
  refine ⟨v, vs, ?_, fun hv => ?_⟩
  · rw [← hvs, line_eq, List.append_assoc, List.singleton_append]
  · rw [hv.text, htext] at hlt
    exact lt_irrefl _ hlt

/-! ### The lines of all defines -/

theorem directives_render (hes : ∀ e ∈ es, check e.1 e.2 = .ok ())
    (hend : ∀ e ∈ es, canEndLine (ofText glsl (directive e)) = true) (n : Nat) (x : Text) :
    ∃ ds, List.Forall₂ Declares es ds ∧
      directives n (ofText glsl (es.flatMap (fun e => line e.1 e.2) ++ x)) =
        ds ++ directives (n + Text.size (es.flatMap fun e => line e.1 e.2)) (ofText glsl x) := by
  induction es generalizing n with
  | nil => exact ⟨[], .nil, rfl⟩
  | cons e es ih =>
    obtain ⟨he, hes⟩ := List.forall_mem_cons.1 hes
    obtain ⟨hend', hend⟩ := List.forall_mem_cons.1 hend
    obtain ⟨v, hv, hvs⟩ := directives_ended he hend' n (es.flatMap (fun e => line e.1 e.2) ++ x)
    obtain ⟨ds, hds, hrest⟩ := ih hes hend (n + Text.size (line e.1 e.2))
    refine ⟨v :: ds, .cons hv hds, ?_⟩
    rw [List.flatMap_cons, List.append_assoc, hvs, hrest, Text.size_append, Nat.add_assoc]
    rfl

theorem canEndLine_of_render (hes : ∀ e ∈ es, check e.1 e.2 = .ok ()) {ds rest : List Node}
    (hds : List.Forall₂ Declares es ds)
    (h : directives n (ofText glsl (es.flatMap (fun e => line e.1 e.2) ++ x)) = ds ++ rest) :
    ∀ e ∈ es, canEndLine (ofText glsl (directive e)) = true := by
  induction hds generalizing n with
  | nil => simp
  | @cons e v es ds hv _ ih =>
    obtain ⟨he, hes⟩ := List.forall_mem_cons.1 hes
    rw [List.flatMap_cons, List.append_assoc] at h
    have hend : canEndLine (ofText glsl (directive e)) = true := by
      by_contra hend
      rw [Bool.not_eq_true] at hend
      obtain ⟨v', vs, hvs, hv'⟩ := directives_longer he hend n
        (es.flatMap (fun e => line e.1 e.2) ++ x)
      obtain ⟨rfl, -⟩ := List.cons_eq_cons.1 (hvs.symm.trans h)
      exact hv' hv
    obtain ⟨v', -, hvs⟩ := directives_ended he hend n (es.flatMap (fun e => line e.1 e.2) ++ x)
    obtain ⟨-, hrest⟩ := List.cons_eq_cons.1 (hvs.symm.trans h)
    exact List.forall_mem_cons.2 ⟨hend, ih hes hrest⟩

/-! ### The whole document -/

/-- Whether a document has the directives of another one, only further on, and between the first
of them and the others one for each define. -/
def Adds (d : Defines) (v : Node) (doc doc' : Document) : Prop :=
  ∃ rest ds, doc.query .directive none = v :: rest ∧
    doc'.query .directive none = v :: (ds ++ rest.map (Node.moved (Text.size d.render))) ∧
    List.Forall₂ Declares d.entries ds

theorem adds_iff (hd : checkAll d.entries = .ok ()) {doc doc' : Document} {rest : List Node}
    (hdoc : doc.query .directive none = v :: rest)
    (hdoc' : doc'.query .directive none = v :: directives n (ofText glsl (d.render ++ x)))
    (hrest : directives (n + Text.size d.render) (ofText glsl x) =
      rest.map (Node.moved (Text.size d.render))) :
    d.Adds v doc doc' ↔ ∀ e ∈ d.entries, canEndLine (ofText glsl (directive e)) = true := by
  have hcheck := checkAll_eq_ok_iff.1 hd
  constructor
  · rintro ⟨rest', ds, -, hds', hds⟩
    obtain ⟨-, hnodes⟩ := List.cons_eq_cons.1 (hdoc'.symm.trans hds')
    exact canEndLine_of_render hcheck hds hnodes
  · intro hend
    obtain ⟨ds, hds, hnodes⟩ := directives_render hcheck hend n x
    refine ⟨rest, ds, hdoc, ?_, hds⟩
    rw [hdoc', ← hrest]
    congr 1

theorem head?_render (hne : d.entries ≠ []) (x : Text) : (d.render ++ x).head? = some '#' := by
  obtain ⟨e, es, he⟩ := List.exists_cons_of_ne_nil hne
  rw [render, he, List.flatMap_cons]
  rfl

theorem adds_newline {blanks line qs : List Piece} {tag q : Piece} (hne : d.entries ≠ [])
    (hd : checkAll d.entries = .ok ())
    (hl : Leads versionName (ofText glsl t) blanks tag line (q :: qs)) :
    d.Adds ⟨Text.size (textAll blanks), .directive, (tag :: line).map leaf⟩ (.parse glsl t)
      (.parse glsl (textAll (blanks ++ tag :: line) ++ q.text ++ (d.render ++ textAll qs))) ↔
    ∀ e ∈ d.entries, canEndLine (ofText glsl (directive e)) = true := by
  have hk := kind_of_restOfLine hl.line_eq
  have hqs : qs = ofText glsl (textAll qs) := by
    have hsplit : Cuts glsl t ((blanks ++ tag :: line ++ [q]) ++ qs) [] := by
      simpa using hl.cuts_all
    simpa using hsplit.split.2.ofText_eq.symm
  have hbefore : (Document.parse glsl t).query .directive none =
      ⟨Text.size (textAll blanks), .directive, (tag :: line).map leaf⟩ ::
        directives (Text.size (textAll (blanks ++ tag :: line) ++ q.text))
          (ofText glsl (textAll qs)) := by
    rw [Document.query_directive, hl.directives_eq versionName_ne, directives,
      tagNodes_other (by simp [hk]), ← hqs, Text.size_append, Nat.zero_add, Nat.zero_add]
    rfl
  have hafter := hl.directives_newline (y := d.render ++ textAll qs) versionName_ne
    (by rw [head?_render hne]; simp)
  rw [← Document.query_directive] at hafter
  exact adds_iff hd hbefore hafter (directives_add _ _ _)

/-- A version line that goes to the end of the text has to end with the line break that is put
after it. -/
theorem adds_end {blanks line : List Piece} {tag : Piece} (hne : d.entries ≠ [])
    (hd : checkAll d.entries = .ok ())
    (hl : Leads versionName (ofText glsl t) blanks tag line []) :
    d.Adds ⟨Text.size (textAll blanks), .directive, (tag :: line).map leaf⟩ (.parse glsl t)
      (.parse glsl (t ++ d.blockAfter t)) ↔
    canEndLine (ofText glsl t) = true ∧
      ∀ e ∈ d.entries, canEndLine (ofText glsl (directive e)) = true := by
  have hbefore : (Document.parse glsl t).query .directive none =
      [⟨Text.size (textAll blanks), .directive, (tag :: line).map leaf⟩] := by
    rw [Document.query_directive, hl.directives_eq versionName_ne, Nat.zero_add]
    rfl
  cases he : canEndLine (ofText glsl t) with
  | true =>
    have hafter : (Document.parse glsl (t ++ '\n' :: d.render)).query .directive none =
        ⟨Text.size (textAll blanks), .directive, (tag :: line).map leaf⟩ ::
          directives (Text.size (t ++ ['\n'])) (ofText glsl (d.render ++ [])) := by
      rw [Document.query_directive, List.append_nil, hl.directives_ended versionName_ne he,
        Nat.zero_add, Nat.zero_add]
    rw [blockAfter, isLineBreak_of_canEndLine he, if_neg (by simp), and_iff_right rfl]
    exact adds_iff hd hbefore hafter rfl
  | false =>
    refine iff_of_false ?_ (by simp)
    rintro ⟨rest, ds, -, hafter, -⟩
    have hhead : (d.blockAfter t).head? =
        some (if t.getLast?.any Text.isLineBreak then '#' else '\n') := by
      have hrender := head?_render hne []
      rw [List.append_nil] at hrender
      rw [blockAfter]
      split
      next => exact hrender
      next => rfl
    obtain ⟨v, vs, hvs, hlt⟩ := hl.directives_longer versionName_ne he hhead 0
    rw [Document.query_directive, hvs] at hafter
    obtain ⟨rfl, -⟩ := List.cons_eq_cons.1 hafter
    rw [Node.text, Tree.textAll_leaf] at hlt
    exact lt_irrefl _ hlt

theorem inject_newline {blanks line qs : List Piece} {tag q : Piece}
    (hd : checkAll d.entries = .ok ())
    (hl : Leads versionName (ofText glsl t) blanks tag line (q :: qs)) (source : Text) :
    d.inject (.parse glsl t) source = .ok (.parse glsl
      (textAll (blanks ++ tag :: line) ++ q.text ++ (d.render ++ textAll qs))) := by
  have hmem := hl.mem_of_cons
  have ht : t = textAll (blanks ++ tag :: line) ++ q.text ++ textAll qs := by
    rw [← textAll_ofText glsl t, hl.eq]
    simp
  have hbreak :
      (textAll (blanks ++ tag :: line) ++ q.text).getLast?.any Text.isLineBreak = true := by
    rw [List.getLast?_append_of_ne_nil _ ((cuts_ofText glsl t).text_ne_nil hmem)]
    rcases (cuts_ofText glsl t).newline_text hmem (kind_of_restOfLine hl.line_eq) with h | h | h <;>
      simp [h, Text.isLineBreak]
  have hv := (Document.leadingDirective?_eq_some_iff versionName_ne).2 ⟨_, _, _, _, hl, rfl⟩
  have hend := Document.endOfLine_leads hl
  rw [← Node.stop_behind .directive] at hend
  rw [ht] at hv hend
  have hinject := inject_eq hd hv hend source
  rwa [blockAfter, if_pos hbreak, ← ht] at hinject

theorem inject_end {blanks line : List Piece} {tag : Piece} (hd : checkAll d.entries = .ok ())
    (hl : Leads versionName (ofText glsl t) blanks tag line []) (source : Text) :
    d.inject (.parse glsl t) source = .ok (.parse glsl (t ++ d.blockAfter t)) := by
  have hv := (Document.leadingDirective?_eq_some_iff versionName_ne).2 ⟨_, _, _, _, hl, rfl⟩
  have hend : (Document.parse glsl (t ++ [])).endOfLine
      (⟨Text.size (textAll blanks), .directive, (tag :: line).map leaf⟩ : Node).stop =
        Text.size t := by
    have hstop := Document.stop_of_leads hl
    rw [textAll_nil, Text.size_nil, Nat.add_zero] at hstop
    rw [List.append_nil, hstop, Document.endOfLine_size]
  rw [← List.append_nil t] at hv
  have hinject := inject_eq hd hv hend source
  rwa [List.append_nil, List.append_nil] at hinject

/-- Accepted defines are put in after the version line. The version directive is then followed by
one directive for each define, in order, and by all others, which have only moved, just if a line
break ends the line of each define, and that of the version directive where the text has none
after it. -/
theorem inject_adds_iff (hne : d.entries ≠ [])
    (hv : (Document.parse glsl t).leadingDirective? versionName = some v)
    (h : d.validate (.parse glsl t) source = .ok ()) :
    ∃ doc, d.inject (.parse glsl t) source = .ok doc ∧
      (d.Adds v (.parse glsl t) doc ↔
        (v.stop = Text.size t → canEndLine (ofText glsl t) = true) ∧
          ∀ e ∈ d.entries, canEndLine (ofText glsl (directive e)) = true) := by
  have hd := checkAll_of_validate h
  obtain ⟨blanks, tag, line, qs, hl, rfl⟩ :=
    (Document.leadingDirective?_eq_some_iff versionName_ne).1 hv
  have hstop := Document.stop_of_leads hl
  cases qs with
  | nil =>
    refine ⟨_, inject_end hd hl source, ?_⟩
    rw [textAll_nil, Text.size_nil, Nat.add_zero] at hstop
    rw [adds_end hne hd hl, forall_prop_of_true hstop]
  | cons q qs =>
    refine ⟨_, inject_newline hd hl source, ?_⟩
    -- the line break of the version line is a part of the text
    have hpos := Text.size_pos_iff.2 ((cuts_ofText glsl t).text_ne_nil hl.mem_of_cons)
    rw [textAll_cons, Text.size_append] at hstop
    rw [adds_newline hne hd hl, and_iff_right]
    intro hsize
    omega

/-- Values that only look as if their lines went on: a backslash in a string or in a comment. -/
def hiddenBackslashes : Defines :=
  ofList [("HALF".toList, some "\"\\".toList), ("LIMIT".toList, some "1 /* \\ */".toList),
    ("MAIN".toList, none)]

theorem inject_adds_iff_hidden : ∃ v doc,
    (Document.parse glsl "/**/ #version 450 \\\n core\n#pragma x".toList).leadingDirective?
      versionName = some v ∧
    hiddenBackslashes.inject (.parse glsl "/**/ #version 450 \\\n core\n#pragma x".toList) [] =
      .ok doc ∧
    hiddenBackslashes.Adds v (.parse glsl "/**/ #version 450 \\\n core\n#pragma x".toList) doc := by
  have hstop : ((Document.parse glsl
      "/**/ #version 450 \\\n core\n#pragma x".toList).leadingDirective? versionName).map
        Node.stop = some 25 := by decide +kernel
  obtain ⟨v, hv, hstop⟩ := Option.map_eq_some_iff.1 hstop
  have hvalid := validate_versioned (d := hiddenBackslashes) (by decide +kernel) (versioned hv) []
  obtain ⟨doc, hdoc, hadds⟩ := inject_adds_iff (by decide +kernel) hv hvalid
  refine ⟨v, doc, hv, hdoc, hadds.2 ⟨fun hsize => ?_, by decide +kernel⟩⟩
  rw [hstop] at hsize
  exact absurd hsize (by decide +kernel)

/-- A value that ends with a backslash is accepted, and the next define becomes a part of it. -/
theorem inject_backslash :
    (ofList [("A".toList, some ['\\']), ("B".toList, none)]).validate
      (.parse glsl "#version 450\n".toList) [] = .ok () ∧
    ∃ doc, (ofList [("A".toList, some ['\\']), ("B".toList, none)]).inject
        (.parse glsl "#version 450\n".toList) [] = .ok doc ∧
      (doc.query .directive (some "define".toList)).map Node.text =
        ["#define A \\\n#define B".toList] := by
  have hd : checkAll (ofList [("A".toList, some ['\\']), ("B".toList, none)]).entries = .ok () := by
    decide +kernel
  have hend : ((Document.parse glsl ("#version 450\n".toList ++ [])).leadingDirective?
      versionName).map (fun v => (Document.parse glsl ("#version 450\n".toList ++ [])).endOfLine
        v.stop) = some (Text.size "#version 450\n".toList) := by decide +kernel
  obtain ⟨v, hv, hend⟩ := Option.map_eq_some_iff.1 hend
  exact ⟨validate_versioned hd (versioned hv) [], _, inject_eq hd hv hend [], by decide +kernel⟩

end Defines
end ShaderInline
