import ShaderInline.Expand
import ShaderInline.Proofs.Tree.Tags

/-! # How the imports lie in a text

Between its imports a text is made of pieces in which a search finds none, and
after an import the search starts afresh. So the imports that come after one are
those of the rest of the text.
-/

namespace ShaderInline

open Schema Piece

inductive Mode where
  | code
  /-- After the tag of an import. -/
  | pending
  /-- In the line of a tag that starts no import. -/
  | line
  deriving DecidableEq, Repr

namespace Mode

def next (m : Mode) (p : Piece) (endsLine : Bool) : Option Mode :=
  match m with
  | code =>
    if p.kind = .tag then some (if glsl.tagName p.text = "import".toList then pending else line)
    else some code
  | pending =>
    if p.kind.isTrivia then some pending
    else if p.isQuoted then none
    else some (if endsLine then code else line)
  | line => some (if endsLine then code else line)

variable {p : Piece} {e : Bool}

theorem next_import (hk : p.kind = .tag) (hn : glsl.tagName p.text = "import".toList) :
    code.next p e = some pending := by
  rw [next, if_pos hk, if_pos hn]

theorem next_tag (hk : p.kind = .tag) (hn : glsl.tagName p.text ≠ "import".toList) :
    code.next p e = some line := by
  rw [next, if_pos hk, if_neg hn]

theorem next_code (hk : p.kind ≠ .tag) : code.next p e = some code := by rw [next, if_neg hk]

theorem next_newline (hk : p.kind = .newline) (m : Mode) : m.next p true = some code := by
  cases m <;> simp [next, hk, Piece.isQuoted, Kind.isTrivia]

end Mode

/-- A search for imports between two pieces of a text. -/
structure Search where
  mode : Mode
  /-- Whether the last piece is a backslash. -/
  escaped : Bool
  deriving DecidableEq, Repr

namespace Search

def start : Search := ⟨.code, false⟩

def step (s : Search) (p : Piece) : Option Search :=
  (s.mode.next p (p.kind == .newline && !s.escaped)).map fun m => ⟨m, p.text == ['\\']⟩

def run (s : Search) (ps : List Piece) : Option Search := ps.foldlM step s

@[simp] theorem run_nil (s : Search) : s.run [] = some s := rfl
theorem run_cons (s : Search) (p : Piece) (ps : List Piece) :
    s.run (p :: ps) = (s.step p).bind (run · ps) := by simp [run]
theorem run_append (s : Search) (ps qs : List Piece) :
    s.run (ps ++ qs) = (s.run ps).bind (run · qs) := by simp [run]

end Search

namespace Node

def site (n : Node) : Site := ⟨n.start, n.stop, n.reference?.getD [], n.text⟩

end Node

def Site.ofPieces (n : Nat) (ps : List Piece) : Site :=
  ⟨n, n + Text.size (textAll ps), Node.unquote ((ps.getLast?.map (·.text)).getD []), textAll ps⟩

namespace IsImport

variable {ps : List Piece}

theorem find?_string (h : IsImport ps) : ps.find? (·.kind == .string) = ps.getLast? := by
  cases h with
  | @intro tag quoted blanks ht _ hb hq =>
    have hstring : quoted.kind = .string := by
      simp only [isQuoted, Bool.and_eq_true, beq_iff_eq] at hq
      exact hq.1.1
    have hnone : blanks.find? (·.kind == .string) = none := by
      rw [List.find?_eq_none]
      intro p hp hk
      have := hb p hp
      simp_all [Kind.isTrivia]
    have htag : (tag.kind == .string) = false := by rw [ht]; rfl
    rw [← List.cons_append, List.getLast?_concat, List.find?_append, List.find?_cons, htag]
    simp [hnone, hstring]

theorem site_eq (h : IsImport ps) (n : Nat) :
    (⟨n, .importDirective, ps.map Piece.leaf⟩ : Node).site = Site.ofPieces n ps := by
  have href : (⟨n, .importDirective, ps.map Piece.leaf⟩ : Node).reference?.getD [] =
      Node.unquote ((ps.getLast?.map (·.text)).getD []) := by
    have hleaf := Node.text_ownLeaf? n .importDirective .string ps
    rw [h.find?_string] at hleaf
    rw [Node.reference?, Node.referenceLeaf?, ← hleaf]
    cases Node.ownLeaf? .string ⟨n, .importDirective, ps.map Piece.leaf⟩ <;> rfl
  rw [Node.site, href, Site.ofPieces, Node.stop, Tree.sizeAll_eq, Node.text, Tree.textAll_leaf]

end IsImport

/-- A text that starts with pieces in which a search finds no import, followed by an import. -/
structure Split (s : Search) (t : Text) (gap imp : List Piece) (rest : Text) : Prop where
  cuts : Cuts glsl t (gap ++ imp) rest
  code : ∃ e, s.run gap = some ⟨.code, e⟩
  isImport : IsImport imp

/-- The imports of a text that starts at an offset. -/
inductive Layout : Search → Nat → Text → List Site → Prop where
  | plain {s s' : Search} {n : Nat} {t : Text} : s.run (ofText glsl t) = some s' → Layout s n t []
  | site {s : Search} {n : Nat} {t rest : Text} {gap imp : List Piece} {ss : List Site} :
      Split s t gap imp rest →
      Layout .start (n + Text.size (textAll gap) + Text.size (textAll imp)) rest ss →
      Layout s n t (Site.ofPieces (n + Text.size (textAll gap)) imp :: ss)

theorem Layout.cons {s s' : Search} {n : Nat} {t rest : Text} {p : Piece} {ss : List Site}
    (hs : s.step p = some s') (hc : Cuts glsl t [p] rest)
    (h : Layout s' (n + Text.size p.text) rest ss) : Layout s n t ss := by
  cases h with
  | plain h =>
    have hrun : s.run (ofText glsl t) = s'.run (ofText glsl rest) := by
      rw [hc.ofText_eq, List.singleton_append, Search.run_cons, hs]
      rfl
    exact .plain (hrun.trans h)
  | @site _ _ _ rest' gap imp ss hsplit h =>
    have hgap : Split s t (p :: gap) imp rest' := by
      refine ⟨hc.trans hsplit.cuts, ?_, hsplit.isImport⟩
      rw [Search.run_cons, hs]
      exact hsplit.code
    have h' := Layout.site (n := n) hgap (by simpa [Nat.add_assoc] using h)
    simpa [Nat.add_assoc] using h'

def Site.ofNodes (ns : List Node) : List Site :=
  (ns.filter (·.kind == .importDirective)).map Node.site

/-- Whether a search through pieces finds the imports that their tags lead to, wherever it starts
and whatever comes before them. -/
def Lays (ps : List Piece) : Prop := ∀ (n : Nat) (t : Text), Cuts glsl t ps [] →
  (∀ e, Layout ⟨.code, e⟩ n t (Site.ofNodes (tagNodes 0 n ps))) ∧
  ∀ m last, m = .line ∨ m = .pending ∧ quoted? ps = none →
    Layout ⟨m, last == ['\\']⟩ n t (Site.ofNodes (tagNodes (restOfLine last ps).length n ps))

namespace Lays

variable {p : Piece} {ps : List Piece} {n : Nat} {t rest : Text} {e : Bool}

theorem nil : Lays [] := by
  intro n t hc
  obtain rfl : t = [] := by simpa using hc.eq_append
  exact ⟨fun e => .plain rfl, fun m last _ => .plain rfl⟩

theorem line {last : Text} {m : Mode} (ih : Lays ps) (hp : Cuts glsl t [p] rest)
    (hc : Cuts glsl rest ps []) (hm : m = .line ∨ m = .pending ∧ quoted? (p :: ps) = none) :
    Layout ⟨m, last == ['\\']⟩ n t
      (Site.ofNodes (tagNodes (restOfLine last (p :: ps)).length n (p :: ps))) := by
  obtain ⟨hcode, hline⟩ := ih (n + Text.size p.text) rest hc
  rw [restOfLine]
  split
  next he =>
    have hk : p.kind = .newline := eq_of_beq (Bool.and_eq_true_iff.1 he).1
    rw [List.length_nil, tagNodes_other (by simp [hk])]
    refine .cons ?_ hp (hcode (p.text == ['\\']))
    have he' : (p.kind == .newline && !(last == ['\\'])) = true := he
    rw [Search.step, he', Mode.next_newline hk]
    rfl
  next he =>
    have he' : (p.kind == .newline && !(last == ['\\'])) = false := by simpa using he
    rw [List.length_cons, tagNodes]
    obtain ⟨m', hnext, hm'⟩ : ∃ m', m.next p false = some m' ∧
        (m' = .line ∨ m' = .pending ∧ quoted? ps = none) := by
      rcases hm with rfl | ⟨rfl, hq⟩
      · exact ⟨.line, rfl, .inl rfl⟩
      · rw [quoted?] at hq
        split at hq
        next hk => exact ⟨.pending, by rw [Mode.next, if_pos hk], .inr ⟨rfl, by simpa using hq⟩⟩
        next hk => exact ⟨.line, by simp_all [Mode.next], .inl rfl⟩
    refine .cons ?_ hp (hline m' p.text hm')
    rw [Search.step, he', hnext]
    rfl

theorem code (ih : ∀ qs : List Piece, qs.length ≤ ps.length → Lays qs)
    (hp : Cuts glsl t [p] rest) (hc : Cuts glsl rest ps []) :
    Layout ⟨.code, e⟩ n t (Site.ofNodes (tagNodes 0 n (p :: ps))) := by
  obtain ⟨hcode, hline⟩ := ih ps le_rfl (n + Text.size p.text) rest hc
  by_cases hk : p.kind = .tag
  · obtain ⟨hn, qs, hq, htag⟩ | ⟨hq, htag⟩ := tagged_cases p ps
    · obtain ⟨blanks, q, xs, rfl, rfl, hb, hq'⟩ := quoted?_spec hq
      have himp : IsImport (p :: (blanks ++ [q])) := .intro hk hn hb hq'
      have hsplit : Split ⟨.code, e⟩ t [] (p :: (blanks ++ [q])) (textAll xs ++ []) :=
        ⟨hp.trans hc.split.1, ⟨e, rfl⟩, himp⟩
      have hrest := (ih xs (by simp; omega) (n + Text.size (textAll (p :: (blanks ++ [q])))) _
        hc.split.2).1 false
      rw [tagNodes_tag hk htag, Site.ofNodes, List.filter_cons_of_pos rfl, List.map_cons,
        himp.site_eq]
      exact Layout.site (n := n) hsplit (by simpa [Site.ofNodes, Search.start] using hrest)
    · rw [tagNodes, if_pos hk, htag, Site.ofNodes, List.filter_cons_of_neg (by simp)]
      obtain ⟨m, hm, hnext⟩ : ∃ m, (m = .line ∨ m = .pending ∧ quoted? ps = none) ∧
          Mode.code.next p (p.kind == .newline && !e) = some m := by
        by_cases hn : glsl.tagName p.text = "import".toList
        · exact ⟨.pending, .inr ⟨rfl, hq hn⟩, Mode.next_import hk hn⟩
        · exact ⟨.line, .inl rfl, Mode.next_tag hk hn⟩
      refine .cons ?_ hp (hline m p.text hm)
      rw [Search.step, hnext]
      rfl
  · rw [tagNodes_other hk]
    refine .cons ?_ hp (hcode (p.text == ['\\']))
    rw [Search.step, Mode.next_code hk]
    rfl

theorem all (ps : List Piece) : Lays ps := by
  induction hn : ps.length using Nat.strong_induction_on generalizing ps with
  | _ n ih =>
    cases ps with
    | nil => exact nil
    | cons p ps =>
      have ih (qs : List Piece) (hle : qs.length ≤ ps.length) : Lays qs :=
        ih qs.length (by rw [← hn]; exact Nat.lt_succ_of_le hle) qs rfl
      intro n t hc
      obtain ⟨hp, hps⟩ := (show Cuts glsl t ([p] ++ ps) [] from hc).split
      exact ⟨fun e => code ih hp hps, fun m last hm => line (ih ps le_rfl) hp hps hm⟩

end Lays

theorem Document.layout_sites (t : Text) : Layout .start 0 t (Document.parse glsl t).sites := by
  have hsites : (Document.parse glsl t).sites = Site.ofNodes (tagNodes 0 0 (ofText glsl t)) := by
    rw [← Document.tags_parse, Site.ofNodes, List.filter_filter, sites, imports, query]
    congr 2
    funext v
    cases hk : v.kind == .importDirective <;> simp [Node.isTagged, hk]
  rw [hsites]
  exact (Lays.all _ 0 t (cuts_ofText glsl t)).1 false

end ShaderInline
