import ShaderInline.Proofs.Expand.Sites
import ShaderInline.Proofs.Token.Kinds

/-! # The tokens of a document

The leaves of a document, with those marked that belong to an import. A closing
delimiter that closes nothing is an error in the tree; as a token it is what it
would close.
-/

namespace ShaderInline

open Schema Piece

/-- A token of a document, and whether it belongs to an import. -/
structure Mark where
  kind : Kind
  text : Text
  imported : Bool
  deriving DecidableEq, Repr

namespace Mark

def token (m : Mark) : Kind × Text := (m.kind, m.text)

/-- Whether a token is neither a blank, a comment nor a line break. -/
def isSignificant (m : Mark) : Bool := !m.kind.isTrivia && m.kind != .newline

end Mark

def Leaf.tokenKind (l : Leaf) : Kind :=
  match l.kind, l.text with
  | .error, [')'] => .closer .paren
  | .error, ['}'] => .closer .brace
  | .error, [']'] => .closer .bracket
  | k, _ => k

namespace Document

def mark (d : Document) (l : Leaf) : Mark :=
  ⟨l.tokenKind, l.text, d.imports.any fun n => n.start ≤ l.start && l.stop ≤ n.stop⟩

def marks (d : Document) : List Mark := d.leaves.map d.mark

def tokens (d : Document) : List (Kind × Text) :=
  (d.marks.filter Mark.isSignificant).map Mark.token

/-- The significant tokens of a document that belong to no import. -/
def ownTokens (d : Document) : List (Kind × Text) :=
  (d.marks.filter fun m => m.isSignificant && !m.imported).map Mark.token

end Document

/-! ### Marks of pieces -/

@[simps] def Piece.mark (imported : Bool) (p : Piece) : Mark := ⟨p.kind, p.text, imported⟩

def Site.marksFrom (ss : List Site) : Nat → List Piece → List Mark
  | _, [] => []
  | n, p :: ps =>
    p.mark (ss.any fun s => s.start ≤ n && n + Text.size p.text ≤ s.stop) ::
      marksFrom ss (n + Text.size p.text) ps

theorem Lexeme.single_closer {c : Char} {d : Delimiter} (n : Nat)
    (h : (single c).kind = .closer d) : (Leaf.mk n .error [c]).tokenKind = .closer d := by
  unfold single at h
  split at h
  case h_9 => split at h <;> cases h
  all_goals (cases h; try rfl)

theorem Cuts.tokenKind_closer {t r : Text} {ps : List Piece} {p : Piece} {d : Delimiter} (n : Nat)
    (h : Cuts glsl t ps r) (hp : p ∈ ps) (hk : p.kind = .closer d) :
    (Leaf.mk n .error p.text).tokenKind = .closer d := by
  obtain ⟨c, q, rest, ht, hr⟩ := h.exists_read hp
  have hs := Lexeme.read_closer (by rw [hr, hk])
  have hq : q.length = 0 := by
    have := congrArg Lexeme.extra (hr.symm.trans hs)
    simpa using this
  rw [ht, List.eq_nil_of_length_eq_zero hq]
  exact Lexeme.single_closer n (by rw [← hs, hr, hk])

theorem Leaf.tokenKind_of_ne {l : Leaf} (h : l.kind ≠ .error) : l.tokenKind = l.kind := by
  unfold tokenKind
  split <;> simp_all

namespace Piece

variable {ps : List Piece} {ls : List (Kind × Text)} {n : Nat}

theorem IsLeaf.tokenKind {p : Piece} {l : Kind × Text} (h : p.IsLeaf l)
    (hne : p.kind ≠ .error)
    (hc : ∀ d, p.kind = .closer d → (Leaf.mk n .error p.text).tokenKind = .closer d) :
    (Leaf.mk n l.1 l.2).tokenKind = p.kind := by
  obtain ⟨k, t⟩ := l
  obtain ⟨rfl, rfl | ⟨rfl, d, hd⟩⟩ := h
  · exact Leaf.tokenKind_of_ne hne
  · rw [hc d hd, hd]

theorem map_mark_placeLeaves (d : Document) (h : List.Forall₂ IsLeaf ps ls)
    (hne : ∀ p ∈ ps, p.kind ≠ .error)
    (hc : ∀ p ∈ ps, ∀ n d, p.kind = .closer d → (Leaf.mk n .error p.text).tokenKind = .closer d) :
    (Tree.placeLeaves n ls).map d.mark = Site.marksFrom d.sites n ps := by
  induction h generalizing n with
  | nil => rfl
  | @cons p l ps ls hp _ ih =>
    rw [List.forall_mem_cons] at hne hc
    have hk := hp.tokenKind (n := n) hne.1 (hc.1 n)
    rw [Tree.placeLeaves, List.map_cons, Site.marksFrom, hp.1, ih hne.2 hc.2, Document.mark]
    rw [hp.1] at hk
    simp only [hk, Leaf.stop, Piece.mark, Document.sites, List.any_map]
    rfl

end Piece

theorem Document.marks_parse (t : Text) : (Document.parse glsl t).marks =
    Site.marksFrom (Document.parse glsl t).sites 0 (ofText glsl t) := by
  have hcuts := cuts_ofText glsl t
  rw [marks, leaves_parse]
  refine Piece.map_mark_placeLeaves _ (isLeaf_parse glsl t) (fun p hp => ?_) fun p hp n d hk =>
    hcuts.tokenKind_closer n hp hk
  obtain ⟨c, q, rest, -, hr⟩ := hcuts.exists_read hp
  have := Lexeme.read_ne_error glsl c (q ++ rest)
  rwa [hr] at this

namespace Site

variable {s : Site} {ss : List Site} {n : Nat} {ps qs : List Piece}

theorem marksFrom_append : marksFrom ss n (ps ++ qs) =
    marksFrom ss n ps ++ marksFrom ss (n + Text.size (textAll ps)) qs := by
  induction ps generalizing n with
  | nil => simp [marksFrom]
  | cons p ps ih => simp [marksFrom, ih, Nat.add_assoc]

theorem marksFrom_before (hs : ∀ s ∈ ss, n + Text.size (textAll ps) ≤ s.start)
    (hne : ∀ p ∈ ps, p.text ≠ []) : marksFrom ss n ps = ps.map (Piece.mark false) := by
  induction ps generalizing n with
  | nil => rfl
  | cons p ps ih =>
    rw [List.forall_mem_cons] at hne
    have hpos := Text.size_pos_iff.2 hne.1
    have hp : (ss.any fun s => s.start ≤ n && n + Text.size p.text ≤ s.stop) = false := by
      rw [List.any_eq_false]
      intro s hs'
      have := hs s hs'
      simp at this ⊢
      omega
    rw [marksFrom, hp, List.map_cons, ih (by simpa [Nat.add_assoc] using hs) hne.2]

theorem marksFrom_inside (hs : s ∈ ss) (hstart : s.start ≤ n)
    (hstop : n + Text.size (textAll ps) ≤ s.stop) :
    marksFrom ss n ps = ps.map (Piece.mark true) := by
  induction ps generalizing n with
  | nil => rfl
  | cons p ps ih =>
    rw [textAll_cons, Text.size_append, ← Nat.add_assoc] at hstop
    have hp : (ss.any fun s => s.start ≤ n && n + Text.size p.text ≤ s.stop) = true := by
      rw [List.any_eq_true]
      exact ⟨s, hs, by simp; omega⟩
    rw [marksFrom, hp, List.map_cons, ih (by omega) hstop]

theorem marksFrom_after (hs : s.stop ≤ n) (hne : ∀ p ∈ ps, p.text ≠ []) :
    marksFrom (s :: ss) n ps = marksFrom ss n ps := by
  induction ps generalizing n with
  | nil => rfl
  | cons p ps ih =>
    rw [List.forall_mem_cons] at hne
    have hpos := Text.size_pos_iff.2 hne.1
    have hp : (decide (s.start ≤ n) && decide (n + Text.size p.text ≤ s.stop)) = false := by
      simp
      omega
    rw [marksFrom, marksFrom, List.any_cons, hp, Bool.false_or, ih (by omega) hne.2]

end Site
end ShaderInline
