import ShaderInline.Proofs.Tree.Leaves
import ShaderInline.Schema.Glsl

/-! # What the patterns take

An import is an import tag and a quoted string with nothing but blanks and
comments between them. Any other tag takes the rest of its line, and the
remaining patterns take no tag at all.
-/

namespace ShaderInline

open Schema

open ShaderInline.Group (itemsAll wrap toTree toTrees leafOf)

/-- Whether a piece is a string that ends with a quote of its own. -/
def Piece.isQuoted (p : Piece) : Bool :=
  p.kind == .string && 2 ≤ Text.size p.text && p.text.getLast? == some '"'

inductive IsImport : List Piece → Prop where
  | intro {tag quoted : Piece} {blanks : List Piece} : tag.kind = .tag →
      glsl.tagName tag.text = "import".toList → (∀ p ∈ blanks, p.kind.isTrivia = true) →
      quoted.isQuoted = true → IsImport (tag :: (blanks ++ [quoted]))

namespace Group

def isTag : Group → Bool
  | item i => i.token.kind == .tag
  | _ => false

theorem wrap_cons_none {s : Schema} {g : Group} {gs : List Group}
    (h : s.matchAt? (g :: gs) = none) :
    wrap s 0 (g :: gs) (toTrees s (g :: gs)) = toTree s g :: wrap s 0 gs (toTrees s gs) := by
  rw [toTrees_cons, wrap, h]

theorem wrap_cons_some {s : Schema} {g : Group} {taken rest : List Group} {k : Kind}
    (h : s.matchAt? (g :: (taken ++ rest)) = some (k, taken.length)) :
    wrap s 0 (g :: (taken ++ rest)) (toTrees s (g :: (taken ++ rest))) =
      .node k (toTrees s (g :: taken)) :: wrap s 0 rest (toTrees s rest) := by
  rw [toTrees_cons, wrap, h, toTrees_append]
  simp [wrap_eq_drop, ← length_toTrees s taken, -length_toTrees]

theorem isTag_of_isSkippable {b : Bool} {g : Group} (h : g.isSkippable b = true) :
    g.isTag = false := by
  cases g with
  | item i => cases hk : i.token.kind <;> simp_all [isSkippable, isTag, Kind.isTrivia]
  | _ => rfl

end Group

namespace Pattern

open ShaderInline.Group

variable {s : Schema} {b first : Bool} {m : Matcher} {ms : List Matcher} {g : Group}
  {gs : List Group}

theorem width?_nil (hm : m ≠ .restOfLine) : width? s b first (m :: ms) [] = none := by
  rw [width?]
  · exact hm
  · simp

theorem width?_skip (hm : m ≠ .restOfLine) (hg : g.isSkippable b = true) :
    width? s b false (m :: ms) (g :: gs) = (width? s b false (m :: ms) gs).map (1 + ·) := by
  have hlen : ((g :: gs).takeWhile (isSkippable b)).length =
      (gs.takeWhile (isSkippable b)).length + 1 := by simp [hg]
  cases hd : gs.drop (gs.takeWhile (isSkippable b)).length with
  | nil => rw [width?.eq_3 _ _ _ _ _ _ hm (by simpa [hlen] using hd),
      width?.eq_3 _ _ _ _ _ _ hm (by simpa using hd), Option.map_none]
  | cons g' gs' =>
    rw [width?.eq_4 _ _ _ _ _ _ g' gs' hm (by simpa [hlen] using hd),
      width?.eq_4 _ _ _ _ _ _ g' gs' hm (by simpa using hd), apply_ite (Option.map _),
      Option.map_map, Option.map_none]
    simp only [hlen, Bool.false_eq_true, if_false, Function.comp_def]
    congr 3
    funext w
    omega

theorem width?_cons (hm : m ≠ .restOfLine) (hg : first = true ∨ g.isSkippable b = false) :
    width? s b first (m :: ms) (g :: gs) =
      if m.accepts s g then (width? s b false ms gs).map (1 + ·) else none := by
  have hskip : (if first = true then 0 else ((g :: gs).takeWhile (isSkippable b)).length) = 0 := by
    rcases hg with rfl | hg <;> simp [*]
  rw [width?.eq_4 _ _ _ _ _ _ g gs hm (by rw [hskip, List.drop_zero]), hskip, Nat.zero_add]

theorem width?_quoted {w : Nat} (h : width? glsl true false [.quoted] gs = some w) :
    ∃ (blanks : List Item) (q : Item) (rest : List Group), gs = (blanks ++ [q]).map item ++ rest ∧
      w = (blanks ++ [q]).length ∧ (∀ i ∈ blanks, i.token.kind.isTrivia = true) ∧
      q.piece.isQuoted = true := by
  induction gs generalizing w with
  | nil => simp [width?_nil] at h
  | cons g gs ih =>
    by_cases hg : g.isSkippable true
    · rw [width?_skip (by simp) hg] at h
      obtain ⟨w, hw, rfl⟩ := Option.map_eq_some_iff.1 h
      obtain ⟨blanks, q, rest, rfl, rfl, hb, hq⟩ := ih hw
      cases g with
      | item i =>
        refine ⟨i :: blanks, q, rest, rfl, by simp; omega, ?_, hq⟩
        simpa using ⟨by simpa [isSkippable] using hg, hb⟩
      | stray i => simp [isSkippable] at hg
      | block d o inside c => simp [isSkippable] at hg
    · rw [width?_cons (by simp) (.inr (by simpa using hg))] at h
      cases g with
      | item i =>
        rw [Option.ite_none_right_eq_some] at h
        exact ⟨[], i, gs, rfl, by simpa [width?] using h.2.symm, by simp, h.1⟩
      | stray i => simp [Matcher.accepts] at h
      | block d o inside c => simp [Matcher.accepts] at h

theorem width?_plain {w : Nat} (h : width? s b first ms gs = some w)
    (hms : ∀ m ∈ ms, m ≠ .restOfLine ∧ ∀ g : Group, m.accepts s g = true → g.isTag = false) :
    ∃ taken rest, gs = taken ++ rest ∧ taken.length = w ∧ ∀ g ∈ taken, g.isTag = false := by
  induction ms generalizing first gs w with
  | nil => exact ⟨[], gs, rfl, by simpa [width?] using h, by simp⟩
  | cons m ms ihms =>
    obtain ⟨⟨hm, ha⟩, hms⟩ := List.forall_mem_cons.1 hms
    induction gs generalizing first w with
    | nil => simp [width?_nil hm] at h
    | cons g gs ihgs =>
      by_cases hg : first = true ∨ g.isSkippable b = false
      · rw [width?_cons hm hg, Option.ite_none_right_eq_some] at h
        obtain ⟨w, hw, rfl⟩ := Option.map_eq_some_iff.1 h.2
        obtain ⟨taken, rest, rfl, rfl, ht⟩ := ihms hw hms
        exact ⟨g :: taken, rest, rfl, Nat.add_comm .., by simpa using ⟨ha g h.1, ht⟩⟩
      · obtain ⟨rfl, hskip⟩ : first = false ∧ g.isSkippable b = true := by simpa using hg
        rw [width?_skip hm hskip] at h
        obtain ⟨w, hw, rfl⟩ := Option.map_eq_some_iff.1 h
        obtain ⟨taken, rest, rfl, rfl, ht⟩ := ihgs hw
        have htag : g.isTag = false := isTag_of_isSkippable hskip
        exact ⟨g :: taken, rest, rfl, Nat.add_comm .., by simpa using ⟨htag, ht⟩⟩

private theorem length_takeWhile_add {α : Type} {p q : α → Bool} {a b : List α}
    (ha : ∀ x ∈ a, q x = true) (hb : ∀ x ∈ b.head?, p x = false ∧ q x = false) :
    ((a ++ b).takeWhile p).length +
      (((a ++ b).drop ((a ++ b).takeWhile p).length).takeWhile q).length = a.length := by
  induction a with
  | nil => cases b <;> simp_all
  | cons x a ih =>
    obtain ⟨hx, ha⟩ := List.forall_mem_cons.1 ha
    by_cases hp : p x
    · have := ih ha
      simp [hp]
      omega
    · have hq : (a ++ b).takeWhile q = a := by
        rw [List.takeWhile_append_of_pos ha]
        cases b <;> simp_all
      simp [hp, hx, hq]

theorem width?_restOfLine {line : List Item} {rest : List Group}
    (hl : ∀ i ∈ line, i.endsLine = false)
    (hr : rest = [] ∨ ∃ i rest', rest = item i :: rest' ∧ i.endsLine = true ∧
      i.token.kind = .newline) :
    width? s true false [.restOfLine] (line.map item ++ rest) = some line.length := by
  have htaken := length_takeWhile_add (p := isSkippable true) (q := fun g => !g.endsLine)
    (a := line.map item) (b := rest) (by simpa [Group.endsLine] using hl) (by
      rcases hr with rfl | ⟨i, rest', rfl, he, hk⟩
      · simp
      · simp [isSkippable, Group.endsLine, he, hk, Kind.isTrivia])
  rw [width?.eq_2, width?, Option.map_some]
  simpa using htaken

end Pattern

namespace Schema

open ShaderInline.Group ShaderInline.Pattern

theorem glsl_patterns :
    glsl.patterns = [importPattern, directivePattern, functionPattern, structPattern] := rfl

variable {i : Item} {g : Group} {gs : List Group}

theorem extent?_importPattern (gs : List Group) : importPattern.extent? glsl gs =
    width? glsl true true [.tag (some "import".toList), .quoted] gs := rfl

theorem extent?_directivePattern (gs : List Group) : directivePattern.extent? glsl gs =
    width? glsl true true [.tag none, .restOfLine] gs := rfl

theorem isSkippable_tag (hi : i.token.kind = .tag) : (item i).isSkippable false = false := by
  simp [isSkippable, hi, Kind.isTrivia]

theorem matchAt?_cons (hg : g.isSkippable false = false) : glsl.matchAt? (g :: gs) =
    [importPattern, directivePattern, functionPattern, structPattern].findSome? fun p =>
      (p.extent? glsl (g :: gs)).map fun n => (p.kind, n - 1) := by
  rw [matchAt?, hg, glsl_patterns]
  rfl

theorem matchAt?_import (hi : i.token.kind = .tag)
    (hn : glsl.tagName i.token.text = "import".toList) {w : Nat}
    (hw : width? glsl true false [.quoted] gs = some w) :
    glsl.matchAt? (item i :: gs) = some (.importDirective, w) := by
  have himp : importPattern.extent? glsl (item i :: gs) = some (1 + w) := by
    have ha : Matcher.accepts glsl (.tag (some "import".toList)) (item i) = true := by
      simp [Matcher.accepts, hi, hn]
    rw [extent?_importPattern, width?_cons (by simp) (.inl rfl), if_pos ha, hw, Option.map_some]
  rw [matchAt?_cons (isSkippable_tag hi)]
  simp only [List.findSome?_cons, himp, Option.map_some, Nat.add_sub_cancel_left]
  rfl

theorem matchAt?_directive (hi : i.token.kind = .tag)
    (hn : glsl.tagName i.token.text = "import".toList → width? glsl true false [.quoted] gs = none)
    {w : Nat} (hw : width? glsl true false [.restOfLine] gs = some w) :
    glsl.matchAt? (item i :: gs) = some (.directive, w) := by
  have himp : importPattern.extent? glsl (item i :: gs) = none := by
    rw [extent?_importPattern, width?_cons (by simp) (.inl rfl)]
    refine ite_eq_right_iff.2 fun ha => ?_
    rw [hn (by simpa [Matcher.accepts, hi] using ha), Option.map_none]
  have hdir : directivePattern.extent? glsl (item i :: gs) = some (1 + w) := by
    have ha : Matcher.accepts glsl (.tag none) (item i) = true := by simp [Matcher.accepts, hi]
    rw [extent?_directivePattern, width?_cons (by simp) (.inl rfl), if_pos ha, hw, Option.map_some]
  rw [matchAt?_cons (isSkippable_tag hi)]
  simp only [List.findSome?_cons, himp, hdir, Option.map_none, Option.map_some,
    Nat.add_sub_cancel_left]
  rfl

theorem extent?_plain (hg : g.isTag = false) {p : Pattern}
    (hp : p = importPattern ∨ p = directivePattern) : p.extent? glsl (g :: gs) = none := by
  have ha (name : Option Text) : Matcher.accepts glsl (.tag name) g = false := by
    cases g <;> simp_all [Matcher.accepts, isTag]
  rcases hp with rfl | rfl
  · rw [extent?_importPattern, width?_cons (by simp) (.inl rfl), ha]
    rfl
  · rw [extent?_directivePattern, width?_cons (by simp) (.inl rfl), ha]
    rfl

theorem isTag_of_accepts {s : Schema} {m : Matcher} (h : m.accepts s g = true)
    (ht : ∀ name, m ≠ .tag name) (ha : ∀ ms, m ≠ .anyOf ms) : g.isTag = false := by
  cases g with
  | item i => cases m <;> simp_all [Matcher.accepts, Token.isQuoted, isTag]
  | _ => rfl

theorem accepts_plain (s : Schema) {p : Pattern} (hp : p = functionPattern ∨ p = structPattern) :
    ∀ m ∈ p.matchers, m ≠ .restOfLine ∧ ∀ g : Group, m.accepts s g = true → g.isTag = false := by
  rcases hp with rfl | rfl <;> intro m hm
  · rcases hm with _ | ⟨_, _ | ⟨_, _ | ⟨_, _ | ⟨_, _ | _⟩⟩⟩⟩
    · refine ⟨nofun, fun g hg => ?_⟩
      rw [Matcher.accepts, Matcher.anyAccepts, Matcher.anyAccepts, Matcher.anyAccepts,
        Bool.or_false, Bool.or_eq_true] at hg
      exact hg.elim (isTag_of_accepts · nofun nofun) (isTag_of_accepts · nofun nofun)
    all_goals exact ⟨nofun, fun g hg => isTag_of_accepts hg nofun nofun⟩
  · rcases hm with _ | ⟨_, _ | ⟨_, _ | ⟨_, _ | _⟩⟩⟩
    all_goals exact ⟨nofun, fun g hg => isTag_of_accepts hg nofun nofun⟩

theorem exists_taken {p : Pattern} (hp : p = functionPattern ∨ p = structPattern) {w : Nat}
    (hw : p.extent? glsl (g :: gs) = some w) :
    ∃ taken rest, gs = taken ++ rest ∧ taken.length = w - 1 ∧ ∀ g ∈ taken, g.isTag = false := by
  have hwidth : width? glsl p.singleLine true p.matchers (g :: gs) = some w := by
    rcases hp with rfl | rfl <;> exact hw
  obtain ⟨taken, rest, hgs, rfl, ht⟩ := width?_plain hwidth (accepts_plain glsl hp)
  cases taken with
  | nil => exact ⟨[], gs, rfl, rfl, by simp⟩
  | cons g' taken =>
    obtain ⟨rfl, rfl⟩ := List.cons_eq_cons.1 hgs
    exact ⟨taken, rest, rfl, rfl, (List.forall_mem_cons.1 ht).2⟩

theorem matchAt?_plain (hg : g.isTag = false) :
    glsl.matchAt? (g :: gs) = none ∨ ∃ k taken rest, gs = taken ++ rest ∧
      glsl.matchAt? (g :: gs) = some (k, taken.length) ∧ (k = .function ∨ k = .struct) ∧
      ∀ g ∈ taken, g.isTag = false := by
  by_cases hskip : g.isSkippable false
  · exact .inl (by rw [matchAt?, if_pos hskip])
  rcases hm : glsl.matchAt? (g :: gs) with - | ⟨k, w⟩
  · exact .inl rfl
  have hfind := hm
  rw [matchAt?_cons (by simpa using hskip)] at hfind
  obtain ⟨p, hp, he⟩ := List.exists_of_findSome?_eq_some hfind
  obtain ⟨w', hw, hkw⟩ := Option.map_eq_some_iff.1 he
  obtain ⟨rfl, rfl⟩ := Prod.mk.inj hkw
  rw [List.mem_cons, List.mem_cons, List.mem_pair] at hp
  rcases hp with hp | hp | hp
  · exact absurd hw (by rw [extent?_plain hg (.inl hp)]; exact nofun)
  · exact absurd hw (by rw [extent?_plain hg (.inr hp)]; exact nofun)
  · obtain ⟨taken, rest, rfl, ht, hplain⟩ := exists_taken hp hw
    have hk : p.kind = .function ∨ p.kind = .struct := by
      rcases hp with rfl | rfl
      · exact .inl rfl
      · exact .inr rfl
    exact .inr ⟨p.kind, taken, rest, rfl, by rw [ht], hk, hplain⟩

end Schema
end ShaderInline
