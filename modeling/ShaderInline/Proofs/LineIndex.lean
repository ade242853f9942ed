import ShaderInline.LineIndex
import ShaderInline.Proofs.Text.Offset

/-! # Lines count line breaks

From one offset of a text to another the line grows by the number of line breaks
between them, unless the second offset splits the two characters of one.
-/

namespace ShaderInline

def Text.lineBreaks : Text → Nat
  | [] => 0
  | '\r' :: '\n' :: cs => lineBreaks cs + 1
  | c :: cs => if isLineBreak c then lineBreaks cs + 1 else lineBreaks cs

namespace LineIndex

open Text (lineBreaks isLineBreak size_cons)

variable {n k : Nat} {c : Char} {a b m t z : Text}

def endsLine (c : Char) (next : Option Char) : Bool := c == '\n' || (c == '\r' && next != some '\n')

theorem lineBreaks_cons (c : Char) (cs : Text) :
    lineBreaks (c :: cs) = (if endsLine c cs.head? then 1 else 0) + lineBreaks cs := by
  by_cases h : c = '\r' ∧ cs.head? = some '\n'
  · obtain ⟨rfl, h⟩ := h
    obtain ⟨cs, rfl⟩ := List.head?_eq_some_iff.1 h
    simp [lineBreaks, endsLine, isLineBreak, Nat.add_comm]
  · have hc : ∀ ds, c = '\r' → cs = '\n' :: ds → False := by
      rintro ds rfl rfl
      exact h ⟨rfl, rfl⟩
    rw [lineBreaks.eq_3 _ _ hc]
    grind [endsLine, isLineBreak]

theorem startsFrom_cons (n : Nat) (c : Char) (cs : Text) :
    startsFrom n (c :: cs) =
      (if endsLine c cs.head? then [n + c.utf8Size] else []) ++ startsFrom (n + c.utf8Size) cs := by
  unfold endsLine
  rw [startsFrom]
  split <;> rfl

theorem lt_of_mem_startsFrom (h : k ∈ startsFrom n t) : n < k := by
  induction t generalizing n with
  | nil => cases h
  | cons c cs ih =>
    have := c.utf8Size_pos
    rw [startsFrom_cons, List.mem_append] at h
    rcases h with h | h
    · split at h
      · obtain rfl := List.mem_singleton.1 h
        omega
      · cases h
    · have := ih h
      omega

theorem exists_startsFrom_append (n : Nat) (a b : Text) :
    ∃ l, (∀ k ∈ l, k ≤ n + Text.size a) ∧
      startsFrom n (a ++ b) = l ++ startsFrom (n + Text.size a) b := by
  induction a generalizing n with
  | nil => exact ⟨[], by simp, by simp⟩
  | cons c a ih =>
    obtain ⟨l, hl, he⟩ := ih (n + c.utf8Size)
    refine ⟨(if endsLine c (a ++ b).head? then [n + c.utf8Size] else []) ++ l, ?_, ?_⟩
    · intro k hk
      rcases List.mem_append.1 hk with hk | hk
      · split at hk
        · obtain rfl := List.mem_singleton.1 hk
          simp
        · cases hk
      · have := hl k hk
        simp only [size_cons]
        omega
    · rw [List.cons_append, startsFrom_cons, he, List.append_assoc, size_cons, Nat.add_assoc]

theorem takeWhile_startsFrom (h : k ≤ n) : (startsFrom n t).takeWhile (· ≤ k) = [] := by
  cases hs : startsFrom n t with
  | nil => rfl
  | cons i l =>
    have hi : n < i := lt_of_mem_startsFrom (hs ▸ List.mem_cons_self)
    rw [List.takeWhile_cons_of_neg (by simp; omega)]

theorem line_add_eq (a b : Text) (k : Nat) : (ofText (a ++ b)).line (Text.size a + k) =
    (ofText (a ++ b)).line (Text.size a) +
      ((startsFrom (Text.size a) b).takeWhile (· ≤ Text.size a + k)).length := by
  obtain ⟨l, hl, he⟩ := exists_startsFrom_append 0 a b
  rw [Nat.zero_add] at hl he
  have hall : ∀ j, Text.size a ≤ j → ∀ i ∈ 0 :: l, decide (i ≤ j) = true := by
    intro j hj i hi
    rcases List.mem_cons.1 hi with rfl | hi
    · simp
    · have := hl i hi
      exact decide_eq_true (by omega)
  simp only [line, ofText, he, ← List.cons_append]
  rw [List.takeWhile_append_of_pos (hall _ (by omega)),
    List.takeWhile_append_of_pos (hall _ (Nat.le_refl _)), takeWhile_startsFrom (Nat.le_refl _),
    List.append_nil, List.length_append]

theorem line_inside (h : k < c.utf8Size) :
    (ofText (a ++ c :: b)).line (Text.size a + k) = (ofText (a ++ c :: b)).line (Text.size a) := by
  rw [line_add_eq, startsFrom_cons]
  split
  · simp [h]
  · simp [takeWhile_startsFrom (show Text.size a + k ≤ Text.size a + c.utf8Size by omega)]

theorem line_char (a : Text) (c : Char) (b : Text) :
    (ofText (a ++ c :: b)).line (Text.size (a ++ [c])) =
      (ofText (a ++ c :: b)).line (Text.size a) + if endsLine c b.head? then 1 else 0 := by
  have hs : Text.size (a ++ [c]) = Text.size a + c.utf8Size := by simp
  rw [hs, line_add_eq, startsFrom_cons]
  split <;> simp [takeWhile_startsFrom (Nat.le_refl _)]

theorem line_lineBreaks (a m : Text) (hz : z.head? ≠ some '\n') :
    (ofText (a ++ (m ++ z))).line (Text.size (a ++ m)) =
      (ofText (a ++ (m ++ z))).line (Text.size a) + lineBreaks m := by
  induction m generalizing a with
  | nil => simp [lineBreaks]
  | cons c m ih =>
    have hnext : endsLine c (m ++ z).head? = endsLine c m.head? := by
      cases m with
      | nil =>
        have hz' : (z.head? != some '\n') = true := bne_iff_ne.2 hz
        simp only [endsLine, List.nil_append, hz', List.head?_nil]
        rfl
      | cons => rfl
    have hstep := line_char a c (m ++ z)
    have hrest := ih (a ++ [c])
    rw [List.append_assoc, List.singleton_append, List.append_assoc, List.singleton_append] at hrest
    rw [List.cons_append, hrest, hstep, hnext, lineBreaks_cons, Nat.add_assoc]

end LineIndex
end ShaderInline
