import Mathlib
import ShaderInline.Text.Search

/-! # Offsets and bytes

The offsets of a text are the sizes of its leading parts. A text is cut in one
way only at an offset, so that two cuts at equal offsets agree. Each character
stands for at least one byte, and the bytes of a text are as many as its size.
-/

namespace ShaderInline.Text

theorem size_eq_zero_iff {t : Text} : size t = 0 ↔ t = [] := by
  cases t with
  | nil => simp
  | cons c cs =>
    have := c.utf8Size_pos
    simp only [size_cons, reduceCtorEq, iff_false]
    omega

theorem size_pos_iff {t : Text} : 0 < size t ↔ t ≠ [] := by
  rw [Nat.pos_iff_ne_zero, ne_eq, size_eq_zero_iff]

theorem append_inj_of_size {a b c d : Text} (h : a ++ b = c ++ d) (hs : size a = size c) :
    a = c ∧ b = d := by
  induction a generalizing c with
  | nil =>
    obtain rfl : c = [] := size_eq_zero_iff.mp hs.symm
    exact ⟨rfl, h⟩
  | cons x a ih =>
    cases c with
    | nil =>
      have := x.utf8Size_pos
      simp only [size_cons, size_nil] at hs
      omega
    | cons y c =>
      obtain ⟨rfl, h'⟩ := List.cons_eq_cons.mp h
      obtain ⟨rfl, rfl⟩ := ih h' (by simpa using hs)
      exact ⟨rfl, rfl⟩

theorem exists_append_of_size_le {a b c d : Text} (h : a ++ b = c ++ d) (hs : size a ≤ size c) :
    ∃ m, c = a ++ m ∧ b = m ++ d := by
  obtain ⟨m, rfl, rfl⟩ | ⟨m, rfl, rfl⟩ := List.append_eq_append_iff.mp h
  · exact ⟨m, rfl, rfl⟩
  · obtain rfl : m = [] := size_eq_zero_iff.mp (by rw [size_append] at hs; omega)
    exact ⟨[], by simp⟩

theorem exists_char_at {t : Text} {n : Nat} (h : n < size t) :
    ∃ a c b k, t = a ++ c :: b ∧ n = size a + k ∧ k < c.utf8Size := by
  induction t generalizing n with
  | nil => simp at h
  | cons c t ih =>
    rcases Nat.lt_or_ge n c.utf8Size with hlt | hge
    · exact ⟨[], c, t, n, rfl, by simp, hlt⟩
    · obtain ⟨a, d, b, k, rfl, hn, hk⟩ := ih (n := n - c.utf8Size) (by simp at h; omega)
      exact ⟨c :: a, d, b, k, rfl, by simp; omega, hk⟩

theorem exists_append_of_le_char {a b u v : Text} {c : Char} {k : Nat} (h : a ++ b = u ++ c :: v)
    (hk : k < c.utf8Size) (hs : size a ≤ size u + k) : ∃ m, u = a ++ m ∧ b = m ++ c :: v := by
  rcases List.append_eq_append_iff.1 h with ⟨m, rfl, rfl⟩ | ⟨m, rfl, hm⟩
  · exact ⟨m, rfl, rfl⟩
  · cases m with
    | nil => exact ⟨[], by simp, hm.symm⟩
    | cons d m =>
      obtain ⟨rfl, -⟩ := List.cons_eq_cons.1 hm
      simp at hs
      omega

theorem splitAt?_size_append (a b : Text) : splitAt? (size a) (a ++ b) = some (a, b) := by
  induction a with
  | nil => cases b <;> rfl
  | cons c a ih =>
    obtain ⟨n, hn⟩ : ∃ n, size (c :: a) = n + 1 :=
      Nat.exists_eq_succ_of_ne_zero (size_eq_zero_iff.not.mpr (by simp))
    have hc : c.utf8Size ≤ n + 1 := by rw [← hn, size_cons]; omega
    have hr : n + 1 - c.utf8Size = size a := by rw [← hn, size_cons]; omega
    rw [hn, List.cons_append, splitAt?, if_pos hc, hr, ih]
    rfl

theorem isBoundary_size_append (a b : Text) : isBoundary (size a) (a ++ b) = true := by
  rw [isBoundary, splitAt?_size_append]
  rfl

@[simp] theorem takeBytes_zero (t : Text) : takeBytes 0 t = [] := by
  cases t with
  | nil => rfl
  | cons c cs =>
    have := c.utf8Size_pos
    rw [takeBytes, if_neg (by omega)]

@[simp] theorem dropBytes_zero (t : Text) : dropBytes 0 t = t := by cases t <;> rfl

theorem takeBytes_size_add (a b : Text) (n : Nat) :
    takeBytes (size a + n) (a ++ b) = a ++ takeBytes n b := by
  induction a with
  | nil => simp
  | cons c a ih =>
    rw [List.cons_append, takeBytes, if_pos (by rw [size_cons]; omega),
      show size (c :: a) + n - c.utf8Size = size a + n by rw [size_cons]; omega, ih]
    rfl

theorem dropBytes_size_add (a b : Text) (n : Nat) :
    dropBytes (size a + n) (a ++ b) = dropBytes n b := by
  induction a with
  | nil => simp
  | cons c a ih =>
    have := c.utf8Size_pos
    obtain ⟨k, hk⟩ : ∃ k, size (c :: a) + n = k + 1 :=
      Nat.exists_eq_succ_of_ne_zero (by rw [size_cons]; omega)
    rw [hk, List.cons_append, dropBytes,
      show k + 1 - c.utf8Size = size a + n by rw [← hk, size_cons]; omega, ih]

@[simp] theorem takeBytes_size_append (a b : Text) : takeBytes (size a) (a ++ b) = a := by
  simpa using takeBytes_size_add a b 0

@[simp] theorem dropBytes_size_append (a b : Text) : dropBytes (size a) (a ++ b) = b := by
  simpa using dropBytes_size_add a b 0

theorem exists_between {t x u z : Text} {d : Char} {p k : Nat} (ht : t = x ++ (u ++ d :: z))
    (hk : k < d.utf8Size) (hcut : ∃ a b, t = a ++ b ∧ size a = p) (hx : size x ≤ p)
    (hp : p ≤ size (x ++ u) + k) : ∃ a m, u = a ++ m ∧ p = size x + size a ∧
      takeBytes (size (x ++ u) + k - p) (dropBytes p t) = m := by
  obtain ⟨a, b, hab, rfl⟩ := hcut
  obtain ⟨a, rfl, hb⟩ := exists_append_of_size_le (ht.symm.trans hab) hx
  rw [size_append, size_append] at hp
  obtain ⟨m, rfl, rfl⟩ := exists_append_of_le_char hb.symm hk (by omega)
  have hk' : size (x ++ (a ++ m)) + k - size (x ++ a) = size m + k := by
    simp only [size_append]
    omega
  refine ⟨a, m, rfl, size_append x a, ?_⟩
  rw [hk', hab, dropBytes_size_append, takeBytes_size_add, takeBytes, if_neg (by omega),
    List.append_nil]

def bytes (t : Text) : List UInt8 := t.flatMap String.utf8EncodeChar

@[simp] theorem bytes_append (s t : Text) : bytes (s ++ t) = bytes s ++ bytes t :=
  List.flatMap_append

@[simp] theorem length_bytes (t : Text) : (bytes t).length = size t := by
  induction t with
  | nil => rfl
  | cons c t ih =>
    rw [bytes, List.flatMap_cons, List.length_append, String.length_utf8EncodeChar, size_cons]
    exact congrArg _ ih

/-- A part of a text keeps its bytes: they stand after those of what precedes it. -/
theorem getElem?_bytes_append (a y b : Text) {n : Nat} (h : n < size y) :
    (bytes (a ++ (y ++ b)))[size a + n]? = (bytes y)[n]? := by
  rw [bytes_append, bytes_append, List.getElem?_append_right (by simp), length_bytes,
    Nat.add_sub_cancel_left, List.getElem?_append_left (by simpa using h)]

theorem getElem?_bytes_char (a b : Text) {c : Char} {k : Nat} (hk : k < c.utf8Size) :
    (bytes (a ++ c :: b))[size a + k]? = (bytes [c])[k]? := by
  have := getElem?_bytes_append a [c] b (n := k) (by simpa using hk)
  simpa using this

end ShaderInline.Text
