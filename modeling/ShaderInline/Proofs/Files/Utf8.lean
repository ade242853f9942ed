import ShaderInline.Files.Utf8

/-! # Texts in bytes

A text is read back from its bytes. A byte below 0x80 is a character by itself
and no part of another one, even among bytes that encode no text: so such a
character is decoded just where its byte stands.
-/

namespace ShaderInline.Utf8

variable {c : Char} {s t : Text} {b first : UInt8} {bytes rest : Bytes} {n : Nat}

theorem toNat_byte (h : n < 0x100) : (UInt8.ofNat n).toNat = n := UInt8.toNat_ofNat_of_lt' h

theorem toNat_char (h : n.isValidChar) : (Char.ofNat n).toNat = n := by
  rw [Char.ofNat, dif_pos h]
  rfl

theorem toNat_tail (n unit : Nat) :
    (UInt8.ofNat (0x80 + n / unit % 0x40)).toNat = 0x80 + n / unit % 0x40 :=
  toNat_byte (by omega)

/-! ### Encoding -/

theorem encodeChar_of_lt (h : c.toNat < 0x80) : encodeChar c = [UInt8.ofNat c.toNat] := if_pos h

theorem le_of_mem_encodeChar (h : 0x80 ≤ c.toNat) (hb : b ∈ encodeChar c) : 0x80 ≤ b.toNat := by
  have hvalid : c.toNat.isValidChar := c.valid
  unfold Nat.isValidChar at hvalid
  have hlead {n : Nat} (hn : 0x80 ≤ n) (hn' : n < 0x100) : 0x80 ≤ (UInt8.ofNat n).toNat := by
    rwa [toNat_byte hn']
  have htail (unit : Nat) : 0x80 ≤ (UInt8.ofNat (0x80 + c.toNat / unit % 0x40)).toNat :=
    hlead (by omega) (by omega)
  unfold encodeChar at hb
  dsimp only at hb
  rw [if_neg (Nat.not_lt.2 h)] at hb
  repeat' split at hb
  all_goals
    simp only [List.mem_cons, List.not_mem_nil, or_false] at hb
    rcases hb with rfl | hb
    · exact hlead (by omega) (by omega)
  · exact hb ▸ htail 1
  · rcases hb with rfl | rfl
    · exact htail 0x40
    · exact htail 1
  · rcases hb with rfl | rfl | rfl
    · exact htail 0x1000
    · exact htail 0x40
    · exact htail 1

theorem encode_append (s t : Text) : encode (s ++ t) = encode s ++ encode t :=
  List.flatMap_append

/-- A byte below 0x80 stands for its character only. -/
theorem mem_of_mem_encode (hb : b ∈ encode t) (h : b.toNat < 0x80) : Char.ofNat b.toNat ∈ t := by
  obtain ⟨c, hc, hb⟩ := List.mem_flatMap.1 hb
  by_cases hlt : c.toNat < 0x80
  · rw [encodeChar_of_lt hlt, List.mem_singleton] at hb
    rwa [hb, toNat_byte (by omega), Char.ofNat_toNat]
  · exact absurd (le_of_mem_encodeChar (Nat.not_lt.1 hlt) hb) (Nat.not_le.2 h)

/-! ### Decoding a character -/

theorem width_eq_iff : (width n = 1 ↔ n < 0x80) ∧ (width n = 2 ↔ 0xc2 ≤ n ∧ n < 0xe0) ∧
    (width n = 3 ↔ 0xe0 ≤ n ∧ n < 0xf0) ∧ (width n = 4 ↔ 0xf0 ≤ n ∧ n < 0xf5) := by
  unfold width
  repeat' split
  all_goals simp_all
  all_goals omega

theorem isSecond_iff {a b : Nat} : isSecond a b = true ↔ 0x80 ≤ b ∧ b < 0xc0 ∧
    (a = 0xe0 → 0xa0 ≤ b) ∧ (a = 0xed → b < 0xa0) ∧ (a = 0xf0 → 0x90 ≤ b) ∧
    (a = 0xf4 → b < 0x90) := by
  unfold isSecond
  repeat' split
  all_goals simp_all
  all_goals omega

theorem isTail_iff : isTail n = true ↔ 0x80 ≤ n ∧ n < 0xc0 := by
  simp [isTail]

theorem head_one (h : first.toNat < 0x80) (rest : Bytes) :
    head first rest = (some (Char.ofNat first.toNat), 0) := by
  simp only [head, width_eq_iff.1.2 h]

section

variable {x y z : UInt8}

theorem head_two (hw : width first.toNat = 2) (hx : isSecond first.toNat x.toNat = true) :
    head first (x :: rest) =
      (some (Char.ofNat ((first.toNat - 0xc0) * 64 + x.toNat % 64)), 1) := by
  simp only [head, hw, hx, if_true]

theorem head_three (hw : width first.toNat = 3) (hx : isSecond first.toNat x.toNat = true)
    (hy : isTail y.toNat = true) : head first (x :: y :: rest) =
      (some (Char.ofNat
        (((first.toNat - 0xe0) * 64 + x.toNat % 64) * 64 + y.toNat % 64)), 2) := by
  simp [head, hw, hx, hy]

theorem head_four (hw : width first.toNat = 4) (hx : isSecond first.toNat x.toNat = true)
    (hy : isTail y.toNat = true) (hz : isTail z.toNat = true) :
    head first (x :: y :: z :: rest) =
      (some (Char.ofNat ((((first.toNat - 0xf0) * 64 + x.toNat % 64) * 64 + y.toNat % 64) * 64 +
        z.toNat % 64)), 3) := by
  simp [head, hw, hx, hy, hz]

end

theorem le_of_head (h : 0x80 ≤ first.toNat) (hc : (head first rest).1 = some c) :
    0x80 ≤ c.toNat := by
  have hchar {n : Nat} (hn : 0x80 ≤ n) (hv : n.isValidChar) (he : some (Char.ofNat n) = some c) :
      0x80 ≤ c.toNat := by
    rwa [← Option.some.inj he, toNat_char hv]
  unfold head at hc
  dsimp only at hc
  split at hc
  next => cases hc
  next hw => exact absurd (width_eq_iff.1.1 hw) (Nat.not_lt.2 h)
  next x _ hw =>
    have hw := width_eq_iff.2.1.1 hw
    split at hc
    next hx => exact hchar (by omega) (.inl (by omega)) hc
    next => cases hc
  next x rest hw =>
    have hw := width_eq_iff.2.2.1.1 hw
    split at hc
    next => cases hc
    next hx =>
      have hx := isSecond_iff.1 (by simpa using hx)
      split at hc
      next y _ =>
        split at hc
        next hy =>
          have hy := isTail_iff.1 hy
          refine hchar (by omega) ?_ hc
          unfold Nat.isValidChar
          omega
        next => cases hc
      next => cases hc
  next x rest hw =>
    have hw := width_eq_iff.2.2.2.1 hw
    split at hc
    next => cases hc
    next hx =>
      have hx := isSecond_iff.1 (by simpa using hx)
      split at hc
      next y rest =>
        split at hc
        next => cases hc
        next hy =>
          split at hc
          next z _ =>
            split at hc
            next hz =>
              refine hchar (by omega) ?_ hc
              unfold Nat.isValidChar
              omega
            next => cases hc
          next => cases hc
      next => cases hc
  next => cases hc

/-! ### Reading a text back -/

theorem decodeFrom_length (bytes rest : Bytes) :
    decodeFrom bytes.length (bytes ++ rest) = decode rest := by
  induction bytes with
  | nil => rfl
  | cons b bytes ih => exact ih

theorem decode_of_head (h : head first (bytes ++ rest) = (some c, bytes.length)) :
    decode (first :: bytes ++ rest) = some c :: decode rest := by
  rw [decode, List.cons_append, decodeFrom, h, decodeFrom_length]

theorem head_encode_two (h : 0x80 ≤ n) (h' : n < 0x800) (rest : Bytes) :
    head (UInt8.ofNat (0xc0 + n / 0x40)) (UInt8.ofNat (0x80 + n / 1 % 0x40) :: rest) =
      (some (Char.ofNat n), 1) := by
  have hfirst : (UInt8.ofNat (0xc0 + n / 0x40)).toNat = 0xc0 + n / 0x40 := toNat_byte (by omega)
  have hval : (0xc0 + n / 0x40 - 0xc0) * 64 + (0x80 + n / 1 % 0x40) % 64 = n := by omega
  rw [head_two, hfirst, toNat_tail, hval]
  · rw [hfirst, width_eq_iff.2.1]
    omega
  · rw [hfirst, toNat_tail, isSecond_iff]
    omega

theorem head_encode_three (h : 0x800 ≤ n) (h' : n < 0x10000) (hv : n.isValidChar) (rest : Bytes) :
    head (UInt8.ofNat (0xe0 + n / 0x1000)) (UInt8.ofNat (0x80 + n / 0x40 % 0x40) ::
      UInt8.ofNat (0x80 + n / 1 % 0x40) :: rest) = (some (Char.ofNat n), 2) := by
  unfold Nat.isValidChar at hv
  have hfirst : (UInt8.ofNat (0xe0 + n / 0x1000)).toNat = 0xe0 + n / 0x1000 :=
    toNat_byte (by omega)
  have hval : ((0xe0 + n / 0x1000 - 0xe0) * 64 + (0x80 + n / 0x40 % 0x40) % 64) * 64 +
      (0x80 + n / 1 % 0x40) % 64 = n := by omega
  rw [head_three, hfirst, toNat_tail, toNat_tail, hval]
  · rw [hfirst, width_eq_iff.2.2.1]
    omega
  · rw [hfirst, toNat_tail, isSecond_iff]
    omega
  · rw [toNat_tail, isTail_iff]
    omega

theorem head_encode_four (h : 0x10000 ≤ n) (h' : n < 0x110000) (rest : Bytes) :
    head (UInt8.ofNat (0xf0 + n / 0x40000)) (UInt8.ofNat (0x80 + n / 0x1000 % 0x40) ::
      UInt8.ofNat (0x80 + n / 0x40 % 0x40) :: UInt8.ofNat (0x80 + n / 1 % 0x40) :: rest) =
      (some (Char.ofNat n), 3) := by
  have hfirst : (UInt8.ofNat (0xf0 + n / 0x40000)).toNat = 0xf0 + n / 0x40000 :=
    toNat_byte (by omega)
  have hval : (((0xf0 + n / 0x40000 - 0xf0) * 64 + (0x80 + n / 0x1000 % 0x40) % 64) * 64 +
      (0x80 + n / 0x40 % 0x40) % 64) * 64 + (0x80 + n / 1 % 0x40) % 64 = n := by omega
  rw [head_four, hfirst, toNat_tail, toNat_tail, toNat_tail, hval]
  · rw [hfirst, width_eq_iff.2.2.2]
    omega
  · rw [hfirst, toNat_tail, isSecond_iff]
    omega
  · rw [toNat_tail, isTail_iff]
    omega
  · rw [toNat_tail, isTail_iff]
    omega

theorem decode_encodeChar (c : Char) (rest : Bytes) :
    decode (encodeChar c ++ rest) = some c :: decode rest := by
  have hv : c.toNat.isValidChar := c.valid
  have hlt : c.toNat < 0x110000 := by
    unfold Nat.isValidChar at hv
    omega
  have hc := Char.ofNat_toNat c
  unfold encodeChar
  dsimp only
  split
  next h =>
    have hfirst : (UInt8.ofNat c.toNat).toNat = c.toNat := toNat_byte (by omega)
    apply decode_of_head
    rw [head_one (by rwa [hfirst]), hfirst, hc]
    rfl
  split
  next h h' => exact decode_of_head ((head_encode_two (by omega) h' rest).trans (by rw [hc]; rfl))
  split
  next h h' =>
    exact decode_of_head ((head_encode_three (by omega) h' hv rest).trans (by rw [hc]; rfl))
  next h => exact decode_of_head ((head_encode_four (by omega) hlt rest).trans (by rw [hc]; rfl))

theorem decode_encode (t : Text) : decode (encode t) = t.map some := by
  induction t with
  | nil => rfl
  | cons c t ih => exact (decode_encodeChar c (encode t)).trans (congrArg (some c :: ·) ih)

theorem text?_encode (t : Text) : text? (encode t) = some t := by
  rw [text?, decode_encode]
  induction t with
  | nil => rfl
  | cons c t ih => simp_all

theorem lossyText_encode (t : Text) : lossyText (encode t) = t := by
  rw [lossyText, decode_encode, List.map_map]
  exact List.map_id t

theorem encode_inj : encode s = encode t ↔ s = t := by
  refine ⟨fun h => ?_, congrArg encode⟩
  rw [← lossyText_encode s, h, lossyText_encode]

/-! ### Bytes that need not encode a text -/

theorem lossyText_cons_of_lt (h : first.toNat < 0x80) (rest : Bytes) :
    lossyText (first :: rest) = Char.ofNat first.toNat :: lossyText rest := by
  rw [lossyText, decode, decodeFrom, head_one h]
  rfl

theorem exists_lossyText_cons (h : 0x80 ≤ first.toNat) (rest : Bytes) :
    ∃ c t, lossyText (first :: rest) = c :: t ∧ 0x80 ≤ c.toNat := by
  refine ⟨_, _, rfl, ?_⟩
  cases hc : (head first rest).1 with
  | none => exact (by decide : 0x80 ≤ 0xfffd)
  | some c => exact le_of_head h hc

theorem mem_of_mem_decodeFrom {skip : Nat} (hc : some c ∈ decodeFrom skip bytes)
    (h : c.toNat < 0x80) : UInt8.ofNat c.toNat ∈ bytes := by
  induction bytes generalizing skip with
  | nil => exact absurd hc List.not_mem_nil
  | cons first rest ih =>
    cases skip with
    | succ skip => exact List.mem_cons_of_mem _ (ih hc)
    | zero =>
      rcases List.mem_cons.1 hc with hc | hc
      · have hlt : first.toNat < 0x80 := Nat.not_le.1 fun hle =>
          absurd (le_of_head hle hc.symm) (Nat.not_le.2 h)
        rw [head_one hlt] at hc
        have hfirst : c.toNat = first.toNat := by
          rw [Option.some.inj hc, toNat_char (.inl (by omega))]
        rw [hfirst, UInt8.ofNat_toNat]
        exact List.mem_cons_self
      · exact List.mem_cons_of_mem _ (ih hc)

theorem mem_of_mem_lossyText (hc : c ∈ lossyText bytes) (h : c.toNat < 0x80) :
    UInt8.ofNat c.toNat ∈ bytes := by
  obtain ⟨x, hx, rfl⟩ := List.mem_map.1 hc
  cases x with
  | none => exact absurd h (by decide)
  | some c => exact mem_of_mem_decodeFrom hx h

/-- Only its own bytes are decoded to a text of characters below 0x80. -/
theorem encode_lossyText (h : ∀ c ∈ lossyText bytes, c.toNat < 0x80) :
    encode (lossyText bytes) = bytes := by
  induction bytes with
  | nil => rfl
  | cons first rest ih =>
    by_cases hlt : first.toNat < 0x80
    · rw [lossyText_cons_of_lt hlt] at h ⊢
      obtain ⟨hc, hrest⟩ := List.forall_mem_cons.1 h
      have hfirst : encodeChar (Char.ofNat first.toNat) = [first] := by
        rw [encodeChar_of_lt hc, toNat_char (.inl (by omega)), UInt8.ofNat_toNat]
      rw [encode, List.flatMap_cons, hfirst]
      exact congrArg (first :: ·) (ih hrest)
    · obtain ⟨c, t, ht, hc⟩ := exists_lossyText_cons (Nat.not_lt.1 hlt) rest
      rw [ht] at h
      exact absurd (h c List.mem_cons_self) (Nat.not_lt.2 hc)

end ShaderInline.Utf8
