import ChainMachine.Text.Utf8

/-!
# Decoding what was encoded

* `Utf8.encode_ofList`: the bytes of a text are those of its characters, in order;
* `Utf8.foldl_feed_encodeChar`: the bytes of a character are decoded to it;
* `Utf8.decode_encode`: the bytes of a text are decoded to it.
-/

namespace ChainMachine.Utf8

/-- The bytes of a text are those of its characters. -/
theorem encode_ofList (cs : List Char) :
    encode (String.ofList cs) = cs.flatMap String.utf8EncodeChar := by
  simp [encode, List.utf8Encode]

/-! ### One byte -/

namespace Decoder

theorem step_none (t : String) (b : Nat) : step { text := t } b = begin t b := rfl

theorem begin_of_lt (t : String) {b : Nat} (h : b < 0x80) :
    begin t b = { text := t.push (Char.ofNat b) } := by
  rw [begin, if_pos h]

theorem begin_of_lead (t : String) {b : Nat} {s : Sequence} (h : 0x80 ≤ b)
    (hs : Sequence.ofLead? b = some s) : begin t b = { text := t, pending := some s } := by
  rw [begin, if_neg (by omega), hs]

/-- The last byte of a sequence. -/
theorem step_last (t : String) {s : Sequence} {b : Nat} (hl : s.low ≤ b) (hh : b ≤ s.high)
    (hm : s.missing ≤ 1) :
    step { text := t, pending := some s } b =
      { text := t.push (Char.ofNat (s.bits * 64 + b % 64)) } := by
  simp [step, hl, hh, hm]

/-- A byte in the middle of a sequence. -/
theorem step_next (t : String) {s : Sequence} {b : Nat} (hl : s.low ≤ b) (hh : b ≤ s.high)
    (hm : 1 < s.missing) :
    step { text := t, pending := some s } b =
      { text := t
        pending := some { bits := s.bits * 64 + b % 64, missing := s.missing - 1 } } := by
  simp [step, hl, hh, Nat.not_le.2 hm]

end Decoder

/-! ### One character -/

/-- The first of two bytes. -/
theorem ofLead?_two {b : Nat} (h : 0xC2 ≤ b) (h' : b < 0xE0) :
    Sequence.ofLead? b = some { bits := b % 32, missing := 1 } := by
  rw [Sequence.ofLead?, if_neg (by omega), if_pos h']

/-- The first of three bytes that encode a character admits the second. -/
theorem ofLead?_three {n : Nat} (h : 0x800 ≤ n) (h' : n < 0xD800 ∨ 0xDFFF < n ∧ n < 0x10000) :
    ∃ s, Sequence.ofLead? (n / 4096 + 224) = some s ∧ s.bits = n / 4096 ∧ s.missing = 2 ∧
      s.low ≤ n / 64 % 64 + 128 ∧ n / 64 % 64 + 128 ≤ s.high := by
  unfold Sequence.ofLead?
  split
  · omega
  split
  · omega
  split
  · exact ⟨_, rfl, by dsimp only; omega, rfl, by dsimp only; omega, by dsimp only; omega⟩
  split
  · exact ⟨_, rfl, by dsimp only; omega, rfl, by dsimp only; omega, by dsimp only; omega⟩
  split
  · exact ⟨_, rfl, by dsimp only; omega, rfl, by dsimp only; omega, by dsimp only; omega⟩
  · omega

/-- The first of four bytes that encode a character admits the second. -/
theorem ofLead?_four {n : Nat} (h : 0x10000 ≤ n) (h' : n < 0x110000) :
    ∃ s, Sequence.ofLead? (n / 262144 + 240) = some s ∧ s.bits = n / 262144 ∧ s.missing = 3 ∧
      s.low ≤ n / 4096 % 64 + 128 ∧ n / 4096 % 64 + 128 ≤ s.high := by
  unfold Sequence.ofLead?
  rw [if_neg (by omega), if_neg (by omega), if_neg (by omega), if_neg (by omega),
    if_neg (by omega)]
  split
  · exact ⟨_, rfl, by dsimp only; omega, rfl, by dsimp only; omega, by dsimp only; omega⟩
  split
  · exact ⟨_, rfl, by dsimp only; omega, rfl, by dsimp only; omega, by dsimp only; omega⟩
  split
  · exact ⟨_, rfl, by dsimp only; omega, rfl, by dsimp only; omega, by dsimp only; omega⟩
  · omega

/-- The bytes of a character are decoded to it. -/
theorem foldl_feed_encodeChar (t : String) (c : Char) :
    (String.utf8EncodeChar c).foldl Decoder.feed { text := t } = { text := t.push c } := by
  have hc : c.toNat < 0xD800 ∨ 0xDFFF < c.toNat ∧ c.toNat < 0x110000 := c.valid
  suffices key : ∀ n, c.toNat = n → (String.utf8EncodeChar c).foldl Decoder.feed { text := t } =
      { text := t.push (Char.ofNat n) } by
    rw [key _ rfl, Char.ofNat_toNat]
  intro n hn
  rw [hn] at hc
  have low (k : Nat) : (UInt8.ofNat (k % 64 + 128)).toNat = k % 64 + 128 := by simp; omega
  unfold String.utf8EncodeChar
  rw [show c.val.toNat = n from hn]
  dsimp only
  split
  · simp only [List.foldl, Decoder.feed, Decoder.step_none]
    rw [show (UInt8.ofNat n).toNat = n by simp; omega, Decoder.begin_of_lt t (by omega)]
  split
  · simp only [List.foldl, Decoder.feed, Decoder.step_none, low]
    rw [show (UInt8.ofNat (n / 64 % 32 + 192)).toNat = n / 64 + 192 by simp; omega,
      Decoder.begin_of_lead t (by omega) (ofLead?_two (by omega) (by omega)),
      Decoder.step_last t (by simp) (by simp; omega) (by simp)]
    congr 3
    simp
    omega
  split
  · obtain ⟨s, hs, hb, hm, hl, hh⟩ := ofLead?_three (n := n) (by omega) (by omega)
    simp only [List.foldl, Decoder.feed, Decoder.step_none, low]
    rw [show (UInt8.ofNat (n / 4096 % 16 + 224)).toNat = n / 4096 + 224 by simp; omega,
      Decoder.begin_of_lead t (by omega) hs, Decoder.step_next t hl hh (by omega),
      Decoder.step_last t (by simp) (by simp; omega) (by simp [hm])]
    congr 3
    simp [hb]
    omega
  · obtain ⟨s, hs, hb, hm, hl, hh⟩ := ofLead?_four (n := n) (by omega) (by omega)
    simp only [List.foldl, Decoder.feed, Decoder.step_none, low]
    rw [show (UInt8.ofNat (n / 262144 % 8 + 240)).toNat = n / 262144 + 240 by simp; omega,
      Decoder.begin_of_lead t (by omega) hs, Decoder.step_next t hl hh (by omega),
      Decoder.step_next t (by simp) (by simp; omega) (by simp [hm]),
      Decoder.step_last t (by simp) (by simp; omega) (by simp [hm])]
    congr 3
    simp [hb]
    omega

/-! ### Texts -/

theorem foldl_feed_flatMap (cs : List Char) (t : String) :
    (cs.flatMap String.utf8EncodeChar).foldl Decoder.feed { text := t } =
      { text := t ++ String.ofList cs } := by
  induction cs generalizing t with
  | nil => simp
  | cons c cs ih =>
    rw [List.flatMap_cons, List.foldl_append, foldl_feed_encodeChar, ih]
    congr 1
    rw [← String.toList_inj]
    simp

/-- The bytes of a text are decoded to it. -/
@[simp] theorem decode_encode (text : String) : decode (encode text) = text := by
  obtain ⟨cs, rfl⟩ := text.exists_eq_ofList
  rw [encode_ofList, decode, foldl_feed_flatMap]
  simp [Decoder.finish]

/-- Different texts have different bytes. -/
theorem encode_injective {s t : String} (h : encode s = encode t) : s = t := by
  rw [← decode_encode s, h, decode_encode]

end ChainMachine.Utf8
