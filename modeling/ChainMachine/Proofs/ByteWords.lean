import ChainMachine.Proofs.Decoding

/-!
# The words of bytes

A script could be cut into words before it is decoded: delimiters are ASCII bytes, which stand for
themselves and which no other bytes are decoded to.

* `Words.ofBytes`: the bytes between delimiters, empty pieces left out;
* `Words.ofBytes_append_cons`, `Words.ofBytes_append_gap`, `Words.ofBytes_gap_append`: what
  delimiters between bytes, and before them, do to the words;
* `Words.ofText_decode`: the words of a decoded text are the words of its bytes, decoded one by one;
* `Words.ofBytes_encode`: the words of an encoded text are its words, encoded one by one.
-/

namespace ChainMachine

/-- A delimiter is an ASCII byte, and is decoded to a separator. -/
theorem isSeparator_of_isDelimiter {b : UInt8} (h : isDelimiter b = true) :
    b.toNat < 0x80 ∧ isSeparator (Char.ofNat b.toNat) = true := by
  rw [isDelimiter_iff] at h
  have hlt : b.toNat < 0x80 := by
    simp only [List.mem_cons, List.not_mem_nil, or_false] at h
    omega
  rw [isSeparator_iff, Utf8.toNat_ofNat (.inl (by omega))]
  exact ⟨hlt, h⟩

/-- Bytes without a delimiter are not decoded to a separator. -/
theorem isSeparator_of_mem_decode {bytes : List UInt8} (h : ∀ b ∈ bytes, isDelimiter b = false)
    {c : Char} (hc : c ∈ (Utf8.decode bytes).toList) : isSeparator c = false := by
  rw [← Bool.not_eq_true]
  intro hsep
  rw [isSeparator_iff] at hsep
  have hascii : c.toNat < 0x80 := by
    simp only [List.mem_cons, List.not_mem_nil, or_false] at hsep
    omega
  obtain ⟨b, hb, heq⟩ := Utf8.exists_of_mem_decode hc hascii
  rw [← heq, ← isDelimiter_iff, h b hb] at hsep
  cases hsep

namespace Words

/-! ### Characters -/

/-- A separator between characters separates their words. -/
theorem split_append_cons {c : Char} (hc : isSeparator c = true) (cs ds : List Char) :
    split (cs ++ c :: ds) = split cs ++ split ds := by
  simp [split, List.splitOnP_append_cons cs ds hc]

theorem ofText_append_singleton {c : Char} (hc : isSeparator c = true) (s t : String) :
    ofText (s ++ String.singleton c ++ t) = ofText s ++ ofText t := by
  simp [ofText, split_append_cons hc]

theorem ofText_append_space (s t : String) : ofText (s ++ " " ++ t) = ofText s ++ ofText t :=
  ofText_append_singleton (c := ' ') (by decide) s t

/-- Characters without a separator are a word of their own, if there are any. -/
theorem ofText_eq_singleton {text : String} (h : ∀ c ∈ text.toList, isSeparator c = false)
    (hne : text ≠ "") : ofText text = [text] := by
  have hchars : text.toList ≠ [] := by
    simpa using hne
  rw [ofText, split, List.splitOnP_eq_singleton h]
  simp [hchars]

theorem IsWord.ofText_eq {word : String} (h : IsWord word) : ofText word = [word] :=
  ofText_eq_singleton h.2 h.1

/-- No line ends in the middle of a word. -/
theorem newline_notMem_encode_of_isSeparator {text : String}
    (h : ∀ c ∈ text.toList, isSeparator c = false) : Source.newline ∉ Utf8.encode text := by
  rw [← String.ofList_toList (s := text), Utf8.encode_ofList, List.mem_flatMap]
  rintro ⟨c, hc, hmem⟩
  have hdelimiter := isDelimiter_of_mem_encodeChar hmem
  rw [h c hc] at hdelimiter
  exact absurd hdelimiter (by decide)

/-! ### Bytes -/

/-- The bytes between delimiters, without empty pieces. -/
def ofBytes (bytes : List UInt8) : List (List UInt8) :=
  (bytes.splitOnP isDelimiter).filter fun piece => !piece.isEmpty

@[simp] theorem ofBytes_nil : ofBytes [] = [] := by simp [ofBytes]

/-- A delimiter between bytes separates their words. -/
theorem ofBytes_append_cons {b : UInt8} (hb : isDelimiter b = true) (xs ys : List UInt8) :
    ofBytes (xs ++ b :: ys) = ofBytes xs ++ ofBytes ys := by
  simp [ofBytes, List.splitOnP_append_cons xs ys hb]

theorem ofBytes_cons {b : UInt8} (hb : isDelimiter b = true) (bytes : List UInt8) :
    ofBytes (b :: bytes) = ofBytes bytes := by
  simpa using ofBytes_append_cons hb [] bytes

theorem ofBytes_concat {b : UInt8} (hb : isDelimiter b = true) (bytes : List UInt8) :
    ofBytes (bytes ++ [b]) = ofBytes bytes := by
  simpa using ofBytes_append_cons hb bytes []

/-- Delimiters in front make no difference. -/
theorem ofBytes_gap_append {gap : List UInt8} (h : ∀ b ∈ gap, isDelimiter b = true)
    (bytes : List UInt8) : ofBytes (gap ++ bytes) = ofBytes bytes := by
  induction gap with
  | nil => rfl
  | cons b gap ih =>
    rw [List.forall_mem_cons] at h
    rw [List.cons_append, ofBytes_cons h.1, ih h.2]

/-- Delimiters between bytes separate their words, whichever they are and however many. -/
theorem ofBytes_append_gap {gap : List UInt8} (h : ∀ b ∈ gap, isDelimiter b = true)
    (hne : gap ≠ []) (xs ys : List UInt8) :
    ofBytes (xs ++ gap ++ ys) = ofBytes xs ++ ofBytes ys := by
  obtain ⟨b, gap, rfl⟩ := List.exists_cons_of_ne_nil hne
  rw [List.forall_mem_cons] at h
  rw [List.append_assoc, List.cons_append, ofBytes_append_cons h.1, ofBytes_gap_append h.2]

/-- Bytes without a delimiter are a word of their own, if there are any. -/
theorem ofBytes_eq_singleton {bytes : List UInt8} (h : ∀ b ∈ bytes, isDelimiter b = false)
    (hne : bytes ≠ []) : ofBytes bytes = [bytes] := by
  simp [ofBytes, List.splitOnP_eq_singleton h, hne]

/-- Bytes without a delimiter are a word of their own, up to the next delimiter. -/
theorem ofBytes_word_append {word rest : List UInt8} (hne : word ≠ [])
    (hword : ∀ b ∈ word, isDelimiter b = false) (hrest : ∀ b ∈ rest.head?, isDelimiter b = true) :
    ofBytes (word ++ rest) = word :: ofBytes rest := by
  cases rest with
  | nil => rw [List.append_nil, ofBytes_eq_singleton hword hne, ofBytes_nil]
  | cons b rest =>
    have hb : isDelimiter b = true := hrest b rfl
    rw [ofBytes_append_cons hb, ofBytes_eq_singleton hword hne, ofBytes_cons hb]
    rfl

/-- A byte that is no delimiter begins the first word. -/
theorem exists_ofBytes_cons {b : UInt8} (hb : isDelimiter b = false) (bytes : List UInt8) :
    ∃ word rest, ofBytes (b :: bytes) = (b :: word) :: rest := by
  obtain ⟨word, rest, hsplit⟩ :=
    List.exists_cons_of_ne_nil (List.splitOnP_ne_nil isDelimiter bytes)
  refine ⟨word, rest.filter fun piece => !piece.isEmpty, ?_⟩
  rw [ofBytes, List.splitOnP_cons_eq_if_modifyHead, if_neg (by simp [hb]), hsplit,
    List.modifyHead_cons, List.filter_cons_of_pos (by simp)]

/-- The words of a decoded text are the words of its bytes, decoded one by one. -/
theorem ofText_decode (bytes : List UInt8) :
    ofText (Utf8.decode bytes) = (ofBytes bytes).map Utf8.decode := by
  -- on either side of a delimiter there are fewer bytes
  induction hn : bytes.length using Nat.strongRecOn generalizing bytes with
  | ind n ih =>
    by_cases hmem : ∃ b ∈ bytes, isDelimiter b = true
    · obtain ⟨b, hb, hdelimiter⟩ := hmem
      obtain ⟨xs, ys, rfl⟩ := List.append_of_mem hb
      obtain ⟨hascii, hsep⟩ := isSeparator_of_isDelimiter hdelimiter
      rw [List.length_append, List.length_cons] at hn
      rw [Utf8.decode_append_cons hascii, ofText_append_singleton hsep,
        ofBytes_append_cons hdelimiter, List.map_append, ih _ (by omega) xs rfl,
        ih _ (by omega) ys rfl]
    · have hnone : ∀ b ∈ bytes, isDelimiter b = false := by
        simpa using hmem
      by_cases hne : bytes = []
      · rw [hne]
        rfl
      · have hchars := fun c hc => isSeparator_of_mem_decode hnone (c := c) hc
        rw [ofBytes_eq_singleton hnone hne, ofText_eq_singleton hchars (Utf8.decode_ne_empty hne)]
        rfl

/-- The words of the bytes of a text are the bytes of its words. -/
theorem ofBytes_encode (text : String) :
    ofBytes (Utf8.encode text) = (ofText text).map Utf8.encode := by
  -- on either side of a separator there are fewer characters
  obtain ⟨cs, rfl⟩ := text.exists_eq_ofList
  induction hn : cs.length using Nat.strongRecOn generalizing cs with
  | ind n ih =>
    by_cases hmem : ∃ c ∈ cs, isSeparator c = true
    · obtain ⟨c, hc, hsep⟩ := hmem
      obtain ⟨before, after, rfl⟩ := List.append_of_mem hc
      rw [List.length_append, List.length_cons] at hn
      have hgap : ∀ b ∈ String.utf8EncodeChar c, isDelimiter b = true := fun b hb =>
        (isDelimiter_of_mem_encodeChar hb).trans hsep
      have hwords : ofText (String.ofList (before ++ c :: after)) =
          ofText (String.ofList before) ++ ofText (String.ofList after) := by
        simp [ofText, split_append_cons hsep]
      rw [String.ofList_append, Utf8.encode_append, Utf8.encode_ofList_cons, ← List.append_assoc,
        ofBytes_append_gap hgap String.utf8EncodeChar_ne_nil, ← String.ofList_append, hwords,
        List.map_append, ih _ (by omega) before rfl, ih _ (by omega) after rfl]
    · have hnone : ∀ c ∈ cs, isSeparator c = false := by
        simpa using hmem
      by_cases hne : String.ofList cs = ""
      · rw [hne]
        rfl
      · have hbytes : ∀ b ∈ Utf8.encode (String.ofList cs), isDelimiter b = false := by
          intro b hb
          rw [Utf8.encode_ofList, List.mem_flatMap] at hb
          obtain ⟨c, hc, hb⟩ := hb
          rw [isDelimiter_of_mem_encodeChar hb, hnone c hc]
        have hnil : Utf8.encode (String.ofList cs) ≠ [] := fun h =>
          hne (Utf8.encode_injective (h.trans Utf8.encode_empty.symm))
        rw [ofBytes_eq_singleton hbytes hnil,
          ofText_eq_singleton (by rwa [String.toList_ofList]) hne]
        rfl

end Words

end ChainMachine
