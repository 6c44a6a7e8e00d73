import ChainMachine.Script.Word
import ChainMachine.Text.Utf8.Lemmas

/-!
# What a scanner reads

The steps of a scanner in terms of the bytes of its text.

* `Scanner.byte?_eq_getElem?`: the byte at a position;
* `Scanner.skipDelimiters_eq`: delimiters are skipped as long as there are any;
* `Scanner.passWord_eq`: a word extends as long as there is no delimiter, and giving
  the delimiter back never fails;
* `Scanner.slice_eq`: a part of a text is cut out when characters end where it begins
  and ends.
-/

namespace ChainMachine.Scanner

theorem byte?_eq_getElem? (text : String) (i : Nat) : byte? text i = (Utf8.encode text)[i]? := by
  have hsize : (Utf8.encode text).length = text.utf8ByteSize := by simp [Utf8.encode]
  unfold byte?
  split
  · next hi =>
    have hi : i < (Utf8.encode text).length := by rw [hsize]; exact hi
    rw [List.getElem?_eq_getElem hi]
    rfl
  · next hi =>
    have hi : ¬ i < text.utf8ByteSize := hi
    rw [List.getElem?_eq_none (by omega)]

/-- The byte after the first ones. -/
theorem byte?_of_encode_eq {text : String} {before after : List UInt8} {b : UInt8}
    (h : Utf8.encode text = before ++ b :: after) : byte? text before.length = some b := by
  simp [byte?_eq_getElem?, h]

/-- There is no byte after all of them. -/
theorem byte?_of_encode_eq_nil {text : String} {before : List UInt8}
    (h : Utf8.encode text = before ++ []) : byte? text before.length = none := by
  simp [byte?_eq_getElem?, h]

/-- Delimiters are skipped as long as there are any. -/
theorem skipDelimiters_eq {text : String} {before after : List UInt8}
    (h : Utf8.encode text = before ++ after) :
    skipDelimiters text before.length =
      before.length + (after.takeWhile isDelimiter).length := by
  induction after generalizing before with
  | nil =>
    rw [skipDelimiters]
    split
    · simp
    · next hb => rw [byte?_of_encode_eq_nil h] at hb; cases hb
  | cons b after ih =>
    rw [skipDelimiters]
    split
    · next hb => rw [byte?_of_encode_eq h] at hb; cases hb
    · next c hc =>
      obtain rfl : b = c := by simpa [byte?_of_encode_eq h] using hc
      have ih := @ih (before ++ [b]) (by simpa using h)
      simp only [List.length_append, List.length_singleton] at ih
      by_cases hd : isDelimiter b = true
      · rw [if_pos hd, ih, List.takeWhile_cons_of_pos hd, List.length_cons]
        omega
      · rw [if_neg hd, List.takeWhile_cons_of_neg hd]
        rfl

/-- A word extends as long as there is no delimiter. -/
theorem passWord_eq {text : String} {before after : List UInt8}
    (h : Utf8.encode text = before ++ after) :
    passWord text before.length =
      .ok (before.length + (after.takeWhile fun b => !isDelimiter b).length) := by
  induction after generalizing before with
  | nil =>
    rw [passWord]
    split
    · simp
    · next hb => rw [byte?_of_encode_eq_nil h] at hb; cases hb
  | cons b after ih =>
    rw [passWord]
    split
    · next hb => rw [byte?_of_encode_eq h] at hb; cases hb
    · next c hc =>
      obtain rfl : b = c := by simpa [byte?_of_encode_eq h] using hc
      have ih := @ih (before ++ [b]) (by simpa using h)
      simp only [List.length_append, List.length_singleton] at ih
      by_cases hd : isDelimiter b = true
      · rw [if_pos hd, List.takeWhile_cons_of_neg (by simpa using hd)]
        rfl
      · rw [if_neg hd, ih, List.takeWhile_cons_of_pos (by simpa using hd), List.length_cons]
        congr 1
        omega

/-- A part of a text is cut out when characters end where it begins and ends. -/
theorem slice_eq (before part after : String) :
    slice (before ++ part ++ after) before.utf8ByteSize (before ++ part).utf8ByteSize =
      .ok part := by
  have hstart : String.Pos.Raw.IsValid (before ++ part ++ after) ⟨before.utf8ByteSize⟩ :=
    String.Pos.Raw.isValid_iff_exists_append.2
      ⟨before, part ++ after, String.append_assoc, rfl⟩
  have hstop : String.Pos.Raw.IsValid (before ++ part ++ after) ⟨(before ++ part).utf8ByteSize⟩ :=
    String.Pos.Raw.isValid_iff_exists_append.2 ⟨before ++ part, after, rfl, rfl⟩
  rw [slice, dif_pos ⟨hstart, hstop⟩]
  congr 1
  rw [← String.toByteArray_inj, String.toByteArray_extract, String.offset_pos, String.offset_pos]
  simp only [String.toByteArray_append, ByteArray.append_assoc, ← String.size_toByteArray,
    ByteArray.size_append]
  have hdrop := ByteArray.extract_append_size_add (a := before.toByteArray)
    (b := part.toByteArray ++ after.toByteArray) (i := 0) (j := part.toByteArray.size)
  rw [Nat.add_zero] at hdrop
  rw [hdrop, ByteArray.extract_append_eq_left rfl]

end ChainMachine.Scanner
