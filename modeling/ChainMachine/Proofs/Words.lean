import ChainMachine.Script.Line
import ChainMachine.Script.Word.Lemmas

/-!
# The words of a text

The words of a text without a cursor: what stands between its separators, empty
pieces left out.  A scanner, which goes through the bytes of the text, finds exactly
these.

* `isSeparator`, `Words.split`, `Words.ofText`: separators are characters here;
* `Words.gap`, `Words.word`, `Words.rest`: a text is separators, then a word, then the
  rest (`Words.split_eq`);
* `Words.IsWord`: what can be a word;
* `Utf8.toNat_of_mem_encodeChar`: only ASCII characters have ASCII bytes, so that
  delimiters among the bytes and separators among the characters are in the same places;
* `Scanner.between`, `Scanner.next_between`, `Scanner.collect_between`: what a scanner
  finds; no cut is inside a character and the cursor never moves back from the start;
* `Line.ofWords`, `Line.parse_eq`: the line that a text is, by its words;
* `Line.ofWords_eq_blank_iff`, `Line.ofWords_eq_comment_iff`, `Line.ofWords_eq_instruction_iff`:
  the words of each kind of line.
-/

namespace ChainMachine

/-- The characters that separate words. -/
def isSeparator (c : Char) : Bool := [' ', '\n', '\t', '\r', '\x07', '\x08'].contains c

namespace Words

/-- What stands between separators, without empty pieces. -/
def split (cs : List Char) : List (List Char) :=
  (cs.splitOnP isSeparator).filter fun piece => !piece.isEmpty

/-- The words of a text. -/
def ofText (text : String) : List String := (split text.toList).map String.ofList

/-- The separators before the first word. -/
def gap (cs : List Char) : List Char := cs.takeWhile isSeparator

/-- The first word, which is empty if there is none. -/
def word (cs : List Char) : List Char :=
  (cs.dropWhile isSeparator).takeWhile fun c => !isSeparator c

/-- What follows the first word. -/
def rest (cs : List Char) : List Char :=
  (cs.dropWhile isSeparator).dropWhile fun c => !isSeparator c

theorem word_append_rest (cs : List Char) : word cs ++ rest cs = cs.dropWhile isSeparator :=
  List.takeWhile_append_dropWhile

theorem gap_append_word_append_rest (cs : List Char) : gap cs ++ (word cs ++ rest cs) = cs := by
  rw [word_append_rest]
  exact List.takeWhile_append_dropWhile

theorem length_rest_lt {cs : List Char} (h : word cs ≠ []) : (rest cs).length < cs.length := by
  have hlen := congrArg List.length (gap_append_word_append_rest cs)
  have hpos := List.length_pos_iff.2 h
  simp only [List.length_append] at hlen
  omega

theorem split_cons_of_separator {c : Char} (h : isSeparator c = true) (cs : List Char) :
    split (c :: cs) = split cs := by
  simp [split, List.splitOnP_cons_eq_if_modifyHead, h]

/-- Separators in front make no difference. -/
theorem split_dropWhile (cs : List Char) : split (cs.dropWhile isSeparator) = split cs := by
  induction cs with
  | nil => rfl
  | cons c cs ih =>
    by_cases hc : isSeparator c = true
    · rw [List.dropWhile_cons_of_pos hc, ih, split_cons_of_separator hc]
    · rw [List.dropWhile_cons_of_neg hc]

/-- Characters that are no separators are a word of their own, up to the next separator. -/
theorem split_word_append {w cs : List Char} (hw : w ≠ []) (hsep : ∀ c ∈ w, isSeparator c = false)
    (hcs : ∀ c ∈ cs.head?, isSeparator c = true) : split (w ++ cs) = w :: split cs := by
  cases cs with
  | nil => simp [split, List.splitOnP_eq_singleton hsep, hw]
  | cons c cs =>
    have hc : isSeparator c = true := hcs c rfl
    rw [split_cons_of_separator hc]
    simp [split, List.splitOnP_append_cons_of_forall_mem hsep c hc, hw]

theorem word_eq_nil_iff {cs : List Char} : word cs = [] ↔ cs.dropWhile isSeparator = [] := by
  unfold word
  cases hcs : cs.dropWhile isSeparator with
  | nil => simp
  | cons c rest =>
    have hc : isSeparator c = false := by
      have := List.head_dropWhile_not isSeparator (l := cs) (by simp [hcs])
      simpa [hcs] using this
    simp [hc]

/-- Behind the last word there are only separators. -/
theorem rest_eq_nil {cs : List Char} (h : word cs = []) : rest cs = [] := by
  rw [rest, word_eq_nil_iff.1 h]
  rfl

theorem isSeparator_of_mem_word {c : Char} {cs : List Char} (h : c ∈ word cs) :
    isSeparator c = false := by
  simpa using List.all_eq_true.1 List.all_takeWhile c h

theorem isSeparator_of_head?_rest {c : Char} {cs : List Char} (h : c ∈ (rest cs).head?) :
    isSeparator c = true := by
  have hnot := List.head?_dropWhile_not (fun c => !isSeparator c) (cs.dropWhile isSeparator)
  rw [show (cs.dropWhile isSeparator).dropWhile (fun c => !isSeparator c) = rest cs from rfl,
    Option.mem_def.1 h] at hnot
  simpa using hnot

/-- The words of a text are its first word, if there is one, and the words of the rest. -/
theorem split_eq (cs : List Char) :
    split cs = if word cs = [] then [] else word cs :: split (rest cs) := by
  rw [← split_dropWhile]
  by_cases h : word cs = []
  · rw [if_pos h, word_eq_nil_iff.1 h]
    rfl
  · rw [if_neg h, ← word_append_rest]
    exact split_word_append h (fun _ => isSeparator_of_mem_word) fun _ => isSeparator_of_head?_rest

/-- A text that can be a word: it is not empty and no separator is in it. -/
def IsWord (word : String) : Prop := word ≠ "" ∧ ∀ c ∈ word.toList, isSeparator c = false

theorem isWord_of_mem_split {cs piece : List Char} (h : piece ∈ split cs) :
    IsWord (String.ofList piece) := by
  -- a word that is not the first is a word of the rest
  induction hn : cs.length using Nat.strongRecOn generalizing cs with
  | ind n ih =>
    rw [split_eq] at h
    by_cases hword : word cs = []
    · rw [if_pos hword] at h
      cases h
    · rw [if_neg hword] at h
      rcases List.mem_cons.1 h with rfl | hrest
      · refine ⟨fun hempty => hword ?_, fun c hc => ?_⟩
        · rw [← String.toList_ofList (l := word cs), hempty, String.toList_empty]
        · rw [String.toList_ofList] at hc
          exact isSeparator_of_mem_word hc
      · exact ih _ (hn ▸ length_rest_lt hword) hrest rfl

theorem isWord_of_mem_ofText {word text : String} (h : word ∈ ofText text) : IsWord word := by
  obtain ⟨piece, hpiece, rfl⟩ := List.mem_map.1 h
  exact isWord_of_mem_split hpiece

end Words

namespace Utf8

/-- The bytes of a character are its code, if that is ASCII, or none of them is ASCII. -/
theorem toNat_of_mem_encodeChar {c : Char} {b : UInt8} (h : b ∈ String.utf8EncodeChar c) :
    b.toNat = c.toNat ∨ 128 ≤ b.toNat ∧ 128 ≤ c.toNat := by
  rw [String.utf8EncodeChar, show c.val.toNat = c.toNat from rfl] at h
  have hlt : c.toNat < 0x110000 := by
    have := c.valid
    have hc : c.val.toNat = c.toNat := rfl
    simp only [UInt32.isValidChar, Nat.isValidChar] at this
    omega
  split at h
  · simp only [List.mem_singleton] at h
    subst h
    left
    simp
    omega
  split at h
  · simp only [List.mem_cons, List.not_mem_nil, or_false] at h
    rcases h with rfl | rfl <;> simp <;> omega
  split at h
  · simp only [List.mem_cons, List.not_mem_nil, or_false] at h
    rcases h with rfl | rfl | rfl <;> simp <;> omega
  · simp only [List.mem_cons, List.not_mem_nil, or_false] at h
    rcases h with rfl | rfl | rfl | rfl <;> simp <;> omega

end Utf8

theorem isSeparator_iff {c : Char} :
    isSeparator c = true ↔ c.toNat ∈ [0x20, 0x0A, 0x09, 0x0D, 0x07, 0x08] := by
  simp [isSeparator, ← Char.toNat_inj]

theorem isDelimiter_iff {b : UInt8} :
    isDelimiter b = true ↔ b.toNat ∈ [0x20, 0x0A, 0x09, 0x0D, 0x07, 0x08] := by
  simp [isDelimiter, ← UInt8.toNat_inj, or_assoc]

/-- All bytes of a separator are delimiters, and no byte of another character is. -/
theorem isDelimiter_of_mem_encodeChar {c : Char} {b : UInt8} (h : b ∈ String.utf8EncodeChar c) :
    isDelimiter b = isSeparator c := by
  rw [Bool.eq_iff_iff, isDelimiter_iff, isSeparator_iff]
  rcases Utf8.toNat_of_mem_encodeChar h with heq | ⟨hb, hc⟩
  · rw [heq]
  · simp
    omega

namespace Utf8

theorem encode_ofList_cons (c : Char) (cs : List Char) :
    encode (String.ofList (c :: cs)) = String.utf8EncodeChar c ++ encode (String.ofList cs) := by
  rw [encode_ofList, encode_ofList, List.flatMap_cons]

theorem length_encode (text : String) : (encode text).length = text.utf8ByteSize := by
  simp [encode]

/-- Bytes can be taken character by character when the bytes of each are taken together. -/
theorem takeWhile_encode {p : UInt8 → Bool} {q : Char → Bool}
    (h : ∀ c, ∀ b ∈ String.utf8EncodeChar c, p b = q c) (cs : List Char) :
    (encode (String.ofList cs)).takeWhile p = encode (String.ofList (cs.takeWhile q)) := by
  induction cs with
  | nil => rfl
  | cons c cs ih =>
    rw [encode_ofList_cons]
    by_cases hc : q c = true
    · rw [List.takeWhile_append_of_pos fun b hb => (h c b hb).trans hc, ih,
        List.takeWhile_cons_of_pos hc, encode_ofList_cons]
    · obtain ⟨b, bs, hb⟩ := List.exists_cons_of_ne_nil (String.utf8EncodeChar_ne_nil (c := c))
      have hpb : ¬p b = true := by rwa [h c b (by simp [hb])]
      rw [hb, List.cons_append, List.takeWhile_cons_of_neg hpb, List.takeWhile_cons_of_neg hc]
      rfl

end Utf8

namespace Scanner

open Words

/-- A scanner whose cursor stands between two parts of its text. -/
def between (before after : List Char) : Scanner :=
  { text := String.ofList (before ++ after), cursor := (String.ofList before).utf8ByteSize }

theorem between_start (text : String) : between [] text.toList = { text } := by
  simp [between]

theorem skipDelimiters_ofList (before after : List Char) :
    skipDelimiters (String.ofList (before ++ after)) (String.ofList before).utf8ByteSize =
      (String.ofList (before ++ gap after)).utf8ByteSize := by
  have htext : Utf8.encode (String.ofList (before ++ after)) =
      Utf8.encode (String.ofList before) ++ Utf8.encode (String.ofList after) := by
    rw [String.ofList_append, Utf8.encode_append]
  rw [← Utf8.length_encode, skipDelimiters_eq htext,
    Utf8.takeWhile_encode fun c b hb => isDelimiter_of_mem_encodeChar hb, String.ofList_append,
    String.utf8ByteSize_append, Utf8.length_encode, Utf8.length_encode]
  rfl

theorem passWord_ofList (before after : List Char) :
    passWord (String.ofList (before ++ after)) (String.ofList before).utf8ByteSize =
      .ok (String.ofList (before ++ after.takeWhile fun c => !isSeparator c)).utf8ByteSize := by
  have htext : Utf8.encode (String.ofList (before ++ after)) =
      Utf8.encode (String.ofList before) ++ Utf8.encode (String.ofList after) := by
    rw [String.ofList_append, Utf8.encode_append]
  have hbyte : ∀ c, ∀ b ∈ String.utf8EncodeChar c, (!isDelimiter b) = !isSeparator c := by
    intro c b hb
    rw [isDelimiter_of_mem_encodeChar hb]
  rw [← Utf8.length_encode, passWord_eq htext, Utf8.takeWhile_encode hbyte, String.ofList_append,
    String.utf8ByteSize_append, Utf8.length_encode, Utf8.length_encode]

theorem slice_ofList (before part after : List Char) :
    slice (String.ofList (before ++ part ++ after)) (String.ofList before).utf8ByteSize
      (String.ofList (before ++ part)).utf8ByteSize = .ok (String.ofList part) := by
  rw [String.ofList_append, String.ofList_append]
  exact slice_eq _ _ _

/-- A part of a text is as long as the part before it only if nothing is added. -/
theorem utf8ByteSize_append_eq_iff (before part : List Char) :
    (String.ofList before).utf8ByteSize = (String.ofList (before ++ part)).utf8ByteSize ↔
      part = [] := by
  rw [String.ofList_append, String.utf8ByteSize_append]
  constructor
  · intro h
    have hzero : (String.ofList part).utf8ByteSize = 0 := by omega
    simpa using String.utf8ByteSize_eq_zero_iff.1 hzero
  · rintro rfl
    rfl

/-- The next word is the first word of what is still to be read. -/
theorem next_between (before after : List Char) :
    (between before after).next =
      .ok (if word after = [] then none else some (String.ofList (word after)),
        between (before ++ gap after ++ word after) (rest after)) := by
  have htext : before ++ after = before ++ gap after ++ word after ++ rest after := by
    rw [List.append_assoc, List.append_assoc, gap_append_word_append_rest]
  have hword : (word after ++ rest after).takeWhile (fun c => !isSeparator c) = word after := by
    rw [word_append_rest]
    rfl
  -- behind the separators the word ends where the next separator is, or the text
  have hstop := passWord_ofList (before ++ gap after) (word after ++ rest after)
  have hslice := slice_ofList (before ++ gap after) (word after) (rest after)
  rw [hword, ← List.append_assoc, ← htext] at hstop
  rw [← htext] at hslice
  simp only [next, between, skipDelimiters_ofList, hstop, Checked.ok_bind,
    utf8ByteSize_append_eq_iff, hslice, ← htext]
  split <;> rfl

theorem collect_of_next_none {s t : Scanner} (h : s.next = .ok (none, t)) (seen : List String) :
    s.collect seen = .ok (seen.reverse, t) := by
  rw [collect]
  split <;> simp_all

theorem collect_of_next_some {s t : Scanner} {found : String} (h : s.next = .ok (some found, t))
    (seen : List String) : s.collect seen = t.collect (found :: seen) := by
  rw [collect]
  split <;> simp_all

/-- The words that are left are those of what is still to be read, and then nothing is. -/
theorem collect_between (before after : List Char) (seen : List String) :
    (between before after).collect seen =
      .ok (seen.reverse ++ (split after).map String.ofList, between (before ++ after) []) := by
  -- every word found leaves less to be read
  induction hn : after.length using Nat.strongRecOn generalizing before after seen with
  | ind n ih =>
    have hnext := next_between before after
    have htext : before ++ gap after ++ word after ++ rest after = before ++ after := by
      rw [List.append_assoc, List.append_assoc, gap_append_word_append_rest]
    rw [split_eq]
    by_cases hword : word after = []
    · rw [if_pos hword] at hnext ⊢
      rw [collect_of_next_none hnext, ← htext, rest_eq_nil hword]
      simp
    · rw [if_neg hword] at hnext ⊢
      rw [collect_of_next_some hnext, ih _ (hn ▸ length_rest_lt hword) _ _ _ rfl, htext]
      simp

end Scanner

namespace Line

/-- The line with the given words. -/
def ofWords : List String → Line
  | [] => .blank
  | word :: operands => if opensComment word then .comment else .instruction word operands

/-- A text is the line that its words make. -/
theorem parse_eq (text : String) : parse text = .ok (ofWords (Words.ofText text)) := by
  have hnext := Scanner.next_between [] text.toList
  rw [Scanner.between_start] at hnext
  rw [parse, hnext, Words.ofText, Words.split_eq]
  by_cases h : Words.word text.toList = []
  · rw [if_pos h, if_pos h]
    rfl
  · rw [if_neg h, if_neg h, Checked.ok_bind, List.map_cons, ofWords]
    simp only [Scanner.words, Scanner.collect_between, Checked.ok_bind]
    split <;> rfl

theorem opensComment_iff {word : String} :
    opensComment word = true ↔ word.toList.head? = some '#' := by
  simp [opensComment]

theorem ofWords_eq_blank_iff {words : List String} : ofWords words = .blank ↔ words = [] := by
  cases words with
  | nil => exact iff_of_true rfl rfl
  | cons word operands =>
    refine iff_of_false ?_ (List.cons_ne_nil _ _)
    rw [ofWords]
    split <;> exact Line.noConfusion

theorem ofWords_eq_comment_iff {words : List String} :
    ofWords words = .comment ↔
      ∃ word operands, words = word :: operands ∧ word.toList.head? = some '#' := by
  cases words with
  | nil => simp [ofWords]
  | cons word operands =>
    by_cases h : opensComment word = true
    · rw [ofWords, if_pos h]
      exact iff_of_true rfl ⟨word, operands, rfl, opensComment_iff.1 h⟩
    · rw [ofWords, if_neg h]
      refine iff_of_false Line.noConfusion ?_
      rintro ⟨word', operands', heq, hhash⟩
      obtain ⟨rfl, rfl⟩ := List.cons.inj heq
      exact h (opensComment_iff.2 hhash)

theorem ofWords_eq_instruction_iff {words : List String} {opcode : String}
    {operands : List String} :
    ofWords words = .instruction opcode operands ↔
      words = opcode :: operands ∧ opcode.toList.head? ≠ some '#' := by
  cases words with
  | nil => simp [ofWords]
  | cons word rest =>
    by_cases h : opensComment word = true
    · rw [ofWords, if_pos h]
      refine iff_of_false Line.noConfusion ?_
      rintro ⟨heq, hhash⟩
      obtain ⟨rfl, rfl⟩ := List.cons.inj heq
      exact hhash (opensComment_iff.1 h)
    · rw [ofWords, if_neg h, instruction.injEq, List.cons.injEq]
      constructor
      · rintro ⟨rfl, rfl⟩
        exact ⟨⟨rfl, rfl⟩, mt opensComment_iff.2 h⟩
      · exact And.left

end Line

end ChainMachine
