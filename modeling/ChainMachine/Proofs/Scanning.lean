import ChainMachine.Proofs.ByteWords

/-!
# What a scanner finds

Asked again and again, a scanner answers with the words of its text, and then with nothing.  The
words are the longest runs of bytes that are not delimiters, also when the text was decoded from
bytes that are not UTF-8.

* `Words.delimiters`: the bytes that separate words;
* `Words.Spacing`: bytes as words with delimiters between them (`Words.exists_spacing`), in one way
  only (`Words.Spacing.ofBytes_joined`);
* `Words.Runs`, `Words.runs_iff`: the longest runs of bytes that are not delimiters;
* `Scanner.answers`, `Scanner.answers_eq`: what a scanner answers when it is asked so many times;
* `Scanner.answers_exact`: the answers on a text, and the line that it is;
* `Scanner.answers_decode`: the answers on a text that is decoded from bytes of any kind.
-/

namespace ChainMachine

namespace Words

/-! ### Words with delimiters between them -/

/-- Space, newline, tab, carriage return, bell and backspace. -/
def delimiters : List UInt8 := [0x20, 0x0A, 0x09, 0x0D, 0x07, 0x08]

theorem isDelimiter_iff_mem {b : UInt8} : isDelimiter b = true ↔ b ∈ delimiters := by
  simp [isDelimiter, delimiters, or_assoc]

theorem isDelimiter_eq_false_iff {b : UInt8} : isDelimiter b = false ↔ b ∉ delimiters := by
  rw [← isDelimiter_iff_mem, Bool.not_eq_true]

/-- A word, with the delimiters before it. -/
structure Spaced where
  gap : List UInt8
  word : List UInt8
  gap_subset : gap ⊆ delimiters
  word_ne_nil : word ≠ []
  word_disjoint : ∀ b ∈ word, b ∉ delimiters

namespace Spaced

/-- The bytes of the delimiters and of the word. -/
def bytes (p : Spaced) : List UInt8 := p.gap ++ p.word

/-- Another delimiter in front. -/
def indent (p : Spaced) {b : UInt8} (hb : b ∈ delimiters) : Spaced where
  gap := b :: p.gap
  word := p.word
  gap_subset := List.cons_subset.2 ⟨hb, p.gap_subset⟩
  word_ne_nil := p.word_ne_nil
  word_disjoint := p.word_disjoint

/-- A word that begins one byte earlier, with nothing before it. -/
def extend {b : UInt8} {word : List UInt8} (hb : b ∉ delimiters)
    (hword : ∀ b ∈ word, b ∉ delimiters) : Spaced where
  gap := []
  word := b :: word
  gap_subset := List.nil_subset _
  word_ne_nil := List.cons_ne_nil b word
  word_disjoint := List.forall_mem_cons.2 ⟨hb, hword⟩

/-- Only the word is one, whatever follows it. -/
theorem ofBytes_append (p : Spaced) {rest : List UInt8} (hrest : ∀ b ∈ rest.head?, b ∈ delimiters) :
    ofBytes (p.bytes ++ rest) = p.word :: ofBytes rest := by
  rw [bytes, List.append_assoc,
    ofBytes_gap_append fun b hb => isDelimiter_iff_mem.2 (p.gap_subset hb)]
  exact ofBytes_word_append p.word_ne_nil
    (fun b hb => isDelimiter_eq_false_iff.2 (p.word_disjoint b hb))
    fun b hb => isDelimiter_iff_mem.2 (hrest b hb)

end Spaced

/-- Words with delimiters before them, and delimiters behind the last.  As there is a delimiter
between any two, no word can be longer. -/
structure Spacing where
  pieces : List Spaced
  trail : List UInt8
  gap_ne_nil : ∀ p ∈ pieces.tail, p.gap ≠ []
  trail_subset : trail ⊆ delimiters

namespace Spacing

/-- All the bytes, in order. -/
def joined (s : Spacing) : List UInt8 := s.pieces.flatMap Spaced.bytes ++ s.trail

/-- The words, without what is between them. -/
def words (s : Spacing) : List (List UInt8) := s.pieces.map Spaced.word

/-- What is joined to a word has a delimiter in front, if it has anything. -/
theorem head?_mem_delimiters {pieces : List Spaced} {trail : List UInt8}
    (hgap : ∀ p ∈ pieces, p.gap ≠ []) (htrail : trail ⊆ delimiters) :
    ∀ b ∈ (pieces.flatMap Spaced.bytes ++ trail).head?, b ∈ delimiters := by
  intro b hb
  cases pieces with
  | nil => exact htrail (List.mem_of_mem_head? hb)
  | cons p pieces =>
    obtain ⟨c, gap, heq⟩ := List.exists_cons_of_ne_nil (hgap p List.mem_cons_self)
    rw [List.flatMap_cons, Spaced.bytes, heq] at hb
    obtain rfl : c = b := by simpa using hb
    exact p.gap_subset (by rw [heq]; exact List.mem_cons_self)

/-- Bytes are joined from their own words, and from no others. -/
theorem ofBytes_joined (s : Spacing) : ofBytes s.joined = s.words := by
  obtain ⟨pieces, trail, hgap, htrail⟩ := s
  unfold joined words
  dsimp only at hgap ⊢
  induction pieces with
  | nil => simpa using ofBytes_gap_append (fun b hb => isDelimiter_iff_mem.2 (htrail hb)) []
  | cons p pieces ih =>
    have hrest : ∀ b ∈ (pieces.flatMap Spaced.bytes ++ trail).head?, b ∈ delimiters :=
      head?_mem_delimiters hgap htrail
    rw [List.flatMap_cons, List.append_assoc, p.ofBytes_append hrest,
      ih fun q hq => hgap q (List.mem_of_mem_tail hq), List.map_cons]

/-- One more byte in front. -/
theorem exists_joined_cons (s : Spacing) (b : UInt8) : ∃ t : Spacing, t.joined = b :: s.joined := by
  obtain ⟨pieces, trail, hgap, htrail⟩ := s
  by_cases hb : b ∈ delimiters
  · cases pieces with
    | nil => exact ⟨⟨[], b :: trail, hgap, List.cons_subset.2 ⟨hb, htrail⟩⟩, rfl⟩
    | cons p pieces => exact ⟨⟨p.indent hb :: pieces, trail, hgap, htrail⟩, rfl⟩
  · cases pieces with
    | nil => exact ⟨⟨[.extend hb (List.forall_mem_nil _)], trail, hgap, htrail⟩, rfl⟩
    | cons p pieces =>
      by_cases hp : p.gap = []
      · refine ⟨⟨.extend hb p.word_disjoint :: pieces, trail, hgap, htrail⟩, ?_⟩
        simp [joined, Spaced.bytes, Spaced.extend, hp]
      · refine ⟨⟨.extend hb (List.forall_mem_nil _) :: p :: pieces, trail, ?_, htrail⟩, rfl⟩
        exact List.forall_mem_cons.2 ⟨hp, hgap⟩

end Spacing

/-- All bytes are words with delimiters between them. -/
theorem exists_spacing (bytes : List UInt8) : ∃ s : Spacing, s.joined = bytes := by
  induction bytes with
  | nil => exact ⟨⟨[], [], List.forall_mem_nil _, List.nil_subset _⟩, rfl⟩
  | cons b bytes ih =>
    obtain ⟨s, rfl⟩ := ih
    exact s.exists_joined_cons b

/-- The longest runs of bytes that are not delimiters, in order. -/
def Runs (bytes : List UInt8) (runs : List (List UInt8)) : Prop :=
  ∃ s : Spacing, s.joined = bytes ∧ s.words = runs

/-- There is one list of the longest runs. -/
theorem runs_iff {bytes : List UInt8} {runs : List (List UInt8)} :
    Runs bytes runs ↔ runs = ofBytes bytes := by
  constructor
  · rintro ⟨s, rfl, rfl⟩
    exact s.ofBytes_joined.symm
  · rintro rfl
    obtain ⟨s, rfl⟩ := exists_spacing bytes
    exact ⟨s, rfl, s.ofBytes_joined.symm⟩

end Words

namespace Scanner

open Words

/-! ### Answers -/

/-- The answers of a scanner that is asked so many times for the next word. -/
def answers (s : Scanner) : Nat → Checked (List (Option String))
  | 0 => .ok []
  | n + 1 => do
    let (first, s) ← s.next
    return first :: (← answers s n)

/-- The answers are the words of what is still to be read, and then there are no more. -/
theorem answers_between (before after : List Char) (n : Nat) :
    (between before after).answers n =
      .ok ((List.range n).map fun i => ((split after).map String.ofList)[i]?) := by
  induction n generalizing before after with
  | zero => rfl
  | succ n ih =>
    rw [answers, next_between, Checked.ok_bind]
    dsimp only
    rw [ih, Checked.ok_bind, List.range_succ_eq_map, List.map_cons, List.map_map, split_eq after]
    by_cases hword : word after = []
    · rw [if_pos hword, if_pos hword, rest_eq_nil hword]
      rfl
    · rw [if_neg hword, if_neg hword]
      rfl

theorem answers_eq (text : String) (n : Nat) :
    ({ text } : Scanner).answers n = .ok ((List.range n).map fun i => (ofText text)[i]?) := by
  rw [← between_start, answers_between]
  rfl

/-! ### Texts -/

/-- Asked again and again, a scanner answers with the longest runs of bytes that are not
delimiters, in order, and then always with nothing.  A text without any is a blank line; else it is
a comment if the first begins with `#`, and otherwise an instruction with the first as its opcode
and the others as its operands. -/
theorem answers_exact (text : String) :
    ∃ tokens : List String,
      (∀ runs, Runs (Utf8.encode text) runs ↔ runs = tokens.map Utf8.encode) ∧
      (∀ n, ({ text } : Scanner).answers n = .ok ((List.range n).map fun i => tokens[i]?)) ∧
      (Line.parse text = .ok .blank ↔ tokens = []) ∧
      (Line.parse text = .ok .comment ↔
        ∃ first rest, tokens = first :: rest ∧ first.toList.head? = some '#') ∧
      ∀ opcode operands, Line.parse text = .ok (.instruction opcode operands) ↔
        tokens = opcode :: operands ∧ opcode.toList.head? ≠ some '#' := by
  refine ⟨ofText text, fun runs => ?_, answers_eq text, ?_, ?_, fun opcode operands => ?_⟩
  · rw [runs_iff, ofBytes_encode]
  · rw [Line.parse_eq, Except.ok.injEq, Line.ofWords_eq_blank_iff]
  · rw [Line.parse_eq, Except.ok.injEq, Line.ofWords_eq_comment_iff]
  · rw [Line.parse_eq, Except.ok.injEq, Line.ofWords_eq_instruction_iff]

/-- A carriage return, two bytes for one character, and `#` in a word that is not the first. -/
theorem answers_exact_of_mixed :
    ({ text := "\tpush ä 7#\r\n" } : Scanner).answers 5 =
        .ok [some "push", some "ä", some "7#", none, none] ∧
      Line.parse "\tpush ä 7#\r\n" = .ok (.instruction "push" ["ä", "7#"]) := by
  obtain ⟨tokens, hruns, hanswers, -, -, hinstruction⟩ := answers_exact "\tpush ä 7#\r\n"
  have hmaximal : Runs (Utf8.encode "\tpush ä 7#\r\n") (["push", "ä", "7#"].map Utf8.encode) :=
    ⟨⟨[⟨[0x09], [0x70, 0x75, 0x73, 0x68], by simp [delimiters], by simp, by simp [delimiters]⟩,
      ⟨[0x20], [0xC3, 0xA4], by simp [delimiters], by simp, by simp [delimiters]⟩,
      ⟨[0x20], [0x37, 0x23], by simp [delimiters], by simp, by simp [delimiters]⟩],
      [0x0D, 0x0A], by simp, by simp [delimiters]⟩, by decide, by decide⟩
  have htokens : tokens = ["push", "ä", "7#"] :=
    (List.map_inj_right fun _ _ => Utf8.encode_injective).1 ((hruns _).1 hmaximal).symm
  subst htokens
  exact ⟨hanswers 5, (hinstruction _ _).2 ⟨rfl, by decide⟩⟩

/-! ### Bytes that are not UTF-8 -/

/-- Bytes that are not UTF-8 stay within their words: a scanner answers on what is decoded with what
the longest runs of bytes are decoded to, one by one.  Runs that are UTF-8 are not changed, and
the line is a comment if its first run begins with the byte of `#`. -/
theorem answers_decode (bytes : List UInt8) :
    ∃ words : List (List UInt8),
      (∀ runs, Runs bytes runs ↔ runs = words) ∧
      (∀ n, ({ text := Utf8.decode bytes } : Scanner).answers n =
        .ok ((List.range n).map fun i => (words.map Utf8.decode)[i]?)) ∧
      (∀ (i : Nat) (text : String), words[i]? = some (Utf8.encode text) →
        (words.map Utf8.decode)[i]? = some text) ∧
      (Line.parse (Utf8.decode bytes) = .ok .comment ↔
        ∃ word rest, words = (0x23 :: word) :: rest) := by
  refine ⟨ofBytes bytes, fun runs => runs_iff, fun n => ?_, fun i text h => ?_, ?_⟩
  · rw [answers_eq, ofText_decode]
  · rw [List.getElem?_map, h, Option.map_some, Utf8.decode_encode]
  · rw [Line.parse_eq, Except.ok.injEq, ofText_decode, Line.ofWords_eq_comment_iff]
    have hhash {word : List UInt8} :
        (Utf8.decode word).toList.head? = some '#' ↔ word.head? = some 0x23 :=
      Utf8.head?_decode_iff (b := 0x23) (by decide)
    constructor
    · rintro ⟨first, operands, hwords, hfirst⟩
      obtain ⟨word, rest, heq, rfl, -⟩ := List.map_eq_cons_iff.1 hwords
      obtain ⟨word, rfl⟩ := List.head?_eq_some_iff.1 (hhash.1 hfirst)
      exact ⟨word, rest, heq⟩
    · rintro ⟨word, rest, heq⟩
      rw [heq]
      exact ⟨_, _, rfl, hhash.2 rfl⟩

/-- A sequence that a space cuts short, and one that begins a second time. -/
theorem answers_decode_of_cut_short :
    ({ text := Utf8.decode [0xE2, 0x82, 0x20, 0x23, 0xC3, 0xC3, 0xA4] } : Scanner).answers 3 =
        .ok [some "\uFFFD", some "#\uFFFDä", none] ∧
      Line.parse (Utf8.decode [0xE2, 0x82, 0x20, 0x23, 0xC3, 0xC3, 0xA4]) ≠ .ok .comment := by
  obtain ⟨words, hruns, hanswers, -, hcomment⟩ :=
    answers_decode [0xE2, 0x82, 0x20, 0x23, 0xC3, 0xC3, 0xA4]
  have hwords : [[0xE2, 0x82], [0x23, 0xC3, 0xC3, 0xA4]] = words :=
    (hruns _).1
      ⟨⟨[⟨[], [0xE2, 0x82], by simp, by simp, by simp [delimiters]⟩,
        ⟨[0x20], [0x23, 0xC3, 0xC3, 0xA4], by simp [delimiters], by simp, by simp [delimiters]⟩],
        [], by simp, by simp⟩, by decide, by decide⟩
  subst hwords
  refine ⟨hanswers 3, mt hcomment.1 ?_⟩
  rintro ⟨word, rest, heq⟩
  cases heq

end Scanner

end ChainMachine
