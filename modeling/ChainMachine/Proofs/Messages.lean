import ChainMachine.Proofs.Counting
import ChainMachine.Proofs.Ending
import ChainMachine.Proofs.Failures

/-!
# The messages of a run

A diagnostic is reported on one line, although a part of it can be taken from the script.  The
line begins with the number of a line of the script exactly when the diagnostic belongs to one.

* `OneLine`: texts that do not leave their line;
* `Diagnostic.message_startsWith_iff`: the messages that begin with a number;
* `Words.First`: the first word of a text, told without a scanner;
* `Opcode.Fails.oneLine`: what an instruction reports stays on its line;
* `Machine.Executes.error_cases`: the diagnostics that a line can come to;
* `Machine.run_message`: the messages of a run, and the word that it does not know.
-/

namespace ChainMachine

/-- A text is written on one line, and nothing in it moves the cursor or rings. -/
def OneLine (text : String) : Prop := ∀ c ∈ text.toList, c ∉ ['\n', '\r', '\t', '\x07', '\x08']

instance (text : String) : Decidable (OneLine text) := List.decidableBAll ..

/-- A text without separators stays on its line. -/
theorem oneLine_of_isSeparator {text : String} (h : ∀ c ∈ text.toList, isSeparator c = false) :
    OneLine text := by
  intro c hc hbreak
  have hsep := h c hc
  simp only [isSeparator, List.contains_eq_mem, decide_eq_false_iff_not] at hsep
  apply hsep
  simp only [List.mem_cons, List.not_mem_nil, or_false] at hbreak ⊢
  tauto

theorem OneLine.append {a b : String} (ha : OneLine a) (hb : OneLine b) : OneLine (a ++ b) := by
  intro c hc
  rw [String.toList_append, List.mem_append] at hc
  rcases hc with hc | hc
  · exact ha c hc
  · exact hb c hc

namespace Numeral

/-- The digits of a number end where something else begins. -/
theorem takeWhile_writeNat (n : Nat) {c : Char} (h : c.isDigit = false) (cs : List Char) :
    (writeNat n ++ c :: cs).takeWhile Char.isDigit = writeNat n := by
  have hdigits : ∀ d ∈ writeNat n, d.isDigit = true :=
    fun _ hd => Nat.isDigit_of_mem_toDigits (by decide) (by decide) hd
  rw [List.takeWhile_append_of_pos hdigits, List.takeWhile_cons_of_neg (by simp [h]),
    List.append_nil]

theorem writeNat_injective {m n : Nat} (h : writeNat m = writeNat n) : m = n := by
  calc
    m = Nat.ofDigitChars 10 (writeNat m) 0 := Nat.ofDigitChars_ten_toDigits.symm
    _ = Nat.ofDigitChars 10 (writeNat n) 0 := by rw [h]
    _ = n := Nat.ofDigitChars_ten_toDigits

theorem oneLine_writeNat (n : Nat) : OneLine (String.ofList (writeNat n)) := by
  apply oneLine_of_isSeparator
  intro c hc
  rw [String.toList_ofList] at hc
  have hdigit : c.isDigit = true := Nat.isDigit_of_mem_toDigits (by decide) (by decide) hc
  rw [← Bool.not_eq_true]
  intro hsep
  simp only [isSeparator, List.contains_eq_mem, decide_eq_true_eq, List.mem_cons,
    List.not_mem_nil, or_false] at hsep
  rcases hsep with rfl | rfl | rfl | rfl | rfl | rfl <;> revert hdigit <;> decide

end Numeral

namespace Diagnostic

variable {diagnostic : Diagnostic} {n : Nat}

theorem oneLine_located (n : Nat) {text : String} (h : OneLine text) : OneLine (located n text) :=
  .append (.append (.append (by decide) (Numeral.oneLine_writeNat n))
    (by decide)) h

theorem located_eq (n : Nat) (text : String) :
    located n text = "L" ++ toString n ++ ": " ++ text := by
  rw [Nat.toString_eq_ofList_toDigits]
  rfl

/-- The number at the beginning of a text can be read off. -/
theorem number_eq_of_located {m : Nat} {text other : String}
    (h : located m text = located n other) : m = n := by
  have hlists := congrArg String.toList h
  simp only [located, String.toList_append, String.toList_ofList, List.append_assoc,
    List.append_cancel_left_eq] at hlists
  have hdigits := congrArg (List.takeWhile Char.isDigit) hlists
  simp only [show ": ".toList = [':', ' '] by decide, List.cons_append,
    Numeral.takeWhile_writeNat _ (show ':'.isDigit = false by decide)] at hdigits
  exact Numeral.writeNat_injective hdigits

theorem exists_message_eq_located (h : diagnostic.line? = some n) :
    ∃ text, diagnostic.message = located n text := by
  cases diagnostic <;> cases h <;> exact ⟨_, rfl⟩

/-- A message without a number begins like an error. -/
theorem head?_message (h : diagnostic.line? = none) :
    diagnostic.message.toList.head? = some 'E' := by
  cases diagnostic with
  | storageExhausted => decide +kernel
  | cannotOpen path cause =>
    dsimp only [message]
    rw [String.toList_append, List.head?_append, show "Error: Can't open file ".toList.head? =
      some 'E' by decide +kernel]
    rfl
  | transfer cause =>
    dsimp only [message]
    rw [String.toList_append, List.head?_append, show "Error: ".toList.head? = some 'E' by decide]
    rfl
  | _ => cases h

/-- A message begins with the number of a line exactly when the diagnostic names that line. -/
theorem message_startsWith_iff (diagnostic : Diagnostic) (n : Nat) :
    (∃ text, diagnostic.message = "L" ++ toString n ++ ": " ++ text) ↔
      diagnostic.line? = some n := by
  simp only [← located_eq]
  constructor
  · rintro ⟨text, htext⟩
    cases hline : diagnostic.line? with
    | none =>
      have hhead := head?_message hline
      rw [htext] at hhead
      simp [located] at hhead
    | some m =>
      obtain ⟨other, hother⟩ := exists_message_eq_located hline
      rw [number_eq_of_located (hother.symm.trans htext)]
  · exact exists_message_eq_located

end Diagnostic

/-! ### Words that are not known -/

namespace Words

/-- A text has this word for its first: separators alone come before it, none of its characters is
one, and behind it the text ends or goes on with one. -/
def First (word cs : List Char) : Prop :=
  ∃ before after, cs = before ++ word ++ after ∧ (∀ c ∈ before, isSeparator c = true) ∧
    word ≠ [] ∧ (∀ c ∈ word, isSeparator c = false) ∧ ∀ c ∈ after.head?, isSeparator c = true

theorem first_word {cs : List Char} (h : word cs ≠ []) : First (word cs) cs := by
  refine ⟨gap cs, rest cs, ?_, List.all_eq_true.1 List.all_takeWhile, h,
    fun _ => isSeparator_of_mem_word, fun _ => isSeparator_of_head?_rest⟩
  rw [List.append_assoc, gap_append_word_append_rest]

/-- The first of the words of a text is its first word, and a scanner finds it there. -/
theorem first_of_ofText {text word : String} {operands : List String}
    (h : ofText text = word :: operands) :
    First word.toList text.toList ∧ ∃ after, Scanner.next { text } = .ok (some word, after) := by
  have hnext := Scanner.next_between [] text.toList
  rw [Scanner.between_start] at hnext
  rw [ofText, split_eq] at h
  by_cases hword : Words.word text.toList = []
  · rw [if_pos hword] at h
    cases h
  · rw [if_neg hword, List.map_cons, List.cons.injEq] at h
    obtain ⟨rfl, -⟩ := h
    rw [if_neg hword] at hnext
    rw [String.toList_ofList]
    exact ⟨first_word hword, _, hnext⟩

end Words

/-! ### Lines and runs -/

/-- What an instruction reports stays on its line. -/
theorem Opcode.Fails.oneLine {op : Opcode} {number : Nat} {operands : List String}
    {values : List Int32} {diagnostic : Diagnostic}
    (h : op.Fails number operands values diagnostic) : OneLine diagnostic.message := by
  cases h with
  | operand => exact Diagnostic.oneLine_located number (by decide)
  | short =>
    apply Diagnostic.oneLine_located
    cases op <;> decide
  | divisor => exact Diagnostic.oneLine_located number (by decide)
  | code => exact Diagnostic.oneLine_located number (by decide)

namespace Machine

variable {m : Machine} {sink : Sink}

/-- A line fails as its instruction deserves, or for a word that is not known, or for want of
storage, or with the sink. -/
theorem Executes.error_cases {number : Nat} {s : Contents} {words : List String}
    {o : Outcome Flow} (h : m.Executes number sink s words o) {diagnostic : Diagnostic}
    (herror : o.result = .error diagnostic) :
    (∃ (op : Opcode) (operands : List String), op.Fails number operands s.values diagnostic) ∨
      (∃ word operands, words = word :: operands ∧ Line.opensComment word = false ∧
        Opcode.ofMnemonic? word = none ∧ diagnostic = .unknownOpcode number word) ∨
      diagnostic = .storageExhausted ∨ ∃ cause, diagnostic = .transfer cause := by
  cases h with
  | blank => cases herror
  | comment => cases herror
  | unknown hash opcode =>
    cases herror
    exact .inr (.inl ⟨_, _, rfl, hash, opcode, rfl⟩)
  | @called word operands op reply hash opcode obeys =>
    rcases obeys.error_cases herror with hfails | hother
    · exact .inl ⟨op, operands, hfails⟩
    · exact .inr (.inr hother)

/-- A run with the built-in handlers has a result, whatever the bytes of its script are.  If that is
a diagnostic other than that the reader or the sink failed, its message is one line, and begins with
the number of a line of the script exactly when the diagnostic names that line.  A word that is
reported as unknown is the first word of the line with that number as it is decoded, neither opens
a comment nor is the mnemonic of an opcode. -/
theorem run_message (m : Machine) (source : Source) (sink : Sink) :
    ∃ o, { m with table := .builtin }.run source sink = .ok o ∧
      ∀ diagnostic, o.result = .error diagnostic → (∀ cause, diagnostic ≠ .transfer cause) →
        OneLine diagnostic.message ∧
        (∀ n, (∃ text, diagnostic.message = "L" ++ toString n ++ ": " ++ text) ↔
          diagnostic.line? = some n) ∧
        ∀ n opcode, diagnostic = .unknownOpcode n opcode →
          ∃ i line after, n = i + 1 ∧ source.lines[i]? = some line ∧
            Scanner.next { text := Utf8.decode line } = .ok (some opcode, after) ∧
            Words.First opcode.toList (Utf8.decode line).toList ∧
            opcode.toList.head? ≠ some '#' ∧ ∀ op : Opcode, opcode ≠ op.mnemonic := by
  obtain ⟨os, o, hos, hrun, hconclude⟩ := exists_run_builtin m source sink
  obtain ⟨chain, -, rfl⟩ := eq_of_conclude hconclude
  refine ⟨_, hrun, fun diagnostic herror hother => ?_⟩
  have hfailed := (result_eq_or_transfer herror).resolve_right fun ⟨cause, h⟩ => hother cause h
  obtain ⟨earlier, later, numbered, machine, between, s, hlines, hexecutes⟩ :=
    hos.exists_last_executes rfl ⟨_, Chain.holds_empty m.config.initialMode⟩ (by simp [hfailed])
  obtain ⟨before, line, more, hsource, hbefore, rfl⟩ := Source.numbered_eq_append hlines
  rcases hexecutes.error_cases hfailed with ⟨op, operands, hfails⟩ |
    ⟨word, operands, hwords, hhash, hopcode, rfl⟩ | rfl | ⟨cause, rfl⟩
  · refine ⟨hfails.oneLine, diagnostic.message_startsWith_iff, ?_⟩
    rintro n opcode rfl
    cases hfails
  · obtain ⟨hfirst, after, hnext⟩ := Words.first_of_ofText hwords
    have hword : OneLine word := by
      obtain ⟨_, _, -, -, -, hsep, -⟩ := hfirst
      exact oneLine_of_isSeparator hsep
    refine ⟨Diagnostic.oneLine_located _ (.append (by decide) hword),
      Diagnostic.message_startsWith_iff _, ?_⟩
    rintro n opcode ⟨⟩
    refine ⟨earlier.length, line, after, Nat.add_comm _ _, ?_, hnext, hfirst, ?_, ?_⟩
    · simp [hsource, ← hbefore]
    · simpa [Line.opensComment] using hhash
    · rintro op rfl
      rw [Opcode.ofMnemonic?_mnemonic] at hopcode
      cases hopcode
  · refine ⟨by decide +kernel, Diagnostic.message_startsWith_iff _, ?_⟩
    rintro n opcode ⟨⟩
  · exact absurd rfl (hother cause)

/-- The second line begins with a tab and a byte that is no text, and a bell ends its first word.
The replacement character stands for the byte in the message. -/
theorem run_message_of_unknown :
    ∃ (source : Source) (o : Outcome Int32) (line : List UInt8),
      source.bytes = Utf8.encode "push 1\n" ++ [0x09, 0xFF, 0x61, 0x07, 0x62] ∧
      (fresh {} .builtin).run source {} = .ok o ∧
      o.result = .error (.unknownOpcode 2 "\uFFFDa") ∧
      (Diagnostic.unknownOpcode 2 "\uFFFDa").message = "L2: unknown instruction \uFFFDa" ∧
      OneLine "L2: unknown instruction \uFFFDa" ∧ source.lines[1]? = some line ∧
      Words.First "\uFFFDa".toList (Utf8.decode line).toList := by
  let source : Source := { bytes := Utf8.encode "push 1\n" ++ [0x09, 0xFF, 0x61, 0x07, 0x62] }
  have heval : ((fresh {} .builtin).run source {}).map (fun o => o.result) =
      .ok (.error (.unknownOpcode 2 "\uFFFDa")) := by
    decide +kernel
  obtain ⟨o, ho, hresult⟩ := Checked.map_eq_ok_iff.1 heval
  have hmessage : (Diagnostic.unknownOpcode 2 "\uFFFDa").message =
      "L2: unknown instruction \uFFFDa" := by decide +kernel
  obtain ⟨o', ho', hreported⟩ := run_message (fresh {} .builtin) source {}
  obtain rfl : o = o' := Except.ok.inj (ho.symm.trans ho')
  obtain ⟨honeLine, -, hword⟩ := hreported _ hresult fun _ h => by cases h
  obtain ⟨i, line, after, hi, hline, -, hfirst, -, -⟩ := hword 2 _ rfl
  obtain rfl : i = 1 := by omega
  exact ⟨source, o, line, rfl, ho, hresult, hmessage, hmessage ▸ honeLine, hline, hfirst⟩

end Machine

end ChainMachine
