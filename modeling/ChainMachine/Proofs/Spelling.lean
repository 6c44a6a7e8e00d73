import ChainMachine.Proofs.ByteWords
import ChainMachine.Proofs.Counting

/-!
# The spelling of a script

What a run does is decided by the words of the lines that are neither blank nor comments.  Which
delimiters stand between the words, what comments say and how lines end makes no difference.

* `Line.instruction?`, `Source.instructionAt`: the opcode and the operands of a line;
* `Source.SameInstructions`: scripts that ask for the same in each of their lines;
* `Source.SameInstructions.append_left`, `Source.SameInstructions.append_right`: bytes before and
  behind a line that is spelled in two ways;
* `Source.IsGap`, `Source.withReturns`: delimiters within a line, and those before newlines;
* `Machine.executeLine_eq_instruction?`: a line in terms of its instruction, so that
  `Machine.executeLine_congr`, `Machine.stepThrough_congr`: lines that ask for the same do the same;
* `Machine.run_eq_of_sameInstructions`: runs of scripts that ask for the same.
-/

namespace ChainMachine

namespace Line

/-- The opcode and the operands of a line that is neither blank nor a comment. -/
def instruction? : Line → Option (String × List String)
  | instruction opcode operands => some (opcode, operands)
  | blank | comment => none

theorem ofBytes_congr {bytes other : List UInt8} (h : Words.ofBytes bytes = Words.ofBytes other) :
    ofBytes bytes = ofBytes other := by
  rw [ofBytes, ofBytes, Words.ofText_decode, Words.ofText_decode, h]

theorem ofBytes_append_newline (bytes : List UInt8) :
    ofBytes (bytes ++ [Source.newline]) = ofBytes bytes :=
  ofBytes_congr (Words.ofBytes_concat (by decide) bytes)

/-- Behind delimiters `#` makes a line a comment, whatever follows. -/
theorem ofBytes_of_hash {gap : List UInt8} (hgap : ∀ b ∈ gap, isDelimiter b = true)
    (text : List UInt8) : ofBytes (gap ++ 0x23 :: text) = .comment := by
  obtain ⟨word, rest, hwords⟩ := Words.exists_ofBytes_cons (b := 0x23) (by decide) text
  rw [ofBytes, ofWords_eq_comment_iff, Words.ofText_decode, Words.ofBytes_gap_append hgap, hwords]
  exact ⟨_, _, rfl, (Utf8.head?_decode_iff (b := 0x23) (by decide)).2 rfl⟩

end Line

namespace Source

/-- The instruction in the line that so many others precede, if there is one. -/
def instructionAt (lines : List (List UInt8)) (i : Nat) : Option (String × List String) :=
  lines[i]?.bind fun line => (Line.ofBytes line).instruction?

/-- Line by line the scripts ask for the same, or both for nothing.  When one has more lines than
the other, then those ask for nothing. -/
def SameInstructions (script other : List UInt8) : Prop :=
  ∀ i, instructionAt (cut script) i = instructionAt (cut other) i

theorem instructionAt_cons_zero (line : List UInt8) (lines : List (List UInt8)) :
    instructionAt (line :: lines) 0 = (Line.ofBytes line).instruction? := rfl

theorem instructionAt_cons_succ (line : List UInt8) (lines : List (List UInt8)) (i : Nat) :
    instructionAt (line :: lines) (i + 1) = instructionAt lines i := rfl

theorem instructionAt_append (lines more : List (List UInt8)) (i : Nat) :
    instructionAt (lines ++ more) i =
      if i < lines.length then instructionAt lines i
      else instructionAt more (i - lines.length) := by
  unfold instructionAt
  rw [List.getElem?_append]
  split <;> rfl

theorem instructionAt_of_le {lines : List (List UInt8)} {i : Nat} (h : lines.length ≤ i) :
    instructionAt lines i = none := by
  rw [instructionAt, List.getElem?_eq_none h, Option.bind_none]

/-- Behind the last line of either script there is nothing to compare. -/
instance (script other : List UInt8) : Decidable (SameInstructions script other) :=
  decidable_of_iff
    (∀ i < max (cut script).length (cut other).length,
      instructionAt (cut script) i = instructionAt (cut other) i) <| by
    refine ⟨fun h i => ?_, fun h i _ => h i⟩
    by_cases hi : i < max (cut script).length (cut other).length
    · exact h i hi
    · rw [instructionAt_of_le (by omega), instructionAt_of_le (by omega)]

namespace SameInstructions

variable {script other rest more line line' : List UInt8}

theorem refl (script : List UInt8) : SameInstructions script script := fun _ => rfl

theorem symm (h : SameInstructions script other) : SameInstructions other script :=
  fun i => (h i).symm

theorem trans {third : List UInt8} (h : SameInstructions script other)
    (h' : SameInstructions other third) : SameInstructions script third :=
  fun i => (h i).trans (h' i)

/-- Whole lines before scripts that ask for the same. -/
theorem append_left {before : List UInt8} (hbefore : WholeLines before)
    (h : SameInstructions script other) :
    SameInstructions (before ++ script) (before ++ other) := by
  intro i
  rw [cut_append_of_wholeLines hbefore, cut_append_of_wholeLines hbefore, instructionAt_append,
    instructionAt_append, h]

/-- First lines that ask for the same, before scripts that do. -/
theorem cons (hline : newline ∉ line) (hline' : newline ∉ line')
    (hfirst : (Line.ofBytes line).instruction? = (Line.ofBytes line').instruction?)
    (h : SameInstructions rest more) :
    SameInstructions (line ++ newline :: rest) (line' ++ newline :: more) := by
  intro i
  rw [cut_append hline, cut_append hline']
  cases i with
  | zero =>
    rw [instructionAt_cons_zero, instructionAt_cons_zero, Line.ofBytes_append_newline,
      Line.ofBytes_append_newline, hfirst]
  | succ i => rw [instructionAt_cons_succ, instructionAt_cons_succ, h i]

/-- A newline at the end ends the last line or begins a blank one. -/
theorem concat_newline (script : List UInt8) : SameInstructions (script ++ [newline]) script := by
  induction script using induction_lines with
  | last line hline =>
    intro i
    rw [cut_append hline]
    by_cases hne : line = []
    · cases i with
      | zero => rw [hne, instructionAt_cons_zero, Line.ofBytes_append_newline]; rfl
      | succ i => rw [hne]; rfl
    · rw [cut_of_notMem hline hne]
      cases i with
      | zero => rw [instructionAt_cons_zero, Line.ofBytes_append_newline, instructionAt_cons_zero]
      | succ i => rfl
  | step line rest hline ih =>
    rw [List.append_assoc, List.cons_append]
    exact ih.cons hline hline rfl

/-- Two spellings of the beginning of a line, whatever follows. -/
theorem append_right (hline : newline ∉ line) (hline' : newline ∉ line')
    (h : ∀ more, (Line.ofBytes (line ++ more)).instruction? =
      (Line.ofBytes (line' ++ more)).instruction?)
    (after : List UInt8) : SameInstructions (line ++ after) (line' ++ after) := by
  -- it makes no difference to end the last line
  suffices hall : ∀ start rest, newline ∉ start →
      SameInstructions (line ++ (start ++ newline :: rest)) (line' ++ (start ++ newline :: rest)) by
    by_cases hmem : newline ∈ after
    · obtain ⟨start, rest, rfl, hstart⟩ := List.eq_append_cons_of_mem hmem
      exact hall start rest hstart
    · have hended := hall after [] hmem
      rw [← List.append_assoc, ← List.append_assoc] at hended
      exact (concat_newline _).symm.trans (hended.trans (concat_newline _))
  intro start rest hstart
  rw [← List.append_assoc, ← List.append_assoc]
  exact (refl rest).cons (by simp [hline, hstart]) (by simp [hline', hstart]) (h start)

end SameInstructions

/-! ### Other spellings -/

/-- Delimiters within a line. -/
def IsGap (gap : List UInt8) : Prop := ∀ b ∈ gap, isDelimiter b = true ∧ b ≠ newline

instance (gap : List UInt8) : Decidable (IsGap gap) := List.decidableBAll ..

/-- The script with a carriage return before every newline. -/
def withReturns (script : List UInt8) : List UInt8 :=
  script.flatMap fun b => if b = newline then [0x0D, newline] else [b]

variable {gap gap' : List UInt8}

theorem IsGap.isDelimiter (h : IsGap gap) : ∀ b ∈ gap, isDelimiter b = true :=
  fun b hb => (h b hb).1

theorem IsGap.notMem (h : IsGap gap) : newline ∉ gap := fun hmem => (h newline hmem).2 rfl

theorem withReturns_of_notMem {line : List UInt8} (h : newline ∉ line) :
    withReturns line = line := by
  induction line with
  | nil => rfl
  | cons b line ih =>
    rw [List.mem_cons, not_or] at h
    rw [withReturns, List.flatMap_cons, if_neg (Ne.symm h.1), ← withReturns, ih h.2,
      List.singleton_append]

theorem withReturns_append_cons {line : List UInt8} (h : newline ∉ line) (rest : List UInt8) :
    withReturns (line ++ newline :: rest) = line ++ [0x0D] ++ newline :: withReturns rest := by
  rw [withReturns, List.flatMap_append, ← withReturns, withReturns_of_notMem h, List.flatMap_cons,
    if_pos rfl, ← withReturns, List.append_assoc]
  rfl

/-- A carriage return at the end of a line is no part of a word. -/
theorem sameInstructions_withReturns (script : List UInt8) :
    SameInstructions (withReturns script) script := by
  induction script using induction_lines with
  | last line hline =>
    rw [withReturns_of_notMem hline]
    exact .refl line
  | step line rest hline ih =>
    have hreturn : Line.ofBytes (line ++ [0x0D]) = Line.ofBytes line :=
      Line.ofBytes_congr (Words.ofBytes_concat (by decide) line)
    rw [withReturns_append_cons hline]
    exact ih.cons (by simp [hline]; decide) hline (by rw [hreturn])

/-- It makes no difference which delimiters separate two words, or how many. -/
theorem sameInstructions_gap (hgap : IsGap gap) (hgap' : IsGap gap') (hne : gap ≠ [])
    (hne' : gap' ≠ []) (before after : List UInt8) :
    SameInstructions (before ++ gap ++ after) (before ++ gap' ++ after) := by
  have hstart := notMem_unfinished before
  -- only the line matters that the delimiters stand in
  rw [← finished_append_unfinished before]
  simp only [List.append_assoc]
  apply SameInstructions.append_left (wholeLines_finished before)
  rw [← List.append_assoc, ← List.append_assoc]
  apply SameInstructions.append_right
  · simp [hstart, hgap.notMem]
  · simp [hstart, hgap'.notMem]
  · intro more
    have hwords : Words.ofBytes (unfinished before ++ gap ++ more) =
        Words.ofBytes (unfinished before ++ gap' ++ more) := by
      rw [Words.ofBytes_append_gap hgap.isDelimiter hne,
        Words.ofBytes_append_gap hgap'.isDelimiter hne']
    rw [Line.ofBytes_congr hwords]

/-- Delimiters before the first word of a line make no difference. -/
theorem sameInstructions_indent {before : List UInt8} (hbefore : WholeLines before)
    (hgap : IsGap gap) (after : List UInt8) :
    SameInstructions (before ++ gap ++ after) (before ++ after) := by
  rw [List.append_assoc]
  refine .append_left hbefore (.append_right hgap.notMem (List.not_mem_nil (a := newline)) ?_ after)
  intro more
  rw [Line.ofBytes_congr (Words.ofBytes_gap_append hgap.isDelimiter more), List.nil_append]

/-- It makes no difference what a comment says. -/
theorem sameInstructions_comment {before text text' : List UInt8} (hbefore : WholeLines before)
    (hgap : IsGap gap) (htext : newline ∉ text) (htext' : newline ∉ text') (after : List UInt8) :
    SameInstructions (before ++ gap ++ 0x23 :: text ++ after)
      (before ++ gap ++ 0x23 :: text' ++ after) := by
  simp only [List.append_assoc]
  apply SameInstructions.append_left hbefore
  rw [← List.append_assoc, ← List.append_assoc]
  apply SameInstructions.append_right
  · simp [hgap.notMem, htext]; decide
  · simp [hgap.notMem, htext']; decide
  · intro more
    rw [List.append_assoc, List.append_assoc, List.cons_append, List.cons_append,
      Line.ofBytes_of_hash hgap.isDelimiter, Line.ofBytes_of_hash hgap.isDelimiter]

end Source

namespace Machine

variable {m : Machine}

/-! ### Lines -/

/-- The effect of a line is decided by its opcode and its operands. -/
theorem executeLine_eq_instruction? (m : Machine) (number : Nat) (text : String) (sink : Sink) :
    m.executeLine number text sink =
      match (Line.ofWords (Words.ofText text)).instruction? with
      | none => .ok { result := .ok .proceed, machine := m, sink }
      | some (opcode, operands) =>
        match m.table.get? opcode with
        | none => .ok { result := .error (.unknownOpcode number opcode), machine := m, sink }
        | some handler =>
          (handler { line := number, operands, slotLimit := m.config.slotLimit } m.chain sink).map
            fun reply =>
              { result := reply.outcome
                machine := { m with chain := reply.chain, executed := m.executed + 1 }
                sink := reply.sink } := by
  rw [executeLine_eq]
  cases Line.ofWords (Words.ofText text) <;> rfl

/-- Lines that ask for the same do the same. -/
theorem executeLine_congr {text other : String}
    (h : (Line.ofWords (Words.ofText text)).instruction? =
      (Line.ofWords (Words.ofText other)).instruction?) (number : Nat) (sink : Sink) :
    m.executeLine number text sink = m.executeLine number other sink := by
  rw [executeLine_eq_instruction?, executeLine_eq_instruction?, h]

/-- A line that asks for nothing changes nothing. -/
theorem executeLine_of_instruction?_eq_none {text : String}
    (h : (Line.ofWords (Words.ofText text)).instruction? = none) (number : Nat) (sink : Sink) :
    m.executeLine number text sink = .ok { result := .ok .proceed, machine := m, sink } := by
  rw [executeLine_eq_instruction?, h]

/-- Neither do lines that ask for nothing. -/
theorem stepThrough_of_skipped {lines : List (List UInt8)}
    (h : ∀ line ∈ lines, (Line.ofBytes line).instruction? = none) (number : Nat) (sink : Sink) :
    m.stepThrough sink (Source.numbered number lines) =
      .ok { result := .ok .proceed, machine := m, sink } := by
  induction lines generalizing number with
  | nil => rfl
  | cons line lines ih =>
    rw [List.forall_mem_cons] at h
    rw [stepThrough_of_proceed (executeLine_of_instruction?_eq_none h.1 number sink), ih h.2]

/-- Lines that ask for the same, one by one, do the same. -/
theorem stepThrough_congr {lines others : List (List UInt8)}
    (h : ∀ i, Source.instructionAt lines i = Source.instructionAt others i) (number : Nat)
    (sink : Sink) :
    m.stepThrough sink (Source.numbered number lines) =
      m.stepThrough sink (Source.numbered number others) := by
  have hskipped {lines : List (List UInt8)}
      (h : ∀ i, Source.instructionAt lines i = none) :
      ∀ line ∈ lines, (Line.ofBytes line).instruction? = none := by
    intro line hmem
    obtain ⟨i, hi⟩ := List.getElem?_of_mem hmem
    simpa [Source.instructionAt, hi] using h i
  induction lines generalizing m number sink others with
  | nil =>
    rw [stepThrough_of_skipped (hskipped fun i => (h i).symm), Source.numbered_nil, stepThrough]
  | cons line lines ih =>
    cases others with
    | nil => rw [stepThrough_of_skipped (hskipped h), Source.numbered_nil, stepThrough]
    | cons other others =>
      rw [Source.numbered_cons, Source.numbered_cons, stepThrough, stepThrough,
        executeLine_congr (h 0)]
      refine bind_congr fun o => ?_
      congr 1
      funext m sink
      exact ih (fun i => h (i + 1)) (number + 1) sink

/-- Two scripts whose lines, one by one, ask for the same have the same run, in every respect.  So
it makes no difference to a run whether lines end with a carriage return, whether the last line
ends with a newline, which delimiters separate two words, and how many, whether a line is indented,
and what a comment says. -/
theorem run_eq_of_sameInstructions (m : Machine) (sink : Sink) :
    (∀ script other, Source.SameInstructions script other →
      m.run { bytes := script } sink = m.run { bytes := other } sink) ∧
    (∀ script, m.run { bytes := Source.withReturns script } sink =
      m.run { bytes := script } sink) ∧
    (∀ script, m.run { bytes := script ++ [Source.newline] } sink =
      m.run { bytes := script } sink) ∧
    (∀ before gap gap' after, Source.IsGap gap → Source.IsGap gap' → gap ≠ [] → gap' ≠ [] →
      m.run { bytes := before ++ gap ++ after } sink =
        m.run { bytes := before ++ gap' ++ after } sink) ∧
    (∀ before gap after, Source.WholeLines before → Source.IsGap gap →
      m.run { bytes := before ++ gap ++ after } sink =
        m.run { bytes := before ++ after } sink) ∧
    (∀ before gap text text' after, Source.WholeLines before → Source.IsGap gap →
      Source.newline ∉ text → Source.newline ∉ text' →
      m.run { bytes := before ++ gap ++ 0x23 :: text ++ after } sink =
        m.run { bytes := before ++ gap ++ 0x23 :: text' ++ after } sink) := by
  have hrun (script other : List UInt8) (h : Source.SameInstructions script other) :
      m.run { bytes := script } sink = m.run { bytes := other } sink := by
    rw [run_eq_conclude, run_eq_conclude]
    dsimp only [Source.lines]
    rw [stepThrough_congr h]
  refine ⟨hrun, fun script => hrun _ _ (Source.sameInstructions_withReturns script),
    fun script => hrun _ _ (.concat_newline script), ?_, ?_, ?_⟩
  · intro before gap gap' after hgap hgap' hne hne'
    exact hrun _ _ (Source.sameInstructions_gap hgap hgap' hne hne' before after)
  · intro before gap after hbefore hgap
    exact hrun _ _ (Source.sameInstructions_indent hbefore hgap after)
  · intro before gap text text' after hbefore hgap htext htext'
    exact hrun _ _ (Source.sameInstructions_comment hbefore hgap htext htext' after)

/-- A script that fails in its third line, and what can be made of it. -/
theorem run_eq_of_sameInstructions_of_failure :
    ∃ (script other : List UInt8) (o : Outcome Int32),
      script = Utf8.encode "push 1\n# one\nadd\npall" ∧
      other = Utf8.encode "\tpush  1\r\n\n\u0007add \r\npall\n\n# two" ∧
      Source.SameInstructions script other ∧
      (fresh {} .builtin).run { bytes := script } {} = .ok o ∧
      o.result = .error (.underflow 3 "add" 2) ∧
      (fresh {} .builtin).run { bytes := other } {} = .ok o ∧
      (fresh {} .builtin).run
        { bytes := Utf8.encode "push" ++ [0x07, 0x09] ++ Utf8.encode "1\n# one\nadd\npall" } {} =
          .ok o ∧
      (fresh {} .builtin).run
        { bytes := Utf8.encode "push 1\n# one\n" ++ [0x20, 0x20] ++ Utf8.encode "add\npall" } {} =
          .ok o ∧
      (fresh {} .builtin).run
        { bytes := Utf8.encode "push 1\n" ++ [] ++ 0x23 :: [0xFF, 0xC3] ++
            Utf8.encode "\nadd\npall" } {} = .ok o := by
  let script := Utf8.encode "push 1\n# one\nadd\npall"
  have heval : ((fresh {} .builtin).run { bytes := script } {}).map Outcome.result =
      .ok (.error (.underflow 3 "add" 2)) := by
    decide +kernel
  obtain ⟨o, ho, hresult⟩ := Checked.map_eq_ok_iff.1 heval
  obtain ⟨halike, -, -, hgap, hindent, hcomment⟩ :=
    run_eq_of_sameInstructions (fresh {} .builtin) {}
  have hother : Source.SameInstructions script
      (Utf8.encode "\tpush  1\r\n\n\u0007add \r\npall\n\n# two") := by
    decide +kernel
  refine ⟨script, _, o, rfl, rfl, hother, ho, hresult, ?_, ?_, ?_, ?_⟩
  · rw [← halike _ _ hother, ho]
  · rw [hgap _ _ [0x20] _ (by decide) (by decide) (by decide) (by decide)]
    exact ho
  · rw [hindent _ _ _ (.inr (by decide)) (by decide)]
    exact ho
  · rw [hcomment _ _ _ (Utf8.encode " one") _ (.inr (by decide)) (by decide) (by decide)
      (by decide)]
    exact ho

end Machine

end ChainMachine
