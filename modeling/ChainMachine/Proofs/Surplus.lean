import ChainMachine.Proofs.Interruption
import ChainMachine.Proofs.Spelling

/-!
# Surplus words

Of the words behind an opcode only one is ever looked at, the first operand of `push`.  A script
whose instructions are written with no more words than that has the same run.

* `Line.kept`, `Line.trimmed`: the operands that make a difference, and a line without the others;
* `Opcode.handler_kept`: no handler looks at another operand;
* `Line.shortest`, `Source.trimLine`, `Source.trim`: how such a line is written, and a script;
* `Source.ofBytes_trimLine`: the words that are read in it again;
* `Source.cut_trim`, `Source.lines_trim`: every line stays where it was;
* `Machine.executeLine_trimLine`, `Machine.stepThrough_trimLine`: one line, and line by line;
* `Machine.run_trim`: the whole script.
-/

namespace ChainMachine

namespace Line

/-- The operands that make a difference to an opcode. -/
def kept (opcode : String) (operands : List String) : List String :=
  if opcode = Opcode.push.mnemonic then operands.take 1 else []

/-- The line without the operands that make no difference. -/
def trimmed : Line → Line
  | instruction opcode operands => instruction opcode (kept opcode operands)
  | line => line

/-- The opcode, and behind one space the operand that makes a difference, if there is one. -/
def shortest (opcode : String) (operands : List String) : String :=
  match kept opcode operands with
  | [] => opcode
  | operand :: _ => opcode ++ " " ++ operand

end Line

namespace Source

/-- An instruction is written with no more words than make a difference.  What is no instruction
stays as it is, and so does the newline at the end. -/
def trimLine (line : List UInt8) : List UInt8 :=
  match Line.ofBytes line with
  | .instruction opcode operands =>
    Utf8.encode (Line.shortest opcode operands) ++
      if line.getLast? = some newline then [newline] else []
  | .blank | .comment => line

/-- A script with each of its lines written in this way. -/
def trim (script : List UInt8) : List UInt8 := ((cut script).map trimLine).flatten

end Source

/-- No handler looks at an operand that makes no difference. -/
theorem Opcode.handler_kept (op : Opcode) (line : Nat) (operands : List String)
    (slotLimit : Option Nat) :
    op.handler { line, operands := Line.kept op.mnemonic operands, slotLimit } =
      op.handler { line, operands, slotLimit } := by
  cases op with
  | push =>
    have hhead : (operands.take 1).head? = operands.head? := by cases operands <;> rfl
    funext chain sink
    simp only [handler, Builtin.push, Line.kept, if_pos, hhead]
  | _ => rfl

namespace Line

variable {line : List UInt8} {opcode : String} {operands : List String}

/-- What is written for an instruction is read as its opcode and the operands that make a
difference, and has no newline in it. -/
theorem ofText_shortest (h : ofBytes line = .instruction opcode operands) :
    Words.ofText (shortest opcode operands) = opcode :: kept opcode operands ∧
      Source.newline ∉ Utf8.encode (shortest opcode operands) := by
  obtain ⟨hwords, -⟩ := ofWords_eq_instruction_iff.1 h
  have hword : ∀ word ∈ opcode :: operands, Words.IsWord word := by
    rw [← hwords]
    exact fun word => Words.isWord_of_mem_ofText
  rw [List.forall_mem_cons] at hword
  have hopcode := Words.newline_notMem_encode_of_isSeparator hword.1.2
  unfold shortest
  by_cases hpush : opcode = Opcode.push.mnemonic
  · cases operands with
    | nil =>
      rw [kept, if_pos hpush]
      exact ⟨hword.1.ofText_eq, hopcode⟩
    | cons operand operands =>
      have hoperand : Words.IsWord operand := hword.2 operand List.mem_cons_self
      rw [kept, if_pos hpush]
      dsimp only [List.take_succ_cons]
      refine ⟨?_, ?_⟩
      · rw [Words.ofText_append_space, hword.1.ofText_eq, hoperand.ofText_eq]
        rfl
      · have hspace : Source.newline ∉ Utf8.encode " " := by decide
        have hnewline := Words.newline_notMem_encode_of_isSeparator hoperand.2
        rw [Utf8.encode_append, Utf8.encode_append]
        simp only [List.mem_append, hopcode, hspace, hnewline, or_self, not_false_eq_true]
  · rw [kept, if_neg hpush]
    exact ⟨hword.1.ofText_eq, hopcode⟩

end Line

namespace Source

variable {line : List UInt8}

/-- The words that are read again are those that make a difference. -/
theorem ofBytes_trimLine (line : List UInt8) :
    Line.ofBytes (trimLine line) = (Line.ofBytes line).trimmed := by
  unfold trimLine
  cases h : Line.ofBytes line with
  | blank => exact h
  | comment => exact h
  | instruction opcode operands =>
    obtain ⟨hwords, -⟩ := Line.ofText_shortest h
    have hshortest : Line.ofBytes (Utf8.encode (Line.shortest opcode operands)) =
        .instruction opcode (Line.kept opcode operands) := by
      rw [Line.ofBytes, Utf8.decode_encode, hwords, Line.ofWords_eq_instruction_iff]
      exact ⟨rfl, (Line.ofWords_eq_instruction_iff.1 h).2⟩
    dsimp only [Line.trimmed]
    split
    · rw [Line.ofBytes_append_newline, hshortest]
    · rw [List.append_nil, hshortest]

/-! ### The lines of the script -/

theorem newline_notMem_trimLine (h : newline ∉ line) : newline ∉ trimLine line := by
  have hlast : line.getLast? ≠ some newline := fun hlast => h (List.mem_of_getLast? hlast)
  unfold trimLine
  cases hline : Line.ofBytes line with
  | blank => exact h
  | comment => exact h
  | instruction opcode operands =>
    dsimp only
    rw [if_neg hlast, List.append_nil]
    exact (Line.ofText_shortest hline).2

theorem trimLine_append_newline (h : newline ∉ line) :
    trimLine (line ++ [newline]) = trimLine line ++ [newline] := by
  have hlast : line.getLast? ≠ some newline := fun hlast => h (List.mem_of_getLast? hlast)
  unfold trimLine
  rw [Line.ofBytes_append_newline]
  cases Line.ofBytes line with
  | blank => rfl
  | comment => rfl
  | instruction opcode operands =>
    dsimp only
    rw [if_neg hlast, List.append_nil, if_pos (by simp)]

theorem trimLine_ne_nil (h : line ≠ []) : trimLine line ≠ [] := by
  intro hnil
  have hwords := ofBytes_trimLine line
  rw [hnil] at hwords
  cases hline : Line.ofBytes line with
  | blank =>
    rw [trimLine, hline] at hnil
    exact h hnil
  | comment =>
    rw [hline] at hwords
    cases hwords
  | instruction opcode operands =>
    rw [hline] at hwords
    cases hwords

/-- The lines are the same, each of them trimmed. -/
theorem cut_trim (script : List UInt8) : cut (trim script) = (cut script).map trimLine := by
  induction script using induction_lines with
  | last line hline =>
    by_cases hne : line = []
    · rw [hne]
      rfl
    · rw [trim, cut_of_notMem hline hne, List.map_singleton, List.flatten_singleton,
        cut_of_notMem (newline_notMem_trimLine hline) (trimLine_ne_nil hne)]
  | step line rest hline ih =>
    rw [trim, cut_append hline, List.map_cons, List.flatten_cons, trimLine_append_newline hline,
      List.append_assoc, List.singleton_append, cut_append (newline_notMem_trimLine hline)]
    exact congrArg _ ih

theorem getLast?_trimLine_iff :
    (trimLine line).getLast? = some newline ↔ line.getLast? = some newline := by
  unfold trimLine
  cases h : Line.ofBytes line with
  | blank => exact Iff.rfl
  | comment => exact Iff.rfl
  | instruction opcode operands =>
    dsimp only
    split
    · next hlast => exact iff_of_true (by simp) hlast
    · next hlast =>
      rw [List.append_nil]
      exact iff_of_false (fun hmem => (Line.ofText_shortest h).2 (List.mem_of_getLast? hmem)) hlast

/-- A reader delivers the same lines, each of them trimmed, and fails behind the same one. -/
theorem lines_trim (source : Source) :
    ({ source with bytes := trim source.bytes } : Source).lines = source.lines.map trimLine := by
  obtain ⟨bytes, failure⟩ := source
  cases failure with
  | none => exact cut_trim bytes
  | some text =>
    unfold lines
    dsimp only
    rw [cut_trim, List.filter_map]
    congr 2
    funext line
    rw [Function.comp_apply, decide_eq_decide]
    exact getLast?_trimLine_iff

end Source

namespace Machine

variable {m : Machine}

/-! ### What the lines do -/

/-- A line does the same without the words that make no difference. -/
theorem executeLine_trimLine (htable : m.table = .builtin) (number : Nat) (line : List UInt8)
    (sink : Sink) :
    m.executeLine number (Utf8.decode (Source.trimLine line)) sink =
      m.executeLine number (Utf8.decode line) sink := by
  have htrimmed := Source.ofBytes_trimLine line
  rw [executeLine_eq, executeLine_eq]
  rw [Line.ofBytes] at htrimmed
  rw [htrimmed, ← Line.ofBytes]
  cases Line.ofBytes line with
  | blank => rfl
  | comment => rfl
  | instruction opcode operands =>
    dsimp only [Line.trimmed]
    rw [htable, Table.get?_builtin]
    cases hopcode : Opcode.ofMnemonic? opcode with
    | none => rfl
    | some op =>
      obtain rfl := Opcode.mnemonic_of_ofMnemonic? hopcode
      dsimp only [Option.map_some]
      rw [op.handler_kept]

theorem stepThrough_trimLine (htable : m.table = .builtin) (number : Nat)
    (lines : List (List UInt8)) (sink : Sink) :
    m.stepThrough sink (Source.numbered number (lines.map Source.trimLine)) =
      m.stepThrough sink (Source.numbered number lines) := by
  induction lines generalizing m number sink with
  | nil => rfl
  | cons line lines ih =>
    rw [List.map_cons, Source.numbered_cons, Source.numbered_cons, stepThrough, stepThrough,
      executeLine_trimLine htable]
    cases ho : m.executeLine number (Utf8.decode line) sink with
    | error fault => rfl
    | ok o =>
      rw [Checked.ok_bind, Checked.ok_bind]
      by_cases hproceed : o.result = .ok .proceed
      · rw [Outcome.andThen_of_proceed hproceed, Outcome.andThen_of_proceed hproceed,
          ih ((executeLine_table_eq ho).trans htable)]
      · rw [Outcome.andThen_of_ne hproceed, Outcome.andThen_of_ne hproceed]

/-- With the built-in handlers a script has the same run, in every respect, when each of its
instructions is written as the opcode alone, or for `push` as the opcode and its first operand, if
there is one, with a space between them.  Each line stays where it was; read again, an instruction
has the same opcode and no operands but that one, and other lines are what they were. -/
theorem run_trim (m : Machine) (source : Source) (sink : Sink) :
    { m with table := .builtin }.run { source with bytes := Source.trim source.bytes } sink =
      { m with table := .builtin }.run source sink ∧
    Source.cut (Source.trim source.bytes) = (Source.cut source.bytes).map Source.trimLine ∧
    ∀ line, Line.ofBytes (Source.trimLine line) = (Line.ofBytes line).trimmed := by
  refine ⟨?_, Source.cut_trim source.bytes, Source.ofBytes_trimLine⟩
  rw [run_eq_conclude, run_eq_conclude, Source.lines_trim, stepThrough_trimLine rfl]

example :
    Source.trim (Utf8.encode "\tpush 007 8 # x\n pall  1\r\n # a  b\n\npush\nadd\x07push\njmp 3") =
      Utf8.encode "push 007\npall\n # a  b\n\npush\nadd\njmp" := by
  decide +kernel

end Machine

end ChainMachine
