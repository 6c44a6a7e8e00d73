import ChainMachine.Proofs.Handlers
import ChainMachine.Proofs.Lines
import ChainMachine.Proofs.Words

/-!
# Lines on a machine with the built-in handlers

Everything that one line can do to a machine whose table is the built-in one and whose
chain has certain contents.

* `Line.opcode?`: the built-in opcode that a line asks for;
* `Machine.Executes`: the outcomes that go with the words of a line;
* `Machine.executeLine_executes`: a line has such an outcome and meets no fault;
* `Machine.follow_isOk`, `Machine.run_isOk`: nor do all the lines of a source, whatever
  stops them.
-/

namespace ChainMachine

namespace Line

/-- The built-in opcode that a line asks for, if it asks for one. -/
def opcode? : Line → Option Opcode
  | instruction word _ => Opcode.ofMnemonic? word
  | blank | comment => none

theorem opcode?_ofWords_of_hash {word : String} (h : opensComment word = true)
    (operands : List String) : (ofWords (word :: operands)).opcode? = none := by
  rw [ofWords, if_pos h]
  rfl

theorem opcode?_ofWords {word : String} (h : opensComment word = false) (operands : List String) :
    (ofWords (word :: operands)).opcode? = Opcode.ofMnemonic? word := by
  rw [ofWords, h]
  rfl

end Line

namespace Machine

/-- What a line with the given words can come to when the built-in handlers carry it out. -/
inductive Executes (m : Machine) (number : Nat) (sink : Sink) (s : Contents) :
    List String → Outcome Flow → Prop
  | blank : Executes m number sink s [] { result := .ok .proceed, machine := m, sink }
  | comment {word : String} {operands : List String} (hash : Line.opensComment word = true) :
    Executes m number sink s (word :: operands) { result := .ok .proceed, machine := m, sink }
  | unknown {word : String} {operands : List String} (hash : Line.opensComment word = false)
    (opcode : Opcode.ofMnemonic? word = none) :
    Executes m number sink s (word :: operands)
      { result := .error (.unknownOpcode number word), machine := m, sink }
  | called {word : String} {operands : List String} {op : Opcode} {reply : Reply}
    (hash : Line.opensComment word = false) (opcode : Opcode.ofMnemonic? word = some op)
    (obeys : reply.Obeys m.config.slotLimit m.chain sink (op.rule number operands s)) :
    Executes m number sink s (word :: operands)
      { result := reply.outcome
        machine := { m with chain := reply.chain, executed := m.executed + 1 }
        sink := reply.sink }

variable {m : Machine} {s : Contents}

/-- A line has an outcome, which its words and the contents of the chain decide. -/
theorem executeLine_executes (htable : m.table = .builtin) (h : m.chain.Holds s) (number : Nat)
    (text : String) (sink : Sink) :
    ∃ o, m.executeLine number text sink = .ok o ∧
      m.Executes number sink s (Words.ofText text) o := by
  unfold executeLine
  rw [Line.parse_eq, Checked.ok_bind]
  rcases Words.ofText text with _ | ⟨word, operands⟩
  · exact ⟨_, rfl, .blank⟩
  by_cases hhash : Line.opensComment word = true
  · rw [Line.ofWords, if_pos hhash]
    exact ⟨_, rfl, .comment hhash⟩
  rw [Line.ofWords, if_neg hhash]
  rw [Bool.not_eq_true] at hhash
  have hget : m.table.get? word = (Opcode.ofMnemonic? word).map Opcode.handler := by
    rw [htable, Table.get?_builtin]
  dsimp only
  rw [hget]
  cases hopcode : Opcode.ofMnemonic? word with
  | none => exact ⟨_, rfl, .unknown hhash hopcode⟩
  | some op =>
    obtain ⟨reply, hreply, hobeys⟩ := op.handler_obeys h
      { line := number, operands, slotLimit := m.config.slotLimit } sink
    dsimp only [Option.map_some]
    rw [hreply]
    exact ⟨_, rfl, .called hhash hopcode hobeys⟩

/-- Whatever outcome a line has, its words and the contents of the chain decide it. -/
theorem executes_of_executeLine (htable : m.table = .builtin) (h : m.chain.Holds s) {number : Nat}
    {text : String} {sink : Sink} {o : Outcome Flow}
    (ho : m.executeLine number text sink = .ok o) :
    m.Executes number sink s (Words.ofText text) o := by
  obtain ⟨o', ho', hexecutes⟩ := executeLine_executes htable h number text sink
  rw [ho] at ho'
  cases ho'
  exact hexecutes

namespace Executes

variable {number : Nat} {sink : Sink} {words : List String} {o : Outcome Flow}

theorem table_eq (h : m.Executes number sink s words o) : o.machine.table = m.table := by
  cases h <;> rfl

/-- No built-in handler ends the run. -/
theorem result_eq (h : m.Executes number sink s words o) :
    o.result = .ok .proceed ∨ ∃ diagnostic, o.result = .error diagnostic := by
  cases h with
  | blank => exact .inl rfl
  | comment => exact .inl rfl
  | unknown => exact .inr ⟨_, rfl⟩
  | called _ _ obeys => exact obeys.outcome_eq

/-- The chain has some contents afterwards, too. -/
theorem exists_holds (h : m.Executes number sink s words o) (hholds : m.chain.Holds s) :
    ∃ t, o.machine.chain.Holds t := by
  cases h with
  | blank => exact ⟨s, hholds⟩
  | comment => exact ⟨s, hholds⟩
  | unknown => exact ⟨s, hholds⟩
  | called _ _ obeys => exact obeys.exists_holds hholds

theorem executed_le (h : m.Executes number sink s words o) :
    o.machine.executed ≤ m.executed + 1 := by
  cases h with
  | called => exact Nat.le_refl _
  | _ => exact Nat.le_succ _

end Executes

/-- Lines meet no fault, whatever the sink accepts and however the reader ends. -/
theorem follow_isOk (failure : Option String) (lines : List (List UInt8))
    (htable : m.table = .builtin) (h : m.chain.Holds s) (number : Nat) (sink : Sink) :
    ∃ o, m.follow failure number sink lines = .ok o ∧ (∃ t, o.machine.chain.Holds t) ∧
      o.machine.executed ≤ m.executed + lines.length := by
  induction lines generalizing m s number sink with
  | nil =>
    cases failure with
    | none => exact ⟨_, rfl, ⟨s, h⟩, Nat.le_refl _⟩
    | some text => exact ⟨_, rfl, ⟨s, h⟩, Nat.le_refl _⟩
  | cons line lines ih =>
    obtain ⟨o, ho, hexecutes⟩ := executeLine_executes htable h number (Utf8.decode line) sink
    -- the chain has contents again, and that is all the next line asks for
    obtain ⟨t, ht⟩ := hexecutes.exists_holds h
    have hexecuted := hexecutes.executed_le
    rw [follow, ho, Checked.ok_bind, List.length_cons]
    unfold afterLine
    rcases hexecutes.result_eq with hresult | ⟨diagnostic, hresult⟩
    · rw [hresult]
      obtain ⟨o', ho', hholds, hle⟩ :=
        ih (hexecutes.table_eq.trans htable) ht (number + 1) o.sink
      exact ⟨o', ho', hholds, by omega⟩
    · rw [hresult]
      exact ⟨_, rfl, ⟨t, ht⟩, by dsimp only; omega⟩

/-- A run with the built-in handlers comes to an end and meets no fault: whatever the bytes of the
script are, wherever the reader fails or the sink gives out, and however few slots there are.  It
calls no more handlers than there are lines to be read, and there are no more lines than bytes. -/
theorem run_isOk (m : Machine) (source : Source) (sink : Sink) :
    ∃ o, { m with table := .builtin }.run source sink = .ok o ∧
      o.machine.executed ≤ source.lines.length ∧ source.lines.length ≤ source.bytes.length := by
  obtain ⟨o, ho, ⟨t, ht⟩, hle⟩ := follow_isOk (m := fresh m.config .builtin) source.failure
    source.lines rfl (Chain.holds_empty m.config.initialMode) 1 sink
  unfold run
  rw [runFrom_eq_follow, ho, Checked.ok_bind, ht.clear]
  exact ⟨_, rfl, by simpa [fresh] using hle, source.length_lines_le⟩

end Machine

end ChainMachine
