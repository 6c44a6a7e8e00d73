import ChainMachine.Proofs.Effects
import ChainMachine.Proofs.Step

/-!
# Handlers that only write

A sink that accepts everything and that can be flushed tells a handler nothing.  So what a
handler does on it is what it does on an empty one, with the output put behind what is there
already.  For functions in general this is an assumption; it says that the sink is there to be
written to and to be flushed, and for nothing else.

* `Sink.Healthy`: sinks that never fail;
* `Sink.add`, `Reply.onto`, `Outcome.onto`: output put behind other output;
* `Handler.WritesOnly`, `Table.WritesOnly`: handlers that are given a sink for writing only;
* `Opcode.handler_writesOnly`, `Table.writesOnly_builtin`: the built-in handlers are such, and
  `Table.WritesOnly.register` adds one more, such as `Handler.ending`;
* `Machine.executeLine_onto`: then the output of a line does not depend on earlier output, and
  `Machine.healthy_of_executeLine`: the sink stays healthy;
* `Machine.executeLine_isOk_of_replies`: a line has an outcome;
* `Machine.exists_holds_of_executeLine`, `Machine.builtin_of_executeLine`: the links of the chain
  stay in order.
-/

namespace ChainMachine

namespace Sink

/-- The sink accepts everything, and flushing does not fail. -/
structure Healthy (s : Sink) : Prop where
  limit_eq : s.limit = none
  flushFailure_eq : s.flushFailure = none

/-- The sink after everything that was done to `t` has been done to it as well. -/
def add (s t : Sink) : Sink :=
  { s with written := s.written ++ t.written, flushes := s.flushes + t.flushes }

theorem healthy_empty : Healthy {} := ⟨rfl, rfl⟩

theorem Healthy.add {s : Sink} (h : s.Healthy) (t : Sink) : (s.add t).Healthy :=
  ⟨h.limit_eq, h.flushFailure_eq⟩

@[simp] theorem add_empty (s : Sink) : s.add {} = s := by simp [add]

theorem add_assoc (s t u : Sink) : (s.add t).add u = s.add (t.add u) := by
  simp [add, Array.append_assoc, Nat.add_assoc]

/-- On a healthy sink everything is written. -/
theorem Healthy.write {s : Sink} (h : s.Healthy) (bytes : List UInt8) :
    s.write bytes = (s.add (Sink.write {} bytes).1, none) := by
  have hbytes : s.written ++ bytes = s.written ++ ((#[] : Array UInt8) ++ bytes) :=
    Array.ext' (by simp)
  rw [write_of_limit_eq_none h.limit_eq, write_of_limit_eq_none rfl, hbytes]
  rfl

end Sink

/-- The reply with its output put behind that of a sink. -/
def Reply.onto (sink : Sink) (reply : Reply) : Reply :=
  { reply with sink := sink.add reply.sink }

/-- The outcome with its output put behind that of a sink. -/
def Outcome.onto {α : Type} (sink : Sink) (o : Outcome α) : Outcome α :=
  { o with sink := sink.add o.sink }

/-- The handler does the same on every healthy sink, and adds to what the sink holds. -/
def Handler.WritesOnly (handler : Handler) : Prop :=
  ∀ ctx chain sink, sink.Healthy →
    handler ctx chain sink = (handler ctx chain {}).map (Reply.onto sink)

/-- The handler that asks for the end of the run with the given exit code. -/
def Handler.ending (code : Int32) : Handler := fun _ chain sink =>
  return { outcome := .ok (.terminate code), chain, sink }

/-- All handlers of the table do nothing to a sink but write to it. -/
def Table.WritesOnly (t : Table) : Prop :=
  ∀ name handler, t.get? name = some handler → handler.WritesOnly

namespace Reply

variable {sink : Sink}

@[simp] theorem onto_fail (diagnostic : Diagnostic) (chain : Chain) (sink : Sink) :
    onto sink (fail diagnostic chain {}) = fail diagnostic chain sink := by
  simp [onto, fail]

theorem onto_printed (h : sink.Healthy) (chain : Chain) (out : List UInt8) :
    onto sink (printed chain (Sink.write {} out)) = printed chain (sink.write out) := by
  rw [h.write, Sink.healthy_empty.write]
  simp [onto, printed, proceed]

end Reply

/-! ### The built-in handlers -/

/-- A handler that has the same effect on every sink only writes to it. -/
theorem Handler.Plain.writesOnly {handler : Handler} (h : handler.Plain) : handler.WritesOnly := by
  intro ctx chain sink hsink
  obtain ⟨effect, heffect⟩ := h ctx chain
  rw [heffect, heffect]
  rcases effect with fault | ⟨d, out⟩ | ⟨d, diagnostic⟩
  · rfl
  · simp [Effect.reply, Reply.onto_printed hsink]
  · simp [Effect.reply]

/-- The built-in handlers do nothing to a sink but write to it. -/
theorem Opcode.handler_writesOnly (op : Opcode) : op.handler.WritesOnly :=
  op.handler_plain.writesOnly

theorem Handler.ending_writesOnly (code : Int32) : (ending code).WritesOnly := by
  intro ctx chain sink _
  simp [ending, Reply.onto]

namespace Table

theorem writesOnly_builtin : builtin.WritesOnly := forall_builtin Opcode.handler_writesOnly

theorem WritesOnly.register {t : Table} (h : t.WritesOnly) (name : String) {handler : Handler}
    (hhandler : handler.WritesOnly) : (t.register name handler).WritesOnly :=
  forall_register hhandler h name

end Table

/-! ### Lines -/

namespace Outcome

variable {α : Type}

@[simp] theorem onto_mk_empty (result : Except Diagnostic α) (m : Machine) (sink : Sink) :
    onto sink { result, machine := m, sink := {} } = { result, machine := m, sink } := by
  simp [onto]

theorem onto_onto (o : Outcome α) (s t : Sink) : (o.onto t).onto s = o.onto (s.add t) := by
  simp [onto, Sink.add_assoc]

end Outcome

namespace Machine

variable {m : Machine} {sink : Sink}

/-- The output of a line does not depend on earlier output. -/
theorem executeLine_onto (htable : m.table.WritesOnly) (hsink : sink.Healthy) (number : Nat)
    (text : String) :
    m.executeLine number text sink = (m.executeLine number text {}).map (Outcome.onto sink) := by
  refine executeLine_map (F := Reply.onto sink) (by simp) (fun _ => rfl) ?_ number text
  intro name handler hget ctx
  exact htable name handler hget ctx m.chain sink hsink

/-- A healthy sink stays healthy. -/
theorem healthy_of_executeLine (htable : m.table.WritesOnly) (hsink : sink.Healthy) {number : Nat}
    {text : String} {o : Outcome Flow} (h : m.executeLine number text sink = .ok o) :
    o.sink.Healthy := by
  rw [executeLine_onto htable hsink, Checked.map_eq_ok_iff] at h
  obtain ⟨o, -, rfl⟩ := h
  exact hsink.add o.sink

/-! ### Chains -/

/-- A line has an outcome when all handlers reply. -/
theorem executeLine_isOk_of_replies (htable : m.table.Replies) (hholds : ∃ s, m.chain.Holds s)
    (number : Nat) (text : String) (sink : Sink) :
    ∃ o, m.executeLine number text sink = .ok o := by
  simp only [executeLine_eq_ok_iff]
  rcases Words.ofText text with _ | ⟨word, operands⟩
  · exact ⟨_, .blank⟩
  by_cases hhash : Line.opensComment word = true
  · exact ⟨_, .comment hhash⟩
  rw [Bool.not_eq_true] at hhash
  cases hget : m.table.get? word with
  | none => exact ⟨_, .unknown hhash hget⟩
  | some handler =>
    obtain ⟨reply, hreply⟩ := htable word handler hget
      { line := number, operands, slotLimit := m.config.slotLimit } m.chain sink hholds
    exact ⟨_, .called hhash hget hreply⟩

/-- After a line the chain has some contents, too. -/
theorem exists_holds_of_executeLine (htable : m.table.KeepsChains) {number : Nat} {text : String}
    {o : Outcome Flow} (ho : m.executeLine number text sink = .ok o)
    (h : ∃ s, m.chain.Holds s) : ∃ t, o.machine.chain.Holds t := by
  rw [executeLine_eq_ok_iff] at ho
  generalize Words.ofText text = words at ho
  cases ho with
  | blank => exact h
  | comment => exact h
  | unknown => exact h
  | @called word operands handler reply hash found replied =>
    exact htable word handler found _ _ _ _ replied h

/-- After a line a machine has the built-in handlers and a chain with some contents, if it had
before. -/
theorem builtin_of_executeLine (htable : m.table = .builtin) (hholds : ∃ s, m.chain.Holds s)
    {number : Nat} {text : String} {o : Outcome Flow}
    (ho : m.executeLine number text sink = .ok o) :
    o.machine.table = .builtin ∧ ∃ t, o.machine.chain.Holds t := by
  have hkeeps : m.table.KeepsChains := by
    rw [htable]
    exact Table.keepsChains_builtin
  exact ⟨(executeLine_table_eq ho).trans htable, exists_holds_of_executeLine hkeeps ho hholds⟩

end Machine

end ChainMachine
