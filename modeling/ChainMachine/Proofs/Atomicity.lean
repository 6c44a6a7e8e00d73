import ChainMachine.Proofs.Failures
import ChainMachine.Proofs.Stepping

/-!
# Lines that fail

A line that fails leaves everything as it was, except that the call is counted and that a sink
that gives out keeps what it had room for.

* `Table.OnlyBuiltin`: tables in which every name stands for a built-in handler;
* `Machine.Reachable`: the machines that calls of any kind lead to when all tables are such;
* `Reply.Obeys.chain_eq_of_error`, `Reply.Obeys.sink_eq_of_error`,
  `Reply.Obeys.cut_of_error`: what a handler that fails leaves behind;
* `Machine.Reachable.executeLine_atomic`: what a line that fails leaves behind.
-/

namespace ChainMachine

/-- Every name stands for a built-in handler, or for none.  Which one it stands for is left open. -/
def Table.OnlyBuiltin (t : Table) : Prop :=
  ∀ name handler, t.get? name = some handler → ∃ op : Opcode, handler = op.handler

/-- Whether a diagnostic reports that no handler was found. -/
def Diagnostic.isUnknownOpcode : Diagnostic → Bool
  | unknownOpcode _ _ => true
  | _ => false

namespace Table

theorem onlyBuiltin_builtin : builtin.OnlyBuiltin := forall_builtin fun op => ⟨op, rfl⟩

theorem OnlyBuiltin.register {t : Table} (h : t.OnlyBuiltin) (name : String) (op : Opcode) :
    (t.register name op.handler).OnlyBuiltin :=
  forall_register ⟨op, rfl⟩ h name

theorem OnlyBuiltin.keepsChains {t : Table} (h : t.OnlyBuiltin) : t.KeepsChains := by
  intro name handler hget
  obtain ⟨op, rfl⟩ := h name handler hget
  exact op.handler_keepsChains

theorem OnlyBuiltin.replies {t : Table} (h : t.OnlyBuiltin) : t.Replies := by
  intro name handler hget
  obtain ⟨op, rfl⟩ := h name handler hget
  exact op.handler_replies

end Table

namespace Machine

/-- The machines that can be come by while all handlers are built-in ones.  Scripts are run and
single lines are executed, whatever comes of them; in between the table can be replaced, the exit
code can be overwritten, and there can be more or fewer slots to be had than before. -/
inductive Reachable : Machine → Prop
  | fresh (config : Config) {table : Table} (only : table.OnlyBuiltin) :
    Reachable (fresh config table)
  | run {m : Machine} {source : Source} {sink : Sink} {o : Outcome Int32} (before : Reachable m)
    (outcome : m.run source sink = .ok o) : Reachable o.machine
  | executeLine {m : Machine} {number : Nat} {text : String} {sink : Sink} {o : Outcome Flow}
    (before : Reachable m) (outcome : m.executeLine number text sink = .ok o) :
    Reachable o.machine
  | withTable {m : Machine} {table : Table} (before : Reachable m) (only : table.OnlyBuiltin) :
    Reachable { m with table }
  | withHalt {m : Machine} (before : Reachable m) (halt : Option Int32) : Reachable { m with halt }
  | withSlotLimit {m : Machine} (before : Reachable m) (slotLimit : Option Nat) :
    Reachable { m with config := { m.config with slotLimit } }

end Machine

/-! ### Handlers that fail -/

namespace Reply.Obeys

variable {limit : Option Nat} {c : Chain} {sink : Sink} {op : Opcode} {number : Nat}
  {operands : List String} {s : Contents} {reply : Reply} {diagnostic : Diagnostic}

/-- A handler that fails has not changed the chain. -/
theorem chain_eq_of_error {result : Except Diagnostic (Contents × List UInt8)}
    (h : Obeys limit c sink result reply) (herror : reply.outcome = .error diagnostic) :
    reply.chain = c := by
  cases h with
  | done => cases herror
  | failed => rfl
  | cut => rfl
  | refused => rfl

/-- A handler that was called never says that there is none. -/
theorem isUnknownOpcode_of_error (h : Obeys limit c sink (op.rule number operands s) reply)
    (herror : reply.outcome = .error diagnostic) : diagnostic.isUnknownOpcode = false := by
  rcases h.error_cases herror with hfails | rfl | ⟨cause, rfl⟩
  · cases hfails <;> rfl
  · rfl
  · rfl

/-- A handler that fails has written nothing, unless it was the sink that failed. -/
theorem sink_eq_of_error {result : Except Diagnostic (Contents × List UInt8)}
    (h : Obeys limit c sink result reply) (herror : reply.outcome = .error diagnostic)
    (htransfer : ∀ cause, diagnostic ≠ .transfer cause) : reply.sink = sink := by
  cases h with
  | done => cases herror
  | failed => rfl
  | @cut _ _ _ text =>
    cases herror
    exact absurd rfl (htransfer text)
  | refused => rfl

/-- When the sink failed, it holds some but not all of what the rule prints. -/
theorem cut_of_error {cause : String} (h : Obeys limit c sink (op.rule number operands s) reply)
    (herror : reply.outcome = .error (.transfer cause)) :
    ∃ t out, op.rule number operands s = .ok (t, out) ∧
      ∃ n < out.length, reply.sink = { sink with written := sink.written ++ out.take n } := by
  generalize hresult : op.rule number operands s = result at h
  cases h with
  | done => cases herror
  | failed =>
    cases herror
    -- the diagnostic of a rule names a line, and that of a sink does not
    cases (Opcode.rule_eq_error_iff.1 hresult).line?_eq
  | @cut t out after text written =>
    obtain ⟨-, hafter⟩ := Sink.write_eq_of_failed written
    exact ⟨t, out, rfl, hafter⟩
  | refused => cases herror

/-- On a sink without limit a rule that prints something is carried out to the end. -/
theorem printed_of_limit_eq_none {t : Contents} {out : List UInt8}
    (h : Obeys limit c sink (.ok (t, out)) reply) (hlimit : sink.limit = none) (hout : out ≠ []) :
    reply.outcome = .ok .proceed ∧
      reply.sink = { sink with written := sink.written ++ out } := by
  cases h with
  | done _ written => exact ⟨rfl, Sink.write_eq_of_ok written⟩
  | cut written =>
    rw [Sink.write_of_limit_eq_none hlimit] at written
    cases written
  | refused => exact absurd rfl hout

end Reply.Obeys

/-! ### Lines that fail -/

namespace Machine

variable {m : Machine} {s : Contents}

/-- A line has an outcome when the handlers are built-in ones and the chain has some contents. -/
theorem executeLine_isOk (htable : m.table.OnlyBuiltin) (h : m.chain.Holds s) (number : Nat)
    (text : String) (sink : Sink) : ∃ o, m.executeLine number text sink = .ok o :=
  executeLine_isOk_of_replies htable.replies ⟨s, h⟩ number text sink

namespace Reachable

/-- All handlers are built-in ones, and the chain has some contents. -/
theorem sound (h : m.Reachable) : m.table.OnlyBuiltin ∧ ∃ s, m.chain.Holds s := by
  induction h with
  | fresh config only => exact ⟨only, _, Chain.holds_empty config.initialMode⟩
  | run _ outcome ih =>
    obtain ⟨mode, executed, halt, hmachine⟩ := machine_eq_of_run outcome
    rw [hmachine]
    exact ⟨ih.1, _, Chain.holds_empty mode⟩
  | executeLine _ outcome ih =>
    obtain ⟨htable, hholds⟩ := ih
    rw [executeLine_table_eq outcome]
    exact ⟨htable, exists_holds_of_executeLine htable.keepsChains outcome hholds⟩
  | withTable _ only ih => exact ⟨only, ih.2⟩
  | withHalt _ _ ih => exact ih
  | withSlotLimit _ _ ih => exact ih

/-- A line that fails leaves the chain, the table, the configuration and the exit code as they
were, and only a line without a handler is not counted as a call.  Nothing has been written then,
unless it was the sink that failed: it holds some but not all of what the line prints on a sink
that accepts everything. -/
theorem executeLine_atomic (h : m.Reachable) (number : Nat) (text : String) (sink : Sink) :
    ∃ o, m.executeLine number text sink = .ok o ∧
      ∀ diagnostic, o.result = .error diagnostic →
        o.machine =
          { m with
            executed := if diagnostic.isUnknownOpcode then m.executed else m.executed + 1 } ∧
        ((∀ cause, diagnostic ≠ .transfer cause) → o.sink = sink) ∧
        (∀ cause, diagnostic = .transfer cause →
          ∃ (out : List UInt8) (n : Nat) (after : Machine), n < out.length ∧
            o.sink = { sink with written := sink.written ++ out.take n } ∧
            m.executeLine number text { sink with limit := none } =
              .ok
                { result := .ok .proceed
                  machine := after
                  sink := { sink with limit := none, written := sink.written ++ out } }) := by
  obtain ⟨htable, s, hs⟩ := h.sound
  obtain ⟨o, ho⟩ := executeLine_isOk htable hs number text sink
  refine ⟨o, ho, fun diagnostic herror => ?_⟩
  simp only [executeLine_eq_ok_iff] at ho ⊢
  generalize Words.ofText text = words at ho ⊢
  cases ho with
  | blank => cases herror
  | comment => cases herror
  | unknown =>
    cases herror
    exact ⟨rfl, fun _ => rfl, by rintro cause ⟨⟩⟩
  | @called word operands handler reply hash found replied =>
    dsimp only at herror
    obtain ⟨op, rfl⟩ := htable word handler found
    have hobeys := Opcode.obeys_of_handler_eq_ok replied hs
    refine ⟨?_, hobeys.sink_eq_of_error herror, ?_⟩
    · rw [hobeys.chain_eq_of_error herror, hobeys.isUnknownOpcode_of_error herror]
      rfl
    · rintro cause rfl
      obtain ⟨t, out, hrule, n, hn, hsink⟩ := hobeys.cut_of_error herror
      -- the same handler on the same chain, with a sink that does not give out
      obtain ⟨full, hfull, hobeys⟩ := op.handler_obeys hs
        { line := number, operands, slotLimit := m.config.slotLimit } { sink with limit := none }
      rw [hrule] at hobeys
      obtain ⟨hresult, hwritten⟩ :=
        hobeys.printed_of_limit_eq_none rfl (List.ne_nil_of_length_pos (Nat.zero_lt_of_lt hn))
      have hcalled := Performs.called hash found hfull
      rw [hresult, hwritten] at hcalled
      exact ⟨out, n, _, hn, hsink, hcalled⟩

end Reachable

/-- Two values are to be printed, by a handler under a name of its own, and the sink gives out in
the middle of the second one. -/
theorem executeLine_atomic_of_cut :
    ∃ (m : Machine) (o : Outcome Flow), m.Reachable ∧ m.chain.values = .ok [7, 12] ∧
      m.executeLine 3 "show" { limit := some 3 } = .ok o ∧
      o.result = .error (.transfer Sink.full) ∧
      o.machine = { m with executed := m.executed + 1 } ∧
      o.sink.written.toList = Utf8.encode "7\n1" := by
  let table := Table.builtin.register "show" Opcode.pall.handler
  have hstart : (fresh {} table).Reachable := .fresh {} (Table.onlyBuiltin_builtin.register _ _)
  have heval : (do
      let o ← (fresh {} table).executeLine 1 "push 12" {}
      let p ← o.machine.executeLine 2 "push 7" {}
      let q ← p.machine.executeLine 3 "show" { limit := some 3 }
      return (p.machine.chain.values, q.result, q.sink.written.toList)) =
        (.ok (.ok [7, 12], .error (.transfer Sink.full), Utf8.encode "7\n1") : Checked _) := by
    decide +kernel
  obtain ⟨o, ho, heval⟩ := Checked.bind_eq_ok_iff.1 heval
  obtain ⟨p, hp, heval⟩ := Checked.bind_eq_ok_iff.1 heval
  obtain ⟨q, hq, heval⟩ := Checked.bind_eq_ok_iff.1 heval
  obtain ⟨hvalues, hresult, hwritten⟩ : p.machine.chain.values = .ok [7, 12] ∧
      q.result = .error (.transfer Sink.full) ∧ q.sink.written.toList = Utf8.encode "7\n1" := by
    simpa using heval
  have hreached : p.machine.Reachable := (hstart.executeLine ho).executeLine hp
  obtain ⟨q', hq', hatomic⟩ := hreached.executeLine_atomic 3 "show" { limit := some 3 }
  rw [hq] at hq'
  cases hq'
  obtain ⟨hmachine, -, -⟩ := hatomic _ hresult
  exact ⟨p.machine, q, hreached, hvalues, hq, hresult, hmachine, hwritten⟩

end Machine

end ChainMachine
