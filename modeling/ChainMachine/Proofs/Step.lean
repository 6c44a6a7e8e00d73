import ChainMachine.Machine
import ChainMachine.Proofs.Words

/-!
# One line on any machine

Everything that a line can do to a machine, whatever handlers its table has.

* `Machine.Performs`: the outcomes that go with the words of a line;
* `Machine.executeLine_map`: what the handlers do alike on two sinks, so does a line;
* `Machine.executeLine_eq_ok_iff`: a line has an outcome exactly when its words perform it;
* `Machine.Performs.machine_eq`: only the chain and the count of the calls can change, so that
  `Machine.executeLine_halt_eq`: no line sets the exit code.
-/

namespace ChainMachine

namespace Machine

/-- What a line with the given words can come to. -/
inductive Performs (m : Machine) (number : Nat) (sink : Sink) :
    List String → Outcome Flow → Prop
  | blank : Performs m number sink [] { result := .ok .proceed, machine := m, sink }
  | comment {word : String} {operands : List String} (hash : Line.opensComment word = true) :
    Performs m number sink (word :: operands) { result := .ok .proceed, machine := m, sink }
  | unknown {word : String} {operands : List String} (hash : Line.opensComment word = false)
    (missing : m.table.get? word = none) :
    Performs m number sink (word :: operands)
      { result := .error (.unknownOpcode number word), machine := m, sink }
  | called {word : String} {operands : List String} {handler : Handler} {reply : Reply}
    (hash : Line.opensComment word = false) (found : m.table.get? word = some handler)
    (replied : handler { line := number, operands, slotLimit := m.config.slotLimit }
      m.chain sink = .ok reply) :
    Performs m number sink (word :: operands)
      { result := reply.outcome
        machine := { m with chain := reply.chain, executed := m.executed + 1 }
        sink := reply.sink }

variable {m : Machine} {number : Nat} {sink : Sink} {words : List String} {text : String}
  {o : Outcome Flow}

/-- The effect of a line is decided by its words. -/
theorem executeLine_eq (m : Machine) (number : Nat) (text : String) (sink : Sink) :
    m.executeLine number text sink =
      match Line.ofWords (Words.ofText text) with
      | .blank | .comment => .ok { result := .ok .proceed, machine := m, sink }
      | .instruction opcode operands =>
        match m.table.get? opcode with
        | none => .ok { result := .error (.unknownOpcode number opcode), machine := m, sink }
        | some handler =>
          (handler { line := number, operands, slotLimit := m.config.slotLimit } m.chain sink).map
            fun reply =>
              { result := reply.outcome
                machine := { m with chain := reply.chain, executed := m.executed + 1 }
                sink := reply.sink } := by
  unfold executeLine
  rw [Line.parse_eq, Checked.ok_bind]
  cases Line.ofWords (Words.ofText text) with
  | blank => rfl
  | comment => rfl
  | instruction opcode operands =>
    dsimp only
    cases m.table.get? opcode <;> rfl

/-- Where the handlers do on another sink what they do on this one, up to what `F` makes of their
replies, a line does so, too. -/
theorem executeLine_map {other : Sink} {F : Reply → Reply} {G : Outcome Flow → Outcome Flow}
    (hquiet : ∀ result, G { result, machine := m, sink } = { result, machine := m, sink := other })
    (hcalled : ∀ reply : Reply,
      G { result := reply.outcome
          machine := { m with chain := reply.chain, executed := m.executed + 1 }
          sink := reply.sink } =
        { result := (F reply).outcome
          machine := { m with chain := (F reply).chain, executed := m.executed + 1 }
          sink := (F reply).sink })
    (htable : ∀ name handler, m.table.get? name = some handler →
      ∀ ctx, handler ctx m.chain other = (handler ctx m.chain sink).map F)
    (number : Nat) (text : String) :
    m.executeLine number text other = (m.executeLine number text sink).map G := by
  rw [executeLine_eq, executeLine_eq]
  cases Line.ofWords (Words.ofText text) with
  | blank => rw [Checked.map_ok, hquiet]
  | comment => rw [Checked.map_ok, hquiet]
  | instruction opcode operands =>
    dsimp only
    cases hget : m.table.get? opcode with
    | none => rw [Checked.map_ok, hquiet]
    | some handler =>
      dsimp only
      rw [htable opcode handler hget]
      cases handler { line := number, operands, slotLimit := m.config.slotLimit } m.chain sink with
      | error fault => rfl
      | ok reply => rw [Checked.map_ok, Checked.map_ok, Checked.map_ok, Checked.map_ok, hcalled]

/-- A line has an outcome exactly when its words perform it. -/
theorem executeLine_eq_ok_iff :
    m.executeLine number text sink = .ok o ↔ m.Performs number sink (Words.ofText text) o := by
  rw [executeLine_eq]
  constructor
  · intro h
    cases hwords : Words.ofText text with
    | nil =>
      rw [hwords] at h
      cases h
      exact .blank
    | cons word operands =>
      rw [hwords, Line.ofWords] at h
      by_cases hhash : Line.opensComment word = true
      · rw [if_pos hhash] at h
        cases h
        exact .comment hhash
      · rw [if_neg hhash] at h
        rw [Bool.not_eq_true] at hhash
        cases hget : m.table.get? word with
        | none =>
          simp only [hget] at h
          cases h
          exact .unknown hhash hget
        | some handler =>
          simp only [hget] at h
          cases hreply : handler { line := number, operands, slotLimit := m.config.slotLimit }
              m.chain sink with
          | error fault =>
            rw [hreply] at h
            cases h
          | ok reply =>
            rw [hreply] at h
            cases h
            exact .called hhash hget hreply
  · intro h
    generalize Words.ofText text = words at h
    cases h with
    | blank => rfl
    | comment hash => rw [Line.ofWords, if_pos hash]
    | unknown hash missing => simp [Line.ofWords, hash, missing]
    | called hash found replied => simp [Line.ofWords, hash, found, replied, Except.map]

/-- A line changes nothing of a machine but its chain and the count of the calls. -/
theorem Performs.machine_eq (h : m.Performs number sink words o) :
    o.machine = { m with chain := o.machine.chain, executed := o.machine.executed } := by
  cases h <;> rfl

theorem executeLine_table_eq (h : m.executeLine number text sink = .ok o) :
    o.machine.table = m.table := by
  rw [(executeLine_eq_ok_iff.1 h).machine_eq]

theorem executeLine_halt_eq (h : m.executeLine number text sink = .ok o) :
    o.machine.halt = m.halt := by
  rw [(executeLine_eq_ok_iff.1 h).machine_eq]

end Machine

end ChainMachine
