import ChainMachine.Proofs.Stepping

/-!
# Scripts after scripts

Running two scripts as one is running the second from where the first leaves off, unless the
first fails or a handler ends it.

* `Source.WholeLines`, `Source.cut_append_of_wholeLines`: bytes that end with a line, and where
  they are cut when others follow;
* `Machine.resume`: the rest of a run, from a line on;
* `Outcome.Stopped`: runs that did not come to the end of their script;
* `Machine.stepThrough_onto`, `Machine.resume_onto`: the output of lines does not depend on
  earlier output;
* `Machine.run_append`: running two scripts as one.
-/

namespace ChainMachine

namespace Source

/-- There are no bytes, or the last of them ends a line. -/
def WholeLines (bytes : List UInt8) : Prop := bytes = [] ∨ bytes.getLast? = some newline

theorem WholeLines.of_cons {b : UInt8} {bytes : List UInt8} (h : WholeLines (b :: bytes)) :
    WholeLines bytes := by
  cases bytes with
  | nil => exact .inl rfl
  | cons c bytes => exact .inr (by simpa [WholeLines] using h)

theorem WholeLines.of_append {bytes more : List UInt8} (h : WholeLines (bytes ++ more)) :
    WholeLines more := by
  induction bytes with
  | nil => exact h
  | cons b bytes ih => exact ih h.of_cons

/-- Whole lines are cut in the same places when other bytes follow. -/
theorem cut_append_of_wholeLines {bytes : List UInt8} (h : WholeLines bytes) (more : List UInt8) :
    cut (bytes ++ more) = cut bytes ++ cut more := by
  induction bytes with
  | nil => rfl
  | cons b bytes ih =>
    have ih := ih h.of_cons
    rw [List.cons_append, cut, cut]
    by_cases hb : b = newline
    · rw [if_pos hb, if_pos hb, ih, List.cons_append]
    · rw [if_neg hb, if_neg hb, ih]
      -- the line that begins with `b` ends somewhere, so the rest is not empty
      cases hcut : cut bytes with
      | nil =>
        cases bytes with
        | nil => simp [WholeLines, hb] at h
        | cons c bytes => exact absurd hcut (cut_ne_nil c bytes)
      | cons piece pieces => rfl

end Source

namespace Outcome

/-- The run failed, or a handler ended it. -/
def Stopped (o : Outcome Int32) : Prop :=
  (∃ diagnostic, o.result = .error diagnostic) ∨ o.machine.halt ≠ none

theorem ended_onto (o : Outcome Flow) (sink : Sink) :
    (o.onto sink).ended none = (o.ended none).onto sink :=
  o.ended_mapSink sink.add none

end Outcome

namespace Machine

/-- Run the rest of a script, whose first line has the given number, from where the machine is. -/
def resume (m : Machine) (number : Nat) (source : Source) (sink : Sink) :
    Checked (Outcome Int32) := do
  conclude (← m.runFrom number source sink)

variable {m : Machine} {sink : Sink}

/-! ### Output after other output -/

theorem stepThrough_onto (htable : m.table.WritesOnly) (hsink : sink.Healthy)
    (lines : List (Nat × String)) :
    m.stepThrough sink lines = (m.stepThrough {} lines).map (Outcome.onto sink) := by
  have h : m.stepThrough (sink.add {}) lines =
      (m.stepThrough {} lines).map (Outcome.mapSink sink.add) := by
    apply stepThrough_mapSink (P := fun m between => m.table.WritesOnly ∧ between.Healthy)
    · rintro m between number text ⟨htable, hbetween⟩
      -- on either sink the output comes behind what is there
      rw [executeLine_onto htable (hsink.add between), executeLine_onto htable hbetween]
      cases m.executeLine number text {} with
      | error fault => rfl
      | ok o =>
        rw [Checked.map_ok, Checked.map_ok, Checked.map_ok, ← Outcome.onto_onto]
        rfl
    · rintro m between number text o ⟨htable, hbetween⟩ h
      rw [executeLine_table_eq h]
      exact ⟨htable, healthy_of_executeLine htable hbetween h⟩
    · exact ⟨htable, Sink.healthy_empty⟩
  rwa [Sink.add_empty] at h

theorem conclude_onto (hsink : sink.Healthy) {o : Outcome Int32} (ho : o.sink.Healthy) :
    conclude (o.onto sink) = (conclude o).map (Outcome.onto sink) := by
  apply conclude_mapSink
  simp [Sink.flush, Sink.add, hsink.flushFailure_eq, ho.flushFailure_eq, Nat.add_assoc]

theorem resume_eq (m : Machine) (number : Nat) (script : List UInt8) (sink : Sink) :
    m.resume number { bytes := script } sink = (do
      let o ← m.stepThrough sink (Source.numbered number (Source.cut script))
      conclude (o.ended none)) := by
  rw [resume, runFrom_eq_stepThrough]
  dsimp only [Source.lines]
  cases m.stepThrough sink (Source.numbered number (Source.cut script)) <;> rfl

/-- The rest of a run does not depend on what was written before. -/
theorem resume_onto (htable : m.table.WritesOnly) (hsink : sink.Healthy) (number : Nat)
    (script : List UInt8) :
    m.resume number { bytes := script } sink =
      (m.resume number { bytes := script } {}).map (Outcome.onto sink) := by
  rw [resume_eq, resume_eq, stepThrough_onto htable hsink]
  cases h : m.stepThrough {} (Source.numbered number (Source.cut script)) with
  | error fault => rfl
  | ok o =>
    have hhealthy := healthy_of_stepThrough htable Sink.healthy_empty h
    rw [Checked.map_ok, Checked.ok_bind, Checked.ok_bind, Outcome.ended_onto,
      conclude_onto hsink]
    rwa [Outcome.sink_ended]

/-! ### Two scripts -/

theorem run_eq_resume (m : Machine) (source : Source) (sink : Sink) :
    m.run source sink = (fresh m.config m.table).resume 1 source sink := rfl

/-- The lines of a script and then those of another one. -/
theorem resume_append (m : Machine) (number : Nat) {script : List UInt8}
    (h : Source.WholeLines script) (more : List UInt8) (sink : Sink) :
    m.resume number { bytes := script ++ more } sink = (do
      let o ← m.stepThrough sink (Source.numbered number (Source.cut script))
      let p ← o.andThen fun m sink =>
        m.stepThrough sink (Source.numbered (number + (Source.cut script).length) (Source.cut more))
      conclude (p.ended none)) := by
  rw [resume_eq, Source.cut_append_of_wholeLines h, Source.numbered_append, stepThrough_append]
  cases m.stepThrough sink (Source.numbered number (Source.cut script)) <;> rfl

/-- A run whose sink can be flushed was stopped exactly when one of its lines did not proceed. -/
theorem stopped_iff {o : Outcome Int32} {p : Outcome Flow} (h : conclude (p.ended none) = .ok o)
    (hhalt : p.machine.halt = none) (hflush : p.sink.flushFailure = none) :
    o.Stopped ↔ p.result ≠ .ok .proceed := by
  obtain ⟨chain, -, rfl⟩ := eq_of_conclude h
  rw [Outcome.Stopped, Outcome.sink_ended, hflush, afterFlush_none,
    Outcome.ended_none_eq hhalt]
  rcases p.result with diagnostic | ⟨⟩ | code <;> simp [Except.map, Flow.requested, Except.toOption]

/-- Two scripts run as one, the first of which consists of whole lines.  If the first alone fails,
or a handler ends it, then the second has no effect at all.  Otherwise the second is run from where
the lines of the first leave the machine, with line numbers that go on, and with its own output
behind that of the first.  So the output of the first always comes first. -/
theorem run_append (m : Machine) (htable : m.table.WritesOnly) {sink : Sink}
    (hsink : sink.Healthy) {script : List UInt8} (hscript : Source.WholeLines script)
    (more : List UInt8) {o : Outcome Int32} (ho : m.run { bytes := script } sink = .ok o) :
    (o.Stopped → m.run { bytes := script ++ more } sink = .ok o) ∧
    (¬o.Stopped → ∃ reached before,
      (fresh m.config m.table).runFrom 1 { bytes := script } sink =
        .ok { result := .ok 0, machine := reached, sink := before } ∧
      m.run { bytes := script ++ more } sink =
        reached.resume ((Source.cut script).length + 1) { bytes := more } before ∧
      reached.resume ((Source.cut script).length + 1) { bytes := more } before =
        (reached.resume ((Source.cut script).length + 1) { bytes := more } {}).map
          (Outcome.onto before)) ∧
    (∀ o', m.run { bytes := script ++ more } sink = .ok o' →
      o.sink.written.toList <+: o'.sink.written.toList) := by
  rw [run_eq_resume] at ho ⊢
  rw [resume_append _ _ hscript, Nat.add_comm 1]
  rw [resume_eq] at ho
  obtain ⟨p, hp, ho⟩ := Checked.bind_eq_ok_iff.1 ho
  have hhalt : p.machine.halt = none := by rw [machine_eq_of_stepThrough hp]; rfl
  have htable' : p.machine.table.WritesOnly := by rwa [machine_eq_of_stepThrough hp]
  have hhealthy : p.sink.Healthy :=
    healthy_of_stepThrough (m := fresh m.config m.table) htable hsink hp
  have hwritten : o.sink.written = p.sink.written := by
    obtain ⟨chain, -, rfl⟩ := eq_of_conclude ho
    dsimp only [Sink.flush]
    rw [Outcome.sink_ended]
  rw [hp, Checked.ok_bind, stopped_iff ho hhalt hhealthy.flushFailure_eq]
  by_cases hproceed : p.result = .ok .proceed
  · rw [Outcome.andThen_of_proceed hproceed]
    have hresume := resume_eq p.machine ((Source.cut script).length + 1) more p.sink
    have honto := resume_onto htable' hhealthy ((Source.cut script).length + 1) more
    refine ⟨fun h => absurd hproceed h, fun _ => ⟨p.machine, p.sink, ?_, ?_, honto⟩,
      fun o' ho' => ?_⟩
    · rw [runFrom_eq_stepThrough]
      dsimp only [Source.lines]
      simp only [hp, Checked.map_ok, Outcome.ended, hproceed]
    · exact hresume.symm
    · rw [← hresume, honto] at ho'
      obtain ⟨q, -, rfl⟩ := Checked.map_eq_ok_iff.1 ho'
      rw [hwritten]
      simp [Outcome.onto, Sink.add]
  · rw [Outcome.andThen_of_ne hproceed, Checked.ok_bind, ho]
    refine ⟨fun _ => rfl, fun h => absurd hproceed h, ?_⟩
    rintro o' ⟨⟩
    exact List.prefix_rfl

/-- A handler ends the first of two scripts with the exit code that the end of a script has, too.
The second script prints nothing then. -/
theorem run_append_of_ending :
    ∃ (m : Machine) (o : Outcome Int32), m.table.WritesOnly ∧
      m.run { bytes := Utf8.encode "push 1\npall\nhalt\n" } {} = .ok o ∧
      o.result = .ok 0 ∧ o.machine.halt = some 0 ∧ o.sink.written.toList = Utf8.encode "1\n" ∧
      m.run { bytes := Utf8.encode "push 1\npall\nhalt\n" ++ Utf8.encode "pall\n" } {} = .ok o := by
  let table := Table.builtin.register "halt" (.ending 0)
  have htable : table.WritesOnly :=
    Table.writesOnly_builtin.register "halt" (Handler.ending_writesOnly 0)
  have heval : ((fresh {} table).run { bytes := Utf8.encode "push 1\npall\nhalt\n" } {}).map
      (fun o => (o.result, o.machine.halt, o.sink.written.toList)) =
        .ok (.ok 0, some 0, Utf8.encode "1\n") := by
    decide +kernel
  obtain ⟨o, ho, heval⟩ := Checked.map_eq_ok_iff.1 heval
  obtain ⟨hresult, hhalt, hwritten⟩ : o.result = .ok 0 ∧ o.machine.halt = some 0 ∧
      o.sink.written.toList = Utf8.encode "1\n" := by
    simpa using heval
  obtain ⟨hstopped, -, -⟩ := run_append (fresh {} table) htable Sink.healthy_empty
    (.inr (by decide)) (Utf8.encode "pall\n") ho
  exact ⟨_, o, htable, ho, hresult, hhalt, hwritten, hstopped (.inr (by simp [hhalt]))⟩

end Machine

end ChainMachine
