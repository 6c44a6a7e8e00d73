import ChainMachine.Proofs.Lines
import ChainMachine.Proofs.Output

/-!
# Runs line by line

A run is what comes of executing the numbered lines of its script one at a time, up to the first
that fails or asks for the end.

* `Source.numbered`: lines with their numbers;
* `Machine.stepThrough`: the effect of numbered lines; unlike a run it tells whether a handler
  asked for the end, and leaves the sink, the chain and the exit code as the lines left them;
* `Machine.stepThrough_of_proceed`, `Machine.stepThrough_append`: lines after a line, and after
  other lines;
* `Outcome.andThen_map`: what goes on alike after two outcomes of a line;
* `Outcome.mapSink`, `Machine.stepThrough_mapSink`: the same lines on another sink;
* `Outcome.ended`, `Machine.conclude`: what a run adds at the end;
* `Machine.conclude_mapSink`: the end of a run on another sink;
* `Machine.run_eq_conclude`: a run in terms of the lines that its source delivers;
* `Machine.run_eq_stepThrough`: the same for a reader that does not fail, spelled out.
-/

namespace ChainMachine

/-- Lines as texts, with their numbers.  The first has the number that is given. -/
def Source.numbered (number : Nat) (lines : List (List UInt8)) : List (Nat × String) :=
  (lines.zipIdx number).map fun (line, i) => (i, Utf8.decode line)

@[simp] theorem Source.numbered_nil (number : Nat) : numbered number [] = [] := rfl

@[simp] theorem Source.numbered_cons (number : Nat) (line : List UInt8)
    (lines : List (List UInt8)) :
    numbered number (line :: lines) =
      (number, Utf8.decode line) :: numbered (number + 1) lines := rfl

theorem Source.numbered_append (number : Nat) (lines more : List (List UInt8)) :
    numbered number (lines ++ more) =
      numbered number lines ++ numbered (number + lines.length) more := by
  simp [numbered, List.zipIdx_append]

namespace Flow

/-- The exit code of a run that comes to its end in this way. -/
def exitCode : Flow → Int32
  | proceed => 0
  | terminate code => code

/-- The exit code that a handler asked for. -/
def requested : Flow → Option Int32
  | proceed => none
  | terminate code => some code

end Flow

namespace Outcome

/-- Whether the line was completed and the next one is to be executed. -/
def proceeds (o : Outcome Flow) : Bool :=
  match o.result with
  | .ok .proceed => true
  | _ => false

/-- Go on after a line, unless it failed or asked for the end. -/
def andThen (o : Outcome Flow) (next : Machine → Sink → Checked (Outcome Flow)) :
    Checked (Outcome Flow) :=
  match o.result with
  | .ok .proceed => next o.machine o.sink
  | _ => .ok o

/-- What lines come to when no others follow, where `failure` is the text of the failure of the
reader, if it failed. -/
def ended (failure : Option String) (o : Outcome Flow) : Outcome Int32 :=
  match o.result, failure with
  | .error diagnostic, _ => { o with result := .error diagnostic }
  | .ok (.terminate code), _ =>
    { o with result := .ok code, machine := { o.machine with halt := some code } }
  | .ok .proceed, none => { o with result := .ok 0 }
  | .ok .proceed, some text => { o with result := .error (.transfer text) }

/-- The outcome with another sink. -/
def mapSink {α : Type} (f : Sink → Sink) (o : Outcome α) : Outcome α := { o with sink := f o.sink }

theorem ended_mapSink (f : Sink → Sink) (failure : Option String) (o : Outcome Flow) :
    (o.mapSink f).ended failure = (o.ended failure).mapSink f := by
  obtain ⟨result, machine, sink⟩ := o
  rcases result with diagnostic | ⟨⟩ | code <;> cases failure <;> rfl

variable {o : Outcome Flow} {next : Machine → Sink → Checked (Outcome Flow)}

theorem proceeds_iff : o.proceeds = true ↔ o.result = .ok .proceed := by
  unfold proceeds
  split <;> simp_all

theorem andThen_of_proceed (h : o.result = .ok .proceed) :
    o.andThen next = next o.machine o.sink := by
  rw [andThen, h]

theorem andThen_of_ne (h : o.result ≠ .ok .proceed) : o.andThen next = .ok o := by
  unfold andThen
  split
  · next heq => exact absurd heq h
  · rfl

/-- What goes on alike after a line and after what `f` makes of its outcome. -/
theorem andThen_map {f : Outcome Flow → Outcome Flow}
    {next' : Machine → Sink → Checked (Outcome Flow)}
    (hresult : (f o).result = .ok .proceed ↔ o.result = .ok .proceed)
    (hnext : o.result = .ok .proceed →
      next' (f o).machine (f o).sink = (next o.machine o.sink).map f) :
    (f o).andThen next' = (o.andThen next).map f := by
  by_cases h : o.result = .ok .proceed
  · rw [andThen_of_proceed h, andThen_of_proceed (hresult.2 h), hnext h]
  · rw [andThen_of_ne h, andThen_of_ne (mt hresult.1 h), Checked.map_ok]

theorem andThen_bind_andThen (after : Machine → Sink → Checked (Outcome Flow)) :
    (o.andThen next >>= fun p => p.andThen after) =
      o.andThen fun m sink => next m sink >>= fun p => p.andThen after := by
  by_cases h : o.result = .ok .proceed
  · rw [andThen_of_proceed h, andThen_of_proceed h]
  · rw [andThen_of_ne h, andThen_of_ne h, Checked.ok_bind, andThen_of_ne h]

theorem machine_ended (o : Outcome Flow) (failure : Option String) :
    (o.ended failure).machine = { o.machine with halt := (o.ended failure).machine.halt } := by
  unfold ended
  split <;> rfl

theorem sink_ended (o : Outcome Flow) (failure : Option String) :
    (o.ended failure).sink = o.sink := by
  unfold ended
  split <;> rfl

/-- Without a handler's asking for it the exit code stays as it is. -/
theorem ended_none_eq (h : o.machine.halt = none) :
    o.ended none =
      { result := o.result.map Flow.exitCode
        machine := { o.machine with halt := o.result.toOption.bind Flow.requested }
        sink := o.sink } := by
  obtain ⟨result, ⟨config, table, chain, executed, halt⟩, sink⟩ := o
  obtain rfl : halt = none := h
  rcases result with diagnostic | ⟨⟩ | code <;> rfl

end Outcome

namespace Machine

/-- Execute numbered lines one after another, until one fails or asks for the end. -/
def stepThrough (m : Machine) (sink : Sink) : List (Nat × String) → Checked (Outcome Flow)
  | [] => .ok { result := .ok .proceed, machine := m, sink }
  | (number, text) :: lines => do
    let o ← m.executeLine number text sink
    o.andThen fun m sink => m.stepThrough sink lines

theorem stepThrough_of_proceed {m m' : Machine} {sink sink' : Sink} {number : Nat}
    {line : List UInt8}
    (h : m.executeLine number (Utf8.decode line) sink =
      .ok { result := .ok .proceed, machine := m', sink := sink' }) (lines : List (List UInt8)) :
    m.stepThrough sink (Source.numbered number (line :: lines)) =
      m'.stepThrough sink' (Source.numbered (number + 1) lines) := by
  rw [Source.numbered_cons, stepThrough, h, Checked.ok_bind, Outcome.andThen_of_proceed rfl]

/-- What a run does after its lines: it flushes the sink and clears the chain. -/
def conclude (o : Outcome Int32) : Checked (Outcome Int32) := do
  let (sink, failure) := o.sink.flush
  let chain ← o.machine.chain.clear
  return { result := afterFlush o.result failure, machine := { o.machine with chain }, sink }

theorem eq_of_conclude {o p : Outcome Int32} (h : conclude p = .ok o) :
    ∃ chain, p.machine.chain.clear = .ok chain ∧
      o = { result := afterFlush p.result p.sink.flushFailure
            machine := { p.machine with chain }
            sink := p.sink.flush.1 } := by
  obtain ⟨chain, hclear, h⟩ := Checked.bind_eq_ok_iff.1 h
  exact ⟨chain, hclear, (Except.ok.inj h).symm⟩

/-- The end of a run on another sink, where flushing both comes to the same. -/
theorem conclude_mapSink {f : Sink → Sink} {p : Outcome Int32}
    (hflush : (f p.sink).flush = (f p.sink.flush.1, p.sink.flush.2)) :
    conclude (p.mapSink f) = (conclude p).map (Outcome.mapSink f) := by
  unfold conclude
  dsimp only [Outcome.mapSink]
  rw [hflush]
  cases p.machine.chain.clear <;> rfl

/-- Lines after other lines. -/
theorem stepThrough_append (m : Machine) (sink : Sink) (lines more : List (Nat × String)) :
    m.stepThrough sink (lines ++ more) =
      m.stepThrough sink lines >>= fun o => o.andThen fun m sink => m.stepThrough sink more := by
  induction lines generalizing m sink with
  | nil => rfl
  | cons line lines ih =>
    obtain ⟨number, text⟩ := line
    rw [List.cons_append, stepThrough, stepThrough]
    cases m.executeLine number text sink with
    | error fault => rfl
    | ok o =>
      simp only [Checked.ok_bind, Outcome.andThen_bind_andThen, ih]

/-- What every line does alike on two sinks, one of which comes from the other by `f`, lines do one
after another. -/
theorem stepThrough_mapSink {f : Sink → Sink} {P : Machine → Sink → Prop}
    (hstep : ∀ (m : Machine) (sink : Sink) (number : Nat) (text : String), P m sink →
      m.executeLine number text (f sink) =
        (m.executeLine number text sink).map (Outcome.mapSink f))
    (hkeeps : ∀ (m : Machine) (sink : Sink) (number : Nat) (text : String) (o : Outcome Flow),
      P m sink → m.executeLine number text sink = .ok o → P o.machine o.sink)
    {m : Machine} {sink : Sink} (hstart : P m sink) (lines : List (Nat × String)) :
    m.stepThrough (f sink) lines = (m.stepThrough sink lines).map (Outcome.mapSink f) := by
  induction lines generalizing m sink with
  | nil => rfl
  | cons line lines ih =>
    obtain ⟨number, text⟩ := line
    rw [stepThrough, stepThrough, hstep m sink number text hstart]
    cases h : m.executeLine number text sink with
    | error fault => rfl
    | ok o =>
      have hnext := hkeeps m sink number text o hstart h
      rw [Checked.map_ok, Checked.ok_bind, Checked.ok_bind]
      exact Outcome.andThen_map Iff.rfl fun _ => ih hnext

/-- Stepping through lines changes nothing of a machine but its chain and the count of the
calls. -/
theorem machine_eq_of_stepThrough {m : Machine} {sink : Sink} {lines : List (Nat × String)}
    {o : Outcome Flow} (h : m.stepThrough sink lines = .ok o) :
    o.machine = { m with chain := o.machine.chain, executed := o.machine.executed } := by
  induction lines generalizing m sink with
  | nil =>
    cases h
    rfl
  | cons line lines ih =>
    obtain ⟨p, hp, h⟩ := Checked.bind_eq_ok_iff.1 h
    have hframe := (executeLine_eq_ok_iff.1 hp).machine_eq
    by_cases hproceed : p.result = .ok .proceed
    · rw [Outcome.andThen_of_proceed hproceed] at h
      have hrest := ih h
      rw [hframe] at hrest
      exact hrest
    · rw [Outcome.andThen_of_ne hproceed] at h
      cases h
      exact hframe

/-- Lines that are followed are lines that are stepped through. -/
theorem follow_eq_stepThrough (failure : Option String) (m : Machine) (number : Nat)
    (sink : Sink) (lines : List (List UInt8)) :
    m.follow failure number sink lines =
      (m.stepThrough sink (Source.numbered number lines)).map (Outcome.ended failure) := by
  induction lines generalizing m number sink with
  | nil => cases failure <;> rfl
  | cons line lines ih =>
    rw [follow, Source.numbered_cons, stepThrough]
    cases m.executeLine number (Utf8.decode line) sink with
    | error fault => rfl
    | ok o =>
      simp only [Checked.ok_bind, ih]
      obtain ⟨result, machine, sink⟩ := o
      rcases result with diagnostic | ⟨⟩ | code <;> rfl

/-- Executing a source is stepping through the lines that it delivers. -/
theorem runFrom_eq_stepThrough (m : Machine) (number : Nat) (source : Source) (sink : Sink) :
    m.runFrom number source sink =
      (m.stepThrough sink (Source.numbered number source.lines)).map
        (Outcome.ended source.failure) := by
  rw [runFrom_eq_follow, follow_eq_stepThrough]

/-- A run steps through the lines that its source delivers, and then comes to its end. -/
theorem run_eq_conclude (m : Machine) (source : Source) (sink : Sink) :
    m.run source sink = (do
      let o ← (fresh m.config m.table).stepThrough sink (Source.numbered 1 source.lines)
      conclude (o.ended source.failure)) := by
  have h : m.run source sink = (fresh m.config m.table).runFrom 1 source sink >>= conclude := rfl
  rw [h, runFrom_eq_stepThrough]
  cases (fresh m.config m.table).stepThrough sink (Source.numbered 1 source.lines) <;> rfl

/-- A run keeps the configuration and the table, and leaves a chain without nodes. -/
theorem machine_eq_of_run {m : Machine} {source : Source} {sink : Sink} {o : Outcome Int32}
    (h : m.run source sink = .ok o) :
    ∃ mode executed halt,
      o.machine = { m with chain := .empty mode, executed, halt } := by
  rw [run_eq_conclude] at h
  obtain ⟨p, hp, h⟩ := Checked.bind_eq_ok_iff.1 h
  obtain ⟨chain, hclear, rfl⟩ := eq_of_conclude h
  rw [Chain.eq_empty_of_clear hclear, Outcome.machine_ended, machine_eq_of_stepThrough hp]
  exact ⟨_, _, _, rfl⟩

/-- A flush that does not fail changes no result. -/
theorem afterFlush_none (result : Except Diagnostic Int32) : afterFlush result none = result := by
  cases result <;> rfl

/-! ### Output -/

variable {m : Machine} {sink : Sink}

/-- A healthy sink stays healthy. -/
theorem healthy_of_stepThrough (htable : m.table.WritesOnly) (hsink : sink.Healthy)
    {lines : List (Nat × String)} {o : Outcome Flow} (h : m.stepThrough sink lines = .ok o) :
    o.sink.Healthy := by
  induction lines generalizing m sink with
  | nil =>
    cases h
    exact hsink
  | cons line lines ih =>
    obtain ⟨p, hp, h⟩ := Checked.bind_eq_ok_iff.1 h
    have hhealthy := healthy_of_executeLine htable hsink hp
    by_cases hproceed : p.result = .ok .proceed
    · rw [Outcome.andThen_of_proceed hproceed] at h
      refine ih ?_ hhealthy h
      rwa [executeLine_table_eq hp]
    · rw [Outcome.andThen_of_ne hproceed] at h
      cases h
      exact hhealthy

/-- A run agrees with executing the lines of its script by hand, one by one and from 1 on, on a new
machine with the same configuration and table.  The run alone flushes the sink, clears the chain
and sets the exit code; no line does.  As long as the handlers do nothing to a healthy sink but
write to it, flushing it changes no result. -/
theorem run_eq_stepThrough (m : Machine) (script : List UInt8) (sink : Sink) :
    (m.run { bytes := script } sink = do
      let o ← (fresh m.config m.table).stepThrough sink (Source.numbered 1 (Source.cut script))
      let chain ← o.machine.chain.clear
      return { result := afterFlush (o.result.map Flow.exitCode) o.sink.flushFailure
               machine :=
                { o.machine with chain, halt := o.result.toOption.bind Flow.requested }
               sink := { o.sink with flushes := o.sink.flushes + 1 } }) ∧
    (∀ (m : Machine) number text sink o,
      m.executeLine number text sink = .ok o → o.machine.halt = m.halt) ∧
    (∀ o, (fresh m.config m.table).stepThrough sink (Source.numbered 1 (Source.cut script)) =
        .ok o →
      o.machine.halt = none ∧
        (m.table.WritesOnly → sink.Healthy →
          afterFlush (o.result.map Flow.exitCode) o.sink.flushFailure =
            o.result.map Flow.exitCode)) := by
  refine ⟨?_, fun _ _ _ _ _ h => executeLine_halt_eq h, fun o h => ⟨?_, fun htable hsink => ?_⟩⟩
  · rw [run_eq_conclude]
    dsimp only [Source.lines]
    cases h : (fresh m.config m.table).stepThrough sink
        (Source.numbered 1 (Source.cut script)) with
    | error fault => rfl
    | ok o =>
      have hhalt : o.machine.halt = none := by rw [machine_eq_of_stepThrough h]; rfl
      rw [Checked.ok_bind, Checked.ok_bind, Outcome.ended_none_eq hhalt]
      rfl
  · rw [machine_eq_of_stepThrough h]
    rfl
  · rw [(healthy_of_stepThrough (m := fresh m.config m.table) htable hsink h).flushFailure_eq]
    exact afterFlush_none _

/-- A handler ends the run in the third of four lines.  Stepping through them leaves the value in
the chain and sets no exit code; the run does both. -/
theorem run_eq_stepThrough_of_ending :
    ∃ (m : Machine) (script : List UInt8) (o : Outcome Flow),
      m.table.WritesOnly ∧
      Source.cut script = ["push 1\n", "pall\n", "halt\n", "pall"].map Utf8.encode ∧
      (fresh m.config m.table).stepThrough {} (Source.numbered 1 (Source.cut script)) = .ok o ∧
      o.machine.chain.values = .ok [1] ∧ o.machine.halt = none ∧
      o.result.map Flow.exitCode = .ok 42 ∧
      m.run { bytes := script } {} =
        .ok
          { result := .ok 42
            machine := { o.machine with chain := .empty .stack, halt := some 42 }
            sink := { o.sink with flushes := 1 } } := by
  let table := Table.builtin.register "halt" (.ending 42)
  let script := Utf8.encode "push 1\npall\nhalt\npall"
  have htable : table.WritesOnly :=
    Table.writesOnly_builtin.register "halt" (Handler.ending_writesOnly 42)
  have heval : ((fresh {} table).stepThrough {} (Source.numbered 1 (Source.cut script))).map
      (fun o => (o.result, o.machine.chain.values, o.machine.chain.clear, o.sink.flushes)) =
        .ok (.ok (.terminate 42), .ok [1], .ok (.empty .stack), 0) := by
    decide +kernel
  obtain ⟨o, ho, heval⟩ := Checked.map_eq_ok_iff.1 heval
  obtain ⟨hresult, hvalues, hclear, hflushes⟩ : o.result = .ok (.terminate 42) ∧
      o.machine.chain.values = .ok [1] ∧ o.machine.chain.clear = .ok (.empty .stack) ∧
        o.sink.flushes = 0 := by
    simpa using heval
  obtain ⟨hrun, -, hstep⟩ := run_eq_stepThrough (fresh {} table) script {}
  obtain ⟨hhalt, hflush⟩ := hstep o ho
  refine ⟨fresh {} table, script, o, htable, by decide, ho, hvalues, hhalt,
    by rw [hresult]; rfl, ?_⟩
  have ho' : (fresh (fresh {} table).config (fresh {} table).table).stepThrough {}
      (Source.numbered 1 (Source.cut script)) = .ok o := ho
  rw [hrun, ho', Checked.ok_bind, hclear, Checked.ok_bind, hflush htable Sink.healthy_empty,
    hresult, hflushes]
  rfl

end Machine

end ChainMachine
