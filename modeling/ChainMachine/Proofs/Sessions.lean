import ChainMachine.Proofs.Ending
import Mathlib.Data.List.Induction

/-!
# Sessions

A machine is used again and again: scripts are run, single lines are executed, and handlers are
registered, in any order.  What the machine is like afterwards can be read off what was done and
what came of it, so that nothing is carried over in secret.

* `Machine.Invocation`: a call of a handler;
* `Machine.traceLine`, `Machine.traceLines`: lines with the calls that they make, and
  `Machine.traceLine_snd`, `Machine.traceLines_snd`: they come to the same as without;
* `Machine.Action`, `Machine.Event`: what is done with a machine, and what comes of it;
* `Machine.perform`, `Machine.session`: one action, and several of them;
* `Machine.registered`, `Machine.sinceRun`: the handlers registered so far, and what came of the
  last run and of the actions after it;
* `Machine.machine_eq_of_session`: what the machine is like afterwards;
* `Machine.session_state`: every session can be carried out, and leaves no more than that behind.
-/

namespace ChainMachine

namespace Machine

/-! ### Calls -/

/-- A call of a handler. -/
structure Invocation where
  handler : Handler
  context : Context
  chain : Chain
  sink : Sink

/-- What the handler replies. -/
def Invocation.reply (call : Invocation) : Checked Reply :=
  call.handler call.context call.chain call.sink

/-- Execute one line, and tell which handlers are called. -/
def traceLine (m : Machine) (number : Nat) (text : String) (sink : Sink) :
    Checked (List Invocation × Outcome Flow) := do
  match ← Line.parse text with
  | .blank | .comment => return ([], { result := .ok .proceed, machine := m, sink })
  | .instruction opcode operands =>
    match m.table.get? opcode with
    | none => return ([], { result := .error (.unknownOpcode number opcode), machine := m, sink })
    | some handler =>
      let call : Invocation :=
        { handler
          context := { line := number, operands, slotLimit := m.config.slotLimit }
          chain := m.chain
          sink }
      let reply ← call.reply
      return ([call],
        { result := reply.outcome
          machine := { m with chain := reply.chain, executed := m.executed + 1 }
          sink := reply.sink })

/-- Execute numbered lines up to the first that does not proceed, and tell which handlers are
called. -/
def traceLines (m : Machine) (sink : Sink) :
    List (Nat × String) → Checked (List Invocation × Outcome Flow)
  | [] => return ([], { result := .ok .proceed, machine := m, sink })
  | (number, text) :: lines => do
    let (calls, o) ← m.traceLine number text sink
    match o.result with
    | .ok .proceed =>
      let (more, p) ← o.machine.traceLines o.sink lines
      return (calls ++ more, p)
    | _ => return (calls, o)

variable {m : Machine} {sink : Sink}

theorem traceLine_snd (m : Machine) (number : Nat) (text : String) (sink : Sink) :
    (m.traceLine number text sink).map Prod.snd = m.executeLine number text sink := by
  unfold traceLine executeLine
  rw [Checked.map_bind]
  refine bind_congr fun line => ?_
  cases line with
  | blank => rfl
  | comment => rfl
  | instruction opcode operands =>
    dsimp only
    cases m.table.get? opcode with
    | none => rfl
    | some handler => exact Checked.map_bind _ _ _

theorem traceLines_snd (m : Machine) (sink : Sink) (lines : List (Nat × String)) :
    (m.traceLines sink lines).map Prod.snd = m.stepThrough sink lines := by
  induction lines generalizing m sink with
  | nil => rfl
  | cons line lines ih =>
    obtain ⟨number, text⟩ := line
    rw [traceLines, stepThrough, ← traceLine_snd]
    rcases m.traceLine number text sink with fault | ⟨calls, o⟩
    · rfl
    rw [Checked.ok_bind, Checked.map_ok, Checked.ok_bind]
    dsimp only
    by_cases hproceed : o.result = .ok .proceed
    · rw [Outcome.andThen_of_proceed hproceed, hproceed, ← ih, Checked.map_bind]
      rcases o.machine.traceLines o.sink lines with fault | ⟨more, p⟩ <;> rfl
    · rw [Outcome.andThen_of_ne hproceed]
      split
      next heq => exact absurd heq hproceed
      next => rfl

theorem traceLines_singleton (m : Machine) (number : Nat) (text : String) (sink : Sink) :
    m.traceLines sink [(number, text)] = m.traceLine number text sink := by
  rw [traceLines]
  rcases m.traceLine number text sink with fault | ⟨calls, ⟨result, machine, sink⟩⟩
  · rfl
  · rcases result with diagnostic | ⟨⟩ | code
    · rfl
    · exact congrArg (fun calls => Except.ok (calls, _)) (List.append_nil calls)
    · rfl

/-- Every call is counted. -/
theorem executed_of_traceLine {number : Nat} {text : String} {calls : List Invocation}
    {o : Outcome Flow} (h : m.traceLine number text sink = .ok (calls, o)) :
    o.machine.executed = m.executed + calls.length := by
  obtain ⟨line, -, h⟩ := Checked.bind_eq_ok_iff.1 h
  cases line with
  | blank =>
    cases h
    rfl
  | comment =>
    cases h
    rfl
  | instruction opcode operands =>
    dsimp only at h
    cases hget : m.table.get? opcode with
    | none =>
      rw [hget] at h
      cases h
      rfl
    | some handler =>
      rw [hget] at h
      obtain ⟨reply, -, h⟩ := Checked.bind_eq_ok_iff.1 h
      cases h
      rfl

/-- Every call is counted. -/
theorem executed_of_traceLines {lines : List (Nat × String)} {calls : List Invocation}
    {p : Outcome Flow} (h : m.traceLines sink lines = .ok (calls, p)) :
    p.machine.executed = m.executed + calls.length := by
  induction lines generalizing m sink calls p with
  | nil =>
    cases h
    rfl
  | cons line lines ih =>
    obtain ⟨number, text⟩ := line
    obtain ⟨⟨first, o⟩, ho, h⟩ := Checked.bind_eq_ok_iff.1 h
    have hline := executed_of_traceLine ho
    dsimp only at h
    split at h
    · obtain ⟨⟨more, q⟩, hq, h⟩ := Checked.bind_eq_ok_iff.1 h
      have hlines := ih hq
      cases h
      rw [hlines, hline, List.length_append, Nat.add_assoc]
    · cases h
      exact hline

/-! ### Sessions -/

/-- What is done with a machine. -/
inductive Action
  | run (source : Source) (sink : Sink)
  | line (number : Nat) (text : String) (sink : Sink)
  | register (name : String) (handler : Handler)

/-- What comes of an action: the calls that were made, and what the lines came to.  In a run this
is before its end. -/
inductive Event
  | run (calls : List Invocation) (reached : Outcome Flow)
  | line (calls : List Invocation) (reached : Outcome Flow)
  | register

/-- Carry out an action. -/
def perform (m : Machine) : Action → Checked (Event × Machine)
  | .run source sink => do
    let (calls, p) ← (fresh m.config m.table).traceLines sink (Source.numbered 1 source.lines)
    let o ← m.run source sink
    return (.run calls p, o.machine)
  | .line number text sink => do
    let (calls, o) ← m.traceLine number text sink
    return (.line calls o, o.machine)
  | .register name handler =>
    return (.register, { m with table := m.table.register name handler })

/-- Carry out actions one after another. -/
def session (m : Machine) : List Action → Checked (List Event × Machine)
  | [] => return ([], m)
  | action :: actions => do
    let (event, m) ← m.perform action
    let (events, m) ← m.session actions
    return (event :: events, m)

/-- The table after an action. -/
def Action.onTable (t : Table) : Action → Table
  | register name handler => t.register name handler
  | run _ _ | line _ _ _ => t

/-- The table after actions. -/
def registered (t : Table) (actions : List Action) : Table := actions.foldl Action.onTable t

namespace Event

def isRun : Event → Bool
  | run _ _ => true
  | line _ _ | register => false

/-- The calls that were made. -/
def calls : Event → List Invocation
  | run calls _ | line calls _ => calls
  | register => []

/-- The exit code with which a handler ended a run. -/
def code? : Event → Option Int32
  | run _ p => p.result.toOption.bind Flow.requested
  | line _ _ | register => none

/-- The chain that is left.  A run leaves no node, and the mode that its lines ended in. -/
def chain? : Event → Option Chain
  | run _ p => some (.empty p.machine.chain.mode)
  | line _ o => some o.machine.chain
  | register => none

end Event

/-- What came of the last run and of the actions after it; if there was no run, of all of them. -/
def sinceRun (events : List Event) : List Event :=
  events.foldl (fun since event => if event.isRun then [event] else since ++ [event]) []

/-- The number of calls since the last run began. -/
def callsSinceRun (events : List Event) : Nat := ((sinceRun events).flatMap Event.calls).length

/-- The exit code with which the last run was ended. -/
def lastCode? (events : List Event) : Option Int32 := (sinceRun events).head?.bind Event.code?

/-- The chain that was left last, which is the initial one if there was no run and no line. -/
def lastChain (initial : Mode) (events : List Event) : Chain :=
  (events.filterMap Event.chain?).getLast?.getD (.empty initial)

theorem sinceRun_concat (events : List Event) (event : Event) :
    sinceRun (events ++ [event]) =
      if event.isRun then [event] else sinceRun events ++ [event] := by
  simp [sinceRun]

theorem callsSinceRun_concat (events : List Event) (event : Event) :
    callsSinceRun (events ++ [event]) =
      (if event.isRun then 0 else callsSinceRun events) + event.calls.length := by
  unfold callsSinceRun
  rw [sinceRun_concat]
  cases event.isRun <;> simp

theorem lastCode?_concat (events : List Event) (event : Event) :
    lastCode? (events ++ [event]) =
      if event.isRun then event.code? else lastCode? events := by
  unfold lastCode?
  rw [sinceRun_concat]
  cases event with
  | run calls p => rfl
  | line calls o => cases sinceRun events <;> rfl
  | register => cases sinceRun events <;> rfl

theorem lastChain_concat (initial : Mode) (events : List Event) (event : Event) :
    lastChain initial (events ++ [event]) =
      event.chain?.getD (lastChain initial events) := by
  unfold lastChain
  cases h : event.chain? <;> simp [List.filterMap_append, h]

theorem registered_concat (t : Table) (actions : List Action) (action : Action) :
    registered t (actions ++ [action]) = action.onTable (registered t actions) := by
  simp [registered]

/-! ### The machine after a session -/

/-- A run leaves the configuration and the table, and nothing of what was there before it. -/
theorem machine_of_run {source : Source} {p : Outcome Flow} {o : Outcome Int32}
    (hlines : (fresh m.config m.table).stepThrough sink (Source.numbered 1 source.lines) = .ok p)
    (ho : m.run source sink = .ok o) :
    o.machine =
      { m with
        chain := .empty p.machine.chain.mode
        executed := p.machine.executed
        halt := p.result.toOption.bind Flow.requested } := by
  rw [run_eq_conclude, hlines, Checked.ok_bind] at ho
  obtain ⟨chain, hclear, rfl⟩ := eq_of_conclude ho
  have hmachine := machine_eq_of_stepThrough hlines
  obtain ⟨result, machine, after⟩ := p
  dsimp only at hmachine
  rw [Chain.eq_empty_of_clear hclear, Outcome.machine_ended, hmachine]
  rcases result with diagnostic | ⟨⟩ | code <;> cases source.failure <;> rfl

theorem session_concat (m : Machine) (actions : List Action) (action : Action) :
    m.session (actions ++ [action]) = (do
      let (events, m) ← m.session actions
      let (event, m) ← m.perform action
      return (events ++ [event], m)) := by
  induction actions generalizing m with
  | nil => rfl
  | cons first actions ih =>
    rw [List.cons_append, session, session]
    rcases m.perform first with fault | ⟨event, m'⟩
    · rfl
    dsimp only [Checked.ok_bind]
    rw [ih]
    rcases m'.session actions with fault | ⟨events, m''⟩
    · rfl
    dsimp only [Checked.ok_bind, Checked.pure_eq_ok]
    rcases m''.perform action with fault | ⟨event, m'⟩ <;> rfl

/-- What an action does to a machine. -/
theorem machine_of_perform {m' : Machine} {action : Action} {event : Event}
    (h : m.perform action = .ok (event, m')) :
    m' =
      { m with
        table := action.onTable m.table
        chain := event.chain?.getD m.chain
        executed := (if event.isRun then 0 else m.executed) + event.calls.length
        halt := if event.isRun then event.code? else m.halt } := by
  cases action with
  | run source sink =>
    obtain ⟨⟨calls, p⟩, hlines, h⟩ := Checked.bind_eq_ok_iff.1 h
    obtain ⟨o, ho, h⟩ := Checked.bind_eq_ok_iff.1 h
    have hcount := executed_of_traceLines hlines
    have hsteps := traceLines_snd (fresh m.config m.table) sink (Source.numbered 1 source.lines)
    rw [hlines] at hsteps
    have hmachine := machine_of_run hsteps.symm ho
    cases h
    rw [hmachine, hcount]
    rfl
  | line number text sink =>
    obtain ⟨⟨calls, o⟩, hline, h⟩ := Checked.bind_eq_ok_iff.1 h
    have hcount := executed_of_traceLine hline
    have hexecute := traceLine_snd m number text sink
    rw [hline] at hexecute
    have hmachine := (executeLine_eq_ok_iff.1 hexecute.symm).machine_eq
    cases h
    rw [hmachine, hcount]
    rfl
  | register name handler =>
    cases h
    rfl

/-- What the machine is like after a session can be read off what was done and what came of it. -/
theorem machine_eq_of_session {config : Config} {table : Table} {actions : List Action}
    {events : List Event} (h : (fresh config table).session actions = .ok (events, m)) :
    m =
      { config
        table := registered table actions
        chain := lastChain config.initialMode events
        executed := callsSinceRun events
        halt := lastCode? events } := by
  induction actions using List.reverseRecOn generalizing events m with
  | nil =>
    cases h
    rfl
  | append_singleton actions action ih =>
    rw [session_concat] at h
    obtain ⟨⟨events, before⟩, hbefore, h⟩ := Checked.bind_eq_ok_iff.1 h
    obtain rfl := ih hbefore
    obtain ⟨⟨event, after⟩, hafter, h⟩ := Checked.bind_eq_ok_iff.1 h
    have hmachine := machine_of_perform hafter
    cases h
    rw [hmachine, registered_concat, lastChain_concat, callsSinceRun_concat, lastCode?_concat]

/-! ### Sessions that can be carried out -/

/-- All handlers reply and leave the links of a chain in order, and the links of this chain are. -/
structure Sound (m : Machine) : Prop where
  replies : m.table.Replies
  keepsChains : m.table.KeepsChains
  holds : ∃ s, m.chain.Holds s

/-- An action that registers no handler, or one that replies and leaves the links in order. -/
def Action.Sound (action : Action) : Prop :=
  ∀ name handler, action = register name handler → handler.Replies ∧ handler.KeepsChains

namespace Sound

theorem fresh (config : Config) {table : Table} (hreplies : table.Replies)
    (hkeeps : table.KeepsChains) : (fresh config table).Sound :=
  ⟨hreplies, hkeeps, _, Chain.holds_empty config.initialMode⟩

theorem exists_perform (h : m.Sound) {action : Action} (haction : action.Sound) :
    ∃ event m', m.perform action = .ok (event, m') ∧ m'.Sound := by
  cases action with
  | run source sink =>
    obtain ⟨os, o, hos, ho, -⟩ := exists_run h.replies h.keepsChains source sink
    have hsteps := stepThrough_eq_ok_iff.2 ⟨os, hos, rfl⟩
    rw [← traceLines_snd, Checked.map_eq_ok_iff] at hsteps
    obtain ⟨⟨calls, p⟩, htrace, -⟩ := hsteps
    obtain ⟨mode, executed, halt, hmachine⟩ := machine_eq_of_run ho
    refine ⟨.run calls p, o.machine, ?_, ?_⟩
    · simp [perform, htrace, ho]
    · rw [hmachine]
      exact ⟨h.replies, h.keepsChains, _, Chain.holds_empty mode⟩
  | line number text sink =>
    obtain ⟨o, ho⟩ := executeLine_isOk_of_replies h.replies h.holds number text sink
    have htable := executeLine_table_eq ho
    have hholds := exists_holds_of_executeLine h.keepsChains ho h.holds
    rw [← traceLine_snd, Checked.map_eq_ok_iff] at ho
    obtain ⟨⟨calls, o⟩, htrace, rfl⟩ := ho
    refine ⟨.line calls o, o.machine, ?_, ?_⟩
    · simp [perform, htrace]
    · refine ⟨?_, ?_, hholds⟩
      · rw [htable]
        exact h.replies
      · rw [htable]
        exact h.keepsChains
  | register name handler =>
    obtain ⟨hreplies, hkeeps⟩ := haction name handler rfl
    exact ⟨_, _, rfl, h.replies.register name hreplies, h.keepsChains.register name hkeeps, h.holds⟩

theorem exists_session (h : m.Sound) {actions : List Action}
    (hactions : ∀ action ∈ actions, action.Sound) :
    ∃ events m', m.session actions = .ok (events, m') ∧ m'.Sound := by
  induction actions generalizing m with
  | nil => exact ⟨[], m, rfl, h⟩
  | cons action actions ih =>
    rw [List.forall_mem_cons] at hactions
    obtain ⟨event, m', hperform, h'⟩ := h.exists_perform hactions.1
    obtain ⟨events, m'', hsession, h''⟩ := ih h' hactions.2
    refine ⟨event :: events, m'', ?_, h''⟩
    simp [session, hperform, hsession]

end Sound

/-- A session on a new machine.  Whatever was done in it, the next run is the first run of a new
machine that has the configuration and the handlers registered so far.  The calls that are counted
are those since the last run began.  The exit code is the one with which a handler ended the last
run, if one did, and no line changes it.  The chain is the one that the last line left, completed or
not; if there was no line after the last run, it has no node and is in the mode in which that run
ended.

Every session can be carried out, and so can any run and any line after it, when all handlers reply
and leave the links of a chain in order. -/
theorem session_state (config : Config) (table : Table) (actions : List Action) :
    (∀ events m, (fresh config table).session actions = .ok (events, m) →
      (∀ source sink,
        m.run source sink = (fresh config (registered table actions)).run source sink) ∧
      m.executed = callsSinceRun events ∧
      m.halt = lastCode? events ∧
      (∀ number text sink o, m.executeLine number text sink = .ok o →
        o.machine.halt = m.halt) ∧
      m.chain = lastChain config.initialMode events) ∧
    (table.Replies → table.KeepsChains → (∀ action ∈ actions, action.Sound) →
      ∃ events m, (fresh config table).session actions = .ok (events, m) ∧
        (∀ source sink, ∃ o, m.run source sink = .ok o) ∧
        ∀ number text sink, ∃ o, m.executeLine number text sink = .ok o) := by
  constructor
  · intro events m hsession
    obtain rfl := machine_eq_of_session hsession
    exact ⟨fun source sink => rfl, rfl, rfl, fun number text sink o ho => executeLine_halt_eq ho,
      rfl⟩
  · intro hreplies hkeeps hactions
    obtain ⟨events, m, hsession, hsound⟩ :=
      (Sound.fresh config hreplies hkeeps).exists_session hactions
    refine ⟨events, m, hsession, ?_, ?_⟩
    · intro source sink
      obtain ⟨os, o, -, ho, -⟩ := exists_run hsound.replies hsound.keepsChains source sink
      exact ⟨o, ho⟩
    · exact executeLine_isOk_of_replies hsound.replies hsound.holds

/-- A run fails, a handler is registered, lines are executed that push on the chain or fail; then
the new handler ends a run in the mode of a queue, and again there are lines that push or fail. -/
theorem session_state_of_failures :
    ∃ (actions : List Action) (events : List Event) (m : Machine),
      actions =
        [.run { bytes := Utf8.encode "push 1\nqueue\nadd\npush 2\n" } {},
          .register "halt" (.ending 3), .line 9 "push 5" {}, .line 9 "add" {},
          .run { bytes := Utf8.encode "push 7\nqueue\nhalt\npall\n" } {}, .line 1 "push 4" {},
          .line 1 "div" {}, .line 1 "nop" {}] ∧
      (fresh {} .builtin).session actions = .ok (events, m) ∧ m.executed = 6 ∧ m.halt = some 3 ∧
      m.chain.values = .ok [4] ∧ m.chain.mode = .queue ∧
      (m.run { bytes := Utf8.encode "push 8\nhalt\n" } {}).map
        (fun o => (o.result, o.machine.executed, o.machine.chain)) =
          .ok (.ok 3, 2, .empty .stack) := by
  let actions : List Action :=
    [.run { bytes := Utf8.encode "push 1\nqueue\nadd\npush 2\n" } {},
      .register "halt" (.ending 3), .line 9 "push 5" {}, .line 9 "add" {},
      .run { bytes := Utf8.encode "push 7\nqueue\nhalt\npall\n" } {}, .line 1 "push 4" {},
      .line 1 "div" {}, .line 1 "nop" {}]
  have hactions : ∀ action ∈ actions, action.Sound := by
    simp [actions, Action.Sound, Handler.ending_replies, Handler.ending_keepsChains]
  obtain ⟨hstate, hexists⟩ := session_state {} .builtin actions
  obtain ⟨events, m, hsession, -, -⟩ :=
    hexists Table.replies_builtin Table.keepsChains_builtin hactions
  obtain ⟨hrun, hexecuted, hhalt, -, hchain⟩ := hstate events m hsession
  have heval : ((fresh {} .builtin).session actions).map (fun s =>
      (callsSinceRun s.1, lastCode? s.1, (lastChain .stack s.1).values,
        (lastChain .stack s.1).mode)) = .ok (6, some 3, .ok [4], .queue) := by
    decide +kernel
  rw [hsession] at heval
  obtain ⟨hcalls, hcode, hvalues, hmode⟩ : callsSinceRun events = 6 ∧ lastCode? events = some 3 ∧
      (lastChain .stack events).values = .ok [4] ∧ (lastChain .stack events).mode = .queue := by
    simpa using heval
  refine ⟨actions, events, m, rfl, hsession, hexecuted.trans hcalls, hhalt.trans hcode, ?_, ?_, ?_⟩
  · rw [hchain]
    exact hvalues
  · rw [hchain]
    exact hmode
  · rw [hrun]
    decide +kernel

end Machine

end ChainMachine
