import ChainMachine.Instruction.Table
import ChainMachine.Script.Line
import ChainMachine.Script.Source

/-!
# The machine

A machine executes scripts line by line on its chain.

* `Config`: what is fixed for all runs;
* `Machine`, `Machine.fresh`;
* `Machine.executeLine`: the effect of one line;
* `Machine.runFrom`: the effect of the lines of a source;
* `Machine.run`: a whole run, which starts from an empty chain and ends by
  flushing the sink and clearing the chain.
-/

namespace ChainMachine

/-- What is fixed for all runs of a machine. -/
structure Config where
  /-- The mode of the chain at the start of a run. -/
  initialMode : Mode := .stack
  /-- The number of slots that the chain may take, if that is bounded. -/
  slotLimit : Option Nat := none
  deriving DecidableEq, Repr

/-- A machine between two lines. -/
structure Machine where
  config : Config
  table : Table
  chain : Chain
  /-- The number of handlers called since the run began. -/
  executed : Nat
  /-- The exit code with which a handler ended the run. -/
  halt : Option Int32

/-- The result of some execution, with the machine and the sink as it left them. -/
structure Outcome (α : Type) where
  result : Except Diagnostic α
  machine : Machine
  sink : Sink

namespace Machine

/-- A machine that has executed nothing yet. -/
def fresh (config : Config) (table : Table) : Machine :=
  { config, table, chain := .empty config.initialMode, executed := 0, halt := none }

/-- Execute one line.  Blank lines and comments do nothing. -/
def executeLine (m : Machine) (line : Nat) (text : String) (sink : Sink) :
    Checked (Outcome Flow) := do
  match ← Line.parse text with
  | .blank | .comment => return { result := .ok .proceed, machine := m, sink }
  | .instruction opcode operands =>
    match m.table.get? opcode with
    | none => return { result := .error (.unknownOpcode line opcode), machine := m, sink }
    | some handler =>
      let reply ← handler { line, operands, slotLimit := m.config.slotLimit } m.chain sink
      return { result := reply.outcome
               machine := { m with chain := reply.chain, executed := m.executed + 1 }
               sink := reply.sink }

/-- What follows a line: the end of the run, or `next` when the line lets it go on. -/
def afterLine (o : Outcome Flow) (next : Machine → Sink → Checked (Outcome Int32)) :
    Checked (Outcome Int32) :=
  match o.result with
  | .error diagnostic => .ok { o with result := .error diagnostic }
  | .ok (.terminate code) =>
    .ok { o with result := .ok code, machine := { o.machine with halt := some code } }
  | .ok .proceed => next o.machine o.sink

/-- Execute the lines of a source, the first of which has the given number, until one fails
or ends the run or none is left. -/
def runFrom (m : Machine) (line : Nat) (source : Source) (sink : Sink) :
    Checked (Outcome Int32) :=
  match _h : source.readLine with
  | .failed text => .ok { result := .error (.transfer text), machine := m, sink }
  | .done => .ok { result := .ok 0, machine := m, sink }
  | .line bytes rest => do
    let o ← m.executeLine line (Utf8.decode bytes) sink
    afterLine o fun m sink => m.runFrom (line + 1) rest sink
termination_by source.bytes.length
decreasing_by exact Source.length_lt_of_readLine _h

/-- The result of a run whose sink has been flushed: a failure of the run itself comes first. -/
def afterFlush (result : Except Diagnostic Int32) (failure : Option String) :
    Except Diagnostic Int32 :=
  match result, failure with
  | .error diagnostic, _ => .error diagnostic
  | .ok _, some text => .error (.transfer text)
  | .ok code, none => .ok code

/-- Run a script from the start.  Every run ends by flushing the sink and clearing the chain,
whatever stopped it. -/
def run (m : Machine) (source : Source) (sink : Sink) : Checked (Outcome Int32) := do
  let o ← (fresh m.config m.table).runFrom 1 source sink
  let (sink, failure) := o.sink.flush
  let chain ← o.machine.chain.clear
  return { result := afterFlush o.result failure, machine := { o.machine with chain }, sink }

/-- Run a script held as text. -/
def runText (m : Machine) (script : String) (sink : Sink) : Checked (Outcome Int32) :=
  m.run { bytes := Utf8.encode script } sink

/-! ### The lines of a source -/

theorem runFrom_of_failed {source : Source} {text : String} (h : source.readLine = .failed text)
    (m : Machine) (line : Nat) (sink : Sink) :
    m.runFrom line source sink =
      .ok { result := .error (.transfer text), machine := m, sink } := by
  rw [runFrom]
  split <;> simp_all

theorem runFrom_of_done {source : Source} (h : source.readLine = .done)
    (m : Machine) (line : Nat) (sink : Sink) :
    m.runFrom line source sink = .ok { result := .ok 0, machine := m, sink } := by
  rw [runFrom]
  split <;> simp_all

theorem runFrom_of_line {source rest : Source} {bytes : List UInt8}
    (h : source.readLine = .line bytes rest) (m : Machine) (line : Nat) (sink : Sink) :
    m.runFrom line source sink = (do
      let o ← m.executeLine line (Utf8.decode bytes) sink
      afterLine o fun m sink => m.runFrom (line + 1) rest sink) := by
  rw [runFrom]
  split
  · simp_all
  · simp_all
  · next hl =>
    rw [h] at hl
    cases hl
    rfl

end Machine

end ChainMachine
