import ChainMachine.Chain.Basic
import ChainMachine.Diagnostic
import ChainMachine.Sink

/-!
# Handlers

A handler carries out one instruction.  It is given the line of the instruction,
its operands, the chain and the sink, and reports failures instead of printing
them.

* `Flow`: what happens after an instruction;
* `Context`: what a handler knows about its instruction;
* `Reply`: what it answers;
* `Handler`: a function from the ones to the other.
-/

namespace ChainMachine

/-- What happens after an instruction. -/
inductive Flow
  /-- The next line is executed. -/
  | proceed
  /-- The run ends with the given exit code. -/
  | terminate (code : Int32)
  deriving DecidableEq, Repr

/-- The instruction as its handler sees it. -/
structure Context where
  line : Nat
  operands : List String
  /-- The number of slots that the chain may take, if that is bounded. -/
  slotLimit : Option Nat := none
  deriving DecidableEq, Repr

/-- The outcome of an instruction, with the chain and the sink as it left them. -/
structure Reply where
  outcome : Except Diagnostic Flow
  chain : Chain
  sink : Sink
  deriving DecidableEq

namespace Reply

/-- The instruction is done. -/
def proceed (chain : Chain) (sink : Sink) : Reply :=
  { outcome := .ok .proceed, chain, sink }

/-- The instruction failed. -/
def fail (diagnostic : Diagnostic) (chain : Chain) (sink : Sink) : Reply :=
  { outcome := .error diagnostic, chain, sink }

/-- The instruction is done unless its printing failed. -/
def printed (chain : Chain) : Sink × Option String → Reply
  | (sink, none) => proceed chain sink
  | (sink, some failure) => fail (.transfer failure) chain sink

end Reply

/-- What carries out an instruction. -/
abbrev Handler : Type := Context → Chain → Sink → Checked Reply

end ChainMachine
