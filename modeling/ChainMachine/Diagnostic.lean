import ChainMachine.Text.Numeral
import ChainMachine.Text.Utf8

/-!
# Diagnostics

What can stop a script, and how it is reported.  Every diagnostic is fatal.

* `Diagnostic`: the causes;
* `Diagnostic.line?`: the line it arose on, when an instruction caused it;
* `Diagnostic.exitCode`, `Diagnostic.message`: the exit status, and the line of text that
  reports it.
-/

namespace ChainMachine

/-- The reason why a script was stopped or could not be started. -/
inductive Diagnostic
  /-- The storage of the chain may not grow any further. -/
  | storageExhausted
  /-- The operand of an instruction is missing or is not a numeral. -/
  | invalidOperand (line : Nat)
  /-- An opcode needs more nodes than the chain has. -/
  | underflow (line : Nat) (opcode : String) (needed : Nat)
  /-- The divisor is zero. -/
  | divisionByZero (line : Nat)
  /-- The value to be printed is not the code of an ASCII character. -/
  | invalidCharacterCode (line : Nat) (value : Int32)
  /-- The first word of a line names no handler. -/
  | unknownOpcode (line : Nat) (opcode : String)
  /-- The script could not be opened. -/
  | cannotOpen (path : List UInt8) (cause : String)
  /-- Reading the script or printing failed. -/
  | transfer (cause : String)
  deriving DecidableEq, Repr

namespace Diagnostic

/-- The line of the instruction that failed. -/
def line? : Diagnostic → Option Nat
  | invalidOperand line | underflow line _ _ | divisionByZero line
  | invalidCharacterCode line _ | unknownOpcode line _ => some line
  | storageExhausted | cannotOpen _ _ | transfer _ => none

/-- The exit status of a process stopped by the diagnostic. -/
def exitCode (_ : Diagnostic) : Int32 := 1

/-- A text that begins with the number of a line. -/
def located (line : Nat) (text : String) : String :=
  "L" ++ String.ofList (Numeral.writeNat line) ++ ": " ++ text

/-- The part of an underflow's message that follows the line. -/
def underflowText (opcode : String) (needed : Nat) : String :=
  if opcode = "pop" then "can't pop an empty stack"
  else if needed ≤ 1 then "can't " ++ opcode ++ ", stack empty"
  else "can't " ++ opcode ++ ", stack too short"

/-- The line of text that reports the diagnostic. -/
def message : Diagnostic → String
  | storageExhausted => "Error: malloc failed"
  | invalidOperand line => located line "usage: push integer"
  | underflow line opcode needed => located line (underflowText opcode needed)
  | divisionByZero line => located line "division by zero"
  | invalidCharacterCode line _ => located line "can't pchar, value out of range"
  | unknownOpcode line opcode => located line ("unknown instruction " ++ opcode)
  | cannotOpen path _ => "Error: Can't open file " ++ Utf8.decode path
  | transfer cause => "Error: " ++ cause

end Diagnostic

end ChainMachine
