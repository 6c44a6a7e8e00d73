import ChainMachine.CommandLine.Request
import ChainMachine.Machine

/-!
# What the program answers

A diagnostic reaches the end of the program inside a failure of some type, and is
looked for there again.

* `Envelope`: how a diagnostic is put into a failure, and what can be told of a
  failure; `Envelope.Faithful`: such that nothing is lost on the way;
* `Report`, `Report.ofResult`: an exit status and what is printed;
* `Settings.execute`, `Settings.report`: a script is run, and reported on;
* `Request.report`: the answer to a request;
* `Failure`: failures of which the text and the diagnostic are kept.
-/

namespace ChainMachine

/-- How a diagnostic is put into a failure, and what can be told of a failure. -/
structure Envelope (ε : Type) where
  wrap : Diagnostic → ε
  /-- What a failure is shown as. -/
  text : ε → String
  /-- The diagnostic in a failure, if there is one. -/
  diagnostic? : ε → Option Diagnostic

/-- A diagnostic that is put into a failure is shown by its message, and found again. -/
structure Envelope.Faithful {ε : Type} (e : Envelope ε) : Prop where
  text_wrap (diagnostic : Diagnostic) : e.text (e.wrap diagnostic) = diagnostic.message
  diagnostic?_wrap (diagnostic : Diagnostic) : e.diagnostic? (e.wrap diagnostic) = some diagnostic

/-- An exit status and what is printed. -/
structure Report where
  status : Int32 := 0
  stdout : List UInt8 := []
  stderr : String := ""
  deriving DecidableEq, Repr

variable {ε : Type}

namespace Report

/-- How the program is used, in short. -/
def usage : String := "USAGE: monty file\n"

/-- What is reported when a script has been run, or could not be, after printing some output.  The
diagnostic in a failure decides on the status. -/
def ofResult (e : Envelope ε) (stdout : List UInt8) : Except ε Int32 → Report
  | .ok code => { status := code, stdout }
  | .error failure =>
    let status := match e.diagnostic? failure with
      | some diagnostic => diagnostic.exitCode
      | none => 1
    { status, stdout, stderr := e.text failure ++ "\n" }

theorem ofResult_wrap {e : Envelope ε} (he : e.Faithful) (stdout : List UInt8)
    (diagnostic : Diagnostic) :
    ofResult e stdout (.error (e.wrap diagnostic)) =
      { status := diagnostic.exitCode, stdout, stderr := diagnostic.message ++ "\n" } := by
  simp only [ofResult, he.text_wrap, he.diagnostic?_wrap]

end Report

namespace Settings

/-- The mode that the chain starts in. -/
def initialMode (settings : Settings) : Mode := if settings.queue then .queue else .stack

/-- Run the script, which `load` opens: what this comes to, and what is printed meanwhile. -/
def execute (settings : Settings) (e : Envelope ε) (load : List UInt8 → Except String Source) :
    Checked (Except ε Int32 × List UInt8) :=
  match load settings.path with
  | .error cause => return (.error (e.wrap (.cannotOpen settings.path cause)), [])
  | .ok source => do
    let machine := Machine.fresh { initialMode := settings.initialMode } .builtin
    let o ← machine.run source {}
    return (o.result.mapError e.wrap, o.sink.written.toList)

/-- The answer to a request for running a script. -/
def report (settings : Settings) (e : Envelope ε) (load : List UInt8 → Except String Source) :
    Checked Report := do
  let (result, stdout) ← settings.execute e load
  return .ofResult e stdout result

end Settings

/-- The answer to a request, where `load` opens a script. -/
def Request.report (e : Envelope ε) (load : List UInt8 → Except String Source) :
    Request → Checked Report
  | .run settings => settings.report e load
  | .notice text => return { stdout := Utf8.encode text }
  | .misuse => return { status := 1, stderr := Report.usage }

/-- A failure as it is shown, with the diagnostic that it comes from, if any. -/
structure Failure where
  text : String
  diagnostic? : Option Diagnostic
  deriving DecidableEq, Repr

namespace Failure

/-- A diagnostic is put into a failure together with its message. -/
def envelope : Envelope Failure where
  wrap diagnostic := { text := diagnostic.message, diagnostic? := some diagnostic }
  text failure := failure.text
  diagnostic? failure := failure.diagnostic?

theorem faithful_envelope : envelope.Faithful := ⟨fun _ => rfl, fun _ => rfl⟩

end Failure

end ChainMachine
