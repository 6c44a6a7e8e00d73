import ChainMachine.CommandLine.Arguments
import ChainMachine.CommandLine.Report

/-!
# The program

Reads the script that the arguments name and prints the report.
-/

namespace ChainMachine

/-- The text of a failure of the operating system. -/
def describe : IO.Error → String
  | .inappropriateType _ code details | .noFileOrDirectory _ code details
  | .permissionDenied _ code details | .resourceExhausted _ code details
  | .invalidArgument _ code details | .hardwareFault code details
  | .otherError code details =>
    details ++ " (os error " ++ Nat.repr code.toNat ++ ")"
  | failure => toString failure

/-- Read a script to its end, or until this fails. -/
def readScript (handle : IO.FS.Handle) : IO Source := do
  let mut bytes := ByteArray.empty
  repeat
    match ← (handle.read 65536).toBaseIO with
    | .error failure => return { bytes := bytes.data.toList, failure := some (describe failure) }
    | .ok chunk =>
      if chunk.isEmpty then break
      bytes := bytes ++ chunk
  return { bytes := bytes.data.toList }

/-- Open a script, and read it as far as it can be read.  A path that is no text cannot be
opened. -/
def openScript (path : List UInt8) : IO (Except String Source) := do
  let some name := String.fromUTF8? ⟨path.toArray⟩
    | return .error "Invalid or incomplete multibyte or wide character (os error 84)"
  match ← (IO.FS.Handle.mk name .read).toBaseIO with
  | .error failure => return .error (describe failure)
  | .ok handle => return .ok (← readScript handle)

end ChainMachine

open ChainMachine in
/-- Answer the request that the arguments make. -/
def main (arguments : List String) : IO UInt32 := do
  let request := Request.ofArguments (arguments.map Utf8.encode)
  let script ← match request with
    | .run settings => openScript settings.path
    | _ => pure (.error "")
  match request.report Failure.envelope fun _ => script with
  | .error _ =>
    IO.eprintln "internal fault"
    return 101
  | .ok report =>
    let stdout ← IO.getStdout
    stdout.write ⟨report.stdout.toArray⟩
    stdout.flush
    IO.eprint report.stderr
    return report.status.toUInt32
