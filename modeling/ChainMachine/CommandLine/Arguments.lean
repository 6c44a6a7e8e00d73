import ChainMachine.CommandLine.Request
import ChainMachine.Text.Utf8

/-!
# Arguments

Arguments are byte strings and are read from left to right.  The program takes one
script and these options:

* `--queue`, at most once: start in queue mode;
* `-v`, `--verbose`, any number of times;
* `-h`, `--help` and `-V`, `--version`, each of which decides the request as soon as
  it is met;
* `--`: every argument after it is an operand, whatever it looks like.

Options of one letter can be written together, as in `-vV`.  A lone `-` is an
operand.  A long option that is not listed is misuse: its second `-` is no letter.

* `Request.ofArguments`: what the arguments ask for.
-/

namespace ChainMachine.Request

/-- The version of the program. -/
def version : String := "monty 0.1.0\n"

/-- How the program is used. -/
def help : String :=
  "Run a monty bytecode script\n\n" ++
  "Usage: monty [OPTIONS] <FILE>\n\n" ++
  "Arguments:\n" ++
  "  <FILE>  Script to run\n\n" ++
  "Options:\n" ++
  "      --queue       Start the chain in queue mode instead of stack mode\n" ++
  "  -v, --verbose...  Log more (-v debug, -vv trace). RUST_LOG takes precedence\n" ++
  "  -h, --help        Print help\n" ++
  "  -V, --version     Print version\n"

/-- The options met so far. -/
structure Options where
  queue : Bool := false
  verbosity : Nat := 0
  deriving DecidableEq, Repr

/-- The request for running a script. -/
def ofOptions (options : Options) (path : List UInt8) : Request :=
  .run { path, queue := options.queue, verbosity := options.verbosity }

/-- Read letters written together after one `-`, and go on with `next` after the last. -/
def ofLetters (options : Options) (next : Options → Request) : List UInt8 → Request
  | [] => next options
  | letter :: letters =>
    if letter = 0x76 then  -- v
      ofLetters { options with verbosity := options.verbosity + 1 } next letters
    else if letter = 0x68 then .notice help  -- h
    else if letter = 0x56 then .notice version  -- V
    else .misuse

/-- Read the operands that follow `--`, where `path` is the one before it. -/
def ofOperands (options : Options) : (path : Option (List UInt8)) → List (List UInt8) → Request
  | none, [] => .misuse
  | some path, [] => ofOptions options path
  | none, path :: rest => if path.isEmpty then .misuse else ofOperands options (some path) rest
  | some _, _ :: _ => .misuse

/-- Read arguments, where `path` is the operand before them. -/
def ofRest (options : Options) (path : Option (List UInt8)) : List (List UInt8) → Request
  | [] => ofOperands options path []
  | argument :: rest =>
    if argument = Utf8.encode "--" then ofOperands options path rest
    else if argument = Utf8.encode "--queue" then
      if options.queue then .misuse else ofRest { options with queue := true } path rest
    else if argument = Utf8.encode "--verbose" then
      ofRest { options with verbosity := options.verbosity + 1 } path rest
    else if argument = Utf8.encode "--help" then .notice help
    else if argument = Utf8.encode "--version" then .notice version
    else match argument with
      | [] => .misuse
      | [0x2D] => if path.isSome then .misuse else ofRest options (some argument) rest
      | 0x2D :: letters => ofLetters options (fun options => ofRest options path rest) letters
      | _ => if path.isSome then .misuse else ofRest options (some argument) rest

/-- What the arguments ask for. -/
def ofArguments (arguments : List (List UInt8)) : Request := ofRest {} none arguments

end ChainMachine.Request
