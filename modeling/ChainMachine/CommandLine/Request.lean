/-!
# Command-line requests

What the arguments of the program can ask for.  Who reads the arguments is left open here.

* `Settings`: a script and how to run it;
* `Request`: what is asked for.
-/

namespace ChainMachine

/-- A script to run, and how. -/
structure Settings where
  path : List UInt8
  /-- Whether the chain starts in the queue mode. -/
  queue : Bool
  /-- How often it is asked for more to be logged. -/
  verbosity : Nat
  deriving DecidableEq, Repr

/-- What the arguments of the program ask for. -/
inductive Request
  | run (settings : Settings)
  /-- To be told about the program, such as how it is used. -/
  | notice (text : String)
  /-- The arguments break the rules. -/
  | misuse
  deriving DecidableEq, Repr

end ChainMachine
