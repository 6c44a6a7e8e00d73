import ChainMachine.Script.Word

/-!
# Lines of a script

* `Line`: a line that does nothing, or an instruction;
* `Line.parse`: the line that a text is.
-/

namespace ChainMachine

/-- A line of a script. -/
inductive Line
  /-- No word. -/
  | blank
  /-- The first word begins with `#`. -/
  | comment
  /-- The first word names an opcode and the others are its operands. -/
  | instruction (opcode : String) (operands : List String)
  deriving DecidableEq, Repr

namespace Line

/-- Whether a word makes its line a comment. -/
def opensComment (word : String) : Bool := word.toList.head? == some '#'

/-- The line that a text is. -/
def parse (text : String) : Checked Line := do
  let (first, scanner) ← Scanner.next { text }
  match first with
  | none => return .blank
  | some word =>
    if opensComment word then return .comment
    else return .instruction word (← scanner.words).1

end Line

end ChainMachine
