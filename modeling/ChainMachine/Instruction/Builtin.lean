import ChainMachine.Instruction.Handler
import ChainMachine.Instruction.Opcode

/-!
# The built-in handlers

* `Builtin.push`, `Builtin.pall`, …: one handler for each opcode;
* `Opcode.handler`: the handler of an opcode.

In the comments `b` is the value at the head and `a` the one after it.  A handler
that fails leaves the chain as it was.
-/

namespace ChainMachine

namespace Builtin

/-- A line of output. -/
def outputLine (text : String) : List UInt8 := Utf8.encode (text ++ "\n")

/-- Push the first operand; the others are ignored. -/
def push : Handler := fun ctx chain sink =>
  match ctx.operands.head?.bind Numeral.read with
  | none => return .fail (.invalidOperand ctx.line) chain sink
  | some value => do
    match ← chain.push value ctx.slotLimit with
    | none => return .fail .storageExhausted chain sink
    | some chain => return .proceed chain sink

/-- Print every value from head to tail. -/
def pall : Handler := fun _ chain sink => do
  let values ← chain.values
  return .printed chain (sink.writeAll (values.map (outputLine ∘ Numeral.write)))

/-- Print `b`. -/
def pint : Handler := fun ctx chain sink => do
  match ← chain.first with
  | none => return .fail (.underflow ctx.line "pint" 1) chain sink
  | some b => return .printed chain (sink.write (outputLine (Numeral.write b)))

/-- Discard the value at the end that the mode names. -/
def pop : Handler := fun ctx chain sink => do
  match ← chain.pop with
  | (none, chain) => return .fail (.underflow ctx.line "pop" 1) chain sink
  | (some _, chain) => return .proceed chain sink

/-- Exchange `b` and `a`. -/
def swap : Handler := fun ctx chain sink => do
  match ← chain.swap with
  | (false, chain) => return .fail (.underflow ctx.line "swap" 2) chain sink
  | (true, chain) => return .proceed chain sink

/-! ### Arithmetic -/

/-- Replace `b` and `a` by `f a b`. -/
def arithmetic (opcode : String) (f : Int32 → Int32 → Checked Int32) : Handler :=
  fun ctx chain sink => do
    match ← chain.firstTwo with
    | none => return .fail (.underflow ctx.line opcode 2) chain sink
    | some (b, a) =>
      let value ← f a b
      let (_, chain) ← chain.popHead
      let (_, chain) ← chain.setHead value
      return .proceed chain sink

/-- Arithmetic that fails when `b` is zero. -/
def division (opcode : String) (f : Int32 → Int32 → Checked Int32) : Handler :=
  fun ctx chain sink => do
    match ← chain.firstTwo with
    | some (0, _) => return .fail (.divisionByZero ctx.line) chain sink
    | _ => arithmetic opcode f ctx chain sink

/-- The quotient rounded toward zero; the least value divided by -1 is itself. -/
def quotient (a b : Int32) : Checked Int32 :=
  if b = 0 then .error .zeroDivisor else .ok (a / b)

/-- What the quotient leaves, with the sign of `a`. -/
def remainder (a b : Int32) : Checked Int32 :=
  if b = 0 then .error .zeroDivisor else .ok (a % b)

/-- Replace `b` and `a` by their sum. -/
def add : Handler := arithmetic "add" fun a b => .ok (a + b)

/-- Replace `b` and `a` by the difference `a - b`. -/
def sub : Handler := arithmetic "sub" fun a b => .ok (a - b)

/-- Replace `b` and `a` by their product. -/
def mul : Handler := arithmetic "mul" fun a b => .ok (a * b)

/-- Replace `b` and `a` by the quotient of `a` by `b`. -/
def div : Handler := division "div" quotient

/-- Replace `b` and `a` by the remainder of `a` by `b`. -/
def mod : Handler := division "mod" remainder

/-! ### Characters -/

/-- Whether a value is the code of an ASCII character. -/
def isAscii (value : Int32) : Bool := 0 ≤ value && value ≤ 127

/-- Whether a value is the code of an ASCII character other than NUL. -/
def isText (value : Int32) : Bool := 1 ≤ value && value ≤ 127

/-- The character with the given code. -/
def toChar (value : Int32) : Char := Char.ofNat value.toInt.toNat

/-- Print `b` as a character. -/
def pchar : Handler := fun ctx chain sink => do
  match ← chain.first with
  | none => return .fail (.underflow ctx.line "pchar" 1) chain sink
  | some b =>
    if isAscii b then
      return .printed chain (sink.write (outputLine (String.singleton (toChar b))))
    else return .fail (.invalidCharacterCode ctx.line b) chain sink

/-- Print the values from the head on as characters, up to the first that is none or NUL. -/
def pstr : Handler := fun _ chain sink => do
  let values ← chain.values
  let text := String.ofList ((values.takeWhile isText).map toChar)
  return .printed chain (sink.write (outputLine text))

/-! ### Order and mode -/

/-- Move the head behind the tail. -/
def rotl : Handler := fun _ chain sink => return .proceed (← chain.headToTail) sink

/-- Move the tail before the head. -/
def rotr : Handler := fun _ chain sink => return .proceed (← chain.tailToHead) sink

/-- Pop from the head from now on. -/
def stack : Handler := fun _ chain sink => return .proceed (chain.setMode .stack) sink

/-- Pop from the tail from now on. -/
def queue : Handler := fun _ chain sink => return .proceed (chain.setMode .queue) sink

/-- Do nothing. -/
def nop : Handler := fun _ chain sink => return .proceed chain sink

end Builtin

/-- The handler of an opcode. -/
def Opcode.handler : Opcode → Handler
  | push => Builtin.push
  | pall => Builtin.pall
  | pint => Builtin.pint
  | pop => Builtin.pop
  | swap => Builtin.swap
  | add => Builtin.add
  | nop => Builtin.nop
  | sub => Builtin.sub
  | div => Builtin.div
  | mul => Builtin.mul
  | mod => Builtin.mod
  | pchar => Builtin.pchar
  | pstr => Builtin.pstr
  | rotl => Builtin.rotl
  | rotr => Builtin.rotr
  | stack => Builtin.stack
  | queue => Builtin.queue

end ChainMachine
