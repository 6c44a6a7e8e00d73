/-!
# Opcodes

* `Opcode`: the built-in opcodes;
* `Opcode.all`: all of them, in the order in which they are listed;
* `Opcode.mnemonic`, `Opcode.ofMnemonic?`: how an opcode is written in a script.
-/

namespace ChainMachine

/-- A built-in opcode. -/
inductive Opcode
  | push | pall | pint | pop | swap | add | nop | sub | div | mul | mod
  | pchar | pstr | rotl | rotr | stack | queue
  deriving DecidableEq, Repr

namespace Opcode

/-- Every opcode, in listing order. -/
def all : List Opcode :=
  [push, pall, pint, pop, swap, add, nop, sub, div, mul, mod, pchar, pstr, rotl, rotr,
    stack, queue]

theorem mem_all (op : Opcode) : op ∈ all := by cases op <;> decide

/-- The opcode as written in a script, where case matters. -/
def mnemonic : Opcode → String
  | push => "push"
  | pall => "pall"
  | pint => "pint"
  | pop => "pop"
  | swap => "swap"
  | add => "add"
  | nop => "nop"
  | sub => "sub"
  | div => "div"
  | mul => "mul"
  | mod => "mod"
  | pchar => "pchar"
  | pstr => "pstr"
  | rotl => "rotl"
  | rotr => "rotr"
  | stack => "stack"
  | queue => "queue"

theorem mnemonic_injective {a b : Opcode} (h : a.mnemonic = b.mnemonic) : a = b := by
  revert h
  cases a <;> cases b <;> decide

/-- The opcode with the given mnemonic. -/
def ofMnemonic? (name : String) : Option Opcode := all.find? (·.mnemonic = name)

@[simp] theorem ofMnemonic?_mnemonic (op : Opcode) : ofMnemonic? op.mnemonic = some op := by
  cases op <;> decide

theorem mnemonic_of_ofMnemonic? {name : String} {op : Opcode} (h : ofMnemonic? name = some op) :
    op.mnemonic = name := by
  simpa using List.find?_some h

end Opcode

end ChainMachine
