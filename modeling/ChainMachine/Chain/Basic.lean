import ChainMachine.Chain.Storage

/-!
# Chains

A chain is a doubly linked sequence of 32-bit integers that remembers the slot of
its head, its length and its mode.  The tail is found by walking from the head.

* `Mode`: which end `Chain.pop` takes from;
* `Chain`, `Chain.empty`, `Chain.values`;
* `push`, `popHead`, `popTail`, `pop`, `swap`, `setHead`, `first`, `firstTwo`,
  `headToTail`, `tailToHead`, `setMode`, `clear`: the operations.

An operation that reports whether it did something returns the chain unchanged
when it did not.
-/

namespace ChainMachine

/-- The end of the chain that `Chain.pop` takes from. -/
inductive Mode
  /-- The head: last in, first out. -/
  | stack
  /-- The tail: first in, first out. -/
  | queue
  deriving DecidableEq, Repr

/-- A doubly linked sequence of values. -/
structure Chain where
  storage : Storage
  head : Option Nat
  length : Nat
  mode : Mode
  deriving DecidableEq, Repr

namespace Chain

/-- The chain without nodes. -/
def empty (mode : Mode) : Chain := { storage := {}, head := none, length := 0, mode }

/-- Whether the chain has no head. -/
def isEmpty (c : Chain) : Bool := c.head.isNone

/-- The value at the head. -/
def first (c : Chain) : Checked (Option Int32) :=
  match c.head with
  | none => return none
  | some slot => return some (← c.storage.read slot).value

/-- The values from head to tail. -/
def values (c : Chain) : Checked (List Int32) :=
  c.storage.valuesFrom c.head

/-- The slots of the head and of the node after it. -/
def firstTwoSlots (c : Chain) : Checked (Option (Nat × Nat)) :=
  match c.head with
  | none => return none
  | some first => return (← c.storage.read first).next.map (first, ·)

/-- The values of the head and of the node after it. -/
def firstTwo (c : Chain) : Checked (Option (Int32 × Int32)) := do
  match ← c.firstTwoSlots with
  | none => return none
  | some (first, second) =>
    return some ((← c.storage.read first).value, (← c.storage.read second).value)

/-- Choose the end that `pop` takes from. -/
def setMode (c : Chain) (mode : Mode) : Chain := { c with mode }

/-- The length after one node has left. -/
def shorter (length : Nat) : Checked Nat :=
  match length with
  | 0 => .error .lengthUnderflow
  | length + 1 => .ok length

/-- Insert a value before the head.  There is no result when this takes a new slot and
`limit`, the number of slots allowed, rules it out. -/
def push (c : Chain) (value : Int32) (limit : Option Nat) : Checked (Option Chain) := do
  match ← c.storage.occupy { value, prev := none, next := c.head } limit with
  | none => return none
  | some (slot, storage) =>
    let storage ← storage.setPrev c.head (some slot)
    return some { c with storage, head := some slot, length := c.length + 1 }

/-- Remove the head. -/
def popHead (c : Chain) : Checked (Option Int32 × Chain) :=
  match c.head with
  | none => return (none, c)
  | some slot => do
    let (node, storage) ← c.storage.vacate slot
    let storage ← storage.setPrev node.next none
    let length ← shorter c.length
    return (some node.value, { c with storage, head := node.next, length })

/-- Remove the tail. -/
def popTail (c : Chain) : Checked (Option Int32 × Chain) :=
  match c.head with
  | none => return (none, c)
  | some first => do
    let last ← c.storage.lastSlot first
    let (node, storage) ← c.storage.vacate last
    let storage ← storage.setNext node.prev none
    let length ← shorter c.length
    let head := node.prev.map fun _ => first
    return (some node.value, { c with storage, head, length })

/-- Remove the value at the end that the mode names. -/
def pop (c : Chain) : Checked (Option Int32 × Chain) :=
  match c.mode with
  | .stack => c.popHead
  | .queue => c.popTail

/-- Exchange the first two values; `false` when there are fewer. -/
def swap (c : Chain) : Checked (Bool × Chain) := do
  match ← c.firstTwoSlots with
  | none => return (false, c)
  | some (first, second) =>
    let a := (← c.storage.read first).value
    let b := (← c.storage.read second).value
    let storage ← c.storage.update first ({ · with value := b })
    let storage ← storage.update second ({ · with value := a })
    return (true, { c with storage })

/-- Overwrite the value at the head; `false` when there is none. -/
def setHead (c : Chain) (value : Int32) : Checked (Bool × Chain) :=
  match c.head with
  | none => return (false, c)
  | some slot => return (true, { c with storage := ← c.storage.update slot ({ · with value }) })

/-- Move the head behind the tail.  Chains of fewer than two nodes stay as they are. -/
def headToTail (c : Chain) : Checked Chain := do
  match ← c.firstTwoSlots with
  | none => return c
  | some (top, second) =>
    let storage ← c.storage.setPrev (some second) none
    let bottom ← storage.lastSlot second
    let storage ← storage.setNext (some bottom) (some top)
    let storage ← storage.update top ({ · with prev := some bottom, next := none })
    return { c with storage, head := some second }

/-- Move the tail before the head.  Chains of fewer than two nodes stay as they are. -/
def tailToHead (c : Chain) : Checked Chain := do
  match ← c.firstTwoSlots with
  | none => return c
  | some (top, _) =>
    let bottom ← c.storage.lastSlot top
    let before := (← c.storage.read bottom).prev
    let storage ← c.storage.setNext before none
    let storage ← storage.update bottom ({ · with prev := none, next := some top })
    let storage ← storage.setPrev (some top) (some bottom)
    return { c with storage, head := some bottom }

/-- Vacate every node from head to tail and give the slots back; the mode stays. -/
def clear (c : Chain) : Checked Chain := do
  let _ ← c.storage.vacateFrom c.head
  return empty c.mode

/-! ### The chain without nodes -/

@[simp] theorem values_empty (mode : Mode) : (empty mode).values = .ok [] := rfl

@[simp] theorem first_empty (mode : Mode) : (empty mode).first = .ok none := rfl

@[simp] theorem firstTwo_empty (mode : Mode) : (empty mode).firstTwo = .ok none := rfl

@[simp] theorem popHead_empty (mode : Mode) : (empty mode).popHead = .ok (none, empty mode) := rfl

@[simp] theorem popTail_empty (mode : Mode) : (empty mode).popTail = .ok (none, empty mode) := rfl

@[simp] theorem clear_empty (mode : Mode) : (empty mode).clear = .ok (empty mode) := rfl

/-- Clearing a chain leaves nothing but its mode. -/
theorem eq_empty_of_clear {c d : Chain} (h : c.clear = .ok d) : d = empty c.mode := by
  obtain ⟨_, -, h⟩ := Checked.bind_eq_ok_iff.1 h
  exact (Except.ok.inj h).symm

end Chain

end ChainMachine
