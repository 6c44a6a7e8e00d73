import ChainMachine.Fault

/-!
# Storage for linked nodes

Nodes live in numbered slots and name each other by slot number.  A slot that
has been vacated is handed out again before the storage grows, the most recently
vacated one first.

* `Node`: a value with links to its two neighbours;
* `Storage`: the slots, and the stack of vacant ones;
* `Storage.read`, `Storage.update`, `Storage.setPrev`, `Storage.setNext`,
  `Storage.vacate`, `Storage.occupy`: access to one slot;
* `Storage.lastSlot`, `Storage.valuesFrom`, `Storage.vacateFrom`: walks along the
  `next` links.  A walk is given one step for each slot, which is enough for
  every walk that meets no slot twice.
-/

namespace ChainMachine

/-- A value with links to its neighbours; `prev` points towards the head of the
chain and `next` towards its tail. -/
structure Node where
  value : Int32
  prev : Option Nat
  next : Option Nat
  deriving DecidableEq, Repr

/-- Numbered slots, each holding a node or vacant, and the vacant slots to use next. -/
structure Storage where
  slots : Array (Option Node) := #[]
  free : List Nat := []
  deriving DecidableEq, Repr

namespace Storage

/-- The number of slots, vacant ones included. -/
def size (s : Storage) : Nat := s.slots.size

/-- The node in a slot. -/
def read (s : Storage) (slot : Nat) : Checked Node :=
  match s.slots[slot]? with
  | none => .error (.slotOutOfBounds slot)
  | some none => .error (.vacantSlot slot)
  | some (some node) => .ok node

/-- Change what a slot holds. -/
def set (s : Storage) (slot : Nat) (content : Option Node) : Storage :=
  { s with slots := s.slots.setIfInBounds slot content }

/-- Change the node in a slot. -/
def update (s : Storage) (slot : Nat) (f : Node → Node) : Checked Storage := do
  let node ← s.read slot
  return s.set slot (some (f node))

/-- Give the node in a slot a new neighbour before it, if a slot is named. -/
def setPrev (s : Storage) (slot : Option Nat) (prev : Option Nat) : Checked Storage :=
  match slot with
  | none => .ok s
  | some slot => s.update slot ({ · with prev })

/-- Give the node in a slot a new neighbour after it, if a slot is named. -/
def setNext (s : Storage) (slot : Option Nat) (next : Option Nat) : Checked Storage :=
  match slot with
  | none => .ok s
  | some slot => s.update slot ({ · with next })

/-- Take the node out of a slot, which becomes the next one to be handed out. -/
def vacate (s : Storage) (slot : Nat) : Checked (Node × Storage) := do
  let node ← s.read slot
  return (node, { s.set slot none with free := slot :: s.free })

/-- Whether one more slot may be added when at most `limit` slots are allowed. -/
def mayGrow (s : Storage) (limit : Option Nat) : Bool :=
  limit.all fun bound => s.size < bound

/-- Put a node into the slot vacated last, or into a new slot when none is vacant.
There is no result when a new slot is needed and `limit` rules it out. -/
def occupy (s : Storage) (node : Node) (limit : Option Nat) : Checked (Option (Nat × Storage)) :=
  match s.free with
  | slot :: free =>
    if slot < s.size then .ok (some (slot, { s.set slot (some node) with free }))
    else .error (.slotOutOfBounds slot)
  | [] =>
    if s.mayGrow limit then .ok (some (s.size, { s with slots := s.slots.push (some node) }))
    else .ok none

/-! ### Walks along the `next` links -/

/-- The slot where a walk of at most `steps` nodes from `slot` ends. -/
def walkToLast (s : Storage) : (steps : Nat) → (slot : Nat) → Checked Nat
  | 0, _ => .error .endlessWalk
  | steps + 1, slot => do
    let node ← s.read slot
    match node.next with
    | none => return slot
    | some next => s.walkToLast steps next

/-- The last slot of the chain that starts at `slot`. -/
def lastSlot (s : Storage) (slot : Nat) : Checked Nat :=
  s.walkToLast s.size slot

/-- Walk at most `steps` nodes from `cursor`, adding their values in front of `seen`,
and return all of them in walking order. -/
def walkValues (s : Storage) : (steps : Nat) → (cursor : Option Nat) → (seen : List Int32) →
    Checked (List Int32)
  | _, none, seen => .ok seen.reverse
  | 0, some _, _ => .error .endlessWalk
  | steps + 1, some slot, seen => do
    let node ← s.read slot
    s.walkValues steps node.next (node.value :: seen)

/-- The values of the chain that starts at `cursor`. -/
def valuesFrom (s : Storage) (cursor : Option Nat) : Checked (List Int32) :=
  s.walkValues s.size cursor []

/-- Vacate the slots of a walk of at most `steps` nodes from `cursor`. -/
def walkVacate : (steps : Nat) → (cursor : Option Nat) → Storage → Checked Storage
  | _, none, s => .ok s
  | 0, some _, _ => .error .endlessWalk
  | steps + 1, some slot, s => do
    let (node, s) ← s.vacate slot
    walkVacate steps node.next s

/-- Vacate every slot of the chain that starts at `cursor`. -/
def vacateFrom (s : Storage) (cursor : Option Nat) : Checked Storage :=
  walkVacate s.size cursor s

/-! ### One slot -/

theorem read_eq_ok_iff {s : Storage} {slot : Nat} {node : Node} :
    s.read slot = .ok node ↔ s.slots[slot]? = some (some node) := by
  unfold read
  split <;> simp_all

@[simp] theorem size_set (s : Storage) (slot : Nat) (content : Option Node) :
    (s.set slot content).size = s.size := by
  simp [set, size]

@[simp] theorem free_set (s : Storage) (slot : Nat) (content : Option Node) :
    (s.set slot content).free = s.free := rfl

theorem getElem?_set_of_ne (s : Storage) {slot other : Nat} (h : slot ≠ other)
    (content : Option Node) : (s.set slot content).slots[other]? = s.slots[other]? := by
  simp [set, h]

theorem getElem?_set_self {s : Storage} {slot : Nat} (h : slot < s.size)
    (content : Option Node) : (s.set slot content).slots[slot]? = some content := by
  rw [set, Array.getElem?_setIfInBounds_self, if_pos (show slot < s.slots.size from h)]

/-- A slot that can be read can be changed. -/
theorem update_eq_ok {s : Storage} {slot : Nat} {node : Node}
    (h : s.slots[slot]? = some (some node)) (f : Node → Node) :
    s.update slot f = .ok (s.set slot (some (f node))) := by
  simp [update, read_eq_ok_iff.2 h]

/-- A slot that can be read can be vacated. -/
theorem vacate_eq_ok {s : Storage} {slot : Nat} {node : Node}
    (h : s.slots[slot]? = some (some node)) :
    s.vacate slot = .ok (node, { s.set slot none with free := slot :: s.free }) := by
  simp [vacate, read_eq_ok_iff.2 h]

/-- Storage without a limit may always grow. -/
@[simp] theorem mayGrow_none (s : Storage) : s.mayGrow none = true := rfl

end Storage

end ChainMachine
