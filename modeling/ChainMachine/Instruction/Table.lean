import ChainMachine.Instruction.Builtin

/-!
# Handler tables

Which handler carries out the instructions whose first word is a given name.

* `Table`, `Table.get?`;
* `Table.replace`, `Table.register`: a registration, with the handler that it replaces and without;
* `Table.replaceAll`: registrations in a row;
* `Table.builtin`: the table of the built-in opcodes;
* `Table.get?_register`: what a registration changes;
* `Table.replace_eq`: it gives back the handler that was found under the name;
* `Table.get?_builtin`: the built-in handlers are found by their mnemonics;
* `Table.forall_builtin`, `Table.forall_register`: what holds of every handler that can be found.
-/

namespace ChainMachine

/-- Handlers by name. -/
structure Table where
  entries : List (String × Handler)

namespace Table

/-- The handler registered under exactly this name. -/
def get? (t : Table) (name : String) : Option Handler := t.entries.lookup name

/-- Put a handler in place of the one that has the name so far, and give that one back; or put it
at the end. -/
def exchange (name : String) (handler : Handler) :
    List (String × Handler) → Option Handler × List (String × Handler)
  | [] => (none, [(name, handler)])
  | entry :: entries =>
    if entry.1 = name then (some entry.2, (name, handler) :: entries)
    else
      let (old, entries) := exchange name handler entries
      (old, entry :: entries)

/-- Register a handler, and give back the one that had the name so far. -/
def replace (t : Table) (name : String) (handler : Handler) : Option Handler × Table :=
  let (old, entries) := exchange name handler t.entries
  (old, { entries })

/-- Register a handler, and let go of the one that had the name so far. -/
def register (t : Table) (name : String) (handler : Handler) : Table := (t.replace name handler).2

/-- Register handlers one after another, and give back what each of them replaces. -/
def replaceAll (t : Table) : List (String × Handler) → List (Option Handler) × Table
  | [] => ([], t)
  | (name, handler) :: registrations =>
    let (old, t) := t.replace name handler
    let (olds, t) := t.replaceAll registrations
    (old :: olds, t)

/-- Each built-in handler under its mnemonic. -/
def builtin : Table := { entries := Opcode.all.map fun op => (op.mnemonic, op.handler) }

theorem lookup_cons (name key : String) (handler : Handler) (entries : List (String × Handler)) :
    ((key, handler) :: entries).lookup name =
      if key = name then some handler else entries.lookup name := by
  by_cases h : key = name
  · simp [h]
  · simp [List.lookup_cons, beq_false_of_ne (Ne.symm h), h]

theorem exchange_fst (name : String) (handler : Handler) (entries : List (String × Handler)) :
    (exchange name handler entries).1 = entries.lookup name := by
  induction entries with
  | nil => rfl
  | cons entry entries ih =>
    obtain ⟨key, old⟩ := entry
    rw [exchange, lookup_cons]
    split
    · rfl
    · exact ih

theorem lookup_exchange (name other : String) (handler : Handler)
    (entries : List (String × Handler)) :
    (exchange name handler entries).2.lookup other =
      if name = other then some handler else entries.lookup other := by
  induction entries with
  | nil => exact lookup_cons other name handler []
  | cons entry entries ih =>
    obtain ⟨key, old⟩ := entry
    rw [exchange, lookup_cons]
    split
    · next h =>
      -- the entry that is replaced and the one in its place have the same name
      dsimp only at h
      subst h
      rw [lookup_cons]
      split <;> rfl
    · next h =>
      rw [lookup_cons, ih]
      by_cases hname : name = other
      · subst hname
        simp only [if_pos, if_neg h]
      · simp only [if_neg hname]

theorem get?_register (t : Table) (name other : String) (handler : Handler) :
    (t.register name handler).get? other = if name = other then some handler else t.get? other :=
  lookup_exchange name other handler t.entries

/-- A handler is replaced exactly when one was found under the name. -/
theorem replace_eq (t : Table) (name : String) (handler : Handler) :
    t.replace name handler = (t.get? name, t.register name handler) :=
  Prod.ext (exchange_fst name handler t.entries) rfl

theorem get?_builtin (name : String) :
    builtin.get? name = (Opcode.ofMnemonic? name).map Opcode.handler := by
  have key : ∀ ops : List Opcode,
      (ops.map fun op => (op.mnemonic, op.handler)).lookup name =
        (ops.find? (·.mnemonic = name)).map Opcode.handler := by
    intro ops
    induction ops with
    | nil => rfl
    | cons op ops ih => by_cases h : op.mnemonic = name <;> simp [lookup_cons, h, ih]
  exact key Opcode.all

/-- Every opcode is found by its mnemonic. -/
@[simp] theorem get?_builtin_mnemonic (op : Opcode) :
    builtin.get? op.mnemonic = some op.handler := by
  simp [get?_builtin]

/-! ### What all handlers of a table have in common -/

variable {P : Handler → Prop}

theorem forall_builtin (h : ∀ op : Opcode, P op.handler) (name : String) (handler : Handler)
    (hget : builtin.get? name = some handler) : P handler := by
  rw [get?_builtin, Option.map_eq_some_iff] at hget
  obtain ⟨op, -, rfl⟩ := hget
  exact h op

theorem forall_register {t : Table} {added : Handler} (hadded : P added)
    (h : ∀ name handler, t.get? name = some handler → P handler) (name other : String)
    (handler : Handler) (hget : (t.register name added).get? other = some handler) :
    P handler := by
  rw [get?_register] at hget
  split at hget
  · cases hget
    exact hadded
  · exact h other handler hget

end Table

end ChainMachine
