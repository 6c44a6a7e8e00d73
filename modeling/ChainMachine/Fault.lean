/-!
# Faults

Some operations rely on an invariant: a link leads to a node, a counter is
positive, a cut falls between two characters.  Such an operation tests what it
relies on and reports a fault where the test fails, so that "this never goes
wrong" is a statement about its result.

* `Fault`: the invariants that can be found broken;
* `Checked α`: a value of type `α`, or the fault that was found instead.
-/

namespace ChainMachine

/-- An invariant that was found broken. -/
inductive Fault
  /-- A link leads to a slot that holds no node. -/
  | vacantSlot (slot : Nat)
  /-- A link leads past the end of the storage. -/
  | slotOutOfBounds (slot : Nat)
  /-- A node was taken from a chain whose length was zero. -/
  | lengthUnderflow
  /-- A walk along the links took more steps than there are slots. -/
  | endlessWalk
  /-- A cursor was moved back from the start of its text. -/
  | cursorUnderflow
  /-- A piece of text would begin or end inside a character. -/
  | splitCharacter (start stop : Nat)
  /-- A number was divided by zero. -/
  | zeroDivisor
  deriving DecidableEq, Repr

/-- A result, or the fault that was met on the way to it. -/
abbrev Checked (α : Type) : Type := Except Fault α

/-- Results can be compared when their values and their faults can. -/
instance instDecidableEqExcept {ε α : Type} [DecidableEq ε] [DecidableEq α] :
    DecidableEq (Except ε α)
  | .error a, .error b => decidable_of_iff (a = b) (by simp)
  | .ok a, .ok b => decidable_of_iff (a = b) (by simp)
  | .error _, .ok _ => isFalse (by simp)
  | .ok _, .error _ => isFalse (by simp)

namespace Checked

variable {α β γ : Type}

@[simp] theorem ok_bind (a : α) (f : α → Checked β) :
    ((.ok a : Checked α) >>= f) = f a := rfl

@[simp] theorem error_bind (fault : Fault) (f : α → Checked β) :
    ((.error fault : Checked α) >>= f) = .error fault := rfl

@[simp] theorem pure_eq_ok (a : α) : (pure a : Checked α) = .ok a := rfl

@[simp] theorem map_ok (f : α → β) (a : α) : (.ok a : Checked α).map f = .ok (f a) := rfl

@[simp] theorem map_error (f : α → β) (fault : Fault) :
    (.error fault : Checked α).map f = .error fault := rfl

/-- What is made of the result of two steps is made of that of the second. -/
theorem map_bind (x : Checked α) (f : α → Checked β) (g : β → γ) :
    (x >>= f).map g = x >>= fun a => (f a).map g := by
  cases x <;> rfl

/-- A result that is made of another one takes that other one. -/
theorem map_eq_ok_iff {x : Checked α} {f : α → β} {b : β} :
    x.map f = .ok b ↔ ∃ a, x = .ok a ∧ f a = b := by
  cases x <;> simp

/-- A computation in two steps has a result exactly when both steps have one. -/
theorem bind_eq_ok_iff {x : Checked α} {f : α → Checked β} {b : β} :
    (x >>= f) = .ok b ↔ ∃ a, x = .ok a ∧ f a = .ok b := by
  cases x <;> simp

end Checked

end ChainMachine
