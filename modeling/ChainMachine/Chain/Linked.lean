import ChainMachine.Chain.Storage

/-!
# Linked paths

Which slots of a storage form a chain, and in which order.

* `Path`: slots with the values they hold, in order;
* `Storage.Linked`: the nodes of a path name each other as neighbours;
* `Storage.linked_append`: a path can be cut anywhere;
* `Linked.set_of_notMem`, `Linked.set_first`, `Linked.set_last`: what changing one
  slot does to a path;
* `Linked.lastSlot_eq`, `Linked.valuesFrom_eq`, `Linked.vacateFrom_isOk`: walks along
  a path that ends succeed.
-/

namespace ChainMachine

/-- Slots with the values they hold, in order. -/
abbrev Path : Type := List (Nat × Int32)

namespace Path

/-- The slots of a path. -/
abbrev slots (path : Path) : List Nat := path.map Prod.fst

/-- The values of a path. -/
abbrev values (path : Path) : List Int32 := path.map Prod.snd

/-- The first slot of a path, or the one after it when the path is empty. -/
def entry (path : Path) (after : Option Nat) : Option Nat :=
  match path with
  | [] => after
  | (slot, _) :: _ => some slot

/-- The last slot of a path, or the one before it when the path is empty. -/
def exit (before : Option Nat) : (path : Path) → Option Nat
  | [] => before
  | (slot, _) :: path => exit (some slot) path

@[simp] theorem entry_nil (after : Option Nat) : entry [] after = after := rfl

@[simp] theorem entry_cons (node : Nat × Int32) (path : Path) (after : Option Nat) :
    entry (node :: path) after = some node.1 := rfl

theorem entry_append (p q : Path) (after : Option Nat) :
    entry (p ++ q) after = entry p (entry q after) := by
  cases p <;> rfl

@[simp] theorem exit_nil (before : Option Nat) : exit before [] = before := rfl

@[simp] theorem exit_cons (before : Option Nat) (node : Nat × Int32) (path : Path) :
    exit before (node :: path) = exit (some node.1) path := rfl

@[simp] theorem exit_append (before : Option Nat) (p q : Path) :
    exit before (p ++ q) = exit (exit before p) q := by
  induction p generalizing before with
  | nil => rfl
  | cons node p ih => exact ih _

/-- A path that is not empty has a first slot. -/
theorem exists_entry_append (p : Path) (node : Nat × Int32) :
    ∃ first, entry (p ++ [node]) none = some first := by
  cases p <;> exact ⟨_, rfl⟩

/-- A path that follows a slot has a last slot, or is empty and leaves that slot. -/
theorem exists_exit_some (slot : Nat) (p : Path) : ∃ last, exit (some slot) p = some last := by
  induction p generalizing slot with
  | nil => exact ⟨slot, rfl⟩
  | cons node p ih => exact ih node.1

end Path

namespace Storage

/-- The nodes of a path name each other as neighbours; the first names `before` as the slot
before it, and the last names `after` as the slot after it. -/
def Linked (s : Storage) : (before : Option Nat) → Path → (after : Option Nat) → Prop
  | _, [], _ => True
  | before, (slot, value) :: path, after =>
    s.slots[slot]? = some (some { value, prev := before, next := Path.entry path after }) ∧
      s.Linked (some slot) path after

variable {s t : Storage} {before after : Option Nat} {slot : Nat} {value : Int32} {p q : Path}

@[simp] theorem linked_nil : s.Linked before [] after := trivial

theorem linked_cons :
    s.Linked before ((slot, value) :: p) after ↔
      s.slots[slot]? = some (some { value, prev := before, next := Path.entry p after }) ∧
        s.Linked (some slot) p after := Iff.rfl

/-- A path can be cut anywhere. -/
theorem linked_append :
    s.Linked before (p ++ q) after ↔
      s.Linked before p (Path.entry q after) ∧ s.Linked (Path.exit before p) q after := by
  induction p generalizing before with
  | nil => simp
  | cons node p ih =>
    obtain ⟨slot, value⟩ := node
    rw [List.cons_append, linked_cons, linked_cons, ih, Path.entry_append, Path.exit_cons,
      and_assoc]

theorem linked_singleton :
    s.Linked before [(slot, value)] after ↔
      s.slots[slot]? = some (some { value, prev := before, next := after }) := by
  simp [linked_cons]

namespace Linked

/-- Only the slots of a path matter. -/
theorem congr (h : s.Linked before p after)
    (hst : ∀ slot ∈ p.slots, t.slots[slot]? = s.slots[slot]?) : t.Linked before p after := by
  induction p generalizing before with
  | nil => trivial
  | cons node p ih =>
    obtain ⟨slot, value⟩ := node
    refine ⟨(hst slot (by simp)).trans h.1, ih h.2 fun other hother => hst other ?_⟩
    simp [hother]

/-- A path determines what its slots hold. -/
theorem getElem?_eq (h : s.Linked before p after) (h' : t.Linked before p after)
    (hslot : slot ∈ p.slots) : t.slots[slot]? = s.slots[slot]? := by
  induction p generalizing before with
  | nil => cases hslot
  | cons node p ih =>
    obtain ⟨first, value⟩ := node
    simp only [List.map_cons, List.mem_cons] at hslot
    rcases hslot with rfl | hslot
    · exact h'.1.trans h.1.symm
    · exact ih h.2 h'.2 hslot

/-- A slot outside the path can hold anything. -/
theorem set_of_notMem (h : s.Linked before p after) (hslot : slot ∉ p.slots)
    (content : Option Node) : (s.set slot content).Linked before p after := by
  refine h.congr fun other hother => s.getElem?_set_of_ne ?_ content
  rintro rfl
  exact hslot hother

/-- The slots of a path exist. -/
theorem lt_size (h : s.Linked before p after) (hslot : slot ∈ p.slots) : slot < s.size := by
  induction p generalizing before with
  | nil => cases hslot
  | cons node p ih =>
    obtain ⟨first, value⟩ := node
    simp only [List.map_cons, List.mem_cons] at hslot
    rcases hslot with rfl | hslot
    · exact (Array.getElem?_eq_some_iff.1 h.1).1
    · exact ih h.2 hslot

/-- The first node of a path takes a new value and a new neighbour before it. -/
theorem set_first (h : s.Linked before ((slot, value) :: p) after) (hslot : slot ∉ p.slots)
    (newValue : Int32) (newBefore : Option Nat) :
    (s.set slot (some { value := newValue, prev := newBefore
                        next := Path.entry p after })).Linked
      newBefore ((slot, newValue) :: p) after :=
  ⟨getElem?_set_self (h.lt_size (by simp)) _, h.2.set_of_notMem hslot _⟩

/-- The last node of a path takes a new neighbour after it. -/
theorem set_last (h : s.Linked before (p ++ [(slot, value)]) after) (hslot : slot ∉ p.slots)
    (newAfter : Option Nat) :
    (s.set slot (some { value, prev := Path.exit before p, next := newAfter })).Linked
      before (p ++ [(slot, value)]) newAfter := by
  obtain ⟨hp, -⟩ := linked_append.1 h
  refine linked_append.2 ⟨hp.set_of_notMem hslot _, linked_singleton.2 ?_⟩
  exact getElem?_set_self (h.lt_size (by simp)) _

/-! ### Walks -/

theorem walkToLast_eq (h : s.Linked before (p ++ [(slot, value)]) none) {steps first : Nat}
    (hsteps : p.length < steps) (hfirst : Path.entry (p ++ [(slot, value)]) none = some first) :
    s.walkToLast steps first = .ok slot := by
  induction p generalizing before steps first with
  | nil =>
    obtain ⟨steps, rfl⟩ : ∃ k, steps = k + 1 := ⟨steps - 1, by omega⟩
    cases hfirst
    simp [walkToLast, read_eq_ok_iff.2 (linked_singleton.1 h)]
  | cons node p ih =>
    obtain ⟨other, value'⟩ := node
    rw [List.length_cons] at hsteps
    obtain ⟨steps, rfl⟩ : ∃ k, steps = k + 1 := ⟨steps - 1, by omega⟩
    cases hfirst
    rw [List.cons_append] at h
    obtain ⟨hread, hp⟩ := linked_cons.1 h
    obtain ⟨next, hnext⟩ := Path.exists_entry_append p (slot, value)
    rw [hnext] at hread
    simp [walkToLast, read_eq_ok_iff.2 hread, ih hp (Nat.lt_of_succ_lt_succ hsteps) hnext]

theorem walkValues_eq (h : s.Linked before p none) {steps : Nat} (hsteps : p.length ≤ steps)
    (seen : List Int32) :
    s.walkValues steps (Path.entry p none) seen = .ok (seen.reverse ++ p.values) := by
  induction p generalizing before steps seen with
  | nil => simp [walkValues]
  | cons node p ih =>
    obtain ⟨slot, value⟩ := node
    rw [List.length_cons] at hsteps
    obtain ⟨steps, rfl⟩ : ∃ k, steps = k + 1 := ⟨steps - 1, by omega⟩
    simp [walkValues, read_eq_ok_iff.2 h.1, ih h.2 (by omega : p.length ≤ steps)]

theorem walkVacate_isOk (h : s.Linked before p none) (hp : p.slots.Nodup) {steps : Nat}
    (hsteps : p.length ≤ steps) : ∃ t, walkVacate steps (Path.entry p none) s = .ok t := by
  induction p generalizing before s steps with
  | nil => exact ⟨s, by simp [walkVacate]⟩
  | cons node p ih =>
    obtain ⟨slot, value⟩ := node
    rw [List.length_cons] at hsteps
    obtain ⟨steps, rfl⟩ : ∃ k, steps = k + 1 := ⟨steps - 1, by omega⟩
    obtain ⟨hslot, hp⟩ := List.nodup_cons.1 hp
    have hrest := (h.2.set_of_notMem hslot none).congr
      (t := { s.set slot none with free := slot :: s.free }) fun _ _ => rfl
    obtain ⟨t, ht⟩ := ih hrest hp (by omega : p.length ≤ steps)
    exact ⟨t, by simp [walkVacate, vacate_eq_ok h.1, ht]⟩

end Linked

end Storage

end ChainMachine
