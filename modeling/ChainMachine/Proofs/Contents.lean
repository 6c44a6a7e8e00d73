import ChainMachine.Chain.Lemmas

/-!
# The contents of a chain

A chain as seen from outside: its values from head to tail, and its mode.  Nothing
is said here about slots.

* `Contents`, with `Contents.pop` and what the other operations do to a list of
  values (`exchange`, `firstTwo`, `headLast`, `lastFirst`);
* `Chain.Holds c s`: the chain `c` lies along some path and has the contents `s`;
* `Chain.Holds.push`, `Chain.Holds.popHead`, …: one equation for each operation of a
  chain, in terms of its contents.  No operation meets a fault.
-/

namespace ChainMachine

/-- The values of a chain from head to tail, and its mode. -/
structure Contents where
  values : List Int32
  mode : Mode
  deriving DecidableEq, Repr

namespace Contents

/-- The first two values in each other's place. -/
def exchange : List Int32 → List Int32
  | b :: a :: rest => a :: b :: rest
  | values => values

/-- The first two values. -/
def firstTwo : List Int32 → Option (Int32 × Int32)
  | b :: a :: _ => some (b, a)
  | _ => none

/-- The first value behind the last. -/
def headLast : List Int32 → List Int32
  | [] => []
  | b :: rest => rest ++ [b]

/-- The last value before the first. -/
def lastFirst (values : List Int32) : List Int32 :=
  values.getLast?.toList ++ values.dropLast

/-- The value at the end that the mode names, and the contents without it. -/
def pop (s : Contents) : Option Int32 × Contents :=
  match s.mode with
  | .stack => (s.values.head?, { s with values := s.values.tail })
  | .queue => (s.values.getLast?, { s with values := s.values.dropLast })

theorem firstTwo_eq_some {values : List Int32} {b a : Int32}
    (h : firstTwo values = some (b, a)) : ∃ rest, values = b :: a :: rest := by
  rcases values with _ | ⟨b', _ | ⟨a', rest⟩⟩
  · cases h
  · cases h
  · cases h
    exact ⟨rest, rfl⟩

theorem exists_pop_eq_some {s : Contents} (h : s.values ≠ []) : ∃ value, s.pop.1 = some value := by
  obtain ⟨values, mode⟩ := s
  cases mode with
  | stack => exact ⟨_, List.head?_eq_some_head h⟩
  | queue => exact ⟨_, List.getLast?_eq_some_getLast h⟩

theorem lastFirst_append (values : List Int32) (last : Int32) :
    lastFirst (values ++ [last]) = last :: values := by
  simp [lastFirst]

end Contents

namespace Chain

/-- The chain lies along a path, and has these contents. -/
def Holds (c : Chain) (s : Contents) : Prop :=
  ∃ path, c.Layout path ∧ s = { values := path.values, mode := c.mode }

theorem holds_empty (mode : Mode) : (empty mode).Holds { values := [], mode } :=
  ⟨[], layout_empty mode, rfl⟩

namespace Holds

variable {c : Chain} {s : Contents}

/-! ### Looking -/

theorem mode_eq (h : c.Holds s) : c.mode = s.mode := by
  obtain ⟨path, -, rfl⟩ := h
  rfl

theorem values_eq (h : c.Holds s) : c.values = .ok s.values := by
  obtain ⟨path, hl, rfl⟩ := h
  exact hl.values_eq

theorem values_unique (h : c.Holds s) {values : List Int32} (hvalues : c.values = .ok values) :
    s.values = values :=
  Except.ok.inj (h.values_eq.symm.trans hvalues)

theorem length_eq (h : c.Holds s) : c.length = s.values.length := by
  obtain ⟨path, hl, rfl⟩ := h
  rw [hl.length_eq, List.length_map]

theorem isEmpty_eq (h : c.Holds s) : c.isEmpty = s.values.isEmpty := by
  obtain ⟨path, hl, rfl⟩ := h
  rw [hl.isEmpty_eq, List.isEmpty_map]

theorem first_eq (h : c.Holds s) : c.first = .ok s.values.head? := by
  obtain ⟨path, hl, rfl⟩ := h
  exact hl.first_eq

theorem firstTwo_eq (h : c.Holds s) : c.firstTwo = .ok (Contents.firstTwo s.values) := by
  obtain ⟨path, hl, rfl⟩ := h
  rcases path with _ | ⟨node, _ | ⟨other, path⟩⟩
  · exact hl.firstTwo_of_lt (by simp)
  · exact hl.firstTwo_of_lt (by simp)
  · exact hl.firstTwo_cons_cons

/-- Contents are equal when the values that are read and the modes are. -/
theorem eq_of_values_eq {d : Chain} {t : Contents} (h : c.Holds s) (h' : d.Holds t)
    (hvalues : c.values = d.values) (hmode : c.mode = d.mode) : s = t := by
  rw [h.values_eq, h'.values_eq] at hvalues
  rw [h.mode_eq, h'.mode_eq] at hmode
  obtain ⟨values, mode⟩ := s
  cases hvalues
  cases hmode
  rfl

/-! ### Changing -/

theorem setMode (h : c.Holds s) (mode : Mode) : (c.setMode mode).Holds { s with mode } := by
  obtain ⟨path, hl, rfl⟩ := h
  exact ⟨path, hl.setMode mode, rfl⟩

/-- A push puts its value before the others, unless it is refused: then no slot was vacant and
none could be added. -/
theorem push (h : c.Holds s) (value : Int32) (limit : Option Nat) :
    (∃ d, c.push value limit = .ok (some d) ∧ d.Holds { s with values := value :: s.values }) ∨
      (c.push value limit = .ok none ∧ c.storage.free = [] ∧ c.storage.mayGrow limit = false) := by
  obtain ⟨path, hl, rfl⟩ := h
  cases hfree : c.storage.free with
  | cons slot free =>
    obtain ⟨d, hd, hl', hm, -⟩ := hl.push_of_free hfree value limit
    exact .inl ⟨d, hd, _, hl', by rw [hm]; rfl⟩
  | nil =>
    cases hgrow : c.storage.mayGrow limit with
    | true =>
      obtain ⟨d, hd, hl', hm, -⟩ := hl.push_of_grow hfree hgrow value
      exact .inl ⟨d, hd, _, hl', by rw [hm]; rfl⟩
    | false => exact .inr ⟨Layout.push_refused hfree hgrow value, rfl, rfl⟩

theorem popHead (h : c.Holds s) :
    ∃ d, c.popHead = .ok (s.values.head?, d) ∧ d.Holds { s with values := s.values.tail } := by
  obtain ⟨path, hl, rfl⟩ := h
  cases path with
  | nil => exact ⟨c, hl.popHead_nil, [], hl, rfl⟩
  | cons node path =>
    obtain ⟨d, hd, hl', hm, -⟩ := hl.popHead_cons
    exact ⟨d, hd, path, hl', by rw [hm]; rfl⟩

theorem popTail (h : c.Holds s) :
    ∃ d, c.popTail = .ok (s.values.getLast?, d) ∧
      d.Holds { s with values := s.values.dropLast } := by
  obtain ⟨path, hl, rfl⟩ := h
  rcases List.eq_nil_or_concat path with rfl | ⟨path, node, rfl⟩
  · exact ⟨c, hl.popTail_nil, [], hl, rfl⟩
  · rw [List.concat_eq_append] at hl ⊢
    obtain ⟨d, hd, hl', hm, -⟩ := hl.popTail_append
    exact ⟨d, by simp [hd], path, hl', by simp [hm]⟩

/-- A pop takes from the end that the mode names. -/
theorem pop (h : c.Holds s) : ∃ d, c.pop = .ok (s.pop.1, d) ∧ d.Holds s.pop.2 := by
  obtain ⟨values, mode⟩ := s
  cases mode with
  | stack =>
    rw [Chain.pop, show c.mode = .stack from h.mode_eq]
    exact h.popHead
  | queue =>
    rw [Chain.pop, show c.mode = .queue from h.mode_eq]
    exact h.popTail

/-- There is nothing to take from an empty chain, which stays the very same. -/
theorem pop_of_nil (h : c.Holds s) (hs : s.values = []) : c.pop = .ok (none, c) := by
  obtain ⟨path, hl, rfl⟩ := h
  obtain rfl : path = [] := List.map_eq_nil_iff.1 hs
  unfold Chain.pop
  cases c.mode with
  | stack => exact hl.popHead_nil
  | queue => exact hl.popTail_nil

/-- There is nothing to exchange in a chain of fewer than two nodes, which stays the very same. -/
theorem swap_of_lt (h : c.Holds s) (hs : s.values.length < 2) : c.swap = .ok (false, c) := by
  obtain ⟨path, hl, rfl⟩ := h
  exact hl.swap_of_lt (by simpa using hs)

theorem swap (h : c.Holds s) :
    ∃ d, c.swap = .ok (decide (2 ≤ s.values.length), d) ∧
      d.Holds { s with values := Contents.exchange s.values } := by
  obtain ⟨path, hl, rfl⟩ := h
  rcases path with _ | ⟨node, _ | ⟨other, path⟩⟩
  · exact ⟨c, hl.swap_of_lt (by simp), _, hl, rfl⟩
  · exact ⟨c, hl.swap_of_lt (by simp), _, hl, rfl⟩
  · obtain ⟨d, hd, hl', hm, -⟩ := hl.swap_cons_cons
    exact ⟨d, by simp [hd], _, hl', by rw [hm]; rfl⟩

theorem setHead (h : c.Holds s) (value : Int32) :
    ∃ d, c.setHead value = .ok (!s.values.isEmpty, d) ∧
      d.Holds { s with values := s.values.set 0 value } := by
  obtain ⟨path, hl, rfl⟩ := h
  cases path with
  | nil => exact ⟨c, hl.setHead_nil value, [], hl, rfl⟩
  | cons node path =>
    obtain ⟨d, hd, hl', hm, -⟩ := hl.setHead_cons value
    exact ⟨d, hd, _, hl', by rw [hm]; rfl⟩

theorem headToTail (h : c.Holds s) :
    ∃ d, c.headToTail = .ok d ∧ d.Holds { s with values := Contents.headLast s.values } := by
  obtain ⟨path, hl, rfl⟩ := h
  rcases path with _ | ⟨node, _ | ⟨other, path⟩⟩
  · exact ⟨c, hl.headToTail_of_lt (by simp), _, hl, rfl⟩
  · exact ⟨c, hl.headToTail_of_lt (by simp), _, hl, rfl⟩
  · obtain ⟨d, hd, hl', hm, -⟩ := hl.headToTail_cons_cons
    exact ⟨d, hd, _, hl', by simp [Contents.headLast, hm]⟩

theorem tailToHead (h : c.Holds s) :
    ∃ d, c.tailToHead = .ok d ∧ d.Holds { s with values := Contents.lastFirst s.values } := by
  obtain ⟨path, hl, rfl⟩ := h
  rcases List.eq_nil_or_concat path with rfl | ⟨path, node, rfl⟩
  · exact ⟨c, hl.tailToHead_of_lt (by simp), _, hl, rfl⟩
  · -- what stands before the tail decides: nothing, or a path with a head of its own
    rw [List.concat_eq_append] at hl ⊢
    cases path with
    | nil => exact ⟨c, hl.tailToHead_of_lt (by simp), _, hl, rfl⟩
    | cons first path =>
      obtain ⟨d, hd, hl', hm, -⟩ := hl.tailToHead_append
      have hvalues : Path.values (first :: path ++ [node]) =
          Path.values (first :: path) ++ [node.2] := List.map_append
      exact ⟨d, hd, _, hl', by rw [hm, hvalues, Contents.lastFirst_append]; rfl⟩

theorem clear (h : c.Holds s) : c.clear = .ok (.empty s.mode) := by
  obtain ⟨path, hl, rfl⟩ := h
  exact hl.clear_eq

end Holds

end Chain

end ChainMachine
