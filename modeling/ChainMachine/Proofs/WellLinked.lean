import ChainMachine.Proofs.Operations

/-!
# The links of a chain after any schedule

What can be seen in the storage of a chain by following its links one at a time,
without a path being given.

* `Storage.Follows`: the slots met on the way along the `next` links, up to a node
  without one;
* `Chain.WellLinked c walk`: the way from the head is `walk`, the links agree in both
  directions, and the other slots are exactly the vacant ones;
* `Chain.Layout.wellLinked`: a chain that lies along a path is well linked;
* `Chain.perform_wellLinked`: so is every chain that a schedule leads to.
-/

namespace ChainMachine

namespace Path

theorem exists_append_of_mem_slots {path : Path} {slot : Nat} (h : slot ∈ path.slots) :
    ∃ front value back, path = front ++ (slot, value) :: back := by
  obtain ⟨⟨_, value⟩, hmem, rfl⟩ := List.mem_map.1 h
  obtain ⟨front, back, rfl⟩ := List.append_of_mem hmem
  exact ⟨front, value, back, rfl⟩

theorem exists_cons_of_entry_eq {path : Path} {slot : Nat} (h : entry path none = some slot) :
    ∃ value back, path = (slot, value) :: back := by
  cases path with
  | nil => cases h
  | cons node back =>
    cases h
    exact ⟨node.2, back, rfl⟩

theorem exists_append_of_exit_eq {path : Path} {slot : Nat} (h : exit none path = some slot) :
    ∃ front value, path = front ++ [(slot, value)] := by
  rcases List.eq_nil_or_concat path with rfl | ⟨front, node, rfl⟩
  · cases h
  · rw [List.concat_eq_append] at h ⊢
    rw [exit_append, exit_cons, exit_nil] at h
    cases h
    exact ⟨front, node.2, rfl⟩

end Path

namespace Storage

/-- Following the `next` links from a slot, if one is given, meets these slots and then ends. -/
inductive Follows (s : Storage) : Option Nat → List Nat → Prop
  | stop : s.Follows none []
  | visit {slot : Nat} {node : Node} {rest : List Nat}
      (occupied : s.slots[slot]? = some (some node)) (onward : s.Follows node.next rest) :
      s.Follows (some slot) (slot :: rest)

namespace Linked

variable {s : Storage} {before after : Option Nat} {path : Path}

/-- A node inside a path names the nodes on either side of it. -/
theorem read_middle {front back : Path} {slot : Nat} {value : Int32}
    (h : s.Linked before (front ++ (slot, value) :: back) after) :
    s.slots[slot]? = some (some { value, prev := Path.exit before front
                                  next := Path.entry back after }) :=
  (linked_append.1 h).2.1

theorem follows (h : s.Linked before path none) : s.Follows (path.entry none) path.slots := by
  induction path generalizing before with
  | nil => exact .stop
  | cons node path ih => exact .visit h.1 (ih h.2)

/-- Two nodes of a path name each other or do not. -/
theorem next_eq_iff (h : s.Linked none path none) {a b : Nat} {node other : Node}
    (ha : a ∈ path.slots) (hb : b ∈ path.slots) (hnode : s.slots[a]? = some (some node))
    (hother : s.slots[b]? = some (some other)) : node.next = some b ↔ other.prev = some a := by
  constructor
  · intro hnext
    obtain ⟨front, value, back, rfl⟩ := Path.exists_append_of_mem_slots ha
    rw [h.read_middle] at hnode
    cases hnode
    -- the node after `a` is the one in slot `b`, and the cut can be moved behind `a`
    obtain ⟨value', back, rfl⟩ := Path.exists_cons_of_entry_eq hnext
    rw [List.append_cons] at h
    rw [h.read_middle] at hother
    cases hother
    simp
  · intro hprev
    obtain ⟨front, value, back, rfl⟩ := Path.exists_append_of_mem_slots hb
    rw [h.read_middle] at hother
    cases hother
    obtain ⟨front, value', rfl⟩ := Path.exists_append_of_exit_eq hprev
    rw [List.append_assoc, List.singleton_append] at h
    rw [h.read_middle] at hnode
    cases hnode
    rfl

end Linked

end Storage

namespace Chain

/-- The way along the `next` links from the head is `walk`; it meets every occupied slot once and
ends, the links agree in both directions, the length is the number of nodes, and the vacant slots
are listed, each once. -/
structure WellLinked (c : Chain) (walk : List Nat) : Prop where
  follows : c.storage.Follows c.head walk
  nodup : walk.Nodup
  mem_walk_iff : ∀ slot, slot ∈ walk ↔ ∃ node, c.storage.slots[slot]? = some (some node)
  prev_head : ∀ slot node, walk.head? = some slot → c.storage.slots[slot]? = some (some node) →
    node.prev = none
  next_last : ∀ slot node, walk.getLast? = some slot →
    c.storage.slots[slot]? = some (some node) → node.next = none
  next_eq_iff : ∀ a ∈ walk, ∀ b ∈ walk, ∀ node other, c.storage.slots[a]? = some (some node) →
    c.storage.slots[b]? = some (some other) → (node.next = some b ↔ other.prev = some a)
  length_eq : c.length = walk.length
  head_eq_none_iff : c.head = none ↔ c.length = 0
  nodup_free : c.storage.free.Nodup
  mem_free_iff : ∀ slot, slot ∈ c.storage.free ↔ c.storage.slots[slot]? = some none
  length_add_free : c.length + c.storage.free.length = c.storage.size

namespace Layout

variable {c : Chain} {path : Path}

theorem exists_node_of_mem_slots (h : c.Layout path) {slot : Nat} (hslot : slot ∈ path.slots) :
    ∃ node, c.storage.slots[slot]? = some (some node) := by
  obtain ⟨front, value, back, rfl⟩ := Path.exists_append_of_mem_slots hslot
  exact ⟨_, h.linked.read_middle⟩

theorem mem_slots_iff (h : c.Layout path) (slot : Nat) :
    slot ∈ path.slots ↔ ∃ node, c.storage.slots[slot]? = some (some node) := by
  constructor
  · exact h.exists_node_of_mem_slots
  · rintro ⟨node, hnode⟩
    rcases h.mem_slots_or_mem_free (Array.getElem?_eq_some_iff.1 hnode).1 with hin | hfree
    · exact hin
    · rw [h.vacant slot hfree] at hnode
      cases hnode

theorem mem_free_iff (h : c.Layout path) (slot : Nat) :
    slot ∈ c.storage.free ↔ c.storage.slots[slot]? = some none := by
  constructor
  · exact h.vacant slot
  · intro hvacant
    rcases h.mem_slots_or_mem_free (Array.getElem?_eq_some_iff.1 hvacant).1 with hin | hfree
    · obtain ⟨node, hnode⟩ := h.exists_node_of_mem_slots hin
      rw [hvacant] at hnode
      cases hnode
    · exact hfree

theorem prev_of_head (h : c.Layout path) {slot : Nat} {node : Node}
    (hslot : path.slots.head? = some slot) (hnode : c.storage.slots[slot]? = some (some node)) :
    node.prev = none := by
  cases path with
  | nil => cases hslot
  | cons first path =>
    cases hslot
    rw [h.linked.1] at hnode
    cases hnode
    rfl

theorem next_of_last (h : c.Layout path) {slot : Nat} {node : Node}
    (hslot : path.slots.getLast? = some slot)
    (hnode : c.storage.slots[slot]? = some (some node)) : node.next = none := by
  rcases List.eq_nil_or_concat path with rfl | ⟨front, last, rfl⟩
  · cases hslot
  · rw [List.concat_eq_append] at h hslot
    rw [Path.slots, List.map_append, List.map_singleton, List.getLast?_concat] at hslot
    cases hslot
    rw [h.linked.read_middle] at hnode
    cases hnode
    rfl

/-- A chain that lies along a path is well linked. -/
theorem wellLinked (h : c.Layout path) : c.WellLinked path.slots where
  follows := h.head_eq ▸ h.linked.follows
  nodup := h.nodup_slots
  mem_walk_iff := h.mem_slots_iff
  prev_head := by
    intro slot node hslot hnode
    exact h.prev_of_head hslot hnode
  next_last := by
    intro slot node hslot hnode
    exact h.next_of_last hslot hnode
  next_eq_iff := by
    intro a ha b hb node other hnode hother
    exact h.linked.next_eq_iff ha hb hnode hother
  length_eq := by rw [h.length_eq, List.length_map]
  head_eq_none_iff := by rw [← h.eq_nil_iff, h.length_eq, List.length_eq_zero_iff]
  nodup_free := (List.nodup_append.1 h.nodup).2.1
  mem_free_iff := h.mem_free_iff
  length_add_free := by rw [h.length_eq, h.length_add_length]

end Layout

/-- Every schedule, refused pushes and clearings included, meets no fault and leaves a chain that
is well linked. -/
theorem perform_wellLinked (mode : Mode) (schedule : Schedule) :
    ∃ answers c walk, (empty mode).perform schedule = .ok (answers, c) ∧ c.WellLinked walk := by
  obtain ⟨answers, c, _, hc, -, -, ⟨path, hl, -⟩, -⟩ := (holds_empty mode).perform schedule
  exact ⟨answers, c, path.slots, hc, hl.wellLinked⟩

end Chain

end ChainMachine
