import ChainMachine.Chain.Basic
import ChainMachine.Chain.Linked

/-!
# The layout of a chain

How a chain lies in its storage: its nodes form a linked path, and every slot is on
the path or is listed as vacant, once.

* `Chain.Layout c path`: the chain `c` lies along `path`;
* `Storage.AgreesOff`: two storages differ on some slots only;
* `Storage.setPrev_entry`, `Storage.setNext_exit`: the ends of a path can be linked anew;
* `Chain.Layout.free_eq_nil_iff`: a chain fills its storage when no slot is vacant;
* `Chain.Layout.eq_of_free_eq`: a chain is known by its path, its vacant slots and its mode;
* `Chain.Layout.relinked`: a chain whose nodes are linked anew has the new layout.
-/

namespace ChainMachine

/-- The chain lies along the path: its links lead through exactly these slots, in this order,
and the other slots are vacant and listed as such. -/
structure Chain.Layout (c : Chain) (path : Path) : Prop where
  head_eq : c.head = path.entry none
  linked : c.storage.Linked none path none
  length_eq : c.length = path.length
  perm : (path.slots ++ c.storage.free).Perm (List.range c.storage.size)
  vacant : ∀ slot ∈ c.storage.free, c.storage.slots[slot]? = some none

namespace Storage

/-- Two storages of one size and with the same vacant slots differ only on the given slots. -/
structure AgreesOff (s t : Storage) (slots : List Nat) : Prop where
  size_eq : t.size = s.size
  free_eq : t.free = s.free
  slots_eq : ∀ slot ∉ slots, t.slots[slot]? = s.slots[slot]?

namespace AgreesOff

variable {s t u : Storage} {slots : List Nat}

theorem refl (s : Storage) (slots : List Nat) : s.AgreesOff s slots := ⟨rfl, rfl, fun _ _ => rfl⟩

theorem trans (h : s.AgreesOff t slots) (h' : t.AgreesOff u slots) : s.AgreesOff u slots :=
  ⟨h'.size_eq.trans h.size_eq, h'.free_eq.trans h.free_eq,
    fun slot hslot => (h'.slots_eq slot hslot).trans (h.slots_eq slot hslot)⟩

theorem set {slot : Nat} (hslot : slot ∈ slots) (content : Option Node) :
    s.AgreesOff (s.set slot content) slots := by
  refine ⟨s.size_set slot content, s.free_set slot content, fun other hother => ?_⟩
  refine s.getElem?_set_of_ne ?_ content
  rintro rfl
  exact hother hslot

theorem mono (h : s.AgreesOff t slots) {more : List Nat} (hsub : slots ⊆ more) :
    s.AgreesOff t more :=
  ⟨h.size_eq, h.free_eq, fun slot hslot => h.slots_eq slot fun hin => hslot (hsub hin)⟩

end AgreesOff

variable {s : Storage} {path : Path}

/-- The first node of a path can take a new neighbour before it. -/
theorem setPrev_entry {before : Option Nat} (h : s.Linked before path none)
    (hnodup : path.slots.Nodup) (newBefore : Option Nat) :
    ∃ t, s.setPrev (path.entry none) newBefore = .ok t ∧ t.Linked newBefore path none ∧
      s.AgreesOff t path.slots := by
  cases path with
  | nil => exact ⟨s, rfl, trivial, .refl s _⟩
  | cons node path =>
    obtain ⟨slot, value⟩ := node
    obtain ⟨hslot, -⟩ := List.nodup_cons.1 hnodup
    exact ⟨_, update_eq_ok h.1 _, h.set_first hslot value newBefore, .set (by simp) _⟩

/-- The last node of a path can take a new neighbour after it. -/
theorem setNext_exit {after : Option Nat} (h : s.Linked none path after)
    (hnodup : path.slots.Nodup) (newAfter : Option Nat) :
    ∃ t, s.setNext (Path.exit none path) newAfter = .ok t ∧ t.Linked none path newAfter ∧
      s.AgreesOff t path.slots := by
  rcases List.eq_nil_or_concat path with rfl | ⟨path, ⟨slot, value⟩, rfl⟩
  · exact ⟨s, rfl, trivial, .refl s _⟩
  · rw [List.concat_eq_append] at h hnodup ⊢
    have hslot : slot ∉ Path.slots path := by
      intro hin
      simp only [List.map_append, List.nodup_append] at hnodup
      exact hnodup.2.2 slot hin slot (by simp) rfl
    have hread := linked_singleton.1 (linked_append.1 h).2
    refine ⟨_, ?_, h.set_last hslot newAfter, .set (by simp) _⟩
    rw [Path.exit_append, Path.exit_cons, Path.exit_nil]
    exact update_eq_ok hread _

end Storage

namespace Chain

/-- The chain without nodes. -/
theorem layout_empty (mode : Mode) : (empty mode).Layout [] :=
  ⟨rfl, trivial, rfl, .refl _, fun _ h => nomatch h⟩

namespace Layout

variable {c : Chain} {path : Path}

theorem nodup (h : c.Layout path) : (path.slots ++ c.storage.free).Nodup :=
  h.perm.nodup_iff.2 List.nodup_range

theorem nodup_slots (h : c.Layout path) : path.slots.Nodup :=
  (List.nodup_append.1 h.nodup).1

/-- No slot of the path is vacant. -/
theorem notMem_free (h : c.Layout path) {slot : Nat} (hslot : slot ∈ path.slots) :
    slot ∉ c.storage.free :=
  fun hfree => (List.nodup_append.1 h.nodup).2.2 slot hslot slot hfree rfl

/-- Every slot is on the path or vacant. -/
theorem mem_slots_or_mem_free (h : c.Layout path) {slot : Nat} (hslot : slot < c.storage.size) :
    slot ∈ path.slots ∨ slot ∈ c.storage.free := by
  rw [← List.mem_append, h.perm.mem_iff]
  exact List.mem_range.2 hslot

/-- Nodes and vacant slots add up to all slots. -/
theorem length_add_length (h : c.Layout path) :
    path.length + c.storage.free.length = c.storage.size := by
  simpa using h.perm.length_eq

theorem length_le (h : c.Layout path) : path.length ≤ c.storage.size := by
  have := h.length_add_length
  omega

theorem length_le_size (h : c.Layout path) : c.length ≤ c.storage.size := h.length_eq ▸ h.length_le

/-- No slot is vacant exactly when there are no more slots than nodes. -/
theorem free_eq_nil_iff (h : c.Layout path) :
    c.storage.free = [] ↔ c.length = c.storage.size := by
  rw [← List.length_eq_zero_iff, h.length_eq, ← h.length_add_length]
  omega

/-- A chain without head has no nodes. -/
theorem eq_nil_iff (h : c.Layout path) : path = [] ↔ c.head = none := by
  rw [h.head_eq]
  cases path <;> simp

/-- The values of a chain are read along its path. -/
theorem values_eq (h : c.Layout path) : c.values = .ok path.values := by
  rw [Chain.values, Storage.valuesFrom, h.head_eq,
    h.linked.walkValues_eq h.length_le, List.reverse_nil, List.nil_append]

/-- There is but one chain with a given path, given vacant slots and a given mode. -/
theorem eq_of_free_eq (h : c.Layout path) {d : Chain} (h' : d.Layout path)
    (hfree : d.storage.free = c.storage.free) (hmode : d.mode = c.mode) : d = c := by
  have hsize : d.storage.size = c.storage.size := by
    rw [← h'.length_add_length, ← h.length_add_length, hfree]
  have hslots : d.storage.slots = c.storage.slots := by
    refine Array.ext_getElem? fun slot => ?_
    by_cases hslot : slot < c.storage.size
    · rcases h.mem_slots_or_mem_free hslot with hin | hvacant
      · exact h.linked.getElem?_eq h'.linked hin
      · rw [h.vacant slot hvacant, h'.vacant slot (hfree ▸ hvacant)]
    · have hle := Nat.le_of_not_lt hslot
      have hle' : d.storage.size ≤ slot := Nat.le_trans (Nat.le_of_eq hsize) hle
      rw [Array.getElem?_eq_none hle, Array.getElem?_eq_none hle']
  have hhead := h'.head_eq.trans h.head_eq.symm
  have hlength := h'.length_eq.trans h.length_eq.symm
  obtain ⟨⟨slots, free⟩, head, length, mode⟩ := c
  obtain ⟨⟨slots', free'⟩, head', length', mode'⟩ := d
  dsimp only at hslots hfree hhead hlength hmode
  rw [hslots, hfree, hhead, hlength, hmode]

/-- Nodes that are linked anew, and otherwise stay where they are, have the new layout. -/
theorem relinked (h : c.Layout path) {storage : Storage} {newPath : Path}
    (hagree : c.storage.AgreesOff storage path.slots) (hlinked : storage.Linked none newPath none)
    (hperm : newPath.slots.Perm path.slots) :
    Layout { c with storage, head := newPath.entry none } newPath := by
  refine ⟨rfl, hlinked, ?_, ?_, fun slot hslot => ?_⟩
  · have hlen := hperm.length_eq
    simp only [List.length_map] at hlen
    exact h.length_eq.trans hlen.symm
  · dsimp only
    rw [hagree.free_eq, hagree.size_eq]
    exact (hperm.append_right _).trans h.perm
  · dsimp only at hslot ⊢
    rw [hagree.free_eq] at hslot
    rw [hagree.slots_eq slot fun hin => h.notMem_free hin hslot]
    exact h.vacant slot hslot

end Layout

end Chain

end ChainMachine
