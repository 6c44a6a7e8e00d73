import ChainMachine.Chain.Layout

/-!
# The operations along the path

What each operation does to a chain that lies along a path.  None of them meets a
fault there, and each leaves a chain that lies along the new path.

* `Layout.first_eq`, `Layout.firstTwo_eq`: the values at the head;
* `Layout.push_of_free`, `Layout.push_of_grow`, `Layout.push_refused`: a value comes
  before the head, in the slot vacated last or in a new one;
* `Layout.popHead_cons`, `Layout.popTail_append`: a node leaves at either end;
* `Layout.swap_cons_cons`, `Layout.setHead_cons`: values change;
* `Layout.headToTail_cons_cons`, `Layout.tailToHead_append`: the chain turns;
* `Layout.popTail_eq`: two ways to take the tail;
* `Layout.clear_eq`: no node is left.
-/

namespace ChainMachine.Chain.Layout

open Storage

variable {c : Chain} {path : Path} {slot other : Nat} {value otherValue : Int32}

/-! ### The values at the head -/

theorem head_eq_some (h : c.Layout ((slot, value) :: path)) : c.head = some slot := h.head_eq

theorem head_eq_none (h : c.Layout []) : c.head = none := h.head_eq

theorem isEmpty_eq (h : c.Layout path) : c.isEmpty = path.isEmpty := by
  rw [isEmpty, h.head_eq]
  cases path <;> rfl

theorem first_eq (h : c.Layout path) : c.first = .ok path.values.head? := by
  rw [first, h.head_eq]
  cases path with
  | nil => rfl
  | cons node path => simp [read_eq_ok_iff.2 h.linked.1]

theorem firstTwoSlots_nil (h : c.Layout []) : c.firstTwoSlots = .ok none := by
  rw [firstTwoSlots, h.head_eq_none]
  rfl

theorem firstTwoSlots_singleton (h : c.Layout [(slot, value)]) : c.firstTwoSlots = .ok none := by
  rw [firstTwoSlots, h.head_eq_some]
  simp [read_eq_ok_iff.2 h.linked.1]

theorem firstTwoSlots_cons_cons (h : c.Layout ((slot, value) :: (other, otherValue) :: path)) :
    c.firstTwoSlots = .ok (some (slot, other)) := by
  rw [firstTwoSlots, h.head_eq_some]
  simp [read_eq_ok_iff.2 h.linked.1]

/-- A chain of fewer than two nodes has no first two. -/
theorem firstTwoSlots_of_lt (h : c.Layout path) (hlt : path.length < 2) :
    c.firstTwoSlots = .ok none := by
  match path, h, hlt with
  | [], h, _ => exact h.firstTwoSlots_nil
  | [(_, _)], h, _ => exact h.firstTwoSlots_singleton
  | _ :: _ :: _, _, hlt =>
    simp only [List.length_cons] at hlt
    omega

theorem firstTwo_of_lt (h : c.Layout path) (hlt : path.length < 2) : c.firstTwo = .ok none := by
  simp [firstTwo, h.firstTwoSlots_of_lt hlt]

theorem firstTwo_cons_cons (h : c.Layout ((slot, value) :: (other, otherValue) :: path)) :
    c.firstTwo = .ok (some (value, otherValue)) := by
  simp [firstTwo, h.firstTwoSlots_cons_cons, read_eq_ok_iff.2 h.linked.1,
    read_eq_ok_iff.2 h.linked.2.1]

/-- The mode does not matter. -/
theorem setMode (h : c.Layout path) (mode : Mode) : (c.setMode mode).Layout path :=
  ⟨h.head_eq, h.linked, h.length_eq, h.perm, h.vacant⟩

/-! ### Pushing -/

/-- The slot vacated last is used again. -/
theorem push_of_free (h : c.Layout path) {free : List Nat} (hfree : c.storage.free = slot :: free)
    (value : Int32) (limit : Option Nat) :
    ∃ d, c.push value limit = .ok (some d) ∧ d.Layout ((slot, value) :: path) ∧
      d.mode = c.mode ∧ d.storage.size = c.storage.size := by
  have hperm := h.perm
  rw [hfree] at hperm
  have hnodup := hperm.nodup_iff.2 List.nodup_range
  have hlt : slot < c.storage.size := by simpa using (hperm.mem_iff (a := slot)).1 (by simp)
  have hnotin : slot ∉ path.slots :=
    fun hin => (List.nodup_append.1 hnodup).2.2 slot hin slot (by simp) rfl
  have hnotfree : slot ∉ free :=
    (List.nodup_cons.1 (List.nodup_append.1 hnodup).2.1).1
  let s : Storage :=
    { c.storage.set slot (some { value, prev := none, next := c.head }) with free }
  have hslot : s.slots[slot]? = some (some { value, prev := none, next := c.head }) :=
    getElem?_set_self hlt _
  have hpath : s.Linked none path none :=
    (h.linked.set_of_notMem hnotin (some { value, prev := none, next := c.head })).congr
      fun _ _ => rfl
  obtain ⟨t, ht, hlinked, hagree⟩ := setPrev_entry hpath h.nodup_slots (some slot)
  refine ⟨{ c with storage := t, head := some slot, length := c.length + 1 }, ?_, ?_, rfl, ?_⟩
  · rw [← h.head_eq] at ht
    simp only [push, occupy, hfree, if_pos hlt, Checked.ok_bind]
    rw [show s.setPrev c.head (some slot) = .ok t from ht]
    rfl
  · refine ⟨rfl, ⟨?_, hlinked⟩, ?_, ?_, fun k hk => ?_⟩
    · dsimp only
      rw [hagree.slots_eq slot hnotin, hslot, h.head_eq]
    · simp [h.length_eq]
    · dsimp only
      rw [hagree.free_eq, hagree.size_eq, show s.size = c.storage.size from size_set ..]
      exact (List.perm_middle.symm.trans hperm :)
    · dsimp only at hk ⊢
      rw [hagree.free_eq] at hk
      have hk' : k ∈ c.storage.free := by rw [hfree]; exact List.mem_cons_of_mem _ hk
      rw [hagree.slots_eq k fun hin => h.notMem_free hin hk']
      have hne : slot ≠ k := by rintro rfl; exact hnotfree hk
      exact (c.storage.getElem?_set_of_ne hne _).trans (h.vacant k hk')
  · exact hagree.size_eq.trans (size_set ..)

/-- When no slot is vacant, the storage grows by one slot. -/
theorem push_of_grow (h : c.Layout path) (hfree : c.storage.free = []) {limit : Option Nat}
    (hgrow : c.storage.mayGrow limit = true) (value : Int32) :
    ∃ d, c.push value limit = .ok (some d) ∧ d.Layout ((c.storage.size, value) :: path) ∧
      d.mode = c.mode ∧ d.storage.size = c.storage.size + 1 := by
  have hperm := h.perm
  rw [hfree, List.append_nil] at hperm
  have hlt : ∀ slot ∈ path.slots, slot < c.storage.size := fun slot hslot => h.linked.lt_size hslot
  have hnotin : c.storage.size ∉ path.slots := fun hin => Nat.lt_irrefl _ (hlt _ hin)
  let s : Storage :=
    { slots := c.storage.slots.push (some { value, prev := none, next := c.head }), free := [] }
  have hslot : s.slots[c.storage.size]? = some (some { value, prev := none, next := c.head }) :=
    Array.getElem?_push_size
  have hpath : s.Linked none path none := by
    refine h.linked.congr fun k hk => ?_
    exact Array.getElem?_push_lt (hlt k hk) |>.trans
      (Array.getElem?_eq_getElem (hlt k hk)).symm
  obtain ⟨t, ht, hlinked, hagree⟩ := setPrev_entry hpath h.nodup_slots (some c.storage.size)
  have hsize : s.size = c.storage.size + 1 := Array.size_push _
  refine ⟨{ c with storage := t, head := some c.storage.size, length := c.length + 1 },
    ?_, ?_, rfl, ?_⟩
  · rw [← h.head_eq] at ht
    simp only [push, occupy, hfree, if_pos hgrow, Checked.ok_bind]
    rw [show s.setPrev c.head (some c.storage.size) = .ok t from ht]
    rfl
  · refine ⟨rfl, ⟨?_, hlinked⟩, ?_, ?_, fun k hk => ?_⟩
    · dsimp only
      rw [hagree.slots_eq _ hnotin, hslot, h.head_eq]
    · simp [h.length_eq]
    · dsimp only
      rw [hagree.free_eq, hagree.size_eq, hsize, show s.free = [] from rfl, List.append_nil,
        List.range_succ]
      exact (hperm.cons _).trans (List.perm_append_singleton _ _).symm
    · dsimp only at hk
      rw [hagree.free_eq, show s.free = [] from rfl] at hk
      cases hk
  · exact hagree.size_eq.trans hsize

/-- When no slot is vacant and none may be added, nothing is pushed. -/
theorem push_refused (hfree : c.storage.free = []) {limit : Option Nat}
    (hgrow : c.storage.mayGrow limit = false) (value : Int32) :
    c.push value limit = .ok none := by
  simp [push, occupy, hfree, hgrow]

/-! ### Popping -/

theorem popHead_nil (h : c.Layout []) : c.popHead = .ok (none, c) := by
  simp [popHead, h.head_eq_none]

/-- The head leaves. -/
theorem popHead_cons (h : c.Layout ((slot, value) :: path)) :
    ∃ d, c.popHead = .ok (some value, d) ∧ d.Layout path ∧ d.mode = c.mode ∧
      d.storage.size = c.storage.size ∧ d.storage.free = slot :: c.storage.free := by
  obtain ⟨hnotin, hnodup⟩ := List.nodup_cons.1 h.nodup_slots
  let s : Storage := { c.storage.set slot none with free := slot :: c.storage.free }
  have hpath : s.Linked (some slot) path none :=
    (h.linked.2.set_of_notMem hnotin none).congr fun _ _ => rfl
  obtain ⟨t, ht, hlinked, hagree⟩ := setPrev_entry hpath hnodup none
  have hsize : s.size = c.storage.size := size_set ..
  have hlen : c.length = path.length + 1 := h.length_eq
  refine ⟨{ c with storage := t, head := Path.entry path none, length := path.length },
    ?_, ⟨rfl, hlinked, rfl, ?_, fun k hk => ?_⟩, rfl, hagree.size_eq.trans hsize,
    hagree.free_eq⟩
  · simp only [popHead, h.head_eq_some, vacate_eq_ok h.linked.1, Checked.ok_bind]
    rw [show s.setPrev (Path.entry path none) none = .ok t from ht, hlen]
    rfl
  · dsimp only
    rw [hagree.free_eq, hagree.size_eq, hsize]
    exact List.perm_middle.trans h.perm
  · dsimp only at hk ⊢
    rw [hagree.free_eq] at hk
    rcases List.mem_cons.1 hk with rfl | hk
    · rw [hagree.slots_eq _ hnotin]
      exact getElem?_set_self (h.linked.lt_size (by simp)) none
    · have hin : k ∉ Path.slots ((slot, value) :: path) := fun hin => h.notMem_free hin hk
      simp only [List.map_cons, List.mem_cons, not_or] at hin
      rw [hagree.slots_eq _ hin.2]
      exact (c.storage.getElem?_set_of_ne (Ne.symm hin.1) none).trans (h.vacant k hk)

theorem popTail_nil (h : c.Layout []) : c.popTail = .ok (none, c) := by
  simp [popTail, h.head_eq_none]

/-- The slot of the tail is found. -/
theorem lastSlot_eq (h : c.Layout (path ++ [(slot, value)])) {first : Nat}
    (hfirst : Path.entry (path ++ [(slot, value)]) none = some first) :
    c.storage.lastSlot first = .ok slot := by
  have hlen := h.length_le
  rw [List.length_append, List.length_singleton] at hlen
  exact h.linked.walkToLast_eq hlen hfirst

/-- The tail leaves. -/
theorem popTail_append (h : c.Layout (path ++ [(slot, value)])) :
    ∃ d, c.popTail = .ok (some value, d) ∧ d.Layout path ∧ d.mode = c.mode ∧
      d.storage.size = c.storage.size ∧ d.storage.free = slot :: c.storage.free := by
  have hnodup := h.nodup_slots
  simp only [List.map_append, List.nodup_append] at hnodup
  have hnotin : slot ∉ path.slots := fun hin => hnodup.2.2 slot hin slot (by simp) rfl
  obtain ⟨hp, hlast⟩ := linked_append.1 h.linked
  have hlast := linked_singleton.1 hlast
  obtain ⟨first, hfirst⟩ := Path.exists_entry_append path (slot, value)
  let s : Storage := { c.storage.set slot none with free := slot :: c.storage.free }
  have hpath : s.Linked none path (some slot) := (hp.set_of_notMem hnotin none).congr fun _ _ => rfl
  obtain ⟨t, ht, hlinked, hagree⟩ := setNext_exit hpath hnodup.1 none
  have hsize : s.size = c.storage.size := size_set ..
  have hlen : c.length = path.length + 1 := by simpa using h.length_eq
  have hhead : (Path.exit none path).map (fun _ => first) = Path.entry path none := by
    cases path with
    | nil => rfl
    | cons node path =>
      obtain ⟨last, hexit⟩ := Path.exists_exit_some node.1 path
      rw [Path.exit_cons, hexit]
      exact hfirst.symm
  refine ⟨{ c with storage := t, head := Path.entry path none, length := path.length },
    ?_, ⟨rfl, hlinked, rfl, ?_, fun k hk => ?_⟩, rfl, hagree.size_eq.trans hsize,
    hagree.free_eq⟩
  · rw [← hhead]
    simp only [popTail, h.head_eq.trans hfirst, h.lastSlot_eq hfirst, vacate_eq_ok hlast,
      Checked.ok_bind]
    rw [show s.setNext (Path.exit none path) none = .ok t from ht, hlen]
    rfl
  · dsimp only
    rw [hagree.free_eq, hagree.size_eq, hsize]
    simpa using h.perm
  · dsimp only at hk ⊢
    rw [hagree.free_eq] at hk
    rcases List.mem_cons.1 hk with rfl | hk
    · rw [hagree.slots_eq _ hnotin]
      exact getElem?_set_self (h.linked.lt_size (by simp)) none
    · have hin : k ∉ Path.slots (path ++ [(slot, value)]) := fun hin => h.notMem_free hin hk
      simp only [List.map_append, List.mem_append, List.map_cons, List.map_nil,
        List.mem_singleton, not_or] at hin
      rw [hagree.slots_eq _ hin.1]
      exact (c.storage.getElem?_set_of_ne (Ne.symm hin.2) none).trans (h.vacant k hk)

/-! ### Changing values -/

theorem swap_of_lt (h : c.Layout path) (hlt : path.length < 2) : c.swap = .ok (false, c) := by
  simp [swap, h.firstTwoSlots_of_lt hlt]

/-- The first two values change places. -/
theorem swap_cons_cons (h : c.Layout ((slot, value) :: (other, otherValue) :: path)) :
    ∃ d, c.swap = .ok (true, d) ∧ d.Layout ((slot, otherValue) :: (other, value) :: path) ∧
      d.mode = c.mode ∧ d.storage.size = c.storage.size := by
  obtain ⟨hslot, hnodup⟩ := List.nodup_cons.1 h.nodup_slots
  obtain ⟨hother, -⟩ := List.nodup_cons.1 hnodup
  have hne : slot ≠ other := by rintro rfl; exact hslot (by simp)
  let s := c.storage.set slot (some { value := otherValue, prev := none, next := some other })
  have hs : s.Linked none ((slot, otherValue) :: (other, otherValue) :: path) none :=
    h.linked.set_first hslot otherValue none
  let t := s.set other (some { value, prev := some slot, next := Path.entry path none })
  have ht : t.Linked (some slot) ((other, value) :: path) none :=
    hs.2.set_first hother value (some slot)
  have hlinked : t.Linked none ((slot, otherValue) :: (other, value) :: path) none :=
    ⟨(s.getElem?_set_of_ne (Ne.symm hne) _).trans hs.1, ht⟩
  refine ⟨{ c with storage := t, head := some slot }, ?_, h.relinked ?_ hlinked (.refl _), rfl, ?_⟩
  · simp only [swap, h.firstTwoSlots_cons_cons, read_eq_ok_iff.2 h.linked.1,
      read_eq_ok_iff.2 h.linked.2.1, update_eq_ok h.linked.1, Checked.ok_bind]
    rw [show (c.storage.set slot _).update other _ = .ok t from update_eq_ok hs.2.1 _,
      h.head_eq_some]
    rfl
  · exact (AgreesOff.set (by simp) _).trans (.set (by simp) _)
  · exact (size_set ..).trans (size_set ..)

theorem setHead_nil (h : c.Layout []) (newValue : Int32) :
    c.setHead newValue = .ok (false, c) := by
  simp [setHead, h.head_eq_none]

/-- The value at the head is overwritten. -/
theorem setHead_cons (h : c.Layout ((slot, value) :: path)) (newValue : Int32) :
    ∃ d, c.setHead newValue = .ok (true, d) ∧ d.Layout ((slot, newValue) :: path) ∧
      d.mode = c.mode ∧ d.storage.size = c.storage.size := by
  obtain ⟨hslot, -⟩ := List.nodup_cons.1 h.nodup_slots
  refine ⟨_, ?_, h.relinked (.set (by simp) _) (h.linked.set_first hslot newValue none) (.refl _),
    rfl, size_set ..⟩
  simp only [setHead, h.head_eq_some, update_eq_ok h.linked.1, Checked.ok_bind]
  rfl

/-! ### Turning -/

theorem headToTail_of_lt (h : c.Layout path) (hlt : path.length < 2) :
    c.headToTail = .ok c := by
  simp [headToTail, h.firstTwoSlots_of_lt hlt]

theorem tailToHead_of_lt (h : c.Layout path) (hlt : path.length < 2) :
    c.tailToHead = .ok c := by
  simp [tailToHead, h.firstTwoSlots_of_lt hlt]

/-- The head moves behind the tail. -/
theorem headToTail_cons_cons (h : c.Layout ((slot, value) :: (other, otherValue) :: path)) :
    ∃ d, c.headToTail = .ok d ∧ d.Layout ((other, otherValue) :: path ++ [(slot, value)]) ∧
      d.mode = c.mode ∧ d.storage.size = c.storage.size ∧ d.storage.free = c.storage.free := by
  obtain ⟨hslot, hnodup⟩ := List.nodup_cons.1 h.nodup_slots
  obtain ⟨s, hs, hpath, hagree⟩ := setPrev_entry h.linked.2 hnodup none
  obtain ⟨rest, ⟨last, lastValue⟩, hrest⟩ :
      ∃ rest node, (other, otherValue) :: path = rest ++ [node] :=
    ⟨_, _, (List.dropLast_concat_getLast (List.cons_ne_nil _ _)).symm⟩
  have hlen := h.length_le
  have hexit : Path.exit none ((other, otherValue) :: path) = some last := by
    rw [hrest, Path.exit_append, Path.exit_cons, Path.exit_nil]
  have hbottom : s.lastSlot other = .ok last := by
    refine Linked.walkToLast_eq (hrest ▸ hpath) ?_ (by rw [← hrest]; rfl)
    rw [hagree.size_eq]
    have := congrArg List.length hrest
    simp only [List.length_cons, List.length_append, List.length_nil] at this hlen
    omega
  obtain ⟨t, ht, hpath, hagree'⟩ := setNext_exit hpath hnodup (some slot)
  rw [hexit] at ht
  have hread : t.slots[slot]? = some (some { value, prev := none, next := some other }) := by
    rw [hagree'.slots_eq slot hslot, hagree.slots_eq slot hslot]
    exact h.linked.1
  have hlt : slot < t.size := (Array.getElem?_eq_some_iff.1 hread).1
  let u := t.set slot (some { value, prev := some last, next := none })
  have hlinked : u.Linked none ((other, otherValue) :: path ++ [(slot, value)]) none := by
    refine linked_append.2 ⟨hpath.set_of_notMem hslot _, linked_singleton.2 ?_⟩
    rw [hexit]
    exact getElem?_set_self hlt _
  have hall : c.storage.AgreesOff u (Path.slots ((slot, value) :: (other, otherValue) :: path)) :=
    ((hagree.trans hagree').mono (List.subset_cons_self _ _)).trans (.set (by simp) _)
  refine ⟨_, ?_, h.relinked hall hlinked ?_, rfl, hall.size_eq, hall.free_eq⟩
  · simp only [headToTail, h.firstTwoSlots_cons_cons, Checked.ok_bind]
    rw [show c.storage.setPrev (some other) none = .ok s from hs, Checked.ok_bind, hbottom,
      Checked.ok_bind, ht, Checked.ok_bind,
      show t.update slot _ = .ok u from update_eq_ok hread _]
    rfl
  · simpa using (List.perm_append_singleton slot (other :: path.slots))

/-- The tail moves before the head. -/
theorem tailToHead_append (h : c.Layout ((slot, value) :: path ++ [(other, otherValue)])) :
    ∃ d, c.tailToHead = .ok d ∧ d.Layout ((other, otherValue) :: (slot, value) :: path) ∧
      d.mode = c.mode ∧ d.storage.size = c.storage.size ∧ d.storage.free = c.storage.free := by
  have hnodup := h.nodup_slots
  simp only [List.map_append, List.nodup_append] at hnodup
  have hother : other ∉ Path.slots ((slot, value) :: path) :=
    fun hin => hnodup.2.2 other hin other (by simp) rfl
  obtain ⟨hslot, -⟩ := List.nodup_cons.1 hnodup.1
  obtain ⟨hpath, hlast⟩ := linked_append.1 h.linked
  have hlast := linked_singleton.1 hlast
  obtain ⟨s, hs, hpath, hagree⟩ := setNext_exit hpath hnodup.1 none
  let t := s.set other (some { value := otherValue, prev := none, next := some slot })
  have hread : s.slots[other]? = some (some { value := otherValue
                                              prev := Path.exit none ((slot, value) :: path)
                                              next := none }) := by
    rw [hagree.slots_eq other hother]
    exact hlast
  have hlt : other < s.size := (Array.getElem?_eq_some_iff.1 hread).1
  have hpath : t.Linked none ((slot, value) :: path) none := hpath.set_of_notMem hother _
  obtain ⟨u, hu, hpath', hagree'⟩ := setPrev_entry hpath hnodup.1 (some other)
  have hlinked : u.Linked none ((other, otherValue) :: (slot, value) :: path) none := by
    refine ⟨?_, hpath'⟩
    rw [hagree'.slots_eq other hother]
    exact getElem?_set_self hlt _
  have hall : c.storage.AgreesOff u (Path.slots ((slot, value) :: path ++ [(other, otherValue)])) :=
    ((hagree.mono (by simp)).trans (.set (by simp) _)).trans (hagree'.mono (by simp))
  refine ⟨_, ?_, h.relinked hall hlinked ?_, rfl, hall.size_eq, hall.free_eq⟩
  · obtain ⟨second, hsecond⟩ : ∃ second, c.firstTwoSlots = .ok (some (slot, second)) := by
      cases path with
      | nil => exact ⟨_, h.firstTwoSlots_cons_cons⟩
      | cons node path => exact ⟨_, h.firstTwoSlots_cons_cons⟩
    simp only [tailToHead, hsecond, Checked.ok_bind, h.lastSlot_eq rfl, read_eq_ok_iff.2 hlast]
    rw [hs, Checked.ok_bind, show s.update other _ = .ok t from update_eq_ok hread _,
      Checked.ok_bind, show t.setPrev (some slot) (some other) = .ok u from hu]
    rfl
  · simpa using (List.perm_append_singleton other (slot :: path.slots)).symm

/-- To take the tail is to move it before the head and to take the head. -/
theorem popTail_eq (h : c.Layout path) : c.popTail = c.tailToHead >>= popHead := by
  rcases List.eq_nil_or_concat path with rfl | ⟨path, ⟨slot, value⟩, rfl⟩
  · rw [h.tailToHead_of_lt (by simp), Checked.ok_bind, h.popTail_nil, h.popHead_nil]
  rw [List.concat_eq_append] at h
  obtain ⟨d, hd, hl, hm, -, hf⟩ := h.popTail_append
  rw [hd]
  cases path with
  | nil =>
    obtain ⟨d', hd', hl', hm', -, hf'⟩ := popHead_cons h
    rw [h.tailToHead_of_lt (by simp), Checked.ok_bind, hd',
      hl.eq_of_free_eq hl' (hf'.trans hf.symm) (hm'.trans hm.symm)]
  | cons node path =>
    obtain ⟨e, he, hl', hm', -, hf'⟩ := tailToHead_append h
    obtain ⟨d', hd', hl'', hm'', -, hf''⟩ := hl'.popHead_cons
    rw [hf'] at hf''
    rw [he, Checked.ok_bind, hd', hl.eq_of_free_eq hl'' (hf''.trans hf.symm)
      ((hm''.trans hm').trans hm.symm)]

/-! ### Clearing -/

/-- A chain can be cleared. -/
theorem clear_eq (h : c.Layout path) : c.clear = .ok (empty c.mode) := by
  obtain ⟨s, hs⟩ := h.linked.walkVacate_isOk h.nodup_slots h.length_le
  rw [clear, vacateFrom, h.head_eq, hs]
  rfl

end ChainMachine.Chain.Layout
