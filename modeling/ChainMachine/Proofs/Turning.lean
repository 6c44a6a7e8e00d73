import ChainMachine.Proofs.Handlers
import ChainMachine.Proofs.WellLinked
import Mathlib.Data.List.Rotate

/-!
# Turning a chain

A chain can be turned to the left, which moves its head behind its tail, and to the right.  What
turns one after the other come to is decided by how many more of them are to the left, up to a
multiple of the length: that is how far every value has moved.

* `List.turned`: a list turned by an integer, with `List.getElem?_turned` and `List.turned_turned`;
* `Turn`, `Turn.excess`: turns, and how many more of them are to the left;
* `Turn.handler_eq`: the instructions that turn a chain;
* `Chain.turn`: a chain after turns;
* `Chain.Layout.onChain`, `Chain.Layout.turn`: one turn, and any number of them;
* `Chain.Layout.turn_eq`: turns that move every value as far lead to the very same chain, and
  `Chain.Layout.handler_opposite`: opposite instructions change nothing;
* `Chain.turn_exact`: where every value is after any turns.
-/

namespace List

variable {α β : Type}

/-- The list with every element so many places nearer to the front, where those at the front go
on from the end. -/
def turned (k : Int) (xs : List α) : List α := xs.rotate (k % xs.length).toNat

@[simp] theorem length_turned (k : Int) (xs : List α) : (xs.turned k).length = xs.length :=
  xs.length_rotate _

theorem turned_zero (xs : List α) : xs.turned 0 = xs := by simp [turned]

theorem map_turned (f : α → β) (k : Int) (xs : List α) :
    (xs.turned k).map f = (xs.map f).turned k := by
  rw [turned, turned, map_rotate, length_map]

/-- Only the remainder by the length matters. -/
theorem turned_congr {k l : Int} {xs : List α} (h : k % xs.length = l % xs.length) :
    xs.turned k = xs.turned l := by
  rw [turned, turned, h]

theorem getElem?_turned (k : Int) {xs : List α} {i : Nat} (h : i < xs.length) :
    (xs.turned k)[i]? = xs[((i + k) % xs.length).toNat]? := by
  have hpos : (0 : Int) < xs.length := by omega
  have hk := Int.emod_nonneg k (Int.ne_of_gt hpos)
  have hsum : ((i + (k % xs.length).toNat) % xs.length : Nat) =
      ((i + k) % xs.length).toNat := by
    rw [← Int.toNat_natCast ((i + (k % xs.length).toNat) % xs.length), Int.natCast_emod,
      Int.natCast_add, Int.toNat_of_nonneg hk, Int.add_emod_emod]
  rw [turned, getElem?_rotate h, hsum]

/-- Turns add up. -/
theorem turned_turned (k l : Int) (xs : List α) : (xs.turned k).turned l = xs.turned (k + l) := by
  refine ext_getElem? fun i => ?_
  by_cases h : i < xs.length
  · have hpos : (0 : Int) < xs.length := by omega
    have hlow := Int.emod_nonneg (i + l) (Int.ne_of_gt hpos)
    have hhigh := Int.emod_lt_of_pos (i + l) hpos
    have hin : ((i + l) % xs.length).toNat < xs.length := by omega
    rw [getElem?_turned l (by simpa using h), length_turned, getElem?_turned k hin,
      getElem?_turned _ h, Int.toNat_of_nonneg hlow, Int.emod_add_emod, Int.add_assoc,
      Int.add_comm l k]
  · rw [getElem?_eq_none (by simpa using h), getElem?_eq_none (by simpa using h)]

theorem turned_one_cons (x : α) (xs : List α) : (x :: xs).turned 1 = xs ++ [x] := by
  cases xs with
  | nil => simp [turned]
  | cons y xs =>
    have h : ((1 : Int) % (x :: y :: xs).length).toNat = 1 := by
      rw [length_cons, length_cons, Int.emod_eq_of_lt (by omega) (by omega)]
      rfl
    rw [turned, h, rotate_cons_succ, rotate_zero]

theorem turned_neg_one_concat (xs : List α) (x : α) : (xs ++ [x]).turned (-1) = x :: xs := by
  rw [← turned_one_cons, turned_turned, Int.add_right_neg, turned_zero]

end List

namespace ChainMachine

/-- A turn of a chain. -/
inductive Turn
  /-- The head moves behind the tail. -/
  | left
  /-- The tail moves before the head. -/
  | right
  deriving DecidableEq, Repr

namespace Turn

/-- The turn that takes a turn back. -/
def opposite : Turn → Turn
  | left => right
  | right => left

/-- The instruction that turns the chain. -/
def opcode : Turn → Opcode
  | left => .rotl
  | right => .rotr

/-- The chain after a turn. -/
def onChain (c : Chain) : Turn → Checked Chain
  | left => c.headToTail
  | right => c.tailToHead

/-- By how many places a turn brings every value nearer to the head. -/
def places : Turn → Int
  | left => 1
  | right => -1

/-- How many more of the turns are to the left than to the right. -/
def excess (turns : List Turn) : Int := turns.count left - turns.count right

@[simp] theorem excess_nil : excess [] = 0 := rfl

theorem excess_cons (t : Turn) (turns : List Turn) :
    excess (t :: turns) = t.places + excess turns := by
  cases t with
  | left => simp [excess, places]; omega
  | right => simp [excess, places]; omega

theorem excess_replicate (n : Nat) (t : Turn) : excess (List.replicate n t) = n * t.places := by
  cases t with
  | left => simp [excess, places, List.count_replicate]
  | right => simp [excess, places, List.count_replicate]

theorem excess_opposite (t : Turn) : excess [t, t.opposite] = 0 := by
  cases t <;> rfl

/-- An instruction that turns the chain does nothing else. -/
theorem handler_eq (t : Turn) (ctx : Context) (c : Chain) (sink : Sink) :
    t.opcode.handler ctx c sink = (t.onChain c).map fun d => .proceed d sink := by
  cases t with
  | left =>
    change Builtin.rotl ctx c sink = c.headToTail.map fun d => .proceed d sink
    unfold Builtin.rotl
    cases c.headToTail <;> rfl
  | right =>
    change Builtin.rotr ctx c sink = c.tailToHead.map fun d => .proceed d sink
    unfold Builtin.rotr
    cases c.tailToHead <;> rfl

end Turn

/-- The chain after one turn after the other. -/
def Chain.turn (c : Chain) : List Turn → Checked Chain
  | [] => .ok c
  | t :: turns => do (← t.onChain c).turn turns

namespace Chain.Layout

variable {c : Chain} {path : Path}

theorem onChain (h : c.Layout path) (t : Turn) :
    ∃ d, t.onChain c = .ok d ∧ d.Layout (path.turned t.places) ∧ d.mode = c.mode ∧
      d.storage.free = c.storage.free := by
  cases t with
  | left =>
    cases path with
    | nil => exact ⟨c, h.headToTail_of_lt (by simp), h, rfl, rfl⟩
    | cons node path =>
      rw [show Turn.left.places = 1 from rfl, List.turned_one_cons]
      cases path with
      | nil => exact ⟨c, h.headToTail_of_lt (by simp), h, rfl, rfl⟩
      | cons other path =>
        obtain ⟨d, hd, hl, hm, -, hf⟩ := h.headToTail_cons_cons
        exact ⟨d, hd, hl, hm, hf⟩
  | right =>
    rcases List.eq_nil_or_concat path with rfl | ⟨path, last, rfl⟩
    · exact ⟨c, h.tailToHead_of_lt (by simp), h, rfl, rfl⟩
    · rw [List.concat_eq_append] at h ⊢
      rw [show Turn.right.places = -1 from rfl, List.turned_neg_one_concat]
      cases path with
      | nil => exact ⟨c, h.tailToHead_of_lt (by simp), h, rfl, rfl⟩
      | cons node path =>
        obtain ⟨d, hd, hl, hm, -, hf⟩ := h.tailToHead_append
        exact ⟨d, hd, hl, hm, hf⟩

/-- Turns move every node as far as they come to, in the slot that it is in. -/
theorem turn (h : c.Layout path) (turns : List Turn) :
    ∃ d, c.turn turns = .ok d ∧ d.Layout (path.turned (Turn.excess turns)) ∧ d.mode = c.mode ∧
      d.storage.free = c.storage.free := by
  induction turns generalizing c path with
  | nil => exact ⟨c, rfl, by rwa [Turn.excess_nil, List.turned_zero], rfl, rfl⟩
  | cons t turns ih =>
    obtain ⟨d, hd, hl, hm, hf⟩ := h.onChain t
    obtain ⟨e, he, hl', hm', hf'⟩ := ih hl
    rw [List.turned_turned, ← Turn.excess_cons] at hl'
    refine ⟨e, ?_, hl', hm'.trans hm, hf'.trans hf⟩
    rw [Chain.turn, hd, Checked.ok_bind, he]

/-- Turns that come to the same, up to a multiple of the length, lead to the same chain, with every
node in the same slot. -/
theorem turn_eq (h : c.Layout path) {turns others : List Turn}
    (hexcess : Turn.excess turns % path.length = Turn.excess others % path.length) :
    c.turn turns = c.turn others := by
  obtain ⟨d, hd, hl, hm, hf⟩ := h.turn turns
  obtain ⟨e, he, hl', hm', hf'⟩ := h.turn others
  rw [List.turned_congr hexcess] at hl
  rw [hd, he, hl'.eq_of_free_eq hl (hf.trans hf'.symm) (hm.trans hm'.symm)]

/-- Turns that come to nothing, up to a multiple of the length, change nothing. -/
theorem turn_eq_self (h : c.Layout path) {turns : List Turn}
    (hexcess : (path.length : Int) ∣ Turn.excess turns) : c.turn turns = .ok c := by
  have hnone : Turn.excess turns % path.length = Turn.excess [] % path.length := by
    rw [Int.emod_eq_zero_of_dvd hexcess, Turn.excess_nil, Int.zero_emod]
  rw [h.turn_eq hnone, Chain.turn]

theorem turn_opposite (h : c.Layout path) (t : Turn) : c.turn [t, t.opposite] = .ok c :=
  h.turn_eq_self (by simp [Turn.excess_opposite])

/-- Opposite instructions, one after the other, change nothing. -/
theorem handler_opposite (h : c.Layout path) (t : Turn) (ctx ctx' : Context) (sink : Sink) :
    (t.opcode.handler ctx c sink >>= fun reply =>
      t.opposite.opcode.handler ctx' reply.chain reply.sink) = .ok (.proceed c sink) := by
  have hback := h.turn_opposite t
  obtain ⟨d, hd, -⟩ := h.onChain t
  rw [Chain.turn, hd, Checked.ok_bind, Chain.turn, Checked.bind_eq_ok_iff] at hback
  obtain ⟨e, he, hback⟩ := hback
  obtain rfl : e = c := Except.ok.inj hback
  rw [t.handler_eq, hd, Checked.map_ok, Checked.ok_bind, Turn.handler_eq]
  dsimp only [Reply.proceed]
  rw [he]
  rfl

end Chain.Layout

namespace Chain

/-- After any turns every value is as many places nearer to the head as more turns were to the left
than to the right, where those at the head go on from the tail; the length and the mode are as
before, and the links are in order.  The order of the turns does not matter: those with the same
difference, up to a multiple of the length, lead to the same chain.  Two opposite turns change
nothing, and neither do the opposite instructions, nor as many equal turns as there are values, nor
any turns when there is no value. -/
theorem turn_exact {c : Chain} {values : List Int32} (hreach : c.Reachable)
    (hvalues : c.values = .ok values) :
    (∀ turns, ∃ d turned walk, c.turn turns = .ok d ∧ d.values = .ok turned ∧
      turned.length = values.length ∧
      (∀ i < values.length,
        turned[i]? = values[((i + Turn.excess turns) % values.length).toNat]?) ∧
      d.length = c.length ∧ d.mode = c.mode ∧ d.WellLinked walk) ∧
    (∀ turns others,
      Turn.excess turns % values.length = Turn.excess others % values.length →
        c.turn turns = c.turn others) ∧
    (∀ t : Turn, c.turn [t, t.opposite] = .ok c) ∧
    (∀ (t : Turn) ctx ctx' sink,
      (t.opcode.handler ctx c sink >>= fun reply =>
        t.opposite.opcode.handler ctx' reply.chain reply.sink) = .ok (.proceed c sink)) ∧
    (∀ t : Turn, c.turn (List.replicate values.length t) = .ok c) ∧
    (values = [] → ∀ turns, c.turn turns = .ok c) := by
  obtain ⟨s, hs⟩ := hreach.exists_holds
  obtain rfl := hs.values_unique hvalues
  obtain ⟨path, hl, rfl⟩ := hs
  refine ⟨fun turns => ?_, fun turns others hexcess => hl.turn_eq (by simpa using hexcess),
    hl.turn_opposite, hl.handler_opposite, ?_, ?_⟩
  · obtain ⟨d, hd, hl', hm, -⟩ := hl.turn turns
    have hvalues' := hl'.values_eq
    rw [Path.values, List.map_turned] at hvalues'
    refine ⟨d, _, _, hd, hvalues', by simp, fun i hi => List.getElem?_turned _ hi, ?_, hm,
      hl'.wellLinked⟩
    rw [hl'.length_eq, hl.length_eq, List.length_turned]
  · intro t
    apply hl.turn_eq_self
    rw [Turn.excess_replicate, List.length_map]
    exact Int.dvd_mul_right _ _
  · intro hnil turns
    obtain rfl : path = [] := List.map_eq_nil_iff.1 hnil
    obtain ⟨d, hd, hl', hm, hf⟩ := hl.turn turns
    rw [hd, hl.eq_of_free_eq hl' hf hm]

/-- A chain that uses a slot again, turned four times to the right and twice to the left: it might
as well have been turned once to the left. -/
theorem turn_exact_of_reused :
    ∃ c d : Chain, c.Reachable ∧ c.values = .ok [4, 3, 2] ∧
      c.turn [.right, .left, .right, .right, .left, .right] = .ok d ∧ d.values = .ok [3, 2, 4] ∧
      c.turn [.left] = .ok d ∧ d.turn [.right] = .ok c := by
  let c : Chain :=
    { storage := { slots := #[some ⟨4, none, some 2⟩, some ⟨2, some 2, none⟩,
                      some ⟨3, some 0, some 1⟩] }
      head := some 0, length := 3, mode := .queue }
  have hreach : c.Reachable :=
    ⟨.queue, Schedule.unbounded [.push 1, .push 2, .push 3, .pop, .push 4],
      [.done, .done, .done, .value (some 1), .done], by decide⟩
  have hvalues : c.values = .ok [4, 3, 2] := by decide
  obtain ⟨hall, hsame, hundo, -⟩ := turn_exact hreach hvalues
  obtain ⟨d, turned, -, hd, hvalues', hlength, hat, -⟩ :=
    hall [.right, .left, .right, .right, .left, .right]
  obtain ⟨x, y, z, rfl⟩ := List.length_eq_three.1 hlength
  obtain rfl : x = 3 := Option.some.inj (hat 0 (by decide))
  obtain rfl : y = 2 := Option.some.inj (hat 1 (by decide))
  obtain rfl : z = 4 := Option.some.inj (hat 2 (by decide))
  have hleft : c.turn [.left] = .ok d := (hsame [.left] _ (by decide)).trans hd
  have hback : (c.turn [.left] >>= fun e => e.turn [.right]) = .ok c := hundo .left
  rw [hleft, Checked.ok_bind] at hback
  exact ⟨c, d, hreach, hvalues, hd, hvalues', hleft, hback⟩

end Chain

end ChainMachine
