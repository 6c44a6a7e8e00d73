import ChainMachine.Proofs.Turning
import Mathlib.Data.List.Induction
import Mathlib.Order.Bounds.Basic

/-!
# How far the storage of a chain grows

A slot that was vacated is used again before a new one is added.  So there are as many slots as the
chain had nodes at most, since it was created or last cleared, and a push takes a new slot only when
the chain has that many nodes already.

* `Operation.BeginsAnew`: operations that leave a chain without slots;
* `Schedule.recentLengths`: the lengths that a chain has had since the last of these, with
  `Schedule.mem_recentLengths_concat` for one more operation;
* `Chain.Layout.push_of_lt`, `Chain.Layout.push_of_eq`: a push into a chain that is shorter than its
  storage, and into one that is not;
* `Chain.Layout.exists_onChain`, `Chain.perform_isGreatest`: the number of slots after one
  operation, and after any number of them;
* `Chain.perform_growth`: which pushes take a new slot, after any schedule.
-/

namespace ChainMachine

/-- Operations that leave a chain without slots. -/
def Operation.BeginsAnew : Operation → Prop
  | renew _ | clear => True
  | _ => False

/-- The lengths that a chain, empty and of this mode at first, has had in the course of a schedule
since it was created or last cleared: those that it had after some of the operations, when none of
the later ones made it begin anew. -/
def Schedule.recentLengths (mode : Mode) (schedule : Schedule) : Set Nat :=
  { n | ∃ before after answers c, schedule = before ++ after ∧
      (∀ step ∈ after, ¬step.1.BeginsAnew) ∧
      (Chain.empty mode).perform before = .ok (answers, c) ∧ c.length = n }

namespace Chain

/-! ### One operation -/

namespace Layout

variable {c : Chain} {path : Path}

/-- A chain that is shorter than its storage puts one more value into a vacant slot, whatever the
bound on the slots. -/
theorem push_of_lt (h : c.Layout path) (hlt : c.length < c.storage.size) (value : Int32)
    (limit : Option Nat) :
    ∃ slot ∈ c.storage.free, ∃ d, c.push value limit = .ok (some d) ∧
      d.Layout ((slot, value) :: path) ∧ d.storage.size = c.storage.size := by
  have hne : c.storage.free ≠ [] := fun hnil => Nat.ne_of_lt hlt (h.free_eq_nil_iff.1 hnil)
  obtain ⟨slot, free, hfree⟩ := List.exists_cons_of_ne_nil hne
  obtain ⟨d, hd, hl, -, hsize⟩ := h.push_of_free hfree value limit
  exact ⟨slot, by simp [hfree], d, hd, hl, hsize⟩

/-- A chain that fills its storage puts one more value into a new slot, if the bound admits it. -/
theorem push_of_eq (h : c.Layout path) (heq : c.length = c.storage.size) (value : Int32)
    (limit : Option Nat) :
    (c.storage.mayGrow limit = false ∧ c.push value limit = .ok none) ∨
      (c.storage.mayGrow limit = true ∧ ∃ d, c.push value limit = .ok (some d) ∧
        d.Layout ((c.storage.size, value) :: path) ∧ d.storage.size = c.storage.size + 1) := by
  have hfree := h.free_eq_nil_iff.2 heq
  cases hgrow : c.storage.mayGrow limit with
  | false => exact .inl ⟨rfl, push_refused hfree hgrow value⟩
  | true =>
    obtain ⟨d, hd, hl, -, hsize⟩ := h.push_of_grow hfree hgrow value
    exact .inr ⟨rfl, d, hd, hl, hsize⟩

/-- A push leaves at least as many slots as there are nodes then, and adds none beyond that. -/
theorem exists_push (h : c.Layout path) (value : Int32) (limit : Option Nat) :
    c.push value limit = .ok none ∨ ∃ d rest, c.push value limit = .ok (some d) ∧ d.Layout rest ∧
      d.storage.size = max d.length c.storage.size := by
  rcases Nat.lt_or_eq_of_le h.length_le_size with hlt | heq
  · obtain ⟨slot, -, d, hd, hl, hsize⟩ := h.push_of_lt hlt value limit
    refine .inr ⟨d, _, hd, hl, ?_⟩
    rw [hsize, max_eq_right (hsize ▸ hl.length_le_size)]
  · rcases h.push_of_eq heq value limit with ⟨-, hd⟩ | ⟨-, d, hd, hl, hsize⟩
    · exact .inl hd
    · have hlen : d.length = c.storage.size + 1 := by
        rw [hl.length_eq, List.length_cons, ← h.length_eq, heq]
      exact .inr ⟨d, _, hd, hl, by rw [hsize, hlen, max_eq_left (Nat.le_succ _)]⟩

/-- A pop leaves its slot vacant, so that their number stays the same. -/
theorem exists_popHead (h : c.Layout path) :
    ∃ value d rest, c.popHead = .ok (value, d) ∧ d.Layout rest ∧
      d.storage.size = c.storage.size := by
  cases path with
  | nil => exact ⟨none, c, [], h.popHead_nil, h, rfl⟩
  | cons node path =>
    obtain ⟨d, hd, hl, -, hsize, -⟩ := h.popHead_cons
    exact ⟨_, d, path, hd, hl, hsize⟩

theorem exists_popTail (h : c.Layout path) :
    ∃ value d rest, c.popTail = .ok (value, d) ∧ d.Layout rest ∧
      d.storage.size = c.storage.size := by
  rcases List.eq_nil_or_concat path with rfl | ⟨path, node, rfl⟩
  · exact ⟨none, c, [], h.popTail_nil, h, rfl⟩
  · rw [List.concat_eq_append] at h
    obtain ⟨d, hd, hl, -, hsize, -⟩ := h.popTail_append
    exact ⟨_, d, path, hd, hl, hsize⟩

theorem exists_pop (h : c.Layout path) :
    ∃ value d rest, c.pop = .ok (value, d) ∧ d.Layout rest ∧ d.storage.size = c.storage.size := by
  unfold pop
  cases c.mode with
  | stack => exact h.exists_popHead
  | queue => exact h.exists_popTail

theorem exists_swap (h : c.Layout path) :
    ∃ done d rest, c.swap = .ok (done, d) ∧ d.Layout rest ∧ d.storage.size = c.storage.size := by
  rcases path with _ | ⟨node, _ | ⟨other, path⟩⟩
  · exact ⟨false, c, _, h.swap_of_lt (by simp), h, rfl⟩
  · exact ⟨false, c, _, h.swap_of_lt (by simp), h, rfl⟩
  · obtain ⟨d, hd, hl, -, hsize⟩ := h.swap_cons_cons
    exact ⟨true, d, _, hd, hl, hsize⟩

theorem exists_setHead (h : c.Layout path) (value : Int32) :
    ∃ done d rest, c.setHead value = .ok (done, d) ∧ d.Layout rest ∧
      d.storage.size = c.storage.size := by
  cases path with
  | nil => exact ⟨false, c, [], h.setHead_nil value, h, rfl⟩
  | cons node path =>
    obtain ⟨d, hd, hl, -, hsize⟩ := h.setHead_cons value
    exact ⟨true, d, _, hd, hl, hsize⟩

theorem exists_turn (h : c.Layout path) (t : Turn) :
    ∃ d rest, t.onChain c = .ok d ∧ d.Layout rest ∧ d.storage.size = c.storage.size := by
  obtain ⟨d, hd, hl, -, hfree⟩ := h.onChain t
  refine ⟨d, _, hd, hl, ?_⟩
  rw [← hl.length_add_length, ← h.length_add_length, hfree, List.length_turned]

/-- An operation that neither pushes nor begins anew keeps the number of slots. -/
theorem exists_onChain_of_ne_push (h : c.Layout path) {op : Operation}
    (hpush : ∀ value, op ≠ .push value) (hop : ¬op.BeginsAnew) (limit : Option Nat) :
    ∃ answer d rest, op.onChain limit c = .ok (answer, d) ∧ d.Layout rest ∧
      d.storage.size = c.storage.size := by
  have hs : c.Holds { values := path.values, mode := c.mode } := ⟨path, h, rfl⟩
  cases op with
  | renew mode => exact absurd trivial hop
  | clear => exact absurd trivial hop
  | push value => exact absurd rfl (hpush value)
  | popHead =>
    obtain ⟨value, d, rest, hd, hl, hsize⟩ := h.exists_popHead
    exact ⟨.value value, d, rest, by simp [Operation.onChain, hd], hl, hsize⟩
  | popTail =>
    obtain ⟨value, d, rest, hd, hl, hsize⟩ := h.exists_popTail
    exact ⟨.value value, d, rest, by simp [Operation.onChain, hd], hl, hsize⟩
  | pop =>
    obtain ⟨value, d, rest, hd, hl, hsize⟩ := h.exists_pop
    exact ⟨.value value, d, rest, by simp [Operation.onChain, hd], hl, hsize⟩
  | swap =>
    obtain ⟨done, d, rest, hd, hl, hsize⟩ := h.exists_swap
    exact ⟨.flag done, d, rest, by simp [Operation.onChain, hd], hl, hsize⟩
  | setHead value =>
    obtain ⟨done, d, rest, hd, hl, hsize⟩ := h.exists_setHead value
    exact ⟨.flag done, d, rest, by simp [Operation.onChain, hd], hl, hsize⟩
  | headToTail =>
    obtain ⟨d, rest, hd, hl, hsize⟩ := h.exists_turn .left
    have hd : c.headToTail = .ok d := hd
    exact ⟨.done, d, rest, by simp [Operation.onChain, hd], hl, hsize⟩
  | tailToHead =>
    obtain ⟨d, rest, hd, hl, hsize⟩ := h.exists_turn .right
    have hd : c.tailToHead = .ok d := hd
    exact ⟨.done, d, rest, by simp [Operation.onChain, hd], hl, hsize⟩
  | setMode mode => exact ⟨.done, _, path, rfl, h.setMode mode, rfl⟩
  | firstTwo => exact ⟨.pair _, c, path, by rw [Operation.onChain, hs.firstTwo_eq]; rfl, h, rfl⟩
  | first => exact ⟨.value _, c, path, by rw [Operation.onChain, hs.first_eq]; rfl, h, rfl⟩
  | values => exact ⟨.all _, c, path, by rw [Operation.onChain, hs.values_eq]; rfl, h, rfl⟩
  | length | isEmpty | mode => exact ⟨_, c, path, rfl, h, rfl⟩

/-- After an operation that does not begin anew there are as many slots as before, or as many as
nodes if these are more. -/
theorem exists_onChain (h : c.Layout path) {op : Operation} (hop : ¬op.BeginsAnew)
    (limit : Option Nat) :
    ∃ answer d rest, op.onChain limit c = .ok (answer, d) ∧ d.Layout rest ∧
      d.storage.size = max d.length c.storage.size := by
  by_cases hpush : ∃ value, op = .push value
  · obtain ⟨value, rfl⟩ := hpush
    rcases h.exists_push value limit with hd | ⟨d, rest, hd, hl, hsize⟩
    · exact ⟨.refused, c, path, by simp [Operation.onChain, hd], h,
        (max_eq_right h.length_le_size).symm⟩
    · exact ⟨.done, d, rest, by simp [Operation.onChain, hd], hl, hsize⟩
  · obtain ⟨answer, d, rest, hd, hl, hsize⟩ :=
      h.exists_onChain_of_ne_push (fun value heq => hpush ⟨value, heq⟩) hop limit
    exact ⟨answer, d, rest, hd, hl, by rw [max_eq_right (hsize ▸ hl.length_le_size), hsize]⟩

/-- An operation that begins anew leaves an empty chain. -/
theorem onChain_of_beginsAnew (h : c.Layout path) {op : Operation} (hop : op.BeginsAnew)
    (limit : Option Nat) : ∃ mode, op.onChain limit c = .ok (.done, .empty mode) := by
  cases op with
  | renew mode => exact ⟨mode, rfl⟩
  | clear => exact ⟨c.mode, by simp [Operation.onChain, h.clear_eq]⟩
  | _ => exact hop.elim

end Layout

/-! ### Any number of operations -/

/-- One more operation. -/
theorem perform_concat {c d e : Chain} {schedule : Schedule} {answers : List Answer}
    {op : Operation} {limit : Option Nat} {answer : Answer}
    (hd : c.perform schedule = .ok (answers, d)) (he : op.onChain limit d = .ok (answer, e)) :
    c.perform (schedule ++ [(op, limit)]) = .ok (answers ++ [answer], e) := by
  induction schedule generalizing c answers with
  | nil =>
    cases hd
    simp [perform, he]
  | cons step schedule ih =>
    obtain ⟨⟨first, c'⟩, hfirst, hd⟩ := Checked.bind_eq_ok_iff.1 hd
    obtain ⟨⟨rest, d'⟩, hrest, hd⟩ := Checked.bind_eq_ok_iff.1 hd
    cases hd
    simp [perform, hfirst, ih hrest]

end Chain

namespace Schedule

variable {mode : Mode} {schedule : Schedule} {op : Operation} {limit : Option Nat}
  {answers : List Answer} {c : Chain}

theorem recentLengths_nil (mode : Mode) : recentLengths mode [] = {0} := by
  ext n
  constructor
  · rintro ⟨before, after, answers, c, hnil, -, hc, rfl⟩
    obtain ⟨rfl, rfl⟩ := List.append_eq_nil_iff.1 hnil.symm
    cases hc
    rfl
  · rintro rfl
    exact ⟨[], [], [], .empty mode, rfl, by simp, rfl, rfl⟩

/-- The length after the last operation counts; those before it count unless this operation made
the chain begin anew. -/
theorem mem_recentLengths_concat
    (hc : (Chain.empty mode).perform (schedule ++ [(op, limit)]) = .ok (answers, c)) (n : Nat) :
    n ∈ recentLengths mode (schedule ++ [(op, limit)]) ↔
      n = c.length ∨ (¬op.BeginsAnew ∧ n ∈ recentLengths mode schedule) := by
  constructor
  · rintro ⟨before, after, answers', d, heq, hafter, hd, rfl⟩
    rcases List.eq_nil_or_concat after with rfl | ⟨after, step, rfl⟩
    · rw [List.append_nil] at heq
      rw [heq, hd] at hc
      cases hc
      exact .inl rfl
    · rw [List.concat_eq_append] at heq hafter
      rw [← List.append_assoc] at heq
      obtain ⟨rfl, hstep⟩ := List.append_inj' heq rfl
      cases hstep
      rw [List.forall_mem_append, List.forall_mem_singleton] at hafter
      exact .inr ⟨hafter.2, before, after, answers', d, rfl, hafter.1, hd, rfl⟩
  · rintro (rfl | ⟨hop, before, after, answers', d, rfl, hafter, hd, rfl⟩)
    · exact ⟨_, [], answers, c, (List.append_nil _).symm, by simp, hc, rfl⟩
    · refine ⟨before, after ++ [(op, limit)], answers', d, List.append_assoc .., ?_, hd, rfl⟩
      rw [List.forall_mem_append, List.forall_mem_singleton]
      exact ⟨hafter, hop⟩

end Schedule

namespace Chain

/-- After any schedule there are as many slots as the chain had nodes at most, since it was created
or last cleared. -/
theorem perform_isGreatest (mode : Mode) (schedule : Schedule) :
    ∃ answers c path, (empty mode).perform schedule = .ok (answers, c) ∧ c.Layout path ∧
      IsGreatest (schedule.recentLengths mode) c.storage.size := by
  -- from the last operation backwards, as it decides whether the lengths before it count
  induction schedule using List.reverseRecOn with
  | nil =>
    refine ⟨[], empty mode, [], rfl, layout_empty mode, ?_⟩
    rw [Schedule.recentLengths_nil]
    exact isGreatest_singleton
  | append_singleton schedule step ih =>
    obtain ⟨op, limit⟩ := step
    obtain ⟨answers, c, path, hc, hl, hgreatest⟩ := ih
    by_cases hop : op.BeginsAnew
    · obtain ⟨start, hstep⟩ := hl.onChain_of_beginsAnew hop limit
      have hd := perform_concat hc hstep
      have hlengths : Schedule.recentLengths mode (schedule ++ [(op, limit)]) = {0} :=
        Set.ext fun n => (Schedule.mem_recentLengths_concat hd n).trans (by simp [hop, empty])
      refine ⟨_, empty start, [], hd, layout_empty start, ?_⟩
      rw [hlengths]
      exact isGreatest_singleton
    · obtain ⟨answer, d, rest, hstep, hl', hsize⟩ := hl.exists_onChain hop limit
      have hd := perform_concat hc hstep
      have hlengths : Schedule.recentLengths mode (schedule ++ [(op, limit)]) =
          insert d.length (Schedule.recentLengths mode schedule) :=
        Set.ext fun n => (Schedule.mem_recentLengths_concat hd n).trans (by simp [hop])
      refine ⟨_, d, rest, hd, hl', ?_⟩
      rw [hlengths, hsize]
      exact hgreatest.insert d.length

/-- After any schedule a chain has as many slots as it had nodes at most, since it was created or
last cleared.  While it is shorter than that, a push takes a slot that was vacant, adds none, and is
never refused; otherwise a push takes a new slot, and is refused when the bound rules that out. -/
theorem perform_growth (mode : Mode) (schedule : Schedule) :
    ∃ answers c, (empty mode).perform schedule = .ok (answers, c) ∧
      IsGreatest (schedule.recentLengths mode) c.storage.size ∧
      (∀ n ∈ schedule.recentLengths mode, c.length < n → ∀ value limit,
        ∃ slot d, slot ∈ c.storage.free ∧ c.storage.slots[slot]? = some none ∧
          c.push value limit = .ok (some d) ∧ d.head = some slot ∧ slot ∉ d.storage.free ∧
          d.storage.size = c.storage.size) ∧
      ((∀ n ∈ schedule.recentLengths mode, n ≤ c.length) → ∀ value limit,
        (c.storage.mayGrow limit = false ∧ c.push value limit = .ok none) ∨
          (c.storage.mayGrow limit = true ∧ ∃ d, c.push value limit = .ok (some d) ∧
            d.head = some c.storage.size ∧ d.storage.size = c.storage.size + 1)) := by
  obtain ⟨answers, c, path, hc, hl, hgreatest⟩ := perform_isGreatest mode schedule
  refine ⟨answers, c, hc, hgreatest, fun n hn hlt value limit => ?_, fun hall value limit => ?_⟩
  · have hshort : c.length < c.storage.size := Nat.lt_of_lt_of_le hlt (hgreatest.2 hn)
    obtain ⟨slot, hfree, d, hd, hl', hsize⟩ := hl.push_of_lt hshort value limit
    exact ⟨slot, d, hfree, hl.vacant slot hfree, hd, hl'.head_eq_some, hl'.notMem_free (by simp),
      hsize⟩
  · have hfull : c.length = c.storage.size := Nat.le_antisymm hl.length_le_size (hall _ hgreatest.1)
    rcases hl.push_of_eq hfull value limit with hrefused | ⟨hgrow, d, hd, hl', hsize⟩
    · exact .inl hrefused
    · exact .inr ⟨hgrow, d, hd, hl'.head_eq_some, hsize⟩

/-- A chain that was longer before it was cleared, and then refused a third value.  It has lost its
tail since, so that a push needs no new slot and no bound keeps it from succeeding. -/
theorem perform_growth_of_cleared :
    ∃ (schedule : Schedule) (answers : List Answer) (c d : Chain) (slot : Nat),
      schedule = [(.push 1, none), (.push 2, none), (.push 3, none), (.clear, none),
        (.push 4, some 2), (.push 5, some 2), (.push 6, some 2), (.tailToHead, none),
        (.popTail, none)] ∧
      (empty .stack).perform schedule = .ok (answers, c) ∧ answers[6]? = some .refused ∧
      c.values = .ok [4] ∧ 2 ∈ schedule.recentLengths .stack ∧ 3 ∉ schedule.recentLengths .stack ∧
      c.push 7 (some 0) = .ok (some d) ∧ d.head = some slot ∧ slot ∈ c.storage.free ∧
      d.storage.size = 2 := by
  let schedule : Schedule := [(.push 1, none), (.push 2, none), (.push 3, none), (.clear, none),
    (.push 4, some 2), (.push 5, some 2), (.push 6, some 2), (.tailToHead, none), (.popTail, none)]
  obtain ⟨answers, c, hc, hgreatest, hvacant, -⟩ := perform_growth .stack schedule
  have heval : ((empty .stack).perform schedule).map
      (fun p => (p.1[6]?, p.2.values, p.2.length, p.2.storage.size)) =
        .ok (some .refused, .ok [4], 1, 2) := by decide
  rw [hc] at heval
  simp only [Checked.map_ok, Except.ok.injEq, Prod.mk.injEq] at heval
  obtain ⟨hrefused, hvalues, hlength, hsize⟩ := heval
  rw [hsize] at hgreatest
  obtain ⟨slot, d, hfree, -, hd, hhead, -, hsize'⟩ :=
    hvacant 2 hgreatest.1 (by omega) 7 (some 0)
  have hthree : 3 ∉ schedule.recentLengths .stack := fun h => absurd (hgreatest.2 h) (by omega)
  exact ⟨schedule, answers, c, d, slot, rfl, hc, hrefused, hvalues, hgreatest.1, hthree, hd, hhead,
    hfree, hsize'.trans hsize⟩

end Chain

end ChainMachine
