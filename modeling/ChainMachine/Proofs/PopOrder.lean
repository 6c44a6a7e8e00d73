import ChainMachine.Proofs.Operations
import Mathlib.Data.List.Induction

/-!
# The order in which values leave

A chain that is only pushed to and popped from lists what was pushed and has not left, the newest
first.  A pop takes the newest or the oldest of these, as the mode of the moment says.

* `Operation.IsMove`: pushes, pops and choices of a mode;
* `Ledger`: what was pushed and what has left, where every push has a number;
* `Ledger.present`, `Ledger.IsNext`: the pushes that have not left, and the one to leave next;
* `Ledger.Step`, `Ledger.Follows`: how a ledger goes on with one answer of a chain, and with
  several;
* `Ledger.Balanced`: every push has left once or is still there;
* `Chain.Tracks`: a chain that is as its ledger says, with `Chain.Tracks.onChain` for one operation
  and `Chain.Tracks.perform` for a schedule;
* `Chain.perform_moves`: the order in which values leave an empty chain, over any schedule.
-/

namespace ChainMachine

/-- Pushes, pops and choices of a mode. -/
def Operation.IsMove : Operation → Prop
  | push _ | pop | setMode _ => True
  | _ => False

/-- The values pushed so far, the oldest first, and the pushes that have left, in the order in which
they did.  A push has its place among all of them, from 0 on, for a number. -/
structure Ledger where
  pushed : List Int32 := []
  left : List (Int32 × Nat) := []
  mode : Mode

namespace Ledger

/-- The pushes that have not left, the oldest first. -/
def present (l : Ledger) : List (Int32 × Nat) := l.pushed.zipIdx.filter (· ∉ l.left)

/-- The push is the newest of those that have not left, if the mode is that of a stack, and
otherwise the oldest. -/
def IsNext (l : Ledger) (entry : Int32 × Nat) : Prop :=
  entry ∈ l.present ∧ ∀ other ∈ l.present,
    match l.mode with
    | .stack => other.2 ≤ entry.2
    | .queue => entry.2 ≤ other.2

/-- How a ledger goes on when a chain gives this answer to an operation. -/
inductive Step (l : Ledger) : Operation → Answer → Ledger → Prop
  | pushed (value : Int32) : Step l (.push value) .done { l with pushed := l.pushed ++ [value] }
  | refused (value : Int32) : Step l (.push value) .refused l
  | popped {entry : Int32 × Nat} (next : l.IsNext entry) :
    Step l .pop (.value (some entry.1)) { l with left := l.left ++ [entry] }
  | nothing (gone : l.present = []) : Step l .pop (.value none) l
  | chosen (mode : Mode) : Step l (.setMode mode) .done { l with mode }

/-- How a ledger goes on with several answers. -/
inductive Follows : Ledger → List Operation → List Answer → Ledger → Prop
  | nil {l : Ledger} : Follows l [] [] l
  | cons {l m n : Ledger} {op : Operation} {ops : List Operation} {answer : Answer}
    {answers : List Answer} (step : l.Step op answer m) (rest : Follows m ops answers n) :
    Follows l (op :: ops) (answer :: answers) n

/-- Every push has left once or is still there, and nothing else has left or is there. -/
def Balanced (l : Ledger) : Prop := (l.left ++ l.present).Perm l.pushed.zipIdx

/-- What a chain with this ledger holds: the newest value first. -/
def contents (l : Ledger) : Contents :=
  { values := (l.present.map Prod.fst).reverse, mode := l.mode }

/-- The numbers grow from the oldest to the newest. -/
theorem pairwise_present (l : Ledger) : l.present.Pairwise fun a b => a.2 < b.2 := by
  have hnumbers : (l.pushed.zipIdx.map Prod.snd).Pairwise (· < ·) := by
    rw [List.zipIdx_map_snd]
    exact List.pairwise_lt_range'
  exact (List.pairwise_map.1 hnumbers).filter _

/-- When one more has left, the others stay. -/
theorem present_leave (l : Ledger) (entry : Int32 × Nat) :
    { l with left := l.left ++ [entry] }.present = l.present.filter (· ≠ entry) := by
  rw [present, present, List.filter_filter]
  congr 1
  funext other
  simp [and_comm]

theorem filter_ne_of_pairwise {entries : List (Int32 × Nat)} {entry : Int32 × Nat}
    (h : ∀ other ∈ entries, other.2 ≠ entry.2) : entries.filter (· ≠ entry) = entries := by
  rw [List.filter_eq_self]
  intro other hmem
  rw [decide_eq_true_iff]
  rintro rfl
  exact h other hmem rfl

variable {l : Ledger} {entries : List (Int32 × Nat)} {entry : Int32 × Nat}

/-- The newest of the pushes that have not left. -/
theorem of_present_eq_concat (h : l.present = entries ++ [entry]) :
    (∀ other ∈ l.present, other.2 ≤ entry.2) ∧
      { l with left := l.left ++ [entry] }.present = entries := by
  have hnumbers := l.pairwise_present
  rw [h, List.pairwise_append] at hnumbers
  have hlt : ∀ other ∈ entries, other.2 < entry.2 := by
    intro other hmem
    exact hnumbers.2.2 other hmem entry (by simp)
  refine ⟨fun other hmem => ?_, ?_⟩
  · rw [h, List.mem_append, List.mem_singleton] at hmem
    rcases hmem with hmem | rfl
    · exact Nat.le_of_lt (hlt other hmem)
    · exact Nat.le_refl _
  · rw [present_leave, h, List.filter_append,
      filter_ne_of_pairwise fun other hmem => Nat.ne_of_lt (hlt other hmem)]
    simp

/-- The oldest of the pushes that have not left. -/
theorem of_present_eq_cons (h : l.present = entry :: entries) :
    (∀ other ∈ l.present, entry.2 ≤ other.2) ∧
      { l with left := l.left ++ [entry] }.present = entries := by
  have hnumbers := l.pairwise_present
  rw [h, List.pairwise_cons] at hnumbers
  refine ⟨fun other hmem => ?_, ?_⟩
  · rw [h, List.mem_cons] at hmem
    rcases hmem with rfl | hmem
    · exact Nat.le_refl _
    · exact Nat.le_of_lt (hnumbers.1 other hmem)
  · rw [present_leave, h, List.filter_cons_of_neg (by simp),
      filter_ne_of_pairwise fun other hmem => Nat.ne_of_gt (hnumbers.1 other hmem)]

/-- The push that is to leave next is what a pop takes from the contents. -/
theorem exists_isNext (l : Ledger) (h : l.present ≠ []) :
    ∃ entry, l.IsNext entry ∧
      l.present.Perm (entry :: { l with left := l.left ++ [entry] }.present) ∧
      l.contents.pop = (some entry.1, { l with left := l.left ++ [entry] }.contents) := by
  obtain ⟨pushed, left, mode⟩ := l
  cases mode with
  | stack =>
    rcases List.eq_nil_or_concat (present ⟨pushed, left, .stack⟩) with hnil | ⟨entries, entry, hp⟩
    · exact absurd hnil h
    · rw [List.concat_eq_append] at hp
      obtain ⟨hnewest, hrest⟩ := of_present_eq_concat hp
      refine ⟨entry, ⟨by simp [hp], hnewest⟩, ?_, ?_⟩
      · rw [hrest, hp]
        exact List.perm_append_singleton _ _
      · simp [contents, Contents.pop, hp, hrest]
  | queue =>
    obtain ⟨entry, entries, hp⟩ := List.exists_cons_of_ne_nil h
    obtain ⟨holdest, hrest⟩ := of_present_eq_cons hp
    refine ⟨entry, ⟨by simp [hp], holdest⟩, ?_, ?_⟩
    · rw [hrest, hp]
    · simp [contents, Contents.pop, hp, hrest]

namespace Balanced

theorem empty (mode : Mode) : Balanced { mode } := .refl _

/-- A new push is not among those that have left. -/
theorem present_push (h : l.Balanced) (value : Int32) :
    { l with pushed := l.pushed ++ [value] }.present = l.present ++ [(value, l.pushed.length)] := by
  have hnew : (value, l.pushed.length) ∉ l.left := by
    intro hmem
    have hlt := List.mem_zipIdx' (h.subset (List.mem_append_left _ hmem))
    exact Nat.lt_irrefl _ hlt.1
  rw [present, List.zipIdx_append, List.filter_append, Nat.zero_add, List.zipIdx_singleton,
    List.filter_cons_of_pos (by simpa using hnew)]
  rfl

theorem push (h : l.Balanced) (value : Int32) :
    Balanced { l with pushed := l.pushed ++ [value] } := by
  rw [Balanced, h.present_push, List.zipIdx_append, Nat.zero_add, List.zipIdx_singleton,
    ← List.append_assoc]
  exact h.append_right _

/-- How the ledger goes on with what a pop takes from the contents. -/
theorem exists_step_pop (h : l.Balanced) :
    ∃ m, l.Step .pop (.value l.contents.pop.1) m ∧ m.contents = l.contents.pop.2 ∧ m.Balanced := by
  by_cases hnil : l.present = []
  · have hpop : l.contents.pop = (none, l.contents) := by
      cases hmode : l.mode <;> simp [contents, Contents.pop, hnil, hmode]
    rw [hpop]
    exact ⟨l, .nothing hnil, rfl, h⟩
  · obtain ⟨entry, hnext, hperm, hpop⟩ := l.exists_isNext hnil
    rw [hpop]
    refine ⟨_, .popped hnext, rfl, ?_⟩
    rw [Balanced, List.append_assoc, List.singleton_append]
    exact (hperm.symm.append_left l.left).trans h

end Balanced

end Ledger

namespace Chain

open Ledger

/-- The chain holds what its ledger says, and the ledger is balanced. -/
structure Tracks (c : Chain) (l : Ledger) : Prop where
  holds : c.Holds l.contents
  balanced : l.Balanced

namespace Tracks

variable {c : Chain} {l : Ledger}

/-- An empty chain, and a ledger without entries. -/
theorem of_reachable (h : c.Reachable) (hvalues : c.values = .ok []) :
    c.Tracks { mode := c.mode } := by
  obtain ⟨⟨values, mode⟩, hs⟩ := h.exists_holds
  obtain rfl : values = [] := Except.ok.inj (hs.values_eq.symm.trans hvalues)
  obtain rfl : c.mode = mode := hs.mode_eq
  exact ⟨hs, .empty _⟩

theorem values_eq (h : c.Tracks l) : c.values = .ok (l.present.map Prod.fst).reverse :=
  h.holds.values_eq

/-- A move on a chain, and the step of its ledger that goes with the answer. -/
theorem onChain (h : c.Tracks l) {op : Operation} (hop : op.IsMove) (limit : Option Nat) :
    ∃ answer d m, op.onChain limit c = .ok (answer, d) ∧ l.Step op answer m ∧ d.Tracks m ∧
      (answer = .refused → limit ≠ none) := by
  rcases h.holds.onChain op limit with ⟨d, hd, hholds⟩ | ⟨hd, hlimit, value, rfl⟩
  · cases op with
    | push value =>
      refine ⟨_, d, _, hd, .pushed value, ⟨?_, h.balanced.push value⟩, fun h => by cases h⟩
      rw [contents, h.balanced.present_push]
      simpa [contents, Operation.onContents] using hholds
    | pop =>
      obtain ⟨m, hstep, hcontents, hbalanced⟩ := h.balanced.exists_step_pop
      exact ⟨_, d, m, hd, hstep, ⟨hcontents ▸ hholds, hbalanced⟩, fun h => by cases h⟩
    | setMode mode =>
      exact ⟨_, d, _, hd, .chosen mode, ⟨hholds, h.balanced⟩, fun h => by cases h⟩
    | _ => exact hop.elim
  · exact ⟨_, c, l, hd, .refused value, h, fun _ => hlimit⟩

/-- Moves on a chain, and the steps of its ledger that go with the answers. -/
theorem perform (h : c.Tracks l) {schedule : Schedule} (hmoves : ∀ step ∈ schedule, step.1.IsMove) :
    ∃ answers d m, c.perform schedule = .ok (answers, d) ∧ answers.length = schedule.length ∧
      Follows l (schedule.map Prod.fst) answers m ∧ d.Tracks m ∧
      ∀ step ∈ schedule.zip answers, step.2 = .refused → step.1.2 ≠ none := by
  induction schedule generalizing c l with
  | nil => exact ⟨[], c, l, rfl, rfl, .nil, h, by simp⟩
  | cons step schedule ih =>
    obtain ⟨op, limit⟩ := step
    rw [List.forall_mem_cons] at hmoves
    obtain ⟨answer, d, m, hd, hstep, htracks, hrefused⟩ := h.onChain hmoves.1 limit
    obtain ⟨answers, e, n, he, hlength, hfollows, htracks', hrest⟩ := ih htracks hmoves.2
    refine ⟨answer :: answers, e, n, ?_, by simp [hlength], .cons hstep hfollows, htracks', ?_⟩
    · simp [Chain.perform, hd, he]
    · rw [List.zip_cons_cons, List.forall_mem_cons]
      exact ⟨hrefused, hrest⟩

end Tracks

/-- The first operations have the first answers. -/
theorem perform_take {c d : Chain} {schedule : Schedule} {answers : List Answer}
    (h : c.perform schedule = .ok (answers, d)) (k : Nat) :
    ∃ e, c.perform (schedule.take k) = .ok (answers.take k, e) := by
  induction schedule generalizing c answers k with
  | nil =>
    cases h
    rw [List.take_nil, List.take_nil]
    exact ⟨_, rfl⟩
  | cons step schedule ih =>
    obtain ⟨op, limit⟩ := step
    obtain ⟨⟨answer, c'⟩, hop, h⟩ := Checked.bind_eq_ok_iff.1 h
    obtain ⟨⟨rest, d'⟩, hrest, h⟩ := Checked.bind_eq_ok_iff.1 h
    cases h
    cases k with
    | zero => exact ⟨c, rfl⟩
    | succ k =>
      obtain ⟨e, he⟩ := ih hrest k
      exact ⟨e, by simp [perform, hop, he]⟩

end Chain

/-! ### Pushes and then pops -/

namespace Contents

/-- The values in the order in which pops take them. -/
def leaving (s : Contents) : List Int32 :=
  match s.mode with
  | .stack => s.values
  | .queue => s.values.reverse

theorem perform_append (s : Contents) (ops more : List Operation) :
    s.perform (ops ++ more) =
      ((s.perform ops).1 ++ ((s.perform ops).2.perform more).1,
        ((s.perform ops).2.perform more).2) := by
  induction ops generalizing s with
  | nil => rfl
  | cons op ops ih => simp [perform, ih]

theorem perform_push (s : Contents) (values : List Int32) :
    s.perform (values.map .push) =
      (List.replicate values.length .done, { s with values := values.reverse ++ s.values }) := by
  induction values generalizing s with
  | nil => rfl
  | cons value values ih => simp [perform, Operation.onContents, ih, List.replicate_succ]

/-- As many pops as there are values take all of them. -/
theorem perform_pop (s : Contents) :
    s.perform (List.replicate s.values.length .pop) =
      (s.leaving.map fun value => .value (some value), { s with values := [] }) := by
  obtain ⟨values, mode⟩ := s
  cases mode with
  | stack =>
    induction values with
    | nil => rfl
    | cons value values ih =>
      have ih : perform { values, mode := .stack } (List.replicate values.length .pop) = _ := ih
      rw [List.length_cons, List.replicate_succ, perform]
      dsimp only [Operation.onContents, pop, List.tail_cons]
      rw [ih]
      rfl
  | queue =>
    induction values using List.reverseRecOn with
    | nil => rfl
    | append_singleton values value ih =>
      have ih : perform { values, mode := .queue } (List.replicate values.length .pop) = _ := ih
      rw [List.length_append, List.length_singleton, List.replicate_succ, perform]
      simp only [Operation.onContents, pop, List.dropLast_concat, ih]
      simp [leaving]

end Contents

namespace Chain

/-- What an empty chain does when it is only pushed to, popped from and given another mode.  After
any number of these moves it lists the pushes that have not left, the newest first, and every push
has left once or is still there.  A pop takes the newest or the oldest of them, as the mode says,
and finds nothing exactly when there is none (`Ledger.Step`); only a bound on the slots can make a
push be refused.  So as many pops as pushes return the pushed values, backwards from a stack and in
the order of the pushes from a queue. -/
theorem perform_moves {c : Chain} (hc : c.Reachable) (hempty : c.values = .ok []) :
    (∀ schedule : Schedule, (∀ step ∈ schedule, step.1.IsMove) →
      ∃ answers, answers.length = schedule.length ∧
        (∀ step ∈ schedule.zip answers, step.2 = .refused → step.1.2 ≠ none) ∧
        ∀ k, ∃ d l, c.perform (schedule.take k) = .ok (answers.take k, d) ∧
          Ledger.Follows { mode := c.mode } ((schedule.take k).map Prod.fst) (answers.take k) l ∧
          d.values = .ok (l.present.map Prod.fst).reverse ∧ d.mode = l.mode ∧ l.Balanced) ∧
    (∀ values : List Int32, ∃ d,
      c.perform (Schedule.unbounded (values.map .push ++ List.replicate values.length .pop)) =
        .ok (List.replicate values.length .done ++
          (match c.mode with
            | .stack => values.reverse
            | .queue => values).map fun value => .value (some value), d) ∧
        d.values = .ok []) := by
  have htracks := Tracks.of_reachable hc hempty
  refine ⟨fun schedule hmoves => ?_, fun values => ?_⟩
  · obtain ⟨answers, e, _, he, hlength, -, -, hrefused⟩ := htracks.perform hmoves
    refine ⟨answers, hlength, hrefused, fun k => ?_⟩
    -- the first moves are a schedule of their own, with the first of the answers
    obtain ⟨answers', d, l, hd, -, hfollows, hl, -⟩ :=
      htracks.perform fun step hstep => hmoves step (List.mem_of_mem_take hstep)
    obtain ⟨d', hd'⟩ := perform_take he k
    rw [hd] at hd'
    cases hd'
    exact ⟨d, l, hd, hfollows, hl.values_eq, hl.holds.mode_eq, hl.balanced⟩
  · obtain ⟨d, hd, hholds⟩ := htracks.holds.perform_unbounded
      (values.map .push ++ List.replicate values.length .pop)
    have hcontents : ({ mode := c.mode } : Ledger).contents = { values := [], mode := c.mode } :=
      rfl
    have hpop := Contents.perform_pop { values := values.reverse, mode := c.mode }
    rw [List.length_reverse] at hpop
    rw [hcontents, Contents.perform_append, Contents.perform_push, List.append_nil, hpop]
      at hd hholds
    refine ⟨d, hd.trans ?_, hholds.values_eq⟩
    unfold Contents.leaving
    cases c.mode <;> simp

/-- A chain that was used before, and moves on it: the second push is refused, and the mode changes
twice between the pops. -/
theorem perform_moves_of_modes :
    ∃ (c : Chain) (schedule : Schedule) (answers : List Answer) (d : Chain) (l : Ledger),
      c.storage.free = [0] ∧ c.Reachable ∧ c.values = .ok [] ∧
      (∀ step ∈ schedule, step.1.IsMove) ∧
      schedule = [(.push 1, some 1), (.push 2, some 1), (.push 3, none), (.setMode .queue, none),
        (.pop, none), (.push 4, none), (.setMode .stack, none), (.pop, none)] ∧
      answers = [.done, .refused, .done, .done, .value (some 1), .done, .done, .value (some 4)] ∧
      c.perform schedule = .ok (answers, d) ∧
      Ledger.Follows { mode := .stack } (schedule.map Prod.fst) answers l ∧
      d.values = .ok [3] ∧ d.values = .ok (l.present.map Prod.fst).reverse ∧ l.Balanced := by
  let c : Chain :=
    { storage := { slots := #[none], free := [0] }, head := none, length := 0, mode := .stack }
  let schedule : Schedule := [(.push 1, some 1), (.push 2, some 1), (.push 3, none),
    (.setMode .queue, none), (.pop, none), (.push 4, none), (.setMode .stack, none), (.pop, none)]
  have hc : c.Reachable :=
    ⟨.stack, Schedule.unbounded [.push 9, .pop], [.done, .value (some 9)], by decide⟩
  have hmoves : ∀ step ∈ schedule, step.1.IsMove := by
    simp only [schedule, List.forall_mem_cons]
    exact ⟨trivial, trivial, trivial, trivial, trivial, trivial, trivial, trivial, by simp⟩
  have heval : (c.perform schedule).map (fun p => (p.1, p.2.values)) =
      .ok ([.done, .refused, .done, .done, .value (some 1), .done, .done, .value (some 4)],
        .ok [3]) := by
    decide
  obtain ⟨⟨_, e⟩, hp, heval⟩ := Checked.map_eq_ok_iff.1 heval
  rw [Prod.mk.injEq] at heval
  obtain ⟨rfl, he⟩ := heval
  obtain ⟨answers, hlength, -, hall⟩ := (perform_moves hc rfl).1 schedule hmoves
  obtain ⟨d, l, hd, hfollows, hvalues, -, hbalanced⟩ := hall schedule.length
  rw [← hlength, List.take_length, hlength, List.take_length] at hd hfollows
  rw [hp] at hd
  cases hd
  exact ⟨c, schedule, _, _, l, rfl, hc, rfl, hmoves, rfl, rfl, hp, hfollows, he, hvalues, hbalanced⟩

end Chain

end ChainMachine
