import ChainMachine.Proofs.Contents

/-!
# Chains answer like lists

A chain is used through its operations only.  Here a sequence of them is carried out
on a chain and on its contents, and the answers are compared.

* `Operation`, `Answer`: what can be asked of a chain, and what comes back;
* `Schedule`: operations in a row, each with the number of slots that the chain may take
  at that moment, if there is a bound;
* `Operation.onChain`, `Chain.perform`: one operation on a chain, and a schedule;
* `Operation.onContents`, `Contents.perform`: the same operations on a list of values
  with a mode;
* `Chain.Shows`: a chain from which the given contents are read;
* `Chain.Holds.onChain`, `Chain.Holds.perform`: one operation, and any number of them.
-/

namespace ChainMachine

/-- What can be asked of a chain. -/
inductive Operation
  /-- Begin anew with an empty chain. -/
  | renew (mode : Mode)
  | push (value : Int32)
  | popHead
  | popTail
  | pop
  | swap
  | setHead (value : Int32)
  | firstTwo
  | first
  | length
  | isEmpty
  | values
  | headToTail
  | tailToHead
  | setMode (mode : Mode)
  | mode
  | clear
  deriving DecidableEq, Repr

/-- What an operation answers. -/
inductive Answer
  /-- There is nothing to tell. -/
  | done
  /-- A push found no vacant slot and could not add one. -/
  | refused
  | flag (b : Bool)
  | count (n : Nat)
  | mode (mode : Mode)
  | value (value : Option Int32)
  | pair (values : Option (Int32 × Int32))
  | all (values : List Int32)
  deriving DecidableEq, Repr

/-- One operation after another, each with the number of slots that the chain may take when it
is its turn. -/
abbrev Schedule : Type := List (Operation × Option Nat)

namespace Operation

/-- The answer of a chain, and the chain after it.  A push that is refused changes nothing. -/
def onChain (limit : Option Nat) (c : Chain) : Operation → Checked (Answer × Chain)
  | renew start => return (.done, .empty start)
  | push value => do
    match ← c.push value limit with
    | none => return (.refused, c)
    | some d => return (.done, d)
  | popHead => return (← c.popHead).map .value id
  | popTail => return (← c.popTail).map .value id
  | pop => return (← c.pop).map .value id
  | swap => return (← c.swap).map .flag id
  | setHead value => return (← c.setHead value).map .flag id
  | firstTwo => return (.pair (← c.firstTwo), c)
  | first => return (.value (← c.first), c)
  | length => return (.count c.length, c)
  | isEmpty => return (.flag c.isEmpty, c)
  | values => return (.all (← c.values), c)
  | headToTail => return (.done, ← c.headToTail)
  | tailToHead => return (.done, ← c.tailToHead)
  | setMode new => return (.done, c.setMode new)
  | mode => return (.mode c.mode, c)
  | clear => return (.done, ← c.clear)

/-- The answer of a list of values with a mode, and what they are after it. -/
def onContents (s : Contents) : Operation → Answer × Contents
  | renew start => (.done, { values := [], mode := start })
  | push value => (.done, { s with values := value :: s.values })
  | popHead => (.value s.values.head?, { s with values := s.values.tail })
  | popTail => (.value s.values.getLast?, { s with values := s.values.dropLast })
  | pop => (.value s.pop.1, s.pop.2)
  | swap => (.flag (2 ≤ s.values.length), { s with values := Contents.exchange s.values })
  | setHead value => (.flag !s.values.isEmpty, { s with values := s.values.set 0 value })
  | firstTwo => (.pair (Contents.firstTwo s.values), s)
  | first => (.value s.values.head?, s)
  | length => (.count s.values.length, s)
  | isEmpty => (.flag s.values.isEmpty, s)
  | values => (.all s.values, s)
  | headToTail => (.done, { s with values := Contents.headLast s.values })
  | tailToHead => (.done, { s with values := Contents.lastFirst s.values })
  | setMode new => (.done, { s with mode := new })
  | mode => (.mode s.mode, s)
  | clear => (.done, { s with values := [] })

theorem onContents_ne_refused (s : Contents) (op : Operation) : (op.onContents s).1 ≠ .refused := by
  intro h
  cases op <;> cases h

end Operation

/-- Carry out a schedule on a chain. -/
def Chain.perform (c : Chain) : Schedule → Checked (List Answer × Chain)
  | [] => return ([], c)
  | (op, limit) :: schedule => do
    let (answer, c) ← op.onChain limit c
    let (answers, c) ← c.perform schedule
    return (answer :: answers, c)

/-- Carry out operations on a list of values with a mode. -/
def Contents.perform (s : Contents) : List Operation → List Answer × Contents
  | [] => ([], s)
  | op :: ops =>
    let rest := (op.onContents s).2.perform ops
    ((op.onContents s).1 :: rest.1, rest.2)

namespace Schedule

/-- Operations without any bound on the slots. -/
def unbounded (ops : List Operation) : Schedule := ops.map fun op => (op, none)

/-- The operations that were not refused, judging by the answers. -/
def granted : Schedule → List Answer → List Operation
  | (op, _) :: schedule, answer :: answers =>
    if answer = .refused then granted schedule answers else op :: granted schedule answers
  | _, _ => []

end Schedule

/-- The values and the mode that are read from a chain. -/
def Chain.Shows (c : Chain) (s : Contents) : Prop := c.values = .ok s.values ∧ c.mode = s.mode

/-- A chain that some schedule leads to from an empty one. -/
def Chain.Reachable (c : Chain) : Prop :=
  ∃ mode schedule answers, (empty mode).perform schedule = .ok (answers, c)

namespace Chain.Holds

open Schedule

variable {c : Chain} {s : Contents}

theorem shows (h : c.Holds s) : c.Shows s := ⟨h.values_eq, h.mode_eq⟩

/-- An operation on a chain answers as it does on the contents and leads to the same contents,
unless it is a push that is refused; then nothing changes. -/
theorem onChain (h : c.Holds s) (op : Operation) (limit : Option Nat) :
    (∃ d, op.onChain limit c = .ok ((op.onContents s).1, d) ∧ d.Holds (op.onContents s).2) ∨
      (op.onChain limit c = .ok (.refused, c) ∧ limit ≠ none ∧ ∃ value, op = .push value) := by
  cases op with
  | renew mode => exact .inl ⟨_, rfl, holds_empty mode⟩
  | push value =>
    rcases h.push value limit with ⟨d, hd, h'⟩ | ⟨hrefused, -, hgrow⟩
    · exact .inl ⟨d, by simp [Operation.onChain, Operation.onContents, hd], h'⟩
    · refine .inr ⟨by simp [Operation.onChain, hrefused], ?_, value, rfl⟩
      rintro rfl
      rw [Storage.mayGrow_none] at hgrow
      cases hgrow
  | popHead =>
    obtain ⟨d, hd, h'⟩ := h.popHead
    exact .inl ⟨d, by simp [Operation.onChain, Operation.onContents, hd], h'⟩
  | popTail =>
    obtain ⟨d, hd, h'⟩ := h.popTail
    exact .inl ⟨d, by simp [Operation.onChain, Operation.onContents, hd], h'⟩
  | pop =>
    obtain ⟨d, hd, h'⟩ := h.pop
    exact .inl ⟨d, by simp [Operation.onChain, Operation.onContents, hd], h'⟩
  | swap =>
    obtain ⟨d, hd, h'⟩ := h.swap
    exact .inl ⟨d, by simp [Operation.onChain, Operation.onContents, hd], h'⟩
  | setHead value =>
    obtain ⟨d, hd, h'⟩ := h.setHead value
    exact .inl ⟨d, by simp [Operation.onChain, Operation.onContents, hd], h'⟩
  | firstTwo => exact .inl ⟨c, by simp [Operation.onChain, Operation.onContents, h.firstTwo_eq], h⟩
  | first => exact .inl ⟨c, by simp [Operation.onChain, Operation.onContents, h.first_eq], h⟩
  | length => exact .inl ⟨c, by simp [Operation.onChain, Operation.onContents, h.length_eq], h⟩
  | isEmpty => exact .inl ⟨c, by simp [Operation.onChain, Operation.onContents, h.isEmpty_eq], h⟩
  | values => exact .inl ⟨c, by simp [Operation.onChain, Operation.onContents, h.values_eq], h⟩
  | headToTail =>
    obtain ⟨d, hd, h'⟩ := h.headToTail
    exact .inl ⟨d, by simp [Operation.onChain, Operation.onContents, hd], h'⟩
  | tailToHead =>
    obtain ⟨d, hd, h'⟩ := h.tailToHead
    exact .inl ⟨d, by simp [Operation.onChain, Operation.onContents, hd], h'⟩
  | setMode mode => exact .inl ⟨_, rfl, h.setMode mode⟩
  | mode => exact .inl ⟨c, by simp [Operation.onChain, Operation.onContents, h.mode_eq], h⟩
  | clear =>
    exact .inl ⟨_, by simp [Operation.onChain, Operation.onContents, h.clear], holds_empty s.mode⟩

/-- A schedule meets no fault.  Without its refused pushes it has the same answers on the contents
and leads to the same contents. -/
theorem perform (h : c.Holds s) (schedule : Schedule) :
    ∃ answers d t, c.perform schedule = .ok (answers, d) ∧ answers.length = schedule.length ∧
      s.perform (granted schedule answers) = (answers.filter (· ≠ .refused), t) ∧ d.Holds t ∧
      ∀ step ∈ schedule.zip answers, step.2 = .refused →
        step.1.2 ≠ none ∧ ∃ value, step.1.1 = .push value := by
  induction schedule generalizing c s with
  | nil => exact ⟨[], c, s, rfl, rfl, rfl, h, by simp⟩
  | cons step schedule ih =>
    obtain ⟨op, limit⟩ := step
    rcases h.onChain op limit with ⟨d, hd, h'⟩ | ⟨hd, hlimit, value, rfl⟩
    · obtain ⟨answers, e, t, he, hlen, hanswers, hholds, hrefused⟩ := ih h'
      have hne := op.onContents_ne_refused s
      refine ⟨(op.onContents s).1 :: answers, e, t, ?_, ?_, ?_, hholds, ?_⟩
      · simp [Chain.perform, hd, he]
      · simp [hlen]
      · rw [granted, if_neg hne, Contents.perform, hanswers,
          List.filter_cons_of_pos (by simpa using hne)]
      · intro step hstep hanswer
        rcases List.mem_cons.1 hstep with rfl | hstep
        · exact absurd hanswer hne
        · exact hrefused step hstep hanswer
    · -- nothing has changed, so the rest of the schedule begins where this step began
      obtain ⟨answers, e, t, he, hlen, hanswers, hholds, hrefused⟩ := ih h
      refine ⟨.refused :: answers, e, t, ?_, ?_, ?_, hholds, ?_⟩
      · simp [Chain.perform, hd, he]
      · simp [hlen]
      · rw [granted, if_pos rfl, hanswers, List.filter_cons_of_neg (by simp)]
      · intro step hstep hanswer
        rcases List.mem_cons.1 hstep with rfl | hstep
        · exact ⟨hlimit, value, rfl⟩
        · exact hrefused step hstep hanswer

/-- Without a bound on the slots nothing is refused. -/
theorem perform_unbounded (h : c.Holds s) (ops : List Operation) :
    ∃ d, c.perform (unbounded ops) = .ok ((s.perform ops).1, d) ∧ d.Holds (s.perform ops).2 := by
  induction ops generalizing c s with
  | nil => exact ⟨c, rfl, h⟩
  | cons op ops ih =>
    rcases h.onChain op none with ⟨d, hd, h'⟩ | ⟨-, hne, -⟩
    · obtain ⟨e, he, hholds⟩ := ih h'
      refine ⟨e, ?_, hholds⟩
      rw [unbounded] at he
      simp [unbounded, Chain.perform, hd, he, Contents.perform]
    · exact absurd rfl hne

end Chain.Holds

namespace Chain

/-- A chain that some schedule leads to holds some contents. -/
theorem Reachable.exists_holds {c : Chain} (h : c.Reachable) : ∃ s, c.Holds s := by
  obtain ⟨mode, schedule, answers, h⟩ := h
  obtain ⟨_, d, s, hd, -, -, hholds, -⟩ := (holds_empty mode).perform schedule
  rw [hd] at h
  cases h
  exact ⟨s, hholds⟩

/-- Every schedule on an empty chain has the answers that it has on an empty list, and leaves a
chain that shows the same values and mode; pushes that are refused, which takes a bound on the
slots, are as if they had not been tried.  So chains that show the same answer alike from then
on, wherever their nodes lie. -/
theorem perform_eq_contents_perform :
    (∀ (mode : Mode) (ops : List Operation), ∃ c,
      (empty mode).perform (Schedule.unbounded ops) =
          .ok ((Contents.perform { values := [], mode } ops).1, c) ∧
        c.Shows (Contents.perform { values := [], mode } ops).2) ∧
    (∀ (mode : Mode) (schedule : Schedule), ∃ answers c t,
      (empty mode).perform schedule = .ok (answers, c) ∧ answers.length = schedule.length ∧
        Contents.perform { values := [], mode } (schedule.granted answers) =
          (answers.filter (· ≠ .refused), t) ∧
        c.Shows t ∧
        ∀ step ∈ schedule.zip answers, step.2 = .refused →
          step.1.2 ≠ none ∧ ∃ value, step.1.1 = .push value) ∧
    (∀ c d : Chain, c.Reachable → d.Reachable → c.values = d.values → c.mode = d.mode →
      ∀ ops : List Operation, ∃ answers c' d',
        c.perform (Schedule.unbounded ops) = .ok (answers, c') ∧
        d.perform (Schedule.unbounded ops) = .ok (answers, d') ∧
        c'.values = d'.values ∧ c'.mode = d'.mode) := by
  refine ⟨?_, ?_, ?_⟩
  · intro mode ops
    obtain ⟨c, hc, hholds⟩ := (holds_empty mode).perform_unbounded ops
    exact ⟨c, hc, hholds.shows⟩
  · intro mode schedule
    obtain ⟨answers, c, t, hc, hlen, hanswers, hholds, hrefused⟩ :=
      (holds_empty mode).perform schedule
    exact ⟨answers, c, t, hc, hlen, hanswers, hholds.shows, hrefused⟩
  · -- both chains hold the same contents, which decide every later answer
    intro c d hc hd hvalues hmode ops
    obtain ⟨s, hs⟩ := hc.exists_holds
    obtain ⟨t, ht⟩ := hd.exists_holds
    obtain rfl := hs.eq_of_values_eq ht hvalues hmode
    obtain ⟨c', hc', hholds⟩ := hs.perform_unbounded ops
    obtain ⟨d', hd', hholds'⟩ := ht.perform_unbounded ops
    exact ⟨_, c', d', hc', hd', hholds.values_eq.trans hholds'.values_eq.symm,
      hholds.mode_eq.trans hholds'.mode_eq.symm⟩

/-- Two pushes, and the same two the other way round with the head moved behind the tail, lead to
different chains with the same values, which then answer alike. -/
theorem perform_eq_contents_perform_of_rotated :
    ∃ c d : Chain, c ≠ d ∧ c.Reachable ∧ d.Reachable ∧ c.values = .ok [2, 1] ∧
      d.values = .ok [2, 1] ∧ ∃ answers c' d',
        c.perform (Schedule.unbounded [.popTail, .push 7, .values]) = .ok (answers, c') ∧
        d.perform (Schedule.unbounded [.popTail, .push 7, .values]) = .ok (answers, d') ∧
        c'.values = d'.values ∧ c'.mode = d'.mode := by
  have hc : ({ storage := { slots := #[some ⟨1, some 1, none⟩, some ⟨2, none, some 0⟩] }
               head := some 1, length := 2, mode := .stack } : Chain).Reachable :=
    ⟨.stack, Schedule.unbounded [.push 1, .push 2], [.done, .done], by decide⟩
  have hd : ({ storage := { slots := #[some ⟨2, none, some 1⟩, some ⟨1, some 0, none⟩] }
               head := some 0, length := 2, mode := .stack } : Chain).Reachable :=
    ⟨.stack, Schedule.unbounded [.push 2, .push 1, .headToTail], [.done, .done, .done], by decide⟩
  exact ⟨_, _, by decide, hc, hd, by decide, by decide,
    perform_eq_contents_perform.2.2 _ _ hc hd (by decide) rfl _⟩

end Chain

end ChainMachine
