import ChainMachine.Proofs.Arithmetic
import Mathlib.Algebra.BigOperators.Group.List.Basic

/-!
# Adding up a chain

A chain is brought down to one value by adding, or by multiplying, its values two at a time.  It
makes no difference in which order: whatever else moves or prints the values in between, their sum,
or their product, stays the same up to multiples of 2^32.

* `Opcode.carryOut`: instructions carried out one after the other;
* `Opcode.rearranging`, `Opcode.perm_of_rule_eq_ok`: instructions that leave the values what they
  are, if in another order;
* `Reduction`, `Reduction.total`: the sum and the product of values;
* `Reduction.Admits`: the instructions that keep it;
* `Reduction.total_of_rule_eq_ok` for one of them, `Reduction.exists_of_carryOut` for several;
* `Reduction.carryOut_exact`: what every step keeps, and the value that is left in the end.
-/

namespace ChainMachine

namespace Contents

theorem exchange_perm (values : List Int32) : (exchange values).Perm values := by
  rcases values with _ | ⟨b, _ | ⟨a, rest⟩⟩
  · exact .refl _
  · exact .refl _
  · exact .swap b a rest

theorem headLast_perm (values : List Int32) : (headLast values).Perm values := by
  cases values with
  | nil => exact .refl _
  | cons b rest => exact List.perm_append_singleton b rest

theorem lastFirst_perm (values : List Int32) : (lastFirst values).Perm values := by
  rcases List.eq_nil_or_concat values with rfl | ⟨values, last, rfl⟩
  · exact .refl _
  · rw [List.concat_eq_append, lastFirst_append]
    exact (List.perm_append_singleton last values).symm

end Contents

namespace Reply

/-- An instruction that is done has left a chain and a sink, and nothing else. -/
theorem eq_proceed {reply : Reply} (h : reply.outcome = .ok .proceed) :
    reply = proceed reply.chain reply.sink := by
  obtain ⟨outcome, chain, sink⟩ := reply
  cases h
  rfl

/-- An instruction that is done has done what the rule says. -/
theorem Obeys.exists_eq_ok {limit : Option Nat} {c d : Chain} {sink after : Sink}
    {result : Except Diagnostic (Contents × List UInt8)}
    (h : Obeys limit c sink result (.proceed d after)) :
    ∃ t out, result = .ok (t, out) ∧ d.Holds t := by
  generalize hreply : Reply.proceed d after = reply at h
  cases h with
  | done holds =>
    cases hreply
    exact ⟨_, _, rfl, holds⟩
  | failed => cases hreply
  | cut => cases hreply
  | refused => cases hreply

end Reply

namespace Opcode

/-- Carry out instructions, each as its context says, up to the first that is not done. -/
def carryOut (c : Chain) (sink : Sink) : List (Opcode × Context) → Checked Reply
  | [] => .ok (.proceed c sink)
  | (op, ctx) :: steps => do
    let reply ← op.handler ctx c sink
    match reply.outcome with
    | .ok .proceed => carryOut reply.chain reply.sink steps
    | .ok (.terminate _) | .error _ => return reply

section

variable {c d : Chain} {sink after : Sink} {op : Opcode} {ctx : Context}
  {steps more : List (Opcode × Context)}

/-- All of the instructions are done when the first is and then the others are. -/
theorem carryOut_cons_eq_proceed_iff :
    carryOut c sink ((op, ctx) :: steps) = .ok (.proceed d after) ↔
      ∃ e mid, op.handler ctx c sink = .ok (.proceed e mid) ∧
        carryOut e mid steps = .ok (.proceed d after) := by
  constructor
  · intro h
    obtain ⟨reply, hreply, h⟩ := Checked.bind_eq_ok_iff.1 h
    split at h
    · next houtcome =>
      rw [Reply.eq_proceed houtcome] at hreply
      exact ⟨_, _, hreply, h⟩
    · next houtcome =>
      cases h
      cases houtcome
    · next houtcome =>
      cases h
      cases houtcome
  · rintro ⟨e, mid, hreply, h⟩
    rw [carryOut, hreply, Checked.ok_bind]
    exact h

theorem carryOut_append_eq_proceed_iff :
    carryOut c sink (steps ++ more) = .ok (.proceed d after) ↔
      ∃ e mid, carryOut c sink steps = .ok (.proceed e mid) ∧
        carryOut e mid more = .ok (.proceed d after) := by
  induction steps generalizing c sink with
  | nil =>
    constructor
    · intro h
      exact ⟨c, sink, rfl, h⟩
    · rintro ⟨e, mid, h, h'⟩
      cases h
      exact h'
  | cons step steps ih =>
    obtain ⟨op, ctx⟩ := step
    simp only [List.cons_append, carryOut_cons_eq_proceed_iff, ih]
    constructor
    · rintro ⟨e, mid, h, e', mid', h', h''⟩
      exact ⟨e', mid', ⟨e, mid, h, h'⟩, h''⟩
    · rintro ⟨e', mid', ⟨e, mid, h, h'⟩, h''⟩
      exact ⟨e, mid, h, e', mid', h', h''⟩

end

/-- The instructions that leave the values of a chain what they are, if in another order. -/
def rearranging : List Opcode :=
  [swap, rotl, rotr, nop, stack, queue, pint, pall, pchar, pstr]

theorem perm_of_rule_eq_ok {op : Opcode} {number : Nat} {operands : List String} {s t : Contents}
    {out : List UInt8} (hop : op ∈ rearranging)
    (h : op.rule number operands s = .ok (t, out)) : t.values.Perm s.values := by
  cases op <;> dsimp only [rule] at h
  case swap =>
    split at h <;> cases h
    exact Contents.exchange_perm s.values
  case rotl =>
    cases h
    exact Contents.headLast_perm s.values
  case rotr =>
    cases h
    exact Contents.lastFirst_perm s.values
  case pint =>
    split at h <;> cases h
    exact .refl _
  case pchar =>
    split at h
    · cases h
    · split at h <;> cases h
      exact .refl _
  case nop | stack | queue | pall | pstr =>
    cases h
    exact .refl _
  case push | pop | add | sub | mul | div | mod => simp [rearranging] at hop

end Opcode

/-- What the values of a chain are brought down to. -/
inductive Reduction
  | sum
  | product
  deriving DecidableEq, Repr

namespace Reduction

/-- The instruction that makes one value of the first two. -/
def opcode : Reduction → Opcode
  | sum => .add
  | product => .mul

/-- What is made of two integers. -/
def apply : Reduction → Int → Int → Int
  | sum, a, b => a + b
  | product, a, b => a * b

/-- What is made of all the values, as integers. -/
def total (r : Reduction) (values : List Int32) : Int :=
  match r with
  | sum => (values.map Int32.toInt).sum
  | product => (values.map Int32.toInt).prod

/-- The instruction makes one value of the first two, or leaves the values what they are. -/
def Admits (r : Reduction) (op : Opcode) : Prop := op = r.opcode ∨ op ∈ Opcode.rearranging

/-- How many of the instructions make one value of two. -/
def merges (r : Reduction) (steps : List (Opcode × Context)) : Nat :=
  (steps.map Prod.fst).count r.opcode

variable {r : Reduction}

instance (op : Opcode) : Decidable (r.Admits op) :=
  inferInstanceAs (Decidable (op = r.opcode ∨ op ∈ Opcode.rearranging))

theorem merges_cons (op : Opcode) (ctx : Context) (steps : List (Opcode × Context)) :
    r.merges ((op, ctx) :: steps) = [op].count r.opcode + r.merges steps := by
  rw [merges, List.map_cons, ← List.singleton_append, List.count_append, merges]

theorem total_perm {values others : List Int32} (h : values.Perm others) :
    r.total values = r.total others := by
  cases r with
  | sum => exact (h.map _).sum_eq
  | product => exact (h.map _).prod_eq

theorem total_singleton (v : Int32) : r.total [v] = v.toInt := by
  cases r <;> simp [total]

theorem total_cons (v : Int32) (values : List Int32) :
    r.total (v :: values) = r.apply v.toInt (r.total values) := by
  cases r <;> simp [total, apply]

theorem apply_assoc (a b c : Int) : r.apply (r.apply a b) c = r.apply a (r.apply b c) := by
  cases r with
  | sum => exact Int.add_assoc a b c
  | product => exact Int.mul_assoc a b c

theorem apply_comm (a b : Int) : r.apply a b = r.apply b a := by
  cases r with
  | sum => exact Int.add_comm a b
  | product => exact Int.mul_comm a b

theorem apply_modEq {a a' n : Int} (h : a ≡ a' [ZMOD n]) (b : Int) :
    r.apply a b ≡ r.apply a' b [ZMOD n] := by
  cases r with
  | sum => exact h.add_right b
  | product => exact h.mul_right b

/-- One value for the first two, brought back into the 32-bit range, makes no difference to the
total. -/
theorem total_merged (b a : Int32) (rest : List Int32) :
    r.total (Int32.ofInt (r.apply a.toInt b.toInt) :: rest) ≡ r.total (b :: a :: rest)
      [ZMOD 2 ^ 32] := by
  have hmerged : (Int32.ofInt (r.apply a.toInt b.toInt)).toInt ≡ r.apply a.toInt b.toInt
      [ZMOD 2 ^ 32] := Rule.toInt_modEq_iff.2 rfl
  rw [total_cons, total_cons, total_cons, ← apply_assoc, apply_comm b.toInt]
  exact apply_modEq hmerged _

theorem rule_opcode (r : Reduction) (number : Nat) (operands : List String) (s : Contents) :
    r.opcode.rule number operands s = Rule.combine r.opcode.mnemonic r.apply number s := by
  cases r <;> rfl

theorem opcode_notMem_rearranging (r : Reduction) : r.opcode ∉ Opcode.rearranging := by
  cases r <;> decide

/-- A step keeps the total, and takes one value away if it makes one of two. -/
theorem total_of_rule_eq_ok {op : Opcode} {number : Nat} {operands : List String} {s t : Contents}
    {out : List UInt8} (hop : r.Admits op) (h : op.rule number operands s = .ok (t, out)) :
    r.total t.values ≡ r.total s.values [ZMOD 2 ^ 32] ∧
      t.values.length + [op].count r.opcode = s.values.length := by
  rcases hop with rfl | hop
  · rw [rule_opcode, Rule.combine] at h
    split at h
    · next b a rest hvalues =>
      cases h
      rw [hvalues]
      exact ⟨total_merged b a rest, by simp⟩
    · cases h
  · have hperm := Opcode.perm_of_rule_eq_ok hop h
    have hne : op ≠ r.opcode := by
      rintro rfl
      exact r.opcode_notMem_rearranging hop
    rw [total_perm hperm, hperm.length_eq, List.count_singleton, if_neg (by simpa using hne)]
    exact ⟨.refl _, rfl⟩

/-- Any number of steps keep the total. -/
theorem exists_of_carryOut {c d : Chain} {s : Contents} {sink after : Sink}
    {steps : List (Opcode × Context)} (hops : ∀ step ∈ steps, r.Admits step.1) (h : c.Holds s)
    (hrun : Opcode.carryOut c sink steps = .ok (.proceed d after)) :
    ∃ t, d.Holds t ∧ r.total t.values ≡ r.total s.values [ZMOD 2 ^ 32] ∧
      t.values.length + r.merges steps = s.values.length := by
  induction steps generalizing c s sink with
  | nil =>
    cases hrun
    exact ⟨s, h, .refl _, rfl⟩
  | cons step steps ih =>
    obtain ⟨op, ctx⟩ := step
    obtain ⟨hop : r.Admits op, hops⟩ := List.forall_mem_cons.1 hops
    obtain ⟨e, mid, hreply, hrun⟩ := Opcode.carryOut_cons_eq_proceed_iff.1 hrun
    obtain ⟨t, out, hrule, ht⟩ := (Opcode.obeys_of_handler_eq_ok hreply h).exists_eq_ok
    obtain ⟨htotal, hlength⟩ := total_of_rule_eq_ok hop hrule
    obtain ⟨u, hu, htotal', hlength'⟩ := ih hops ht hrun
    refine ⟨u, hu, htotal'.trans htotal, ?_⟩
    rw [merges_cons]
    omega

/-- Where one value is left, it is the only one that is congruent to the total. -/
theorem exists_eq_singleton {values reached : List Int32} (hlength : reached.length = 1)
    (htotal : r.total reached ≡ r.total values [ZMOD 2 ^ 32]) :
    ∃ v, reached = [v] ∧ ∀ w : Int32, w.toInt ≡ r.total values [ZMOD 2 ^ 32] ↔ w = v := by
  obtain ⟨v, rfl⟩ := List.length_eq_one_iff.1 hlength
  rw [total_singleton] at htotal
  refine ⟨v, rfl, fun w => ?_⟩
  rw [Rule.toInt_modEq_iff, ← Rule.toInt_modEq_iff.1 htotal]

/-- Let instructions be carried out, none of which fails: some of them add, the others exchange
values, turn the chain, print, choose a mode or do nothing.  After each of them the sum of the
values is congruent to what it was at first, and there is one value less for every addition.  So as
soon as there has been one addition less than there were values, one value is left, which is the
only one that is congruent to the sum of the values at first, wherever the other instructions stand.
The same is true of multiplications and the product. -/
theorem carryOut_exact (r : Reduction) {c d : Chain} {values : List Int32} {sink after : Sink}
    {steps : List (Opcode × Context)} (hreach : c.Reachable) (hvalues : c.values = .ok values)
    (hops : ∀ step ∈ steps, r.Admits step.1)
    (hrun : Opcode.carryOut c sink steps = .ok (.proceed d after)) (k : Nat) :
    ∃ e mid reached, Opcode.carryOut c sink (steps.take k) = .ok (.proceed e mid) ∧
      Opcode.carryOut e mid (steps.drop k) = .ok (.proceed d after) ∧
      e.values = .ok reached ∧ r.total reached ≡ r.total values [ZMOD 2 ^ 32] ∧
      reached.length + r.merges (steps.take k) = values.length ∧
      (r.merges (steps.take k) + 1 = values.length →
        ∃ v, reached = [v] ∧ ∀ w : Int32, w.toInt ≡ r.total values [ZMOD 2 ^ 32] ↔ w = v) := by
  obtain ⟨s, hs⟩ := hreach.exists_holds
  obtain rfl := hs.values_unique hvalues
  rw [← List.take_append_drop k steps, Opcode.carryOut_append_eq_proceed_iff] at hrun
  obtain ⟨e, mid, hfirst, hothers⟩ := hrun
  obtain ⟨t, ht, htotal, hlength⟩ :=
    exists_of_carryOut (fun step hstep => hops step (List.mem_of_mem_take hstep)) hs hfirst
  refine ⟨e, mid, t.values, hfirst, hothers, ht.values_eq, htotal, hlength, fun hmerges => ?_⟩
  exact exists_eq_singleton (by omega) htotal

/-- Three values whose product is out of range, multiplied with other instructions in between. -/
theorem carryOut_exact_of_product :
    ∃ (c d : Chain) (steps : List (Opcode × Context)) (after : Sink),
      c.Reachable ∧ c.values = .ok [65537, -3, 65537] ∧
      steps.map Prod.fst = [.pall, .rotl, .mul, .queue, .swap, .rotr, .pint, .mul, .stack, .pstr] ∧
      (∀ step ∈ steps, product.Admits step.1) ∧
      Opcode.carryOut c {} steps = .ok (.proceed d after) ∧
      product.total [65537, -3, 65537] = -12885295107 ∧ d.values = .ok [-393219] ∧
      ∀ w : Int32, w.toInt ≡ -12885295107 [ZMOD 2 ^ 32] ↔ w = -393219 := by
  let c : Chain :=
    { storage := { slots := #[some ⟨65537, some 1, none⟩, some ⟨-3, some 2, some 0⟩,
                      some ⟨65537, none, some 1⟩] }
      head := some 2, length := 3, mode := .stack }
  let steps : List (Opcode × Context) :=
    [.pall, .rotl, .mul, .queue, .swap, .rotr, .pint, .mul, .stack, .pstr].map fun op =>
      (op, { line := 1, operands := [] })
  have hreach : c.Reachable :=
    ⟨.stack, Schedule.unbounded [.push 65537, .push (-3), .push 65537], [.done, .done, .done],
      by decide⟩
  have hvalues : c.values = .ok [65537, -3, 65537] := by decide
  have hops : ∀ step ∈ steps, product.Admits step.1 := by decide
  have heval : (Opcode.carryOut c {} steps).map (fun reply => (reply.outcome, reply.chain.values)) =
      .ok (.ok .proceed, .ok [-393219]) := by
    decide +kernel
  obtain ⟨⟨_, d, after⟩, hrun, heval⟩ := Checked.map_eq_ok_iff.1 heval
  obtain ⟨rfl, hd⟩ := Prod.mk.inj heval
  obtain ⟨e, mid, reached, hall, -, he, -, -, hleft⟩ :=
    carryOut_exact product hreach hvalues hops hrun steps.length
  rw [List.take_length, hrun] at hall
  cases hall
  obtain ⟨v, rfl, hv⟩ := hleft (by decide)
  obtain rfl : v = -393219 := by simpa using he.symm.trans hd
  have htotal : product.total [65537, -3, 65537] = -12885295107 := by decide
  rw [htotal] at hv
  exact ⟨c, d, steps, after, hreach, hvalues, rfl, hops, hrun, htotal, hd, hv⟩

end Reduction

end ChainMachine
