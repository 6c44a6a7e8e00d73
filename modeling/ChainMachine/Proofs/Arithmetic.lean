import ChainMachine.Proofs.Handlers
import ChainMachine.Proofs.Operations
import Mathlib.Data.Int.ModEq

/-!
# Arithmetic on 32 bits

The arithmetic instructions calculate with integers and bring the result back into the 32-bit
range.  A division is exact there, but for one quotient that is out of range.

* `Rule.toInt_modEq_iff`: of the 32-bit integers one alone is congruent to a given integer;
* `Rule.toInt_ofInt_tdiv`, `Rule.toInt_ofInt_tmod`, `Rule.ofInt_tdiv_mul_add`: quotients and
  remainders;
* `Opcode.Leaves`, `Opcode.leaves_of_arithmetic`, `Opcode.leaves_of_division`: the values that an
  instruction leaves;
* `Opcode.leaves_exact`: which numbers these are.
-/

namespace ChainMachine

namespace Rule

/-- Of the 32-bit integers one alone is congruent to a given integer. -/
theorem toInt_modEq_iff {n : Int} {v : Int32} :
    v.toInt ≡ n [ZMOD 2 ^ 32] ↔ v = Int32.ofInt n := by
  have hcongr : (Int32.ofInt n).toInt % 2 ^ 32 = n % 2 ^ 32 := by
    rw [Int32.toInt_ofInt]
    exact Int.bmod_emod
  rw [Int.ModEq, ← hcongr, ← Int32.toInt_inj]
  have hlow := v.le_toInt
  have hhigh := v.toInt_lt
  have hlow' := (Int32.ofInt n).le_toInt
  have hhigh' := (Int32.ofInt n).toInt_lt
  omega

/-- A quotient is in the 32-bit range, unless it is that of the least value by -1. -/
theorem toInt_ofInt_tdiv {a b : Int32} (h : ¬(a = Int32.minValue ∧ b = -1)) :
    (Int32.ofInt (a.toInt.tdiv b.toInt)).toInt = a.toInt.tdiv b.toInt := by
  rw [ofInt_tdiv]
  by_cases ha : a = Int32.minValue
  · exact Int32.toInt_div_of_ne_right a b fun hb => h ⟨ha, hb⟩
  · exact Int32.toInt_div_of_ne_left a b ha

theorem toInt_ofInt_tmod (a b : Int32) :
    (Int32.ofInt (a.toInt.tmod b.toInt)).toInt = a.toInt.tmod b.toInt := by
  rw [ofInt_tmod, Int32.toInt_mod]

/-- A remainder that is not zero has the sign of what was divided. -/
theorem ofInt_tmod_eq_zero_or_sign_eq (a b : Int32) :
    Int32.ofInt (a.toInt.tmod b.toInt) = 0 ∨
      (Int32.ofInt (a.toInt.tmod b.toInt)).toInt.sign = a.toInt.sign := by
  by_cases hdvd : b.toInt ∣ a.toInt
  · left
    rw [Int.tmod_eq_zero_of_dvd hdvd]
    rfl
  · right
    rw [toInt_ofInt_tmod, Int.sign_tmod, if_neg hdvd]

/-- Quotient and remainder make up what was divided, also where the product is out of range. -/
theorem ofInt_tdiv_mul_add (a b : Int32) :
    Int32.ofInt (a.toInt.tdiv b.toInt) * b + Int32.ofInt (a.toInt.tmod b.toInt) = a := by
  calc
    Int32.ofInt (a.toInt.tdiv b.toInt) * b + Int32.ofInt (a.toInt.tmod b.toInt)
      = Int32.ofInt (a.toInt.tdiv b.toInt * b.toInt + a.toInt.tmod b.toInt) := by
        rw [Int32.ofInt_add, Int32.ofInt_mul, Int32.ofInt_toInt]
    _ = Int32.ofInt a.toInt := by rw [Int.tdiv_mul_add_tmod]
    _ = a := Int32.ofInt_toInt a

end Rule

namespace Opcode

/-- Whatever its operands are and wherever it prints, the instruction is done, with these values on
the chain and with the mode as before, and has printed nothing. -/
def Leaves (op : Opcode) (c : Chain) (values : List Int32) : Prop :=
  ∀ ctx sink, ∃ d, op.handler ctx c sink = .ok (.proceed d sink) ∧ d.values = .ok values ∧
    d.mode = c.mode

section

variable {c : Chain} {s : Contents} {b a r : Int32} {rest : List Int32} {op : Opcode}
  {opcode : String}

theorem leaves_of_arithmetic (h : c.Holds s) (hvalues : s.values = b :: a :: rest)
    {f : Int32 → Int32 → Checked Int32} (hf : f a b = .ok r)
    (hop : ∀ ctx sink, op.handler ctx c sink = Builtin.arithmetic opcode f ctx c sink) :
    op.Leaves c (r :: rest) := by
  intro ctx sink
  obtain ⟨d, hd, hholds⟩ := Builtin.arithmetic_eq h hvalues hf opcode ctx sink
  exact ⟨d, (hop ctx sink).trans hd, hholds.values_eq, hholds.mode_eq.trans h.mode_eq.symm⟩

theorem leaves_of_division (h : c.Holds s) (hvalues : s.values = b :: a :: rest) (hb : b ≠ 0)
    {f : Int32 → Int32 → Checked Int32} (hf : f a b = .ok r)
    (hop : op.handler = Builtin.division opcode f) : op.Leaves c (r :: rest) := by
  apply leaves_of_arithmetic h hvalues hf
  intro ctx sink
  rw [hop, Builtin.division_eq h hvalues hb]

/-- Where the result is brought back into the 32-bit range, it is the only value there that is
congruent to it. -/
theorem exists_leaves_modEq (h : c.Holds s) (hvalues : s.values = b :: a :: rest)
    {f : Int32 → Int32 → Int32} {n : Int} (hf : f a b = Int32.ofInt n)
    (hop : op.handler = Builtin.arithmetic opcode fun a b => .ok (f a b)) :
    ∃ r, op.Leaves c (r :: rest) ∧ ∀ v : Int32, v.toInt ≡ n [ZMOD 2 ^ 32] ↔ v = r :=
  ⟨_, leaves_of_arithmetic h hvalues (congrArg Except.ok hf) fun _ _ => by rw [hop],
    fun _ => Rule.toInt_modEq_iff⟩

end

/-- An instruction that calculates makes one value of the first two, here `b` and `a`, and leaves
the others and the mode as they are.  The value is the only one that is congruent to the sum, the
difference or the product of `a` and `b`.  Where `b` is not zero, it is the quotient rounded toward
zero, but for the one that is out of range; and it is the remainder, which is zero or has the sign
of `a`, and is nearer to zero than `b`.  Quotient and remainder make up `a` in every case. -/
theorem leaves_exact {c : Chain} {b a : Int32} {rest : List Int32} (hreach : c.Reachable)
    (hvalues : c.values = .ok (b :: a :: rest)) :
    (∃ r, add.Leaves c (r :: rest) ∧
      ∀ v : Int32, v.toInt ≡ a.toInt + b.toInt [ZMOD 2 ^ 32] ↔ v = r) ∧
    (∃ r, sub.Leaves c (r :: rest) ∧
      ∀ v : Int32, v.toInt ≡ a.toInt - b.toInt [ZMOD 2 ^ 32] ↔ v = r) ∧
    (∃ r, mul.Leaves c (r :: rest) ∧
      ∀ v : Int32, v.toInt ≡ a.toInt * b.toInt [ZMOD 2 ^ 32] ↔ v = r) ∧
    (b ≠ 0 →
      ∃ q m, div.Leaves c (q :: rest) ∧ mod.Leaves c (m :: rest) ∧
        (a = Int32.minValue ∧ b = -1 → q = Int32.minValue ∧ m = 0) ∧
        (¬(a = Int32.minValue ∧ b = -1) →
          q.toInt = a.toInt.tdiv b.toInt ∧ q.toInt * b.toInt + m.toInt = a.toInt) ∧
        m.toInt = a.toInt.tmod b.toInt ∧ (m = 0 ∨ m.toInt.sign = a.toInt.sign) ∧
        m.toInt.natAbs < b.toInt.natAbs ∧ q * b + m = a) := by
  obtain ⟨s, hs⟩ := hreach.exists_holds
  have hfirst : s.values = b :: a :: rest := Except.ok.inj (hs.values_eq.symm.trans hvalues)
  refine ⟨exists_leaves_modEq hs hfirst (by simp) rfl, exists_leaves_modEq hs hfirst (by simp) rfl,
    exists_leaves_modEq hs hfirst (by simp) rfl, fun hb => ?_⟩
  refine ⟨_, _, leaves_of_division hs hfirst hb (Builtin.quotient_eq a b hb) rfl,
    leaves_of_division hs hfirst hb (Builtin.remainder_eq a b hb) rfl, ?_, ?_,
    Rule.toInt_ofInt_tmod a b, Rule.ofInt_tmod_eq_zero_or_sign_eq a b, ?_,
    Rule.ofInt_tdiv_mul_add a b⟩
  · rintro ⟨rfl, rfl⟩
    decide
  · intro hrange
    rw [Rule.toInt_ofInt_tdiv hrange, Rule.toInt_ofInt_tmod, Int.tdiv_mul_add_tmod]
    exact ⟨rfl, rfl⟩
  · rw [Rule.toInt_ofInt_tmod, Int.natAbs_tmod]
    have hne : b.toInt ≠ 0 := fun hzero => hb (Int32.toInt_inj.1 hzero)
    exact Nat.mod_lt _ (Int.natAbs_pos.2 hne)

/-- The one quotient that is out of range, with a value below that is not touched. -/
theorem leaves_exact_of_least :
    ∃ c : Chain, c.Reachable ∧ c.values = .ok [-1, Int32.minValue, 7] ∧
      div.Leaves c [Int32.minValue, 7] ∧ mod.Leaves c [0, 7] := by
  have hreach : ({ storage :=
                    { slots := #[some ⟨7, some 1, none⟩, some ⟨Int32.minValue, some 2, some 0⟩,
                        some ⟨-1, none, some 1⟩] }
                   head := some 2, length := 3, mode := .queue } : Chain).Reachable :=
    ⟨.queue, Schedule.unbounded [.push 7, .push Int32.minValue, .push (-1)], [.done, .done, .done],
      by decide⟩
  obtain ⟨-, -, -, hdivision⟩ :=
    leaves_exact hreach (show _ = Except.ok [-1, Int32.minValue, 7] by decide)
  obtain ⟨q, m, hdiv, hmod, hleast, -⟩ := hdivision (by decide)
  obtain ⟨rfl, rfl⟩ := hleast ⟨rfl, rfl⟩
  exact ⟨_, hreach, by decide, hdiv, hmod⟩

end Opcode

end ChainMachine
