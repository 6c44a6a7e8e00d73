import ChainMachine.Text.Numeral

/-!
# What numerals denote

* `Numeral.readNat_eq_some_iff`: digits are read as the number they denote, unless it
  passes the bound;
* `Numeral.read_write`: the numeral of a value is read as that value.
-/

namespace ChainMachine.Numeral

theorem appendDigit_eq_some_iff {bound n m : Nat} {c : Char} :
    appendDigit bound n c = some m ↔
      c.isDigit = true ∧ 10 * n + (c.toNat - '0'.toNat) = m ∧ m ≤ bound := by
  unfold appendDigit
  split
  · next hc =>
    dsimp only
    split <;> simp_all <;> omega
  · next hc => simp [hc]

/-- Digits can only make a number greater. -/
theorem le_ofDigitChars (ds : List Char) (n : Nat) : n ≤ Nat.ofDigitChars 10 ds n := by
  induction ds generalizing n with
  | nil => simp
  | cons c ds ih =>
    rw [Nat.ofDigitChars_cons]
    exact Nat.le_trans (by omega) (ih _)

theorem foldlM_appendDigit_eq_some_iff {bound n m : Nat} {ds : List Char} (h : n ≤ bound) :
    ds.foldlM (appendDigit bound) n = some m ↔
      (∀ c ∈ ds, c.isDigit = true) ∧ Nat.ofDigitChars 10 ds n = m ∧ m ≤ bound := by
  induction ds generalizing n with
  | nil => simp; omega
  | cons c ds ih =>
    rw [List.foldlM_cons, Option.bind_eq_bind, Option.bind_eq_some_iff]
    constructor
    · rintro ⟨k, hk, hm⟩
      obtain ⟨hc, rfl, hb⟩ := appendDigit_eq_some_iff.1 hk
      obtain ⟨hd, hv, hm⟩ := (ih hb).1 hm
      exact ⟨by simpa [hc] using hd, by rw [Nat.ofDigitChars_cons]; exact hv, hm⟩
    · rintro ⟨hd, hv, hm⟩
      rw [Nat.ofDigitChars_cons] at hv
      have hb := le_ofDigitChars ds (10 * n + (c.toNat - '0'.toNat))
      have hb : 10 * n + (c.toNat - '0'.toNat) ≤ bound := by omega
      exact ⟨_, appendDigit_eq_some_iff.2 ⟨hd c (by simp), rfl, hb⟩,
        (ih hb).2 ⟨fun d hm => hd d (by simp [hm]), hv, hm⟩⟩

/-- Digits are read as the number they denote, unless there are none or it passes the bound. -/
theorem readNat_eq_some_iff {bound n : Nat} {ds : List Char} :
    readNat bound ds = some n ↔
      ds ≠ [] ∧ (∀ c ∈ ds, c.isDigit = true) ∧ Nat.ofDigitChars 10 ds 0 = n ∧ n ≤ bound := by
  unfold readNat
  cases ds with
  | nil => simp
  | cons c ds =>
    rw [List.isEmpty_cons, if_neg (by simp), foldlM_appendDigit_eq_some_iff (Nat.zero_le bound)]
    simp

/-- The digits of a number are read as that number. -/
theorem readNat_writeNat {bound n : Nat} (h : n ≤ bound) : readNat bound (writeNat n) = some n :=
  readNat_eq_some_iff.2 ⟨Nat.toDigits_ne_nil,
    fun _ hc => Nat.isDigit_of_mem_toDigits (by decide) (by decide) hc,
    Nat.ofDigitChars_ten_toDigits, h⟩

/-- The digits of a number do not begin with a sign. -/
theorem writeNat_head (n : Nat) : (writeNat n).head? ≠ some '-' := by
  intro h
  have hd := Nat.isDigit_of_mem_toDigits (b := 10) (n := n) (by decide) (by decide)
    (List.mem_of_mem_head? h)
  revert hd
  decide

/-- The numeral of a value is read as that value. -/
@[simp] theorem read_write (v : Int32) : read (write v) = some v := by
  have hmin := v.le_toInt
  have hmax := v.toInt_lt
  unfold read write
  by_cases hv : v < 0
  · have hneg : v.toInt < 0 := by simpa [Int32.lt_iff_toInt_lt] using hv
    have hread := readNat_writeNat (show v.toInt.natAbs ≤ 0x80000000 by omega)
    simp only [if_pos hv, String.toList_ofList, hread, Option.map_some, Option.some.injEq]
    rw [show (-(v.toInt.natAbs : Int)) = v.toInt by omega, Int32.ofInt_toInt]
  · have hnonneg : 0 ≤ v.toInt := by simpa [Int32.lt_iff_toInt_lt] using hv
    simp only [if_neg hv, String.toList_ofList]
    split
    · next ds hds => exact absurd (by rw [hds]; rfl) (writeNat_head v.toInt.natAbs)
    · rw [readNat_writeNat (by omega)]
      simp only [Option.map_some, Option.some.injEq]
      rw [← Int32.ofInt_eq_ofNat, show (v.toInt.natAbs : Int) = v.toInt by omega,
        Int32.ofInt_toInt]

end ChainMachine.Numeral
