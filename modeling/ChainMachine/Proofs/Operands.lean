import ChainMachine.Proofs.Numerals
import ChainMachine.Proofs.ReadBack
import ChainMachine.Proofs.Reduction

/-!
# Operands and what is printed for them

Which words are accepted as operands, and how their values are printed.  An integer has many
numerals when zeros may come first; it is printed as the only one among them that has no zero in
front.

* `Numeral.Canonical`: no zero comes first, unless zero itself is meant;
* `Numeral.writeNat_ofDigitChars`, `Numeral.denotes_canonical_iff`: the numeral of an integer is
  the only one of this kind;
* `Numeral.read_eq_some_iff`, `Numeral.read_eq_none_iff`: which words are read;
* `Opcode.handler_push`, `Opcode.carryOut_push_pint`: an operand is pushed, and printed;
* `Numeral.read_exact`: all of this about one word.
-/

namespace ChainMachine

namespace Numeral

variable {cs digits : List Char} {word : String} {n : Int} {k : Nat} {c : Char}

/-! ### Numerals without zeros in front -/

/-- The numeral is that of zero, or no zero comes first in it, with a sign before or without. -/
def Canonical (cs : List Char) : Prop := cs = ['0'] ∨ ¬['0'] <+: cs ∧ ¬['-', '0'] <+: cs

instance (cs : List Char) : Decidable (Canonical cs) :=
  inferInstanceAs (Decidable (cs = ['0'] ∨ ¬['0'] <+: cs ∧ ¬['-', '0'] <+: cs))

/-- A digit is the one that is written for its value. -/
theorem digitChar_of_isDigit (h : c.isDigit = true) :
    c.toNat - '0'.toNat < 10 ∧ Nat.digitChar (c.toNat - '0'.toNat) = c := by
  obtain ⟨hlow, hhigh⟩ := Char.isDigit_iff_toNat.1 h
  have hzero : '0'.toNat = 48 := rfl
  have hnine : '9'.toNat = 57 := rfl
  have hlt : c.toNat - '0'.toNat < 10 := by omega
  refine ⟨hlt, Char.toNat_inj.1 ?_⟩
  rw [Nat.toNat_digitChar_of_lt_ten hlt]
  omega

/-- Digits that do not begin with a zero are those of the number that they denote. -/
theorem writeNat_ofDigitChars (hne : digits ≠ []) (hdigits : ∀ c ∈ digits, c.isDigit = true)
    (hzero : digits.head? ≠ some '0') : writeNat (Nat.ofDigitChars 10 digits 0) = digits := by
  unfold writeNat
  -- the last digit is the remainder by ten
  induction digits using List.reverseRecOn with
  | nil => exact absurd rfl hne
  | append_singleton start c ih =>
    rw [List.forall_mem_append, List.forall_mem_singleton] at hdigits
    obtain ⟨hlt, hchar⟩ := digitChar_of_isDigit hdigits.2
    have hlast := Nat.toDigits_of_lt_base hlt
    rw [hchar] at hlast
    rw [Nat.ofDigitChars_append, Nat.ofDigitChars_cons, Nat.ofDigitChars_nil]
    by_cases hstart : start = []
    · rw [hstart, Nat.ofDigitChars_nil, Nat.mul_zero, Nat.zero_add, hlast, List.nil_append]
    · rw [List.head?_append_of_ne_nil _ hstart] at hzero
      have ih := ih hstart hdigits.1 hzero
      have hpos : 0 < Nat.ofDigitChars 10 start 0 := by
        apply Nat.pos_of_ne_zero
        intro hnone
        rw [hnone, Nat.toDigits_zero] at ih
        rw [← ih] at hzero
        exact hzero rfl
      rw [← Nat.toDigits_append_toDigits (by decide) hpos hlt, ih, hlast]

/-- The digits of a number do not begin with a zero, unless it is zero. -/
theorem head?_writeNat (h : 0 < k) : (writeNat k).head? ≠ some '0' := by
  unfold writeNat
  induction k using Nat.strongRecOn with
  | ind k ih =>
    by_cases hlt : k < 10
    · rw [Nat.toDigits_of_lt_base hlt, List.head?_cons, Ne, Option.some_inj,
        Nat.digitChar_eq_zero]
      omega
    · have hrest : 0 < k / 10 := by omega
      rw [← Nat.div_add_mod k 10,
        ← Nat.toDigits_append_toDigits (by decide) hrest (Nat.mod_lt k (by decide)),
        List.head?_append_of_ne_nil _ Nat.toDigits_ne_nil]
      exact ih (k / 10) (by omega) hrest

theorem toList_toString_natCast (k : Nat) : (toString (k : Int)).toList = writeNat k := by
  show (String.ofList (Nat.toDigits 10 k)).toList = writeNat k
  rw [String.toList_ofList, writeNat]

theorem toList_toString_neg (h : 0 < k) : (toString (-(k : Int))).toList = '-' :: writeNat k := by
  obtain ⟨k, rfl⟩ := Nat.exists_eq_succ_of_ne_zero (Nat.ne_of_gt h)
  show ("-" ++ String.ofList (Nat.toDigits 10 (k + 1))).toList = '-' :: writeNat (k + 1)
  rw [String.toList_append]
  exact congrArg ('-' :: ·) String.toList_ofList

theorem denotes_writeNat (k : Nat) :
    Denotes (writeNat k) k ∧ Denotes ('-' :: writeNat k) (-(k : Int)) := by
  have hdigits : ∀ c ∈ writeNat k, c.isDigit = true := fun c hc =>
    Nat.isDigit_of_mem_toDigits (by decide) (by decide) hc
  have hne : writeNat k ≠ [] := Nat.toDigits_ne_nil
  have hvalue : Nat.ofDigitChars 10 (writeNat k) 0 = k := Nat.ofDigitChars_ten_toDigits
  have hplain := Denotes.plain hne hdigits
  have hnegative := Denotes.negative hne hdigits
  rw [hvalue] at hplain hnegative
  exact ⟨hplain, hnegative⟩

/-- The numeral that is written for an integer stands for it and has no zero in front. -/
theorem denotes_toString (n : Int) :
    Denotes (toString n).toList n ∧ Canonical (toString n).toList := by
  rcases Int.eq_nat_or_neg n with ⟨k, rfl | rfl⟩
  · rw [toList_toString_natCast]
    refine ⟨(denotes_writeNat k).1, ?_⟩
    rcases Nat.eq_zero_or_pos k with rfl | hk
    · exact .inl (by decide)
    · refine .inr ⟨fun h => ?_, fun h => ?_⟩
      · exact head?_writeNat hk (List.singleton_prefix_iff_head?_eq_some.1 h)
      · have hsign : ['-'] <+: writeNat k := (List.prefix_append ['-'] ['0']).trans h
        exact writeNat_head k (List.singleton_prefix_iff_head?_eq_some.1 hsign)
  · rcases Nat.eq_zero_or_pos k with rfl | hk
    · exact ⟨(denotes_writeNat 0).1, by decide⟩
    · rw [toList_toString_neg hk]
      refine ⟨(denotes_writeNat k).2, .inr ⟨by simp, fun h => ?_⟩⟩
      have hdigits := (List.cons_prefix_cons.1 h).2
      exact head?_writeNat hk (List.singleton_prefix_iff_head?_eq_some.1 hdigits)

/-- Among the numerals that stand for an integer, one has no zero in front. -/
theorem denotes_canonical_iff : Denotes cs n ∧ Canonical cs ↔ cs = (toString n).toList := by
  constructor
  · rintro ⟨hdenotes, hcanonical⟩
    cases hdenotes with
    | plain hne hdigits =>
      rw [toList_toString_natCast]
      rcases hcanonical with rfl | ⟨hzero, -⟩
      · decide
      · rw [List.singleton_prefix_iff_head?_eq_some] at hzero
        exact (writeNat_ofDigitChars hne hdigits hzero).symm
    | @negative digits hne hdigits =>
      rcases hcanonical with hzero | ⟨-, hzero⟩
      · simp at hzero
      · have hhead : digits.head? ≠ some '0' := fun h =>
          hzero (List.cons_prefix_cons.2 ⟨rfl, List.singleton_prefix_iff_head?_eq_some.2 h⟩)
        have hwrite := writeNat_ofDigitChars hne hdigits hhead
        have hpos : 0 < Nat.ofDigitChars 10 digits 0 := by
          apply Nat.pos_of_ne_zero
          intro hnone
          rw [hnone] at hwrite
          exact hhead (by rw [← hwrite]; rfl)
        rw [toList_toString_neg hpos, hwrite]
  · rintro rfl
    exact denotes_toString n

/-! ### Words that are read -/

theorem read_eq_some_iff {v : Int32} : read word = some v ↔ Denotes word.toList v.toInt := by
  rw [← Rule.operand?_eq_read, operand?_eq_some_iff]

/-- A word is read as an integer exactly when it stands for that integer and that has 32 bits. -/
theorem map_read_eq_some_iff :
    (read word).map Int32.toInt = some n ↔
      Denotes word.toList n ∧ -2 ^ 31 ≤ n ∧ n ≤ 2 ^ 31 - 1 := by
  rw [Option.map_eq_some_iff]
  constructor
  · rintro ⟨v, hread, rfl⟩
    exact ⟨read_eq_some_iff.1 hread, v.le_toInt, Int.le_sub_one_of_lt v.toInt_lt⟩
  · rintro ⟨hdenotes, hlow, hhigh⟩
    have hn : (Int32.ofInt n).toInt = n :=
      Int32.toInt_ofInt_of_le hlow (Int.lt_of_le_sub_one hhigh)
    exact ⟨Int32.ofInt n, read_eq_some_iff.2 (hn.symm ▸ hdenotes), hn⟩

theorem read_eq_none_iff :
    read word = none ↔ ∀ n, Denotes word.toList n → ¬(-2 ^ 31 ≤ n ∧ n ≤ 2 ^ 31 - 1) := by
  rw [← Option.map_eq_none_iff (f := Int32.toInt), Option.eq_none_iff_forall_ne_some]
  simp only [Ne, map_read_eq_some_iff, not_and]

example : ["", "-", "+3", "--1", "3-", " 3", "٣", "1e3", "2147483648", "-2147483649"].all
    (read · = none) := by
  decide

end Numeral

/-! ### Pushing and printing -/

namespace Opcode

variable {c : Chain} {s : Contents} {ctx : Context} {v : Int32}

/-- An operand that is read as a value is pushed, where there is room for it. -/
theorem handler_push (h : c.Holds s) (hread : ctx.operands.head?.bind Numeral.read = some v)
    (hroom : ∀ bound ∈ ctx.slotLimit, s.values.length < bound) (sink : Sink) :
    ∃ d, push.handler ctx c sink = .ok (.proceed d sink) ∧
      d.Holds { s with values := v :: s.values } := by
  obtain ⟨d, hpush, hd⟩ := h.exists_push v hroom
  refine ⟨d, ?_, hd⟩
  simp only [handler, Builtin.push, hread, hpush, Checked.ok_bind]
  rfl

/-- Pushing an operand that is read as a value and printing the head prints the value. -/
theorem carryOut_push_pint (h : c.Holds s)
    (hread : ctx.operands.head?.bind Numeral.read = some v)
    (hroom : ∀ bound ∈ ctx.slotLimit, s.values.length < bound) (ctx' : Context) {sink : Sink}
    (hlimit : sink.limit = none) :
    ∃ d, d.Holds { s with values := v :: s.values } ∧
      carryOut c sink [(.push, ctx), (.pint, ctx')] =
        .ok (.proceed d { sink with written := sink.written ++ Rule.line v }) := by
  obtain ⟨d, hpush, hd⟩ := handler_push h hread hroom sink
  have hpint : pint.handler ctx' d sink =
      .ok (.proceed d { sink with written := sink.written ++ Rule.line v }) := by
    rw [handler, Builtin.pint_eq hd rfl, Reply.printed_write hlimit]
  refine ⟨d, hd, carryOut_cons_eq_proceed_iff.2 ⟨d, sink, hpush, ?_⟩⟩
  exact carryOut_cons_eq_proceed_iff.2 ⟨d, _, hpint, rfl⟩

end Opcode

/-- A word is read as an integer exactly when it consists of ASCII digits, of which there is at
least one, with a minus sign before them or without, and stands for that integer, and this has 32
bits; no other word is read.  An integer is written as the only word without zeros in front that
stands for it.  So whatever operand is pushed onto a chain that has room for it, printing the head
writes the numeral without zeros in front; when the operand is that numeral, it is written as it
stands. -/
theorem Numeral.read_exact (word : String) :
    (∀ n : Int, (read word).map Int32.toInt = some n ↔
      Denotes word.toList n ∧ -2 ^ 31 ≤ n ∧ n ≤ 2 ^ 31 - 1) ∧
    (read word = none ↔ ∀ n, Denotes word.toList n → ¬(-2 ^ 31 ≤ n ∧ n ≤ 2 ^ 31 - 1)) ∧
    (∀ v : Int32, read word = some v ∧ Canonical word.toList ↔ word = toString v.toInt) ∧
    (∀ (v : Int32) (c : Chain) (ctx ctx' : Context) (sink : Sink), read word = some v →
      c.Reachable → ctx.operands.head? = some word →
      (∀ bound ∈ ctx.slotLimit, c.length < bound) → sink.limit = none →
      ∃ d, d.values = c.values.map (v :: ·) ∧
        Opcode.carryOut c sink [(.push, ctx), (.pint, ctx')] =
          .ok (.proceed d
            { sink with written := sink.written ++ Utf8.encode (toString v.toInt ++ "\n") })) := by
  refine ⟨fun n => map_read_eq_some_iff, read_eq_none_iff, fun v => ?_, ?_⟩
  · rw [read_eq_some_iff, denotes_canonical_iff, String.toList_inj]
  · intro v c ctx ctx' sink hread hc hword hroom hlimit
    obtain ⟨s, hs⟩ := hc.exists_holds
    rw [hs.length_eq] at hroom
    obtain ⟨d, hd, hprinted⟩ :=
      Opcode.carryOut_push_pint hs (by rw [hword]; exact hread) hroom ctx' hlimit
    refine ⟨d, ?_, hprinted⟩
    rw [hd.values_eq, hs.values_eq]
    rfl

/-- The numeral -00120 is accepted where there is room for one value more, and printed as -120. -/
theorem Numeral.read_exact_of_zeros :
    ∃ (c d : Chain) (ctx ctx' : Context),
      read "-00120" = some (-120) ∧ ¬Canonical "-00120".toList ∧ c.Reachable ∧
      ctx.operands.head? = some "-00120" ∧ (∀ bound ∈ ctx.slotLimit, c.length < bound) ∧
      d.values = .ok [-120, 7] ∧
      Opcode.carryOut c {} [(.push, ctx), (.pint, ctx')] =
        .ok (.proceed d { written := (#[] : Array UInt8) ++ Utf8.encode "-120\n" }) := by
  let c : Chain :=
    { storage := { slots := #[some ⟨7, none, none⟩] }, head := some 0, length := 1, mode := .queue }
  let ctx : Context := { line := 1, operands := ["-00120", "x"], slotLimit := some 2 }
  have hc : c.Reachable := ⟨.queue, Schedule.unbounded [.push 7], [.done], by decide⟩
  have hread : read "-00120" = some (-120) := by decide
  have hroom : ∀ bound ∈ ctx.slotLimit, c.length < bound := by simp [c, ctx]
  obtain ⟨d, hd, hprinted⟩ := (read_exact "-00120").2.2.2 (-120) c ctx { line := 2, operands := [] }
    {} hread hc rfl hroom rfl
  exact ⟨c, d, ctx, _, hread, by decide, hc, rfl, hroom, hd, hprinted⟩

end ChainMachine
