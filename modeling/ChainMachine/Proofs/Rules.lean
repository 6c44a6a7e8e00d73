import ChainMachine.Instruction.Builtin
import ChainMachine.Proofs.Contents
import ChainMachine.Text.Numeral.Lemmas
import ChainMachine.Text.Utf8.Lemmas

/-!
# The rules of the instructions

What each instruction does to the contents of a chain and what it prints, without
any chain.  Arithmetic is that of the integers, brought back into the 32-bit range
at the end.

* `Rule.natural?`, `Rule.integer?`, `Rule.operand?`: the value of an operand;
* `Rule.line`, `Rule.code`: what is printed for a value;
* `Rule.combine`, `Rule.divide`: the rules of arithmetic;
* `Opcode.rule`: the rule of an opcode;
* `Rule.operand?_eq_read`, `Rule.line_eq_outputLine`, `Rule.ofInt_tdiv`, …: how the
  handlers come to the same values and texts.
-/

namespace ChainMachine

namespace Rule

/-! ### Operands and output -/

/-- The number that one or more ASCII digits denote. -/
def natural? (digits : List Char) : Option Nat :=
  if !digits.isEmpty && digits.all Char.isDigit then some (Nat.ofDigitChars 10 digits 0)
  else none

/-- The integer that digits denote, with a minus sign before them or without. -/
def integer? : List Char → Option Int
  | '-' :: digits => (natural? digits).map fun n : Nat => -(n : Int)
  | digits => (natural? digits).map fun n : Nat => (n : Int)

/-- The value of an operand: an integer in the 32-bit range. -/
def operand? (word : String) : Option Int32 :=
  (integer? word.toList).bind fun n =>
    if Int32.minValue.toInt ≤ n ∧ n ≤ Int32.maxValue.toInt then some (Int32.ofInt n) else none

/-- A value in decimal notation, as a line of its own. -/
def line (v : Int32) : List UInt8 := Utf8.encode (toString v.toInt ++ "\n")

/-- The byte whose number is a value. -/
def code (v : Int32) : UInt8 := UInt8.ofNat v.toInt.toNat

/-! ### Arithmetic -/

/-- The first two values give way to one, which `f` makes of the second and the first. -/
def combine (opcode : String) (f : Int → Int → Int) (number : Nat) (s : Contents) :
    Except Diagnostic (Contents × List UInt8) :=
  match s.values with
  | b :: a :: rest => .ok ({ s with values := Int32.ofInt (f a.toInt b.toInt) :: rest }, [])
  | _ => .error (.underflow number opcode 2)

/-- The same where the first value must not be zero; two values are asked for first. -/
def divide (opcode : String) (f : Int → Int → Int) (number : Nat) (s : Contents) :
    Except Diagnostic (Contents × List UInt8) :=
  match s.values with
  | 0 :: _ :: _ => .error (.divisionByZero number)
  | _ => combine opcode f number s

end Rule

open Rule in
/-- What an instruction on the line with the given number makes of the contents, and what it
prints; or why it fails. -/
def Opcode.rule (number : Nat) (operands : List String) (s : Contents) :
    Opcode → Except Diagnostic (Contents × List UInt8)
  | push =>
    match operands.head?.bind operand? with
    | none => .error (.invalidOperand number)
    | some v => .ok ({ s with values := v :: s.values }, [])
  | pall => .ok (s, s.values.flatMap line)
  | pint =>
    match s.values with
    | [] => .error (.underflow number "pint" 1)
    | b :: _ => .ok (s, line b)
  | pop => if s.values = [] then .error (.underflow number "pop" 1) else .ok (s.pop.2, [])
  | swap =>
    if s.values.length < 2 then .error (.underflow number "swap" 2)
    else .ok ({ s with values := Contents.exchange s.values }, [])
  | add => combine "add" (fun a b => a + b) number s
  | sub => combine "sub" (fun a b => a - b) number s
  | mul => combine "mul" (fun a b => a * b) number s
  | div => divide "div" Int.tdiv number s
  | mod => divide "mod" Int.tmod number s
  | pchar =>
    match s.values with
    | [] => .error (.underflow number "pchar" 1)
    | b :: _ =>
      if 0 ≤ b.toInt ∧ b.toInt ≤ 127 then .ok (s, [code b, 0x0A])
      else .error (.invalidCharacterCode number b)
  | pstr =>
    .ok (s, (s.values.takeWhile fun v => 1 ≤ v.toInt ∧ v.toInt ≤ 127).map code ++ [0x0A])
  | rotl => .ok ({ s with values := Contents.headLast s.values }, [])
  | rotr => .ok ({ s with values := Contents.lastFirst s.values }, [])
  | stack => .ok ({ s with mode := .stack }, [])
  | queue => .ok ({ s with mode := .queue }, [])
  | nop => .ok (s, [])

namespace Rule

/-! ### Numerals -/

theorem natural?_eq_some_iff {digits : List Char} {n : Nat} :
    natural? digits = some n ↔
      digits ≠ [] ∧ (∀ c ∈ digits, c.isDigit = true) ∧ Nat.ofDigitChars 10 digits 0 = n := by
  unfold natural?
  split
  · next h =>
    rw [Bool.and_eq_true, List.all_eq_true] at h
    have hne : digits ≠ [] := by simpa using h.1
    rw [Option.some_inj]
    constructor
    · intro hn
      exact ⟨hne, h.2, hn⟩
    · rintro ⟨-, -, hn⟩
      exact hn
  · next h =>
    constructor
    · intro hn
      cases hn
    · rintro ⟨hne, hdigits, -⟩
      apply absurd _ h
      simpa [hne] using hdigits

/-- Digits are read up to a bound as the number they denote, if that is within the bound. -/
theorem readNat_eq (bound : Nat) (digits : List Char) :
    Numeral.readNat bound digits =
      (natural? digits).bind fun n => if n ≤ bound then some n else none := by
  apply Option.ext
  intro n
  rw [Numeral.readNat_eq_some_iff, Option.bind_eq_some_iff]
  constructor
  · rintro ⟨hne, hdigits, hn, hle⟩
    exact ⟨n, natural?_eq_some_iff.2 ⟨hne, hdigits, hn⟩, if_pos hle⟩
  · rintro ⟨k, hk, hn⟩
    obtain ⟨hne, hdigits, rfl⟩ := natural?_eq_some_iff.1 hk
    split at hn
    · next hle =>
      cases hn
      exact ⟨hne, hdigits, rfl, hle⟩
    · cases hn

/-- Whatever is made of a number that is read up to a bound, it is made of numbers within it. -/
theorem map_readNat {α : Type} (bound : Nat) (digits : List Char) (f : Nat → α) :
    (Numeral.readNat bound digits).map f =
      (natural? digits).bind fun n => if n ≤ bound then some (f n) else none := by
  rw [readNat_eq, Option.map_bind]
  congr 1
  funext n
  rw [Function.comp_apply]
  split <;> rfl

theorem integer?_of_head? {cs : List Char} (h : cs.head? ≠ some '-') :
    integer? cs = (natural? cs).map fun n : Nat => (n : Int) := by
  unfold integer?
  split
  · exact absurd rfl h
  · rfl

theorem read_of_head? {word : String} (h : word.toList.head? ≠ some '-') :
    Numeral.read word = (Numeral.readNat 0x7FFFFFFF word.toList).map Int32.ofNat := by
  unfold Numeral.read
  split
  · next hcs =>
    rw [hcs] at h
    exact absurd rfl h
  · rfl

/-- The bounds on either side of zero make one range of integers. -/
theorem operand?_eq_read (word : String) : operand? word = Numeral.read word := by
  have hmin : Int32.minValue.toInt = -0x80000000 := by decide
  have hmax : Int32.maxValue.toInt = 0x7FFFFFFF := by decide
  unfold operand?
  by_cases h : word.toList.head? = some '-'
  · obtain ⟨digits, hdigits⟩ := List.head?_eq_some_iff.1 h
    unfold integer? Numeral.read
    simp only [hdigits]
    rw [map_readNat, Option.bind_map]
    apply congrArg
    funext n
    rw [Function.comp_apply]
    -- below zero the range has one number more
    by_cases hn : n ≤ 0x80000000
    · rw [if_pos (by omega), if_pos hn]
    · rw [if_neg (by omega), if_neg hn]
  · rw [integer?_of_head? h, read_of_head? h, map_readNat, Option.bind_map]
    apply congrArg
    funext n
    rw [Function.comp_apply]
    by_cases hn : n ≤ 0x7FFFFFFF
    · rw [if_pos (by omega), if_pos hn, Int32.ofInt_eq_ofNat]
    · rw [if_neg (by omega), if_neg hn]

/-- The digits of an integer stand behind its sign. -/
theorem write_eq (v : Int32) : Numeral.write v = toString v.toInt := by
  unfold Numeral.write Numeral.writeNat
  dsimp only
  by_cases hv : v < 0
  · have hneg : v.toInt < 0 := by simpa [Int32.lt_iff_toInt_lt] using hv
    rw [if_pos hv]
    obtain ⟨n, hn⟩ := Int.eq_negSucc_of_lt_zero hneg
    rw [hn, ← List.singleton_append, String.ofList_append]
    rfl
  · have hnonneg : 0 ≤ v.toInt := by simpa [Int32.lt_iff_toInt_lt] using hv
    rw [if_neg hv]
    obtain ⟨n, hn⟩ := Int.eq_ofNat_of_zero_le hnonneg
    rw [hn]
    rfl

theorem line_eq (v : Int32) : line v = Builtin.outputLine (Numeral.write v) := by
  rw [line, Builtin.outputLine, write_eq]

/-! ### Characters -/

theorem isAscii_iff {v : Int32} : Builtin.isAscii v = true ↔ 0 ≤ v.toInt ∧ v.toInt ≤ 127 := by
  simp [Builtin.isAscii, Int32.le_iff_toInt_le]

theorem isText_iff {v : Int32} : Builtin.isText v = true ↔ 1 ≤ v.toInt ∧ v.toInt ≤ 127 := by
  simp [Builtin.isText, Int32.le_iff_toInt_le]

theorem isText_of_mem_takeWhile {values : List Int32} {v : Int32}
    (h : v ∈ values.takeWhile fun v => 1 ≤ v.toInt ∧ v.toInt ≤ 127) :
    1 ≤ v.toInt ∧ v.toInt ≤ 127 := by
  simpa using List.all_eq_true.1 List.all_takeWhile v h

/-- A character of ASCII is one byte. -/
theorem encodeChar_toChar {v : Int32} (h : 0 ≤ v.toInt) (h' : v.toInt ≤ 127) :
    String.utf8EncodeChar (Builtin.toChar v) = [code v] := by
  have hvalid : v.toInt.toNat.isValidChar := Or.inl (by omega)
  have hval : (Builtin.toChar v).val.toNat = v.toInt.toNat := by
    rw [Builtin.toChar, Char.ofNat, dif_pos hvalid]
    rfl
  unfold String.utf8EncodeChar
  dsimp only
  rw [hval, if_pos (by omega)]
  rfl

theorem toNat_code {v : Int32} (h : 0 ≤ v.toInt) (h' : v.toInt ≤ 127) :
    ((code v).toNat : Int) = v.toInt := by
  have hlt : v.toInt.toNat < 256 := by omega
  rw [code, UInt8.toNat_ofNat_of_lt' hlt, Int.toNat_of_nonneg h]

theorem outputLine_ofList (values : List Int32)
    (h : ∀ v ∈ values, 0 ≤ v.toInt ∧ v.toInt ≤ 127) :
    Builtin.outputLine (String.ofList (values.map Builtin.toChar)) = values.map code ++ [0x0A] := by
  rw [Builtin.outputLine, Utf8.encode_append, Utf8.encode_ofList]
  congr 1
  induction values with
  | nil => rfl
  | cons v values ih =>
    obtain ⟨hlow, hhigh⟩ := h v (by simp)
    rw [List.map_cons, List.flatMap_cons, encodeChar_toChar hlow hhigh,
      ih fun w hw => h w (by simp [hw])]
    rfl

/-! ### Arithmetic -/

/-- The one quotient out of range, that of the least value by -1, is the least value again. -/
theorem ofInt_tdiv (a b : Int32) : Int32.ofInt (a.toInt.tdiv b.toInt) = a / b := by
  rw [Int32.ofInt_tdiv a.minValue_le_toInt a.toInt_le b.minValue_le_toInt b.toInt_le,
    Int32.ofInt_toInt, Int32.ofInt_toInt]

theorem ofInt_tmod (a b : Int32) : Int32.ofInt (a.toInt.tmod b.toInt) = a % b := by
  rw [Int32.ofInt_tmod a.minValue_le_toInt a.toInt_le b.minValue_le_toInt b.toInt_le,
    Int32.ofInt_toInt, Int32.ofInt_toInt]

end Rule

end ChainMachine
