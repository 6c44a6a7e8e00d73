/-!
# Decimal numerals

Signed 32-bit integers in decimal notation.

* `Numeral.read`: a sign `-` that may be missing, then one or more ASCII digits,
  with a value in the 32-bit range; leading zeros are allowed;
* `Numeral.write`: the shortest numeral of a value.
-/

namespace ChainMachine.Numeral

/-- The number that a digit makes with the digits before it, unless it passes the bound. -/
def appendDigit (bound : Nat) (n : Nat) (c : Char) : Option Nat :=
  if c.isDigit then
    let m := 10 * n + (c.toNat - '0'.toNat)
    if m ≤ bound then some m else none
  else none

/-- The number that one or more digits denote, unless it passes the bound. -/
def readNat (bound : Nat) (digits : List Char) : Option Nat :=
  if digits.isEmpty then none else digits.foldlM (appendDigit bound) 0

/-- The value of a numeral. -/
def read (s : String) : Option Int32 :=
  match s.toList with
  | '-' :: digits => (readNat 0x80000000 digits).map fun n : Nat => Int32.ofInt (-n)
  | digits => (readNat 0x7FFFFFFF digits).map Int32.ofNat

/-- The digits of a natural number, without leading zeros. -/
def writeNat (n : Nat) : List Char := Nat.toDigits 10 n

/-- The shortest numeral of a value. -/
def write (v : Int32) : String :=
  let digits := writeNat v.toInt.natAbs
  String.ofList (if v < 0 then '-' :: digits else digits)

end ChainMachine.Numeral
