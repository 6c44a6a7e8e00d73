import ChainMachine.Proofs.Rules

/-!
# The language of numerals

Which words are numerals, and for which integer each of them stands, without a reader that goes
through their digits.

* `Numeral.Denotes`: a word stands for an integer;
* `Numeral.integer?_eq_some_iff`: the integer that is found in a word is the one it stands for;
* `Numeral.operand?_eq_some_iff`: an operand is taken exactly when it stands for an integer of 32
  bits.
-/

namespace ChainMachine.Numeral

/-- A word stands for an integer: it consists of ASCII digits, of which there is at least one, with
a minus sign before them or without.  Zeros may come first. -/
inductive Denotes : List Char → Int → Prop
  | plain {digits : List Char} (some_digit : digits ≠ [])
    (only_digits : ∀ c ∈ digits, c.isDigit = true) :
    Denotes digits (Nat.ofDigitChars 10 digits 0)
  | negative {digits : List Char} (some_digit : digits ≠ [])
    (only_digits : ∀ c ∈ digits, c.isDigit = true) :
    Denotes ('-' :: digits) (-(Nat.ofDigitChars 10 digits 0 : Int))

variable {cs digits : List Char} {word : String} {n : Int} {v : Int32}

/-- The sign is no digit, so that a word has one of the two forms only. -/
theorem head?_ne_sign (h : ∀ c ∈ digits, c.isDigit = true) : digits.head? ≠ some '-' := by
  intro hsign
  have hdigit := h '-' (List.mem_of_mem_head? hsign)
  revert hdigit
  decide

theorem integer?_eq_some_iff : Rule.integer? cs = some n ↔ Denotes cs n := by
  constructor
  · intro h
    by_cases hsign : cs.head? = some '-'
    · obtain ⟨digits, rfl⟩ := List.head?_eq_some_iff.1 hsign
      obtain ⟨k, hk, rfl⟩ := Option.map_eq_some_iff.1 h
      obtain ⟨hne, hdigits, rfl⟩ := Rule.natural?_eq_some_iff.1 hk
      exact .negative hne hdigits
    · rw [Rule.integer?_of_head? hsign] at h
      obtain ⟨k, hk, rfl⟩ := Option.map_eq_some_iff.1 h
      obtain ⟨hne, hdigits, rfl⟩ := Rule.natural?_eq_some_iff.1 hk
      exact .plain hne hdigits
  · intro h
    cases h with
    | plain hne hdigits =>
      rw [Rule.integer?_of_head? (head?_ne_sign hdigits),
        Rule.natural?_eq_some_iff.2 ⟨hne, hdigits, rfl⟩, Option.map_some]
    | negative hne hdigits =>
      rw [Rule.integer?, Rule.natural?_eq_some_iff.2 ⟨hne, hdigits, rfl⟩, Option.map_some]

/-- An operand is taken for a value exactly when it stands for that value. -/
theorem operand?_eq_some_iff : Rule.operand? word = some v ↔ Denotes word.toList v.toInt := by
  have hmax : Int32.maxValue.toInt + 1 = 2 ^ 31 := by decide
  rw [Rule.operand?, Option.bind_eq_some_iff]
  constructor
  · rintro ⟨n, hn, hv⟩
    split at hv
    · next hrange =>
      cases hv
      rw [Int32.toInt_ofInt_of_le hrange.1 (hmax ▸ Int.lt_add_one_of_le hrange.2)]
      exact integer?_eq_some_iff.1 hn
    · cases hv
  · intro h
    refine ⟨v.toInt, integer?_eq_some_iff.2 h, ?_⟩
    rw [if_pos ⟨v.minValue_le_toInt, v.toInt_le⟩, Int32.ofInt_toInt]

end ChainMachine.Numeral
