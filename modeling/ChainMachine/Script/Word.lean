import ChainMachine.Fault

/-!
# Words of a line

A line is read byte by byte.  A word is a longest run of bytes that are not
delimiters; as delimiters are ASCII characters, a word of well-formed text is
well-formed text again.

* `isDelimiter`: space, newline, tab, carriage return, bell, backspace;
* `Scanner`: a text with a cursor into its bytes;
* `Scanner.next`: the next word, if one is left;
* `Scanner.words`: all the words that are left.
-/

namespace ChainMachine

/-- The bytes that separate words. -/
def isDelimiter (b : UInt8) : Bool :=
  b == 0x20 || b == 0x0A || b == 0x09 || b == 0x0D || b == 0x07 || b == 0x08

/-- A text and the number of its bytes that have been read. -/
structure Scanner where
  text : String
  cursor : Nat := 0
  deriving DecidableEq, Repr

namespace Scanner

/-- The byte of a text at a position. -/
def byte? (text : String) (i : Nat) : Option UInt8 :=
  if h : (⟨i⟩ : String.Pos.Raw) < text.rawEndPos then some (text.getUTF8Byte ⟨i⟩ h) else none

theorem lt_of_byte?_eq_some {text : String} {i : Nat} {b : UInt8} (h : byte? text i = some b) :
    i < text.utf8ByteSize := by
  unfold byte? at h
  split at h
  next hi => exact hi
  next => cases h

/-- The part of a text between two positions, which have to fall between characters. -/
def slice (text : String) (start stop : Nat) : Checked String :=
  if h : String.Pos.Raw.IsValid text ⟨start⟩ ∧ String.Pos.Raw.IsValid text ⟨stop⟩ then
    .ok (text.extract (text.pos ⟨start⟩ h.1) (text.pos ⟨stop⟩ h.2))
  else .error (.splitCharacter start stop)

/-- The position before a byte that has been read. -/
def stepBack (i : Nat) : Checked Nat :=
  match i with
  | 0 => .error .cursorUnderflow
  | i + 1 => .ok i

/-- The first position from `i` on that is not at a delimiter. -/
def skipDelimiters (text : String) (i : Nat) : Nat :=
  match h : byte? text i with
  | none => i
  | some b => if isDelimiter b then skipDelimiters text (i + 1) else i
termination_by text.utf8ByteSize - i
decreasing_by
  have := lt_of_byte?_eq_some h
  omega

/-- The first position from `i` on that is at a delimiter or at the end of the text.  The
delimiter is read to be recognised, and given back. -/
def passWord (text : String) (i : Nat) : Checked Nat :=
  match h : byte? text i with
  | none => .ok i
  | some b => if isDelimiter b then stepBack (i + 1) else passWord text (i + 1)
termination_by text.utf8ByteSize - i
decreasing_by
  have := lt_of_byte?_eq_some h
  omega

/-- The next word, and the scanner after it; no word when only delimiters are left. -/
def next (s : Scanner) : Checked (Option String × Scanner) := do
  let start := skipDelimiters s.text s.cursor
  let stop ← passWord s.text start
  if start = stop then return (none, { s with cursor := stop })
  else return (some (← slice s.text start stop), { s with cursor := stop })

/-! ### Progress -/

theorem le_skipDelimiters (text : String) (i : Nat) : i ≤ skipDelimiters text i := by
  fun_induction skipDelimiters text i <;> omega

theorem le_of_passWord {text : String} {i j : Nat} (h : passWord text i = .ok j) :
    i ≤ j ∧ (i < j → j ≤ text.utf8ByteSize) := by
  fun_induction passWord text i with
  | case1 i => cases h; omega
  | case2 i b => cases h; omega
  | case3 i b hb _ ih =>
    have := lt_of_byte?_eq_some hb
    have := ih h
    omega

/-- A word brings the cursor nearer to the end of the text. -/
theorem next_progress {s t : Scanner} {word : String} (h : s.next = .ok (some word, t)) :
    t.text.utf8ByteSize - t.cursor < s.text.utf8ByteSize - s.cursor := by
  have hle := le_skipDelimiters s.text s.cursor
  dsimp only [next] at h
  cases hp : passWord s.text (skipDelimiters s.text s.cursor) with
  | error f => rw [hp] at h; cases h
  | ok stop =>
    have hj := le_of_passWord hp
    simp only [hp, bind, Except.bind] at h
    split at h
    next => cases h
    next =>
      cases hs : slice s.text (skipDelimiters s.text s.cursor) stop with
      | error f => rw [hs] at h; cases h
      | ok w =>
        rw [hs] at h
        cases h
        dsimp only
        omega

/-- Add the words that are left in front of `seen`, and return all of them in reading order
with the scanner after them. -/
def collect (s : Scanner) (seen : List String) : Checked (List String × Scanner) :=
  match _h : s.next with
  | .error fault => .error fault
  | .ok (none, s) => .ok (seen.reverse, s)
  | .ok (some word, s) => collect s (word :: seen)
termination_by s.text.utf8ByteSize - s.cursor
decreasing_by exact next_progress _h

/-- The words that are left, and the scanner after them. -/
def words (s : Scanner) : Checked (List String × Scanner) := s.collect []

end Scanner

end ChainMachine
