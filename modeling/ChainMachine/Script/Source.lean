/-!
# Script sources

The bytes of a script as they arrive from a reader that may fail after the last of
them.

* `Source`: the bytes still to come, and how the reader ends;
* `Source.readLine`: the next line, with its newline;
* `Source.readLine_append`, `Source.readLine_of_failure`, `Source.readLine_last`,
  `Source.readLine_nil`: what the next line is, in each case.
-/

namespace ChainMachine

/-- Bytes still to be read.  After the last of them the reader signals the end of the
script, or fails with the text given as `failure`. -/
structure Source where
  bytes : List UInt8
  failure : Option String := none
  deriving DecidableEq, Repr

namespace Source

/-- The byte that ends a line. -/
def newline : UInt8 := 0x0A

/-- A source that delivers at most `count` bytes of the script and then fails. -/
def failingAfter (count : Nat) (text : String) (bytes : List UInt8) : Source :=
  { bytes := bytes.take count, failure := some text }

/-- What reading one line comes to. -/
inductive Reading
  /-- A line, and the source after it. -/
  | line (bytes : List UInt8) (rest : Source)
  /-- The script has no further line. -/
  | done
  /-- The reader failed; what it delivered since the last newline is lost. -/
  | failed (text : String)
  deriving DecidableEq, Repr

/-- Read up to the next newline, which belongs to the line.  Only the last line of a source
that does not fail can do without. -/
def readLine (s : Source) : Reading :=
  let line := s.bytes.takeWhile (· != newline)
  match s.bytes.dropWhile (· != newline) with
  | mark :: rest => .line (line ++ [mark]) { s with bytes := rest }
  | [] =>
    match s.failure with
    | some text => .failed text
    | none => if line.isEmpty then .done else .line line { s with bytes := [] }

/-- A line leaves fewer bytes to read. -/
theorem length_lt_of_readLine {s rest : Source} {line : List UInt8}
    (h : s.readLine = .line line rest) : rest.bytes.length < s.bytes.length := by
  have hs : s.bytes.takeWhile (· != newline) ++ s.bytes.dropWhile (· != newline) = s.bytes :=
    List.takeWhile_append_dropWhile
  rw [← hs, List.length_append]
  dsimp only [readLine] at h
  split at h
  next mark tail hd =>
    injection h with _ h
    rw [← h, hd, List.length_cons]
    dsimp only
    omega
  next hd =>
    split at h
    · cases h
    · split at h
      · cases h
      next hne =>
        injection h with _ h
        rw [← h, hd]
        simpa [List.length_pos_iff] using hne

/-! ### Reading the next line -/

theorem takeWhile_ne_newline {line rest : List UInt8} (h : newline ∉ line) :
    (line ++ newline :: rest).takeWhile (· != newline) = line := by
  induction line with
  | nil => simp
  | cons b line ih =>
    simp only [List.mem_cons, not_or] at h
    simp [Ne.symm h.1, ih h.2]

theorem dropWhile_ne_newline {line rest : List UInt8} (h : newline ∉ line) :
    (line ++ newline :: rest).dropWhile (· != newline) = newline :: rest := by
  induction line with
  | nil => simp
  | cons b line ih =>
    simp only [List.mem_cons, not_or] at h
    simp [Ne.symm h.1, ih h.2]

/-- A line ends with the first newline. -/
theorem readLine_append {line : List UInt8} (h : newline ∉ line) (rest : List UInt8)
    (failure : Option String) :
    ({ bytes := line ++ newline :: rest, failure } : Source).readLine =
      .line (line ++ [newline]) { bytes := rest, failure } := by
  simp [readLine, takeWhile_ne_newline h, dropWhile_ne_newline h]

theorem takeWhile_eq_self {line : List UInt8} (h : newline ∉ line) :
    line.takeWhile (· != newline) = line ∧ line.dropWhile (· != newline) = [] := by
  induction line with
  | nil => simp
  | cons b line ih =>
    simp only [List.mem_cons, not_or] at h
    simp [Ne.symm h.1, ih h.2]

/-- A reader that fails loses what it delivered since the last newline. -/
theorem readLine_of_failure {line : List UInt8} (h : newline ∉ line) (text : String) :
    ({ bytes := line, failure := some text } : Source).readLine = .failed text := by
  simp [readLine, takeWhile_eq_self h]

/-- The last line need not end with a newline. -/
theorem readLine_last {line : List UInt8} (h : newline ∉ line) (hne : line ≠ []) :
    ({ bytes := line } : Source).readLine = .line line { bytes := [] } := by
  simp [readLine, takeWhile_eq_self h, hne]

/-- A source without bytes has no line. -/
@[simp] theorem readLine_nil : ({ bytes := [] } : Source).readLine = .done := rfl

end Source

end ChainMachine
