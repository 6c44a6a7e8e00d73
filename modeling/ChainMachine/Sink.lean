/-!
# Output sinks

What a script prints goes to a sink, which may refuse bytes past a limit and may
fail to flush.

* `Sink`: the bytes accepted so far, and how the sink behaves;
* `Sink.write`, `Sink.writeAll`, `Sink.flush`: the operations.  Each returns the
  sink after it, with the text of its failure if it failed.
-/

namespace ChainMachine

/-- Bytes accepted so far.  No more than `limit` bytes are accepted in all, and flushing
fails with the text given as `flushFailure`. -/
structure Sink where
  written : Array UInt8 := #[]
  limit : Option Nat := none
  flushFailure : Option String := none
  /-- How often the sink has been flushed. -/
  flushes : Nat := 0
  deriving DecidableEq, Repr

namespace Sink

/-- The text of the failure to write past the limit. -/
def full : String := "sink full"

/-- Write bytes.  A sink without room for all of them accepts those it has room for. -/
def write (s : Sink) (bytes : List UInt8) : Sink × Option String :=
  match s.limit with
  | none => ({ s with written := s.written ++ bytes }, none)
  | some limit =>
    let room := limit - s.written.size
    if bytes.length ≤ room then ({ s with written := s.written ++ bytes }, none)
    else ({ s with written := s.written ++ bytes.take room }, some full)

/-- Write one piece after another, up to the first that fails. -/
def writeAll (s : Sink) : List (List UInt8) → Sink × Option String
  | [] => (s, none)
  | piece :: pieces =>
    match s.write piece with
    | (s, none) => s.writeAll pieces
    | (s, some failure) => (s, some failure)

/-- Flush the sink. -/
def flush (s : Sink) : Sink × Option String :=
  ({ s with flushes := s.flushes + 1 }, s.flushFailure)

/-! ### What is written -/

/-- A sink without limit accepts everything. -/
theorem write_of_limit_eq_none {s : Sink} (h : s.limit = none) (bytes : List UInt8) :
    s.write bytes = ({ s with written := s.written ++ bytes }, none) := by
  simp [write, h]

/-- Writing nothing does nothing and never fails. -/
@[simp] theorem write_nil (s : Sink) : s.write [] = (s, none) := by
  obtain ⟨written, limit, flushFailure, flushes⟩ := s
  cases limit <;> simp [write]

/-- A write that does not fail has written everything. -/
theorem write_eq_of_ok {s t : Sink} {bytes : List UInt8} (h : s.write bytes = (t, none)) :
    t = { s with written := s.written ++ bytes } := by
  cases hl : s.limit with
  | none => simpa [write, hl] using h.symm
  | some limit =>
    by_cases hr : bytes.length ≤ limit - s.written.size <;> simp [write, hl, hr] at h
    exact h.symm

/-- A write that fails has written some proper prefix. -/
theorem write_eq_of_failed {s t : Sink} {bytes : List UInt8} {text : String}
    (h : s.write bytes = (t, some text)) :
    text = full ∧ ∃ n < bytes.length, t = { s with written := s.written ++ bytes.take n } := by
  cases hl : s.limit with
  | none => simp [write, hl] at h
  | some limit =>
    by_cases hr : bytes.length ≤ limit - s.written.size <;> simp [write, hl, hr] at h
    exact ⟨h.2.symm, limit - s.written.size, by omega, h.1.symm⟩

@[simp] theorem writeAll_nil (s : Sink) : s.writeAll [] = (s, none) := rfl

theorem writeAll_cons_of_ok {s t : Sink} {piece : List UInt8} (h : s.write piece = (t, none))
    (pieces : List (List UInt8)) : s.writeAll (piece :: pieces) = t.writeAll pieces := by
  simp [writeAll, h]

theorem writeAll_cons_of_failed {s t : Sink} {piece : List UInt8} {text : String}
    (h : s.write piece = (t, some text)) (pieces : List (List UInt8)) :
    s.writeAll (piece :: pieces) = (t, some text) := by
  simp [writeAll, h]

end Sink

end ChainMachine
