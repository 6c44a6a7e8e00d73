import ChainMachine.Proofs.Composition
import Mathlib.Data.List.DropRight

/-!
# Readers that fail

A reader that fails delivers whole lines up to a point and then perhaps a part of another one.
The whole lines are executed as if the script ended with them, and the part never is.

* `Source.flatten_cut`, `Source.cut_flatten_append`, `Source.cut_eq_append`: the pieces of a script
  and where they stand in it;
* `Source.finished`, `Source.unfinished`: the bytes up to the last newline, and those after it;
* `Source.prefix_finished`: the finished part is the longest that consists of whole lines;
* `Source.lines_of_failure`, `Source.exists_lines_eq_cut`: the lines that a source delivers are
  those of a part of its bytes;
* `Machine.run_failingAfter`: a run whose reader fails.
-/

namespace ChainMachine

namespace Source

variable {bytes : List UInt8}

/-! ### Pieces -/

/-- The pieces put together are the script. -/
theorem flatten_cut (bytes : List UInt8) : (cut bytes).flatten = bytes := by
  induction bytes with
  | nil => rfl
  | cons b bytes ih =>
    rw [cut]
    split
    · rw [List.flatten_cons, ih, List.singleton_append]
    · split
      · next hcut =>
        rw [hcut] at ih
        rw [← ih]
        rfl
      · next hcut =>
        rw [hcut] at ih
        rw [List.flatten_cons, List.cons_append, ← List.flatten_cons, ih]

/-- One line, with the newline at its end. -/
def IsLine (bytes : List UInt8) : Prop := ∃ start, newline ∉ start ∧ bytes = start ++ [newline]

/-- Lines put together are cut where each of them ends. -/
theorem cut_flatten_append {lines : List (List UInt8)} (h : ∀ line ∈ lines, IsLine line)
    (more : List UInt8) : cut (lines.flatten ++ more) = lines ++ cut more := by
  induction lines with
  | nil => rfl
  | cons line lines ih =>
    rw [List.forall_mem_cons] at h
    obtain ⟨start, hstart, rfl⟩ := h.1
    rw [List.flatten_cons, List.append_assoc, List.append_assoc, List.singleton_append,
      cut_append hstart, ih h.2, List.cons_append]

/-- The pieces before another piece are whole lines, each with one newline. -/
theorem cut_eq_append {earlier later : List (List UInt8)} {line : List UInt8}
    (h : cut bytes = earlier ++ line :: later) :
    ∃ rest, bytes = earlier.flatten ++ line ++ rest ∧ cut earlier.flatten = earlier ∧
      earlier.flatten.count newline = earlier.length := by
  induction earlier generalizing bytes with
  | nil =>
    refine ⟨later.flatten, ?_, rfl, rfl⟩
    rw [← flatten_cut bytes, h]
    rfl
  | cons piece earlier ih =>
    by_cases hmem : newline ∈ bytes
    · -- the first piece ends with the first newline
      obtain ⟨start, tail, rfl, hstart⟩ := List.eq_append_cons_of_mem hmem
      rw [cut_append hstart, List.cons_append, List.cons.injEq] at h
      obtain ⟨rfl, h⟩ := h
      obtain ⟨rest, rfl, hcut, hcount⟩ := ih h
      refine ⟨rest, ?_, ?_, ?_⟩
      · simp
      · rw [List.flatten_cons, List.append_assoc, List.singleton_append, cut_append hstart, hcut]
      · rw [List.flatten_cons, List.count_append, List.count_append, hcount,
          List.count_eq_zero.2 hstart, List.length_cons, List.count_singleton_self]
        omega
    · -- without a newline there is one piece at most
      by_cases hne : bytes = []
      · rw [hne] at h
        cases h
      · rw [cut_of_notMem hmem hne] at h
        simp at h

/-- Every piece of whole lines ends with a newline. -/
theorem getLast?_of_mem_cut (h : WholeLines bytes) :
    ∀ piece ∈ cut bytes, piece.getLast? = some newline := by
  induction bytes with
  | nil => simp [cut]
  | cons b bytes ih =>
    have ih := ih h.of_cons
    rw [cut]
    by_cases hb : b = newline
    · rw [if_pos hb, hb]
      simpa using ih
    · rw [if_neg hb]
      cases hcut : cut bytes with
      | nil =>
        -- then there is nothing after `b`, which is no newline
        rw [← flatten_cut bytes, hcut] at h
        simp [WholeLines, hb] at h
      | cons piece pieces =>
        rw [hcut, List.forall_mem_cons] at ih
        rw [List.forall_mem_cons, List.getLast?_cons, ih.1]
        exact ⟨rfl, ih.2⟩

/-! ### What is finished -/

/-- The bytes up to the last newline. -/
def finished (bytes : List UInt8) : List UInt8 := bytes.rdropWhile (· != newline)

/-- The bytes after the last newline. -/
def unfinished (bytes : List UInt8) : List UInt8 := bytes.rtakeWhile (· != newline)

theorem finished_append_unfinished (bytes : List UInt8) :
    finished bytes ++ unfinished bytes = bytes :=
  List.rdropWhile_append_rtakeWhile

theorem notMem_unfinished (bytes : List UInt8) : newline ∉ unfinished bytes := by
  intro hmem
  simpa using List.mem_rtakeWhile_imp hmem

theorem wholeLines_finished (bytes : List UInt8) : WholeLines (finished bytes) := by
  by_cases h : finished bytes = []
  · exact .inl h
  · have hlast := List.rdropWhile_last_not (· != newline) bytes h
    rw [bne_iff_ne, not_not] at hlast
    exact .inr ((List.getLast?_eq_some_getLast h).trans (congrArg some hlast))

/-- No longer part of the beginning consists of whole lines. -/
theorem prefix_finished {part : List UInt8} (hpart : part <+: bytes) (h : WholeLines part) :
    part <+: finished bytes := by
  have hfinished : finished bytes <+: bytes := ⟨_, finished_append_unfinished bytes⟩
  rcases List.prefix_or_prefix_of_prefix hpart hfinished with hle | ⟨more, rfl⟩
  · exact hle
  · have hmore : more <+: unfinished bytes := by
      rw [← List.prefix_append_right_inj (finished bytes), finished_append_unfinished]
      exact hpart
    -- more would end with a newline, and there is none
    rcases h with hnil | hlast
    · simp [List.append_eq_nil_iff.1 hnil]
    · cases hmore' : more.getLast? with
      | none =>
        simp [List.getLast?_eq_none_iff.1 hmore']
      | some b =>
        rw [List.getLast?_append, hmore', Option.some_or] at hlast
        cases hlast
        exact absurd (hmore.subset (List.mem_of_getLast? hmore')) (notMem_unfinished bytes)

/-- A reader that fails delivers the lines that are finished. -/
theorem lines_of_failure (bytes : List UInt8) (text : String) :
    ({ bytes, failure := some text } : Source).lines = cut (finished bytes) := by
  have hwhole := wholeLines_finished bytes
  have hrest := notMem_unfinished bytes
  have hcut : cut bytes = cut (finished bytes) ++ cut (unfinished bytes) := by
    rw [← cut_append_of_wholeLines hwhole, finished_append_unfinished]
  rw [lines, hcut, List.filter_append, List.filter_eq_self.2, List.append_right_eq_self,
    List.filter_eq_nil_iff]
  · intro piece hpiece
    have hmem : newline ∉ piece := by
      intro h
      apply hrest
      rw [← flatten_cut (unfinished bytes)]
      exact List.mem_flatten_of_mem hpiece h
    intro hlast
    exact hmem (List.mem_of_getLast? (by simpa using hlast))
  · simpa using getLast?_of_mem_cut hwhole

/-- What a source delivers are the lines of a part of its bytes. -/
theorem exists_lines_eq_cut (s : Source) : ∃ read, read <+: s.bytes ∧ s.lines = cut read := by
  obtain ⟨bytes, failure⟩ := s
  cases failure with
  | none => exact ⟨bytes, List.prefix_rfl, rfl⟩
  | some text =>
    exact ⟨finished bytes, ⟨_, finished_append_unfinished bytes⟩, lines_of_failure bytes text⟩

end Source

/-- How the reader ends makes a difference only after lines that all proceed. -/
theorem Outcome.ended_eq_of_ne {o : Outcome Flow} (h : o.result ≠ .ok .proceed)
    (failure other : Option String) : o.ended failure = o.ended other := by
  obtain ⟨result, machine, sink⟩ := o
  rcases result with diagnostic | ⟨⟩ | code
  · rfl
  · exact absurd rfl h
  · rfl

namespace Machine

/-- A run whose reader delivers at most `count` bytes and then fails, compared with a run of the
whole lines among those bytes, which are the longest beginning of them that ends with a line.  If
the latter is stopped, by a failure or by a handler that asks for the end, then the former is the
same.  Otherwise no handler has asked for the end, and the two differ in nothing but the result,
which is the failure of the reader.  So what is left of a line that was cut off has no effect. -/
theorem run_failingAfter (m : Machine) (count : Nat) (text : String) (script : List UInt8)
    (sink : Sink) {o : Outcome Int32}
    (ho : m.run { bytes := Source.finished (script.take count) } sink = .ok o)
    (hflush : o.sink.flushFailure = none) :
    (Source.finished (script.take count) <+: script.take count ∧
      Source.WholeLines (Source.finished (script.take count)) ∧
      ∀ other, other <+: script.take count → Source.WholeLines other →
        other <+: Source.finished (script.take count)) ∧
    (o.Stopped → m.run (.failingAfter count text script) sink = .ok o) ∧
    (¬o.Stopped → o.machine.halt = none ∧
      m.run (.failingAfter count text script) sink =
        .ok { o with result := .error (.transfer text) }) := by
  refine ⟨⟨⟨_, Source.finished_append_unfinished _⟩, Source.wholeLines_finished _,
    fun other hother h => Source.prefix_finished hother h⟩, ?_⟩
  rw [run_eq_conclude] at ho ⊢
  rw [Source.failingAfter, Source.lines_of_failure]
  obtain ⟨p, hp, ho⟩ := Checked.bind_eq_ok_iff.1 ho
  have hlines : (fresh m.config m.table).stepThrough sink
      (Source.numbered 1 (Source.cut (Source.finished (script.take count)))) = .ok p := hp
  have hhalt : p.machine.halt = none := by
    rw [machine_eq_of_stepThrough hp]
    rfl
  have hpflush : p.sink.flushFailure = none := by
    obtain ⟨chain, -, rfl⟩ := eq_of_conclude ho
    rwa [Outcome.sink_ended] at hflush
  rw [hlines, Checked.ok_bind, stopped_iff ho hhalt hpflush]
  dsimp only at ho ⊢
  refine ⟨fun hne => ?_, fun hproceed => ?_⟩
  · rw [Outcome.ended_eq_of_ne hne (some text) none, ho]
  · obtain ⟨chain, hclear, rfl⟩ := eq_of_conclude ho
    obtain ⟨result, machine, sink'⟩ := p
    obtain rfl : result = .ok .proceed := not_not.1 hproceed
    refine ⟨hhalt, ?_⟩
    have hclear' : machine.chain.clear = .ok chain := hclear
    simp [conclude, Outcome.ended, hclear', afterFlush]

/-- The reader fails within the last line, which would itself have failed the run. -/
theorem run_failingAfter_of_cut :
    ∃ (script : List UInt8) (o : Outcome Int32),
      script = Utf8.encode "push 1\nqueue\npint\npop\npop\n" ∧
      ((fresh {} .builtin).run { bytes := script } {}).map (·.result) =
        .ok (.error (.underflow 5 "pop" 1)) ∧
      Source.finished (script.take 24) = Utf8.encode "push 1\nqueue\npint\npop\n" ∧
      (fresh {} .builtin).run { bytes := Source.finished (script.take 24) } {} = .ok o ∧
      o.result = .ok 0 ∧ o.machine.executed = 4 ∧ o.machine.chain = .empty .queue ∧
      o.sink.written.toList = Utf8.encode "1\n" ∧
      (fresh {} .builtin).run (.failingAfter 24 "read failed" script) {} =
        .ok { o with result := .error (.transfer "read failed") } := by
  let script := Utf8.encode "push 1\nqueue\npint\npop\npop\n"
  have heval : ((fresh {} .builtin).run { bytes := Source.finished (script.take 24) } {}).map
      (fun o => (o.result, o.machine.executed, o.machine.halt, o.machine.chain, o.sink)) =
        .ok (.ok 0, 4, none, .empty .queue,
          { written := (Utf8.encode "1\n").toArray, flushes := 1 }) := by
    decide +kernel
  obtain ⟨o, ho, heval⟩ := Checked.map_eq_ok_iff.1 heval
  obtain ⟨hresult, hexecuted, hhalt, hchain, hsink⟩ : o.result = .ok 0 ∧
      o.machine.executed = 4 ∧ o.machine.halt = none ∧ o.machine.chain = .empty .queue ∧
        o.sink = { written := (Utf8.encode "1\n").toArray, flushes := 1 } := by
    simpa using heval
  obtain ⟨-, -, hproceed⟩ :=
    run_failingAfter (fresh {} .builtin) 24 "read failed" script {} ho (by rw [hsink])
  obtain ⟨-, hfailing⟩ := hproceed (by simp [Outcome.Stopped, hresult, hhalt])
  exact ⟨script, o, rfl, by decide +kernel, by decide +kernel, ho, hresult, hexecuted, hchain,
    by rw [hsink], hfailing⟩

end Machine

end ChainMachine
