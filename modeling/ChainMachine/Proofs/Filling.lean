import ChainMachine.Proofs.Ending
import ChainMachine.Proofs.Modes
import ChainMachine.Proofs.Spelling

/-!
# Blank lines and comments

Lines that ask for nothing can stand anywhere in a script.  All they do is to move the lines after
them, and so to change the numbers by which diagnostics name these.

* `Source.IsFiller`: bytes that end with a newline and are a blank line or a comment;
* `Source.fill`, `Source.inserted`: lines with others before them, and how many these are;
* `Source.cut_fill`: the lines of a script in which others are inserted;
* `Outcome.renumber`, `Machine.executeLine_renumber`: a line with another number;
* `Machine.stepThrough_fill`: lines one after another, with others before them;
* `Machine.run_fill`: the run of a script in which lines are inserted.
-/

namespace ChainMachine

namespace Source

/-- The bytes of a blank line or of a comment: there is no word in them, or the first begins with
`#`. -/
structure IsFiller (line : List UInt8) : Prop where
  isLine : IsLine line
  skipped : ∀ word ∈ (Words.ofText (Utf8.decode line)).head?, Line.opensComment word = true

/-- The lines with others before each of them, and behind the last. -/
def fill (blocks : Nat → List (List UInt8)) (lines : List (List UInt8)) : List (List UInt8) :=
  (lines.mapIdx fun i line => blocks i ++ [line]).flatten ++ blocks lines.length

/-- How many lines are inserted before the line with the given number. -/
def inserted (blocks : Nat → List (List UInt8)) (number : Nat) : Nat :=
  ((List.range number).flatMap blocks).length

variable {blocks : Nat → List (List UInt8)} {line : List UInt8}

theorem IsFiller.instruction?_eq_none (h : IsFiller line) :
    (Line.ofBytes line).instruction? = none := by
  have hskipped := h.skipped
  rw [Line.ofBytes]
  cases hwords : Words.ofText (Utf8.decode line) with
  | nil => rfl
  | cons word operands =>
    rw [hwords] at hskipped
    rw [Line.ofWords, if_pos (hskipped word rfl)]
    rfl

theorem fill_nil (blocks : Nat → List (List UInt8)) : fill blocks [] = blocks 0 := rfl

theorem fill_cons (blocks : Nat → List (List UInt8)) (line : List UInt8)
    (lines : List (List UInt8)) :
    fill blocks (line :: lines) = blocks 0 ++ line :: fill (fun i => blocks (i + 1)) lines := by
  simp [fill, List.mapIdx_cons]

theorem inserted_succ (blocks : Nat → List (List UInt8)) (number : Nat) :
    inserted blocks (number + 1) =
      (blocks 0).length + inserted (fun i => blocks (i + 1)) number := by
  simp [inserted, List.range_succ_eq_map, List.flatMap_map]

/-- The lines of a script in which others are inserted.  Behind the last line this takes a newline
at the end of it. -/
theorem cut_fill {script : List UInt8}
    (hblocks : ∀ i ≤ (cut script).length, ∀ line ∈ blocks i, IsFiller line)
    (hend : WholeLines script ∨ blocks (cut script).length = []) :
    cut (fill blocks (cut script)).flatten = fill blocks (cut script) := by
  induction script using induction_lines generalizing blocks with
  | last line hline =>
    have hfirst := cut_flatten_append fun line hmem => (hblocks 0 (Nat.zero_le _) line hmem).isLine
    by_cases hne : line = []
    · subst hne
      simpa [cut, fill_nil] using hfirst []
    · have hlines := cut_of_notMem hline hne
      rw [hlines] at hend ⊢
      have hnone : blocks 1 = [] := by
        rcases hend with (hnil | hlast) | hnone
        · exact absurd hnil hne
        · exact absurd (List.mem_of_getLast? hlast) hline
        · exact hnone
      rw [fill_cons, fill_nil, hnone, List.flatten_append, List.flatten_singleton, hfirst, hlines]
  | step line rest hline ih =>
    rw [cut_append hline] at hblocks hend ⊢
    have hwhole : WholeLines (line ++ newline :: rest) → WholeLines rest :=
      fun h => h.of_append.of_cons
    have hrest : cut (fill (fun i => blocks (i + 1)) (cut rest)).flatten =
        fill (fun i => blocks (i + 1)) (cut rest) :=
      ih (fun i hi => hblocks (i + 1) (Nat.succ_le_succ hi)) (hend.imp_left hwhole)
    rw [fill_cons, List.flatten_append, List.flatten_cons,
      cut_flatten_append fun line hmem => (hblocks 0 (Nat.zero_le _) line hmem).isLine,
      List.append_assoc, List.singleton_append, cut_append hline, hrest]

end Source

/-! ### Other numbers -/

/-- The outcome as it is on another line. -/
def Outcome.renumber {α : Type} (f : Nat → Nat) (o : Outcome α) : Outcome α :=
  { o with result := o.result.mapError (Diagnostic.mapLine f) }

theorem Outcome.renumber_eq_recast {α : Type} (f : Nat → Nat) (o : Outcome α) :
    o.renumber f = o.recast f o.machine.config.initialMode o.machine.chain.mode 0 := rfl

theorem Outcome.result_renumber_eq_ok_iff {α : Type} {f : Nat → Nat} {o : Outcome α} {a : α} :
    (o.renumber f).result = .ok a ↔ o.result = .ok a := by
  rw [renumber_eq_recast, result_recast_eq_ok_iff]

theorem Outcome.ended_renumber (f : Nat → Nat) (failure : Option String) (o : Outcome Flow) :
    (o.renumber f).ended failure = (o.ended failure).renumber f := by
  rw [renumber_eq_recast, ended_recast, renumber_eq_recast, machine_ended]

namespace Machine

variable {m : Machine} {blocks : Nat → List (List UInt8)}

/-- A line does the same with another number. -/
theorem executeLine_renumber (htable : m.table = .builtin) (f : Nat → Nat) (number : Nat)
    (text : String) (sink : Sink) :
    m.executeLine (f number) text sink =
      (m.executeLine number text sink).map (Outcome.renumber f) := by
  have h : (m.recast m.config.initialMode m.chain.mode 0).executeLine (f number) text sink = _ :=
    executeLine_recast htable f m.config.initialMode 0 fun _ => rfl
  rw [recast_self] at h
  rw [h]
  cases ho : m.executeLine number text sink with
  | error fault => rfl
  | ok o =>
    rw [Checked.map_ok, Checked.map_ok, ← mode_of_executeLine htable ho,
      Outcome.renumber_eq_recast, (executeLine_eq_ok_iff.1 ho).machine_eq]

theorem conclude_renumber (f : Nat → Nat) (o : Outcome Int32) :
    conclude (o.renumber f) = (conclude o).map (Outcome.renumber f) := by
  rw [Outcome.renumber_eq_recast, conclude_recast]
  cases h : conclude o with
  | error fault => rfl
  | ok p =>
    obtain ⟨chain, hclear, rfl⟩ := eq_of_conclude h
    rw [Checked.map_ok, Checked.map_ok, Outcome.renumber_eq_recast,
      Chain.eq_empty_of_clear hclear]
    rfl

/-- Lines do the same with lines before them that ask for nothing. -/
theorem stepThrough_fill (htable : m.table = .builtin) {lines : List (List UInt8)}
    (hblocks : ∀ i ≤ lines.length, ∀ line ∈ blocks i, (Line.ofBytes line).instruction? = none)
    {f : Nat → Nat} {number number' : Nat}
    (hf : ∀ i < lines.length, f (number + i) = number' + i + Source.inserted blocks (i + 1))
    (sink : Sink) :
    m.stepThrough sink (Source.numbered number' (Source.fill blocks lines)) =
      (m.stepThrough sink (Source.numbered number lines)).map (Outcome.renumber f) := by
  induction lines generalizing m blocks number number' sink with
  | nil =>
    rw [Source.fill_nil, stepThrough_of_skipped (hblocks 0 (Nat.le_refl _))]
    rfl
  | cons line lines ih =>
    have hfirst : f number = number' + (blocks 0).length := by
      simpa [Source.inserted] using hf 0 (by simp)
    rw [Source.fill_cons, Source.numbered_append, stepThrough_append,
      stepThrough_of_skipped (hblocks 0 (Nat.zero_le _)), Checked.ok_bind,
      Outcome.andThen_of_proceed rfl, Source.numbered_cons, stepThrough, Source.numbered_cons,
      stepThrough, ← hfirst, executeLine_renumber htable]
    cases ho : m.executeLine number (Utf8.decode line) sink with
    | error fault => rfl
    | ok o =>
      rw [Checked.map_ok, Checked.ok_bind, Checked.ok_bind]
      refine Outcome.andThen_map Outcome.result_renumber_eq_ok_iff fun _ =>
        ih ((executeLine_table_eq ho).trans htable)
          (fun i hi => hblocks (i + 1) (Nat.succ_le_succ hi)) ?_ o.sink
      -- the lines before this one are before those after it, too
      intro i hi
      have hnext := hf (i + 1) (Nat.succ_lt_succ hi)
      rw [Source.inserted_succ, ← Nat.add_assoc, Nat.add_right_comm] at hnext
      omega

/-- Blank lines and comments can be inserted before all lines of a script, and at its end if it does
not end within a line.  The two runs write the same and leave the same machine, and so agree in the
count of the calls, in the exit code and in the chain.  Their results are the same, up to the line
that a diagnostic names: its number grows by the number of the lines that are inserted before it. -/
theorem run_fill (m : Machine) (mode : Mode) (script : List UInt8)
    (blocks : Nat → List (List UInt8))
    (hblocks : ∀ i ≤ (Source.cut script).length, ∀ line ∈ blocks i, Source.IsFiller line)
    (hend : Source.WholeLines script ∨ blocks (Source.cut script).length = []) (sink : Sink) :
    ∃ o o' : Outcome Int32,
      (m.startingIn mode).run { bytes := script } sink = .ok o ∧
      (m.startingIn mode).run { bytes := (Source.fill blocks (Source.cut script)).flatten } sink =
        .ok o' ∧
      o'.sink = o.sink ∧ o'.machine = o.machine ∧
      o'.result = o.result.mapError
        (Diagnostic.mapLine fun number => number + Source.inserted blocks number) := by
  obtain ⟨o, ho, -⟩ := run_isOk (m.startingIn mode) { bytes := script } sink
  refine ⟨o, o.renumber fun number => number + Source.inserted blocks number, ho, ?_, rfl, rfl, rfl⟩
  have hlines : (fresh (m.startingIn mode).config .builtin).stepThrough sink
      (Source.numbered 1 (Source.fill blocks (Source.cut script))) =
        ((fresh (m.startingIn mode).config .builtin).stepThrough sink
          (Source.numbered 1 (Source.cut script))).map
            (Outcome.renumber fun number => number + Source.inserted blocks number) :=
    stepThrough_fill rfl
      (fun i hi line hmem => (hblocks i hi line hmem).instruction?_eq_none)
      (fun i _ => by rw [Nat.add_comm 1 i]) sink
  have ho : (m.startingIn mode).run { bytes := script } sink = .ok o := ho
  rw [run_eq_conclude] at ho ⊢
  obtain ⟨p, hp, ho⟩ := Checked.bind_eq_ok_iff.1 ho
  have hp : (fresh (m.startingIn mode).config .builtin).stepThrough sink
      (Source.numbered 1 (Source.cut script)) = .ok p := hp
  dsimp only [Source.lines] at ho ⊢
  rw [Source.cut_fill hblocks hend, table_startingIn, hlines, hp, Checked.map_ok, Checked.ok_bind,
    Outcome.ended_renumber, conclude_renumber, ho, Checked.map_ok]

/-- Three lines before the one that fails, one of them with bytes that are not UTF-8, and a blank
line at the end. -/
theorem run_fill_of_failure :
    ∃ (script : List UInt8) (blocks : Nat → List (List UInt8)) (o o' : Outcome Int32),
      script = Utf8.encode "push 1\nadd\npall\n" ∧
      (∀ i ≤ (Source.cut script).length, ∀ line ∈ blocks i, Source.IsFiller line) ∧
      Source.WholeLines script ∧
      (Source.fill blocks (Source.cut script)).flatten =
        [0x20, 0x23, 0xFF, 0xE2, 0x82, 0x0A] ++
          Utf8.encode "push 1\n\n\t# pop\nadd\npall\n \r\n" ∧
      ((fresh {} .builtin).startingIn .queue).run { bytes := script } {} = .ok o ∧
      ((fresh {} .builtin).startingIn .queue).run
        { bytes := (Source.fill blocks (Source.cut script)).flatten } {} = .ok o' ∧
      o.result = .error (.underflow 2 "add" 2) ∧ o'.result = .error (.underflow 5 "add" 2) ∧
      o'.machine = o.machine ∧ o'.machine.executed = 2 := by
  let script := Utf8.encode "push 1\nadd\npall\n"
  let blocks : Nat → List (List UInt8)
    | 0 => [[0x20, 0x23, 0xFF, 0xE2, 0x82, 0x0A]]
    | 1 => [[0x0A], Utf8.encode "\t# pop\n"]
    | 2 => []
    | _ => [Utf8.encode " \r\n"]
  have hblocks : ∀ i ≤ (Source.cut script).length, ∀ line ∈ blocks i, Source.IsFiller line := by
    have hfillers : ∀ i ≤ (Source.cut script).length, ∀ line ∈ blocks i,
        Source.newline ∉ line.dropLast ∧ line = line.dropLast ++ [Source.newline] ∧
          ∀ word ∈ (Words.ofText (Utf8.decode line)).head?, Line.opensComment word = true := by
      decide +kernel
    intro i hi line hmem
    obtain ⟨hstart, hline, hskipped⟩ := hfillers i hi line hmem
    exact ⟨⟨_, hstart, hline⟩, hskipped⟩
  have heval : (((fresh {} .builtin).startingIn .queue).run { bytes := script } {}).map
      (fun o => (o.result, o.machine.executed)) = .ok (.error (.underflow 2 "add" 2), 2) := by
    decide +kernel
  have hwhole : Source.WholeLines script := .inr (by decide)
  obtain ⟨o, o', ho, ho', -, hmachine, hresult⟩ :=
    run_fill (fresh {} .builtin) .queue script blocks hblocks (.inl hwhole) {}
  rw [ho, Checked.map_ok, Except.ok.injEq, Prod.mk.injEq] at heval
  rw [heval.1] at hresult
  exact ⟨script, blocks, o, o', rfl, hblocks, hwhole, by decide +kernel, ho, ho', heval.1, hresult,
    hmachine, hmachine ▸ heval.2⟩

end Machine

end ChainMachine
