import ChainMachine.Proofs.Effects
import ChainMachine.Proofs.History
import ChainMachine.Proofs.Interruption

/-!
# Line numbers and calls counted

Lines are numbered as they are read, the ones without an instruction included.  Calls are counted
when a handler has been found.

* `Line.ofBytes`: the line that some bytes are;
* `Line.isInstruction`, `Table.lacks`: the lines that ask for a handler, and those that ask in vain;
* `Source.numbered_eq_append`, `Source.numbered_take`, `Source.eq_of_getElem?_numbered`: where a
  numbered line stands;
* `Machine.Performs.executed_add`, `Machine.History.executed_add`: one line, and lines one after
  another, count as calls what they ask for and get;
* `Machine.Performs.number_eq`: a diagnostic names the line that it comes from;
* `Machine.run_counts`: the count of a run, and the line of its diagnostic.
-/

namespace ChainMachine

namespace Line

/-- The line that some bytes are. -/
def ofBytes (bytes : List UInt8) : Line := ofWords (Words.ofText (Utf8.decode bytes))

/-- The line is neither blank nor a comment. -/
def isInstruction : Line → Bool
  | instruction _ _ => true
  | blank | comment => false

end Line

/-- The line is an instruction for which the table has no handler. -/
def Table.lacks (t : Table) : Line → Bool
  | .instruction opcode _ => (t.get? opcode).isNone
  | .blank | .comment => false

namespace Source

/-- A numbered line among others is a line among others, with the number of those before it. -/
theorem numbered_eq_append {number : Nat} {lines : List (List UInt8)}
    {earlier later : List (Nat × String)} {line : Nat × String}
    (h : numbered number lines = earlier ++ line :: later) :
    ∃ before bytes after, lines = before ++ bytes :: after ∧ before.length = earlier.length ∧
      line = (number + earlier.length, Utf8.decode bytes) := by
  induction earlier generalizing number lines with
  | nil =>
    cases lines with
    | nil => cases h
    | cons bytes after =>
      rw [numbered_cons, List.nil_append, List.cons.injEq] at h
      exact ⟨[], bytes, after, rfl, rfl, h.1.symm⟩
  | cons first earlier ih =>
    cases lines with
    | nil => cases h
    | cons bytes lines =>
      rw [numbered_cons, List.cons_append, List.cons.injEq] at h
      obtain ⟨before, failed, after, rfl, hlength, hline⟩ := ih h.2
      refine ⟨bytes :: before, failed, after, rfl, ?_, ?_⟩
      · rw [List.length_cons, List.length_cons, hlength]
      · rw [hline, List.length_cons, Nat.add_right_comm, Nat.add_assoc]

theorem numbered_take (number : Nat) (lines : List (List UInt8)) (count : Nat) :
    (numbered number lines).take count = numbered number (lines.take count) := by
  induction lines generalizing number count with
  | nil => simp [numbered]
  | cons line lines ih =>
    cases count with
    | zero => rfl
    | succ count => rw [numbered_cons, List.take_succ_cons, List.take_succ_cons, numbered_cons, ih]

theorem eq_of_getElem?_numbered {number : Nat} {lines : List (List UInt8)} {i n : Nat}
    {text : String} (h : (numbered number lines)[i]? = some (n, text)) : n = number + i := by
  rw [numbered, List.getElem?_map, List.getElem?_zipIdx, Option.map_map] at h
  obtain ⟨bytes, -, hline⟩ := Option.map_eq_some_iff.1 h
  exact (congrArg Prod.fst hline).symm

theorem map_numbered (number : Nat) (lines : List (List UInt8)) :
    (numbered number lines).map (fun line => Line.ofWords (Words.ofText line.2)) =
      lines.map Line.ofBytes := by
  induction lines generalizing number with
  | nil => rfl
  | cons line lines ih => rw [numbered_cons, List.map_cons, List.map_cons, ih, Line.ofBytes]

end Source

namespace Machine

variable {m : Machine} {sink : Sink}

namespace Performs

variable {number : Nat} {words : List String} {o : Outcome Flow}

/-- A line counts as a call when it asks for a handler and gets one. -/
theorem executed_add (h : m.Performs number sink words o) :
    o.machine.executed + (if m.table.lacks (Line.ofWords words) then 1 else 0) =
      m.executed + (if (Line.ofWords words).isInstruction then 1 else 0) := by
  cases h with
  | blank => rfl
  | comment hash =>
    rw [Line.ofWords, if_pos hash]
    rfl
  | unknown hash missing => simp [Line.ofWords, hash, Table.lacks, missing, Line.isInstruction]
  | called hash found => simp [Line.ofWords, hash, Table.lacks, found, Line.isInstruction]

/-- A line that asks in vain fails for this very reason. -/
theorem result_of_lacks (h : m.Performs number sink words o)
    (hlacks : m.table.lacks (Line.ofWords words) = true) :
    ∃ opcode, o.result = .error (.unknownOpcode number opcode) := by
  cases h with
  | blank => cases hlacks
  | comment hash =>
    rw [Line.ofWords, if_pos hash] at hlacks
    cases hlacks
  | unknown => exact ⟨_, rfl⟩
  | called hash found => simp [Line.ofWords, hash, Table.lacks, found] at hlacks

/-- A line that proceeds does not ask in vain. -/
theorem lacks_of_proceed (h : m.Performs number sink words o) (hproceed : o.result = .ok .proceed) :
    m.table.lacks (Line.ofWords words) = false := by
  rw [← Bool.not_eq_true]
  intro hlacks
  obtain ⟨opcode, hresult⟩ := h.result_of_lacks hlacks
  rw [hproceed] at hresult
  cases hresult

/-- A diagnostic that names a line names the one it comes from. -/
theorem number_eq (h : m.Performs number sink words o) (htable : m.table.LocatesErrors)
    {diagnostic : Diagnostic} (herror : o.result = .error diagnostic) {n : Nat}
    (hline : diagnostic.line? = some n) : n = number := by
  cases h with
  | blank => cases herror
  | comment => cases herror
  | unknown =>
    cases herror
    cases hline
    rfl
  | @called word operands handler reply hash found replied =>
    exact htable word handler found _ _ _ _ _ _ replied herror hline

end Performs

namespace History

variable {lines : List (Nat × String)} {os : List (Outcome Flow)}

/-- Of the lines that are executed, those count as calls that ask for a handler and get one.  Only
the last can ask in vain. -/
theorem executed_add (h : m.History sink lines os) {read : List Line}
    (hread : read = (lines.take os.length).map fun line => Line.ofWords (Words.ofText line.2)) :
    (m.reached sink os).machine.executed + (if read.getLast?.any m.table.lacks then 1 else 0) =
      m.executed + read.countP Line.isInstruction := by
  subst hread
  induction h with
  | nil => rfl
  | stop executed stops =>
    have hline := (executeLine_eq_ok_iff.1 executed).executed_add
    simpa [List.countP_cons] using hline
  | @step m sink number text lines o os executed proceeds rest ih =>
    have hperforms := executeLine_eq_ok_iff.1 executed
    have hline := hperforms.executed_add
    have hlacks := hperforms.lacks_of_proceed proceeds
    rw [executeLine_table_eq executed] at ih
    rw [reached_cons proceeds, List.length_cons, List.take_succ_cons, List.map_cons,
      List.countP_cons]
    rw [if_neg (by simp [hlacks])] at hline
    generalize (lines.take os.length).map (fun line => Line.ofWords (Words.ofText line.2)) = read
      at ih ⊢
    -- the last line is the same, unless this one is the last, and then nothing is lacking
    have hlast : (Line.ofWords (Words.ofText text) :: read).getLast?.any m.table.lacks =
        read.getLast?.any m.table.lacks := by
      cases read with
      | nil => simpa using hlacks
      | cons line read => rw [List.getLast?_cons_cons]
    rw [hlast]
    dsimp only
    omega

/-- Where all lines proceed, none of them asks in vain. -/
theorem lacks_eq_false (h : m.History sink lines os)
    (hproceed : (m.reached sink os).result = .ok .proceed) :
    ∀ line ∈ lines, m.table.lacks (Line.ofWords (Words.ofText line.2)) = false := by
  induction h with
  | nil => simp
  | stop executed stops => exact absurd hproceed stops
  | step executed proceeds rest ih =>
    rw [reached_cons proceeds] at hproceed
    rw [executeLine_table_eq executed] at ih
    rw [List.forall_mem_cons]
    exact ⟨(executeLine_eq_ok_iff.1 executed).lacks_of_proceed proceeds, ih hproceed⟩

/-- Of lines that are numbered from 1 on, the last that is executed has the number of those that
are. -/
theorem exists_last_numbered {lines : List (List UInt8)}
    (h : m.History sink (Source.numbered 1 lines) os)
    (hne : (m.reached sink os).result ≠ .ok .proceed) :
    ∃ before line after outcomes, lines = before ++ line :: after ∧
      os = outcomes ++ [m.reached sink os] ∧ before.length + 1 = os.length ∧
      (∀ p ∈ outcomes, p.result = .ok .proceed) ∧
      ∃ (reached : Machine) (between : Sink), reached.table = m.table ∧
        reached.executeLine os.length (Utf8.decode line) between = .ok (m.reached sink os) := by
  obtain ⟨earlier, line, later, outcomes, hlines, hos, hlength, hproceed, hhistory, hlast⟩ :=
    h.exists_last hne
  obtain ⟨before, bytes, after, rfl, hbefore, rfl⟩ := Source.numbered_eq_append hlines
  have hnumber : os.length = earlier.length + 1 := by
    rw [hos, List.length_append, hlength, List.length_singleton]
  refine ⟨before, bytes, after, outcomes, rfl, hos, by omega, hproceed,
    (m.reached sink outcomes).machine, (m.reached sink outcomes).sink, ?_, ?_⟩
  · have hstep := stepThrough_eq_ok_iff.2 ⟨outcomes, hhistory, rfl⟩
    rw [machine_eq_of_stepThrough hstep]
  · rw [Nat.add_comm, ← hnumber] at hlast
    exact hlast

/-- Where the last line that is executed asks in vain, this is what it fails for. -/
theorem result_of_lacks {lines : List (List UInt8)}
    (h : m.History sink (Source.numbered 1 lines) os)
    (hlacks : ((lines.take os.length).map Line.ofBytes).getLast?.any m.table.lacks = true) :
    ∃ opcode, (m.reached sink os).result = .error (.unknownOpcode os.length opcode) := by
  by_cases hproceed : (m.reached sink os).result = .ok .proceed
  · have hnone := h.lacks_eq_false hproceed
    obtain ⟨line, hlast, hline⟩ := (Option.any_eq_true _ _).1 hlacks
    have hmem := List.mem_of_getLast? hlast
    rw [← Source.map_numbered 1, ← Source.numbered_take] at hmem
    obtain ⟨numbered, hnumbered, rfl⟩ := List.mem_map.1 hmem
    rw [hnone numbered (List.mem_of_mem_take hnumbered)] at hline
    cases hline
  · obtain ⟨before, line, after, outcomes, rfl, hos, hlength, -, reached, between, htable, hlast⟩ :=
      h.exists_last_numbered hproceed
    rw [← hlength, List.take_length_add_append] at hlacks
    have hline : reached.table.lacks (Line.ofBytes line) = true := by
      rw [htable]
      simpa using hlacks
    exact (executeLine_eq_ok_iff.1 hlast).result_of_lacks hline

/-- The same lines come first in whatever else is read instead of those that were not. -/
theorem of_lines_take_eq {number : Nat} {lines others : List (List UInt8)}
    (h : m.History sink (Source.numbered number lines) os)
    (hne : (m.reached sink os).result ≠ .ok .proceed)
    (htake : others.take os.length = lines.take os.length) :
    m.History sink (Source.numbered number others) os := by
  apply h.of_take_eq hne
  rw [Source.numbered_take, Source.numbered_take, htake]

end History

/-- A run comes to the diagnostic that its lines come to, or fails with its reader or its sink. -/
theorem result_eq_or_transfer {p : Outcome Flow} {failure flush : Option String}
    {diagnostic : Diagnostic}
    (h : afterFlush (p.ended failure).result flush = .error diagnostic) :
    p.result = .error diagnostic ∨ ∃ cause, diagnostic = .transfer cause := by
  obtain ⟨result, machine, sink⟩ := p
  rcases result with reason | ⟨⟩ | code
  · cases h
    exact .inl rfl
  · cases failure <;> cases flush <;> cases h <;> exact .inr ⟨_, rfl⟩
  · cases flush <;> cases h
    exact .inr ⟨_, rfl⟩

/-- Only a line can fail with a diagnostic that names one. -/
theorem result_eq_of_line? {p : Outcome Flow} {failure flush : Option String}
    {diagnostic : Diagnostic} {n : Nat}
    (h : afterFlush (p.ended failure).result flush = .error diagnostic)
    (hline : diagnostic.line? = some n) : p.result = .error diagnostic := by
  rcases result_eq_or_transfer h with hresult | ⟨cause, rfl⟩
  · exact hresult
  · cases hline

/-- The lines that a run reads, `os` being what they come to, and of which all but the last
proceed.  The count of the calls is that of the instructions among these lines, less one if and only
if the table has no handler for the last of them, which is then what the run fails for.  If the run
fails with a diagnostic that names a line, then this is the last one read; its number is one more
than that of the newlines before it, and what comes after it has no effect. -/
theorem run_counts (m : Machine) (htable : m.table.LocatesErrors) (source : Source) (sink : Sink)
    {o : Outcome Int32} (ho : m.run source sink = .ok o) :
    ∃ (os : List (Outcome Flow)) (read : List Line),
      (fresh m.config m.table).History sink (Source.numbered 1 source.lines) os ∧
      read = (source.lines.take os.length).map Line.ofBytes ∧
      o.machine.executed + (if read.getLast?.any m.table.lacks then 1 else 0) =
        read.countP Line.isInstruction ∧
      (read.getLast?.any m.table.lacks = true →
        ∃ opcode, o.result = .error (.unknownOpcode os.length opcode)) ∧
      ∀ diagnostic n, o.result = .error diagnostic → diagnostic.line? = some n →
        (∃ earlier failed, os = earlier ++ [failed] ∧ failed.result = .error diagnostic ∧
          ∀ p ∈ earlier, p.result = .ok .proceed) ∧
        (∃ before line after, source.bytes = before ++ line ++ after ∧
          source.lines.take os.length = Source.cut before ++ [line] ∧
          n = before.count Source.newline + 1 ∧ n = os.length) ∧
        ∀ other : Source, other.lines.take n = source.lines.take n → m.run other sink = .ok o := by
  rw [run_eq_conclude] at ho
  obtain ⟨p, hp, ho⟩ := Checked.bind_eq_ok_iff.1 ho
  obtain ⟨os, hos, rfl⟩ := stepThrough_eq_ok_iff.1 hp
  obtain ⟨chain, hclear, rfl⟩ := eq_of_conclude ho
  refine ⟨os, _, hos, rfl, ?_, fun hlacks => ?_, fun diagnostic n herror hline => ?_⟩
  · have hcount := hos.executed_add rfl
    rw [Source.numbered_take, Source.map_numbered] at hcount
    rw [Outcome.machine_ended]
    exact hcount.trans (Nat.zero_add _)
  · obtain ⟨opcode, hresult⟩ := hos.result_of_lacks hlacks
    refine ⟨opcode, ?_⟩
    simp [Outcome.ended, hresult, afterFlush]
  · have hfailed := result_eq_of_line? herror hline
    have hne : ((fresh m.config m.table).reached sink os).result ≠ .ok .proceed := by
      simp [hfailed]
    obtain ⟨before, line, after, earlier, hlines, hearlier, hlength, hproceed, reached, between,
      hreached, hlast⟩ := hos.exists_last_numbered hne
    have hn : n = os.length := by
      refine (executeLine_eq_ok_iff.1 hlast).number_eq ?_ hfailed hline
      rwa [hreached]
    refine ⟨⟨earlier, _, hearlier, hfailed, hproceed⟩, ?_, fun other hother => ?_⟩
    · obtain ⟨part, ⟨rest, hpart⟩, hcut⟩ := source.exists_lines_eq_cut
      rw [hlines] at hcut
      obtain ⟨more, rfl, hbefore, hcount⟩ := Source.cut_eq_append hcut.symm
      refine ⟨before.flatten, line, more ++ rest, ?_, ?_, ?_, hn⟩
      · rw [← hpart, List.append_assoc]
      · rw [hlines, hbefore, ← hlength, List.take_length_add_append]
        rfl
      · rw [hcount, hn, hlength]
    · rw [hn] at hother
      have hothers := stepThrough_eq_ok_iff.2 ⟨os, hos.of_lines_take_eq hne hother, rfl⟩
      rw [run_eq_conclude, hothers, Checked.ok_bind,
        Outcome.ended_eq_of_ne hne other.failure source.failure]
      exact ho

/-- The fifth line asks for a handler that there is not.  Two calls come before it, and neither
the blank line nor the comment is one; what would come after it does not matter. -/
theorem run_counts_of_unknown :
    ∃ (o : Outcome Int32) (os : List (Outcome Flow)),
      Table.builtin.LocatesErrors ∧
      (fresh {} .builtin).run
        { bytes := Utf8.encode "push 1\n\n# note\npall\nPUSH 2\npop" } {} = .ok o ∧
      o.result = .error (.unknownOpcode 5 "PUSH") ∧ o.machine.executed = 2 ∧ os.length = 5 ∧
      (fresh {} .builtin).run
        { bytes := Utf8.encode "push 1\n\n# note\npall\nPUSH 2\n", failure := some "broken" } {} =
          .ok o := by
  let source : Source := { bytes := Utf8.encode "push 1\n\n# note\npall\nPUSH 2\npop" }
  have heval : ((fresh {} .builtin).run source {}).map (fun o => (o.result, o.machine.executed)) =
      .ok (.error (.unknownOpcode 5 "PUSH"), 2) := by
    decide +kernel
  obtain ⟨o, ho, heval⟩ := Checked.map_eq_ok_iff.1 heval
  obtain ⟨hresult, hexecuted⟩ : o.result = .error (.unknownOpcode 5 "PUSH") ∧
      o.machine.executed = 2 := by
    simpa using heval
  obtain ⟨os, read, -, -, -, -, hline⟩ :=
    run_counts (fresh {} .builtin) Table.locatesErrors_builtin source {} ho
  obtain ⟨-, ⟨before, line, after, -, -, -, hlength⟩, hother⟩ := hline _ 5 hresult rfl
  exact ⟨o, os, Table.locatesErrors_builtin, ho, hresult, hexecuted, hlength.symm,
    hother _ (by decide +kernel)⟩

end Machine

end ChainMachine
