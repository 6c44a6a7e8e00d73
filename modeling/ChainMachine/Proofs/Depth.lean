import ChainMachine.Proofs.Atomicity
import ChainMachine.Proofs.Counting
import ChainMachine.Proofs.Ending
import ChainMachine.Proofs.Execution
import ChainMachine.Proofs.Failures

/-!
# How many values there are

The number of values on the chain is known without carrying anything out: it is the number of
pushes among the lines that were completed, less the number of instructions that take one value
away.  So it is also known beforehand which line will find too few of them.

* `Opcode.change`: how many values an instruction adds, next to `Opcode.need`;
* `Line.need`, `Line.change`, `Line.depth`: how many a line asks for, and how many lines add;
* `Line.FirstShort`: the first line that asks for more values than there are;
* `Opcode.length_of_rule_eq_ok`, `Opcode.rule_eq_underflow_iff`: the rules agree with this;
* `Machine.length_of_executeLine`, `Machine.chain_eq_of_executeLine`,
  `Machine.underflow_iff_of_executeLine`: so does one line, and
  `Machine.History.length_reached`, `Machine.History.firstShort_of_underflow`,
  `Machine.History.underflow_of_firstShort`: and so do lines one after another;
* `Machine.run_depth`: the number of values in the course of a run, and the line that finds too few.
-/

namespace ChainMachine

namespace Opcode

/-- How many values there are more, once an instruction is completed. -/
def change : Opcode → Int
  | push => 1
  | pop | add | sub | mul | div | mod => -1
  | pall | pint | swap | pchar | pstr | rotl | rotr | stack | queue | nop => 0

end Opcode

namespace Line

/-- How many values a line asks for. -/
def need (line : Line) : Nat := line.opcode?.elim 0 Opcode.need

/-- How many values there are more, once a line is completed. -/
def change (line : Line) : Int := line.opcode?.elim 0 Opcode.change

/-- How many values there are more, once all the lines are completed. -/
def depth : List Line → Int
  | [] => 0
  | line :: lines => line.change + depth lines

/-- The line with index `i` asks for more values than there are if the lines before it are
completed, `count` of them being there at the start, and it is the first line that does so. -/
def FirstShort (count : Int) (lines : List Line) (i : Nat) (op : Opcode) : Prop :=
  (∃ line, lines[i]? = some line ∧ line.opcode? = some op) ∧
    count + depth (lines.take i) < op.need ∧
    ∀ j < i, ∀ line, lines[j]? = some line → (line.need : Int) ≤ count + depth (lines.take j)

@[simp] theorem depth_nil : depth [] = 0 := rfl

@[simp] theorem depth_cons (line : Line) (lines : List Line) :
    depth (line :: lines) = line.change + depth lines := rfl

theorem need_of_opcode? {line : Line} {op : Opcode} (h : line.opcode? = some op) :
    line.need = op.need := by
  rw [need, h, Option.elim_some]

theorem change_of_opcode? {line : Line} {op : Opcode} (h : line.opcode? = some op) :
    line.change = op.change := by
  rw [change, h, Option.elim_some]

theorem change_of_opcode?_eq_none {line : Line} (h : line.opcode? = none) : line.change = 0 := by
  rw [change, h, Option.elim_none]

/-- A line that asks for more values than there are has an opcode. -/
theorem exists_opcode?_of_lt {line : Line} {count : Int} (hcount : 0 ≤ count)
    (h : count < line.need) : ∃ op, line.opcode? = some op := by
  cases hop : line.opcode? with
  | some op => exact ⟨op, rfl⟩
  | none =>
    rw [need, hop, Option.elim_none] at h
    omega

theorem firstShort_zero {count : Int} {line : Line} {lines : List Line} {op : Opcode} :
    FirstShort count (line :: lines) 0 op ↔ line.opcode? = some op ∧ count < op.need := by
  simp [FirstShort]

theorem firstShort_succ {count : Int} {line : Line} {lines : List Line} {i : Nat} {op : Opcode} :
    FirstShort count (line :: lines) (i + 1) op ↔
      (line.need : Int) ≤ count ∧ FirstShort (count + line.change) lines i op := by
  unfold FirstShort
  simp only [List.getElem?_cons_succ, List.take_succ_cons, depth_cons, ← Int.add_assoc]
  constructor
  · rintro ⟨hop, hlt, hbefore⟩
    refine ⟨?_, hop, hlt, ?_⟩
    · simpa using hbefore 0 (Nat.succ_pos i) line rfl
    · intro j hj other hother
      simpa [Int.add_assoc] using
        hbefore (j + 1) (Nat.succ_lt_succ hj) other (by simpa using hother)
  · rintro ⟨hline, hop, hlt, hbefore⟩
    refine ⟨hop, hlt, ?_⟩
    intro j hj other hother
    cases j with
    | zero =>
      obtain rfl : line = other := by simpa using hother
      simpa using hline
    | succ j =>
      simpa [Int.add_assoc] using
        hbefore j (Nat.lt_of_succ_lt_succ hj) other (by simpa using hother)

/-- A line takes no more values away than it asks for. -/
theorem nonneg_add_change {line : Line} {count : Int} (hcount : 0 ≤ count)
    (h : (line.need : Int) ≤ count) : 0 ≤ count + line.change := by
  cases hop : line.opcode? with
  | none =>
    rw [change_of_opcode?_eq_none hop]
    omega
  | some op =>
    rw [need_of_opcode? hop] at h
    rw [change_of_opcode? hop]
    cases op <;> simp only [Opcode.need, Opcode.change] at h ⊢ <;> omega

/-- If some line asks for more values than there are, then there is a first one that does. -/
theorem exists_firstShort {count : Int} (hcount : 0 ≤ count) {lines : List Line} {i : Nat}
    {line : Line} (hline : lines[i]? = some line)
    (hlt : count + depth (lines.take i) < line.need) :
    ∃ j op, j ≤ i ∧ FirstShort count lines j op := by
  induction lines generalizing count i with
  | nil => simp at hline
  | cons first lines ih =>
    by_cases hfirst : count < first.need
    · obtain ⟨op, hop⟩ := exists_opcode?_of_lt hcount hfirst
      rw [need_of_opcode? hop] at hfirst
      exact ⟨0, op, Nat.zero_le i, firstShort_zero.2 ⟨hop, hfirst⟩⟩
    · cases i with
      | zero =>
        obtain rfl : first = line := by simpa using hline
        exact absurd (by simpa using hlt) hfirst
      | succ i =>
        have hle : (first.need : Int) ≤ count := by omega
        rw [List.take_succ_cons, depth_cons, ← Int.add_assoc] at hlt
        obtain ⟨j, op, hj, hshort⟩ :=
          ih (nonneg_add_change hcount hle) (by simpa using hline) hlt
        exact ⟨j + 1, op, Nat.succ_le_succ hj, firstShort_succ.2 ⟨hle, hshort⟩⟩

end Line

/-! ### Rules -/

namespace Contents

theorem length_exchange (values : List Int32) : (exchange values).length = values.length := by
  rcases values with _ | ⟨b, _ | ⟨a, rest⟩⟩ <;> rfl

theorem length_headLast (values : List Int32) : (headLast values).length = values.length := by
  cases values <;> simp [headLast]

theorem length_lastFirst (values : List Int32) : (lastFirst values).length = values.length := by
  rcases List.eq_nil_or_concat values with rfl | ⟨values, last, rfl⟩
  · rfl
  · simp [lastFirst_append]

theorem length_pop (s : Contents) : s.pop.2.values.length = s.values.length - 1 := by
  obtain ⟨values, mode⟩ := s
  cases mode <;> simp [pop]

end Contents

namespace Rule

variable {opcode : String} {f : Int → Int → Int} {number : Nat} {s t : Contents}
  {out : List UInt8}

theorem length_of_combine_eq_ok (h : combine opcode f number s = .ok (t, out)) :
    (t.values.length : Int) = s.values.length + -1 := by
  unfold combine at h
  split at h
  · next b a rest hvalues =>
    cases h
    simp only [hvalues, List.length_cons]
    omega
  · cases h

theorem length_of_divide_eq_ok (h : divide opcode f number s = .ok (t, out)) :
    (t.values.length : Int) = s.values.length + -1 := by
  unfold divide at h
  split at h
  · cases h
  · exact length_of_combine_eq_ok h

end Rule

namespace Opcode

variable {op : Opcode} {number : Nat} {operands : List String} {s t : Contents} {out : List UInt8}

/-- A rule that is carried out changes the number of values as its opcode says. -/
theorem length_of_rule_eq_ok (h : op.rule number operands s = .ok (t, out)) :
    (t.values.length : Int) = s.values.length + op.change := by
  cases op <;> dsimp only [rule, change] at h ⊢
  case add | sub | mul => exact Rule.length_of_combine_eq_ok h
  case div | mod => exact Rule.length_of_divide_eq_ok h
  case push =>
    split at h <;> cases h
    simp
  case pop =>
    split at h
    · cases h
    · next hne =>
      cases h
      have hpos := List.length_pos_iff.2 hne
      rw [Contents.length_pop]
      omega
  case swap =>
    split at h <;> cases h
    simp [Contents.length_exchange]
  case pint =>
    split at h <;> cases h
    simp
  case pchar =>
    split at h
    · cases h
    · split at h <;> cases h
      simp
  case rotl =>
    cases h
    simp [Contents.length_headLast]
  case rotr =>
    cases h
    simp [Contents.length_lastFirst]
  case pall | pstr | stack | queue | nop =>
    cases h
    simp

/-- A rule fails for a lack of values exactly when there are fewer than its opcode asks for, and
then says so. -/
theorem rule_eq_underflow_iff {n : Nat} {name : String} {needed : Nat} :
    op.rule number operands s = .error (.underflow n name needed) ↔
      n = number ∧ name = op.mnemonic ∧ needed = op.need ∧ s.values.length < op.need := by
  rw [rule_eq_error_iff]
  constructor
  · intro h
    cases h with
    | short few => exact ⟨rfl, rfl, rfl, few⟩
  · rintro ⟨rfl, rfl, rfl, few⟩
    exact .short few

end Opcode

/-! ### Lines -/

namespace Machine

variable {m : Machine} {sink : Sink}

section

variable {number : Nat} {text : String} {o : Outcome Flow}

/-- A line that is completed changes the number of values as its opcode says. -/
theorem length_of_executeLine (htable : m.table = .builtin) (hholds : ∃ s, m.chain.Holds s)
    (ho : m.executeLine number text sink = .ok o) (hproceed : o.result = .ok .proceed) :
    (o.machine.chain.length : Int) =
      m.chain.length + (Line.ofWords (Words.ofText text)).change := by
  obtain ⟨s, hs⟩ := hholds
  have hexecutes := executes_of_executeLine htable hs ho
  generalize Words.ofText text = words at hexecutes ⊢
  cases hexecutes with
  | blank => simp [Line.ofWords, Line.change, Line.opcode?]
  | comment hash => simp [Line.change_of_opcode?_eq_none (Line.opcode?_ofWords_of_hash hash _)]
  | unknown => cases hproceed
  | @called word operands op reply hash opcode obeys =>
    rw [← Line.opcode?_ofWords hash operands] at opcode
    rw [Line.change_of_opcode? opcode]
    generalize hrule : op.rule number operands s = result at obeys
    cases obeys with
    | done holds =>
      dsimp only [Reply.proceed]
      rw [holds.length_eq, hs.length_eq, Opcode.length_of_rule_eq_ok hrule]
    | failed => cases hproceed
    | cut => cases hproceed
    | refused => cases hproceed

/-- A line that is not completed leaves the chain as it was. -/
theorem chain_eq_of_executeLine (htable : m.table = .builtin) (hholds : ∃ s, m.chain.Holds s)
    (ho : m.executeLine number text sink = .ok o) (hne : o.result ≠ .ok .proceed) :
    o.machine.chain = m.chain := by
  obtain ⟨s, hs⟩ := hholds
  have hexecutes := executes_of_executeLine htable hs ho
  generalize Words.ofText text = words at hexecutes
  cases hexecutes with
  | blank => exact absurd rfl hne
  | comment => exact absurd rfl hne
  | unknown => rfl
  | called _ _ obeys =>
    obtain ⟨diagnostic, herror⟩ := obeys.outcome_eq.resolve_left hne
    exact obeys.chain_eq_of_error herror

/-- A line fails for a lack of values exactly when there are fewer than its opcode asks for, and
then says so. -/
theorem underflow_iff_of_executeLine (htable : m.table = .builtin) (hholds : ∃ s, m.chain.Holds s)
    (ho : m.executeLine number text sink = .ok o) {n : Nat} {name : String} {needed : Nat} :
    o.result = .error (.underflow n name needed) ↔
      ∃ op, (Line.ofWords (Words.ofText text)).opcode? = some op ∧ n = number ∧
        name = op.mnemonic ∧ needed = op.need ∧ (m.chain.length : Int) < op.need := by
  obtain ⟨s, hs⟩ := hholds
  have hexecutes := executes_of_executeLine htable hs ho
  rw [hs.length_eq]
  generalize Words.ofText text = words at hexecutes ⊢
  cases hexecutes with
  | blank => simp [Line.ofWords, Line.opcode?]
  | comment hash => simp [Line.opcode?_ofWords_of_hash hash]
  | unknown hash opcode => simp [Line.opcode?_ofWords hash, opcode]
  | @called word operands op reply hash opcode obeys =>
    rw [Line.opcode?_ofWords hash, opcode]
    have hunderflow : reply.outcome = .error (.underflow n name needed) ↔
        op.rule number operands s = .error (.underflow n name needed) := by
      generalize op.rule number operands s = result at obeys
      cases obeys <;> simp [Reply.fail, Reply.proceed]
    dsimp only
    rw [hunderflow, Opcode.rule_eq_underflow_iff]
    simp

/-- A line that does not fail for a lack of values asks for no more than there are. -/
theorem need_le_of_executeLine (htable : m.table = .builtin) (hholds : ∃ s, m.chain.Holds s)
    (ho : m.executeLine number text sink = .ok o)
    (hne : ∀ n name needed, o.result ≠ .error (.underflow n name needed)) :
    ((Line.ofWords (Words.ofText text)).need : Int) ≤ m.chain.length := by
  by_contra hlt
  rw [Int.not_le] at hlt
  obtain ⟨op, hop⟩ := Line.exists_opcode?_of_lt (Int.natCast_nonneg _) hlt
  rw [Line.need_of_opcode? hop] at hlt
  exact hne _ _ _ ((underflow_iff_of_executeLine htable hholds ho).2
    ⟨op, hop, rfl, rfl, rfl, hlt⟩)

end

/-- The lines that were completed, `os` being what all of them come to. -/
def completed (lines : List Line) (os : List (Outcome Flow)) : List Line :=
  ((lines.zip os).filter fun line => line.2.proceeds).map Prod.fst

namespace History

variable {lines : List (Nat × String)} {os : List (Outcome Flow)}

/-- There are as many values as the lines that were completed have added. -/
theorem length_reached (h : m.History sink lines os) (htable : m.table = .builtin)
    (hholds : ∃ s, m.chain.Holds s) :
    ((m.reached sink os).machine.chain.length : Int) = m.chain.length +
      Line.depth
        (completed (lines.map fun line => Line.ofWords (Words.ofText line.2)) os) := by
  induction h with
  | nil => simp [completed]
  | stop executed stops =>
    rw [reached_singleton, chain_eq_of_executeLine htable hholds executed stops]
    simp [completed, Outcome.proceeds_iff, stops]
  | @step m sink number text lines o os executed proceeds rest ih =>
    have hlength := length_of_executeLine htable hholds executed proceeds
    obtain ⟨htable', hholds'⟩ := builtin_of_executeLine htable hholds executed
    rw [reached_cons proceeds, ih htable' hholds', hlength]
    simp [completed, Outcome.proceeds_iff.2 proceeds, Int.add_assoc]

/-- Lines that fail for a lack of values fail with the first line that asks for more than there
are. -/
theorem firstShort_of_underflow (h : m.History sink lines os) (htable : m.table = .builtin)
    (hholds : ∃ s, m.chain.Holds s) {n : Nat} {name : String} {needed : Nat}
    (hresult : (m.reached sink os).result = .error (.underflow n name needed)) :
    ∃ i op text, lines[i]? = some (n, text) ∧ name = op.mnemonic ∧ needed = op.need ∧
      Line.FirstShort m.chain.length
        (lines.map fun line => Line.ofWords (Words.ofText line.2)) i op := by
  induction h with
  | nil => cases hresult
  | @stop m sink number text lines o executed stops =>
    rw [reached_singleton, underflow_iff_of_executeLine htable hholds executed] at hresult
    obtain ⟨op, hop, rfl, rfl, rfl, hlt⟩ := hresult
    exact ⟨0, op, text, rfl, rfl, rfl, Line.firstShort_zero.2 ⟨hop, hlt⟩⟩
  | @step m sink number text lines o os executed proceeds rest ih =>
    have hlength := length_of_executeLine htable hholds executed proceeds
    obtain ⟨htable', hholds'⟩ := builtin_of_executeLine htable hholds executed
    rw [reached_cons proceeds] at hresult
    obtain ⟨i, op, text', hline, hname, hneeded, hshort⟩ := ih htable' hholds' hresult
    rw [hlength] at hshort
    have hneed := need_le_of_executeLine htable hholds executed (by simp [proceeds])
    exact ⟨i + 1, op, text', hline, hname, hneeded, Line.firstShort_succ.2 ⟨hneed, hshort⟩⟩

/-- The first line that asks for more values than there are fails for that reason, unless one before
it fails for another. -/
theorem underflow_of_firstShort (h : m.History sink lines os) (htable : m.table = .builtin)
    (hholds : ∃ s, m.chain.Holds s) {i : Nat} {op : Opcode}
    (hshort : Line.FirstShort m.chain.length
      (lines.map fun line => Line.ofWords (Words.ofText line.2)) i op)
    (hbefore : ∀ p ∈ os.take i, p.result = .ok .proceed ∨
      ∃ n name needed, p.result = .error (.underflow n name needed)) :
    ∃ n text, lines[i]? = some (n, text) ∧
      (m.reached sink os).result = .error (.underflow n op.mnemonic op.need) := by
  induction h generalizing i with
  | nil =>
    obtain ⟨⟨line, hline, -⟩, -⟩ := hshort
    simp at hline
  | @stop m sink number text lines o executed stops =>
    rw [List.map_cons] at hshort
    cases i with
    | zero =>
      obtain ⟨hop, hlt⟩ := Line.firstShort_zero.1 hshort
      refine ⟨number, text, rfl, ?_⟩
      rw [reached_singleton, underflow_iff_of_executeLine htable hholds executed]
      exact ⟨op, hop, rfl, rfl, rfl, hlt⟩
    | succ i =>
      -- this line finds enough values, so it would have failed for another reason
      obtain ⟨hle, -⟩ := Line.firstShort_succ.1 hshort
      obtain ⟨n, name, needed, hresult⟩ := (hbefore o (by simp)).resolve_left stops
      rw [underflow_iff_of_executeLine htable hholds executed] at hresult
      obtain ⟨op', hop, -, -, -, hlt⟩ := hresult
      rw [Line.need_of_opcode? hop] at hle
      omega
  | @step m sink number text lines o os executed proceeds rest ih =>
    rw [List.map_cons] at hshort
    cases i with
    | zero =>
      obtain ⟨hop, hlt⟩ := Line.firstShort_zero.1 hshort
      have hresult := (underflow_iff_of_executeLine htable hholds executed).2
        ⟨op, hop, rfl, rfl, rfl, hlt⟩
      rw [proceeds] at hresult
      cases hresult
    | succ i =>
      obtain ⟨-, hshort⟩ := Line.firstShort_succ.1 hshort
      have hlength := length_of_executeLine htable hholds executed proceeds
      rw [← hlength] at hshort
      obtain ⟨htable', hholds'⟩ := builtin_of_executeLine htable hholds executed
      rw [reached_cons proceeds]
      refine ih htable' hholds' hshort ?_
      intro p hp
      exact hbefore p (by simp [hp])

end History

/-! ### Runs -/

/-- The number of values in the course of a run with the built-in handlers.  After any number of
lines it is the sum of what the completed ones among them change, whatever the values are and
whatever the mode is.  If the run fails for a lack of values, then with the first line that asks
for more than the lines before it leave; the diagnostic names its opcode and what this asks for.
Conversely, if some line asks for more than the lines before it leave, then there is a first one
that does so, and the run fails with it, unless a line before it fails for another reason. -/
theorem run_depth (m : Machine) (source : Source) (sink : Sink) :
    ∃ (os : List (Outcome Flow)) (o : Outcome Int32) (lines : List Line),
      lines = source.lines.map Line.ofBytes ∧
      (fresh m.config .builtin).History sink (Source.numbered 1 source.lines) os ∧
      { m with table := .builtin }.run source sink = .ok o ∧
      (∀ k, (((fresh m.config .builtin).reached sink (os.take k)).machine.chain.length : Int) =
        Line.depth (completed (lines.take k) (os.take k))) ∧
      (∀ n name needed, o.result = .error (.underflow n name needed) →
        ∃ i op, Line.FirstShort 0 lines i op ∧ n = i + 1 ∧ name = op.mnemonic ∧
          needed = op.need) ∧
      (∀ i line, lines[i]? = some line → Line.depth (lines.take i) < line.need →
        ∃ j op, j ≤ i ∧ Line.FirstShort 0 lines j op) ∧
      (∀ i op, Line.FirstShort 0 lines i op →
        (∀ p ∈ os.take i, p.result = .ok .proceed ∨
          ∃ n name needed, p.result = .error (.underflow n name needed)) →
        o.result = .error (.underflow (i + 1) op.mnemonic op.need)) := by
  obtain ⟨os, o, hos, hrun, hconclude⟩ := exists_run_builtin m source sink
  obtain ⟨chain, -, rfl⟩ := eq_of_conclude hconclude
  have hholds : ∃ s, (fresh m.config .builtin).chain.Holds s :=
    ⟨_, Chain.holds_empty m.config.initialMode⟩
  refine ⟨os, _, _, rfl, hos, hrun, ?_, ?_, ?_, ?_⟩
  · intro k
    have hlength := (hos.take k).length_reached rfl hholds
    rw [List.map_take, Source.map_numbered] at hlength
    rw [hlength]
    exact Int.zero_add _
  · intro n name needed hresult
    obtain ⟨i, op, text, hline, hname, hneeded, hshort⟩ :=
      hos.firstShort_of_underflow rfl hholds (result_eq_of_line? hresult rfl)
    rw [Source.map_numbered] at hshort
    have hnumber := Source.eq_of_getElem?_numbered hline
    exact ⟨i, op, hshort, hnumber.trans (Nat.add_comm 1 i), hname, hneeded⟩
  · intro i line hline hlt
    exact Line.exists_firstShort (Int.le_refl 0) hline (by simpa using hlt)
  · intro i op hshort hbefore
    rw [← Source.map_numbered 1] at hshort
    obtain ⟨n, text, hline, hresult⟩ := hos.underflow_of_firstShort rfl hholds hshort hbefore
    obtain rfl := Source.eq_of_getElem?_numbered hline
    simp [Outcome.ended, hresult, afterFlush, Nat.add_comm]

-- The product leaves one value, which the rotation keeps, so that the sum finds too few.
example :
    (["push 2", "push 3", "# two", "mul", "rotl", "add", "pop"].map fun text =>
        Line.ofBytes (Utf8.encode text)).map (fun line => (line.need, line.change)) =
      [(0, 1), (0, 1), (0, 0), (2, -1), (0, 0), (2, -1), (1, -1)] ∧
    ((fresh {} .builtin).runText "push 2\npush 3\n# two\nmul\nrotl\nadd\npop" {}).map (·.result) =
      .ok (.error (.underflow 6 "add" 2)) := by
  decide +kernel

end Machine

end ChainMachine
