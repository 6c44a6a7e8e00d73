import ChainMachine.Proofs.Ending
import ChainMachine.Proofs.Modes

/-!
# Queues on a stack

A script can do without the mode of a queue: to pop from the tail is to move the tail before the
head and to pop from there.  As the mode before a line is known from the lines before it, it is
known beforehand which pops these are.

* `Opcode.bytes`: a line with nothing but an opcode;
* `Source.onStack`, `Source.allOnStack`, `Source.stackScript`: what takes the place of a line, of
  several lines, and of a script;
* `Source.place`: how many lines take the place of the first ones;
* `Source.cut_stackScript`: the lines of the script that takes the place of another;
* `Machine.stepThrough_onStack`, `Machine.stepThrough_allOnStack`: one line, and lines one after
  another, come to the same as what takes their place;
* `Machine.run_stackScript`: so does a run.
-/

namespace ChainMachine

/-- A line with nothing but the opcode. -/
def Opcode.bytes (op : Opcode) : List UInt8 := Utf8.encode (op.mnemonic ++ "\n")

namespace Source

/-- What takes the place of a line, where the mode before it is the given one: nothing happens where
a mode is chosen, and a pop from the tail is a rotation and a pop from the head. -/
def onStack (mode : Mode) (line : List UInt8) : List (List UInt8) :=
  if (Line.ofBytes line).mode? ≠ none then [Opcode.nop.bytes]
  else if (Line.ofBytes line).opcode? = some .pop ∧ mode = .queue then
    [Opcode.rotr.bytes, Opcode.pop.bytes]
  else [line]

/-- What takes the place of each of the lines, where the mode before the first is the given one. -/
def allOnStack (mode : Mode) (lines : List (List UInt8)) : List (List (List UInt8)) :=
  lines.mapIdx fun i line => onStack (Line.modeAfter mode ((lines.take i).map Line.ofBytes)) line

/-- What takes the place of a script that begins in the given mode. -/
def stackScript (mode : Mode) (script : List UInt8) : List UInt8 :=
  (allOnStack mode (cut script)).flatten.flatten

/-- How many lines take the place of the first `count` lines of a script. -/
def place (mode : Mode) (script : List UInt8) (count : Nat) : Nat :=
  (allOnStack mode ((cut script).take count)).flatten.length

variable (mode : Mode) (line : List UInt8) (lines more : List (List UInt8))

@[simp] theorem allOnStack_nil : allOnStack mode [] = [] := rfl

theorem allOnStack_cons :
    allOnStack mode (line :: lines) =
      onStack mode line :: allOnStack ((Line.ofBytes line).mode?.getD mode) lines := by
  simp [allOnStack, List.mapIdx_cons, Line.modeAfter_cons]

theorem allOnStack_append :
    allOnStack mode (lines ++ more) =
      allOnStack mode lines ++
        allOnStack (Line.modeAfter mode (lines.map Line.ofBytes)) more := by
  induction lines generalizing mode with
  | nil => rfl
  | cons line lines ih =>
    rw [List.cons_append, allOnStack_cons, allOnStack_cons, ih, List.map_cons, Line.modeAfter_cons,
      List.cons_append]

/-! ### The lines of the script -/

theorem newline_notMem_encode (op : Opcode) : newline ∉ Utf8.encode op.mnemonic := by
  cases op <;> decide

theorem cut_bytes_append (op : Opcode) (rest : List UInt8) :
    cut (op.bytes ++ rest) = op.bytes :: cut rest := by
  have hbytes : op.bytes = Utf8.encode op.mnemonic ++ [newline] := Utf8.encode_append _ _
  rw [hbytes, List.append_assoc, List.singleton_append, cut_append (newline_notMem_encode op)]

/-- The first piece of a script ends with a newline, unless it is the only one. -/
theorem cut_cons {line : List UInt8} {lines : List (List UInt8)}
    (h : cut (line :: lines).flatten = line :: lines) :
    cut lines.flatten = lines ∧
      ((∃ start, newline ∉ start ∧ line = start ++ [newline]) ∨
        (lines = [] ∧ cut line = [line])) := by
  by_cases hmem : newline ∈ (line :: lines).flatten
  · obtain ⟨start, rest, hbytes, hstart⟩ := List.eq_append_cons_of_mem hmem
    rw [hbytes, cut_append hstart, List.cons.injEq] at h
    obtain ⟨rfl, rfl⟩ := h
    rw [flatten_cut]
    exact ⟨rfl, .inl ⟨start, hstart, rfl⟩⟩
  · have hne : (line :: lines).flatten ≠ [] := by
      intro hnil
      rw [hnil] at h
      cases h
    rw [cut_of_notMem hmem hne, List.cons.injEq] at h
    obtain ⟨hline, rfl⟩ := h
    refine ⟨rfl, .inr ⟨rfl, ?_⟩⟩
    rw [hline] at hmem hne
    exact cut_of_notMem hmem hne

theorem cut_flatten_allOnStack {lines : List (List UInt8)} (h : cut lines.flatten = lines) :
    cut (allOnStack mode lines).flatten.flatten = (allOnStack mode lines).flatten := by
  induction lines generalizing mode with
  | nil => rfl
  | cons line lines ih =>
    obtain ⟨hlines, hline⟩ := cut_cons h
    have ih := ih ((Line.ofBytes line).mode?.getD mode) hlines
    rw [allOnStack_cons, List.flatten_cons, List.flatten_append]
    unfold onStack
    split
    · simp [cut_bytes_append, ih]
    · split
      · simp [cut_bytes_append, ih]
      · rcases hline with ⟨start, hstart, rfl⟩ | ⟨rfl, hline⟩
        · simp [cut_append hstart, ih]
        · simpa using hline

/-- The lines of the script that takes the place of another. -/
theorem cut_stackScript (script : List UInt8) :
    cut (stackScript mode script) = (allOnStack mode (cut script)).flatten :=
  cut_flatten_allOnStack mode (by rw [flatten_cut])

/-- The first lines take the place of the first lines. -/
theorem take_cut_stackScript (script : List UInt8) (count : Nat) :
    (cut (stackScript mode script)).take (place mode script count) =
      (allOnStack mode ((cut script).take count)).flatten := by
  rw [cut_stackScript, place]
  conv_lhs =>
    rw [← List.take_append_drop count (cut script), allOnStack_append, List.flatten_append]
  rw [List.take_append_drop, List.take_left]

theorem opcode?_bytes (op : Opcode) : (Line.ofBytes op.bytes).opcode? = some op := by
  cases op <;> decide +kernel

/-- No line of it chooses a mode. -/
theorem mode?_of_mem_stackScript (script : List UInt8) :
    ∀ line ∈ cut (stackScript mode script), (Line.ofBytes line).mode? = none := by
  intro line hmem
  rw [cut_stackScript, List.mem_flatten] at hmem
  obtain ⟨block, hblock, hmem⟩ := hmem
  obtain ⟨i, hi, rfl⟩ := List.mem_mapIdx.1 hblock
  unfold onStack at hmem
  split at hmem
  · obtain rfl := List.mem_singleton.1 hmem
    rw [Line.mode?, opcode?_bytes]
    rfl
  · next hnone =>
    split at hmem
    · rcases List.mem_pair.1 hmem with rfl | rfl <;> rw [Line.mode?, opcode?_bytes] <;> rfl
    · obtain rfl := List.mem_singleton.1 hmem
      exact not_not.1 hnone

end Source

/-! ### Lines -/

/-- An instruction that chooses a mode does nothing else. -/
theorem Opcode.handler_of_mode? {op : Opcode} {mode : Mode} (h : op.mode? = some mode)
    (ctx : Context) (c : Chain) (sink : Sink) :
    op.handler ctx c sink = .ok (.proceed (c.setMode mode) sink) := by
  cases op <;> cases h <;> rfl

namespace Machine

variable {m : Machine} {number number' : Nat} {text : String} {sink : Sink} {line : List UInt8}

theorem stepThrough_singleton (m : Machine) (number : Nat) (line : List UInt8) (sink : Sink) :
    m.stepThrough sink (Source.numbered number [line]) =
      m.executeLine number (Utf8.decode line) sink := by
  rw [Source.numbered_cons, stepThrough]
  cases m.executeLine number (Utf8.decode line) sink with
  | error fault => rfl
  | ok o =>
    rw [Checked.ok_bind]
    by_cases hproceed : o.result = .ok .proceed
    · rw [Outcome.andThen_of_proceed hproceed, Source.numbered_nil, stepThrough, ← hproceed]
    · rw [Outcome.andThen_of_ne hproceed]

/-- A line with a built-in opcode calls its handler. -/
theorem executeLine_of_opcode? (htable : m.table = .builtin) {op : Opcode}
    (h : (Line.ofWords (Words.ofText text)).opcode? = some op) (number : Nat) (sink : Sink) :
    ∃ operands, m.executeLine number text sink =
      (op.handler { line := number, operands, slotLimit := m.config.slotLimit } m.chain sink).map
        fun reply =>
          { result := reply.outcome
            machine := { m with chain := reply.chain, executed := m.executed + 1 }
            sink := reply.sink } := by
  rw [executeLine_eq]
  cases hline : Line.ofWords (Words.ofText text) with
  | blank =>
    rw [hline] at h
    cases h
  | comment =>
    rw [hline] at h
    cases h
  | instruction word operands =>
    rw [hline] at h
    refine ⟨operands, ?_⟩
    dsimp only
    rw [htable, Table.get?_builtin, show Opcode.ofMnemonic? word = some op from h]
    rfl

/-- Doing nothing comes to the same as choosing a mode, on a machine that stays in the mode of a
stack. -/
theorem stepThrough_nop (htable : m.table = .builtin) {mode : Mode}
    (hmode : (Line.ofWords (Words.ofText text)).mode? = some mode) (f : Nat → Nat)
    (number number' : Nat) (sink : Sink) (more : Nat) :
    (m.recast .stack .stack more).stepThrough sink (Source.numbered number' [Opcode.nop.bytes]) =
      (m.executeLine number text sink).map (Outcome.recast f .stack .stack more) := by
  obtain ⟨op, hop, hmode⟩ := Option.bind_eq_some_iff.1 hmode
  obtain ⟨operands, hline⟩ := executeLine_of_opcode? htable hop number sink
  obtain ⟨operands', hnop⟩ := executeLine_of_opcode? (m := m.recast .stack .stack more) htable
    (Source.opcode?_bytes .nop) number' sink
  rw [stepThrough_singleton, hnop, hline, Opcode.handler_of_mode? hmode]
  simp [Opcode.handler, Builtin.nop, recast, Outcome.recast, Reply.proceed, Nat.add_right_comm,
    Except.mapError, Chain.setMode_setMode]

/-- To move the tail before the head and to pop from there comes to the same as to pop from the
tail. -/
theorem stepThrough_rotr_pop (htable : m.table = .builtin) (hholds : ∃ s, m.chain.Holds s)
    (hop : (Line.ofWords (Words.ofText text)).opcode? = some .pop) (hmode : m.chain.mode = .queue)
    {f : Nat → Nat} (hf : f number = number' + 1) (sink : Sink) (more : Nat) :
    (m.recast .stack .stack more).stepThrough sink
        (Source.numbered number' [Opcode.rotr.bytes, Opcode.pop.bytes]) =
      (m.executeLine number text sink).map (Outcome.recast f .stack .stack (more + 1)) := by
  obtain ⟨s, hs⟩ := hholds
  obtain ⟨d, hd, hholds'⟩ := hs.tailToHead
  obtain ⟨e, he, -⟩ := hholds'.popHead
  generalize (Contents.lastFirst s.values).head? = value at he
  have htail : m.chain.pop = .ok (value, e) := by
    obtain ⟨path, hl, -⟩ := hs
    rw [Chain.pop, hmode]
    exact hl.popTail_eq.trans (by rw [hd, Checked.ok_bind, he])
  obtain ⟨operands, hline⟩ := executeLine_of_opcode? htable hop number sink
  obtain ⟨operands', hrotr⟩ := executeLine_of_opcode? (m := m.recast .stack .stack more) htable
    (Source.opcode?_bytes .rotr) number' sink
  obtain ⟨operands'', hpop⟩ := executeLine_of_opcode?
    (m := { m with chain := d }.recast .stack .stack (more + 1)) htable
    (Source.opcode?_bytes .pop) (number' + 1) sink
  have hturned : (m.recast .stack .stack more).executeLine number' (Utf8.decode Opcode.rotr.bytes)
      sink = .ok { result := .ok .proceed
                   machine := { m with chain := d }.recast .stack .stack (more + 1), sink } := by
    rw [hrotr]
    dsimp only [Opcode.handler, Builtin.rotr, recast]
    rw [Chain.tailToHead_setMode, hd]
    rfl
  rw [stepThrough_of_proceed hturned, stepThrough_singleton, hpop, hline]
  dsimp only [Opcode.handler, Builtin.pop, recast]
  rw [htail, show (d.setMode .stack).pop = (d.setMode .stack).popHead from rfl,
    Chain.popHead_setMode, he]
  have hcalls : m.executed + (more + 1) + 1 = m.executed + 1 + (more + 1) := by omega
  cases value <;>
    simp [recast, Outcome.recast, Reply.proceed, Reply.fail, Except.mapError, Diagnostic.mapLine,
      hf, hcalls]

/-- What takes the place of a line comes to the same. -/
theorem stepThrough_onStack (htable : m.table = .builtin) (hholds : ∃ s, m.chain.Holds s)
    {f : Nat → Nat} (hf : f number + 1 = number' + (Source.onStack m.chain.mode line).length)
    (sink : Sink) (more : Nat) :
    ∃ more', (m.recast .stack .stack more).stepThrough sink
        (Source.numbered number' (Source.onStack m.chain.mode line)) =
      (m.executeLine number (Utf8.decode line) sink).map
        (Outcome.recast f .stack .stack more') := by
  by_cases hchosen : (Line.ofBytes line).mode? = none
  · by_cases hpop : (Line.ofBytes line).opcode? = some .pop ∧ m.chain.mode = .queue
    · rw [Source.onStack, if_neg (not_not.2 hchosen), if_pos hpop] at hf ⊢
      exact ⟨_, stepThrough_rotr_pop htable hholds hpop.1 hpop.2 (Nat.succ.inj hf) sink more⟩
    · rw [Source.onStack, if_neg (not_not.2 hchosen), if_neg hpop] at hf ⊢
      obtain rfl : f number = number' := Nat.succ.inj hf
      have hstack : (Line.ofBytes line).opcode? = some .pop → .stack = m.chain.mode := by
        intro hop
        cases hmode : m.chain.mode with
        | stack => rfl
        | queue => exact absurd ⟨hop, hmode⟩ hpop
      refine ⟨more, ?_⟩
      rw [stepThrough_singleton, executeLine_recast htable f .stack more hstack,
        show (Line.ofWords (Words.ofText (Utf8.decode line))).mode? = none from hchosen]
      rfl
  · rw [Source.onStack, if_pos hchosen]
    obtain ⟨mode, hmode⟩ := Option.ne_none_iff_exists'.1 hchosen
    exact ⟨more, stepThrough_nop htable hmode f number number' sink more⟩

/-- What takes the place of lines comes to the same. -/
theorem stepThrough_allOnStack (htable : m.table = .builtin) (hholds : ∃ s, m.chain.Holds s)
    {lines : List (List UInt8)} {f : Nat → Nat}
    (hf : ∀ i < lines.length, f (number + i) + 1 =
      number' + (Source.allOnStack m.chain.mode (lines.take (i + 1))).flatten.length)
    (sink : Sink) (more : Nat) :
    ∃ more', (m.recast .stack .stack more).stepThrough sink
        (Source.numbered number' (Source.allOnStack m.chain.mode lines).flatten) =
      (m.stepThrough sink (Source.numbered number lines)).map
        (Outcome.recast f .stack .stack more') := by
  induction lines generalizing m number number' sink more with
  | nil => exact ⟨more, rfl⟩
  | cons line lines ih =>
    have hfirst : f number + 1 = number' + (Source.onStack m.chain.mode line).length := by
      simpa [Source.allOnStack_cons] using hf 0 (by simp)
    obtain ⟨more₁, hline⟩ := stepThrough_onStack htable hholds hfirst sink more
    rw [Source.allOnStack_cons, List.flatten_cons, Source.numbered_append, stepThrough_append,
      hline, Source.numbered_cons, stepThrough]
    cases ho : m.executeLine number (Utf8.decode line) sink with
    | error fault => exact ⟨more, rfl⟩
    | ok o =>
      rw [Checked.map_ok, Checked.ok_bind, Checked.ok_bind]
      by_cases hproceed : o.result = .ok .proceed
      · obtain ⟨htable', hholds'⟩ := builtin_of_executeLine htable hholds ho
        have hmode : (Line.ofBytes line).mode?.getD m.chain.mode = o.machine.chain.mode :=
          (mode_of_executeLine htable ho).symm
        -- the lines after this one begin in the mode that it leaves
        rw [Outcome.andThen_of_proceed hproceed,
          Outcome.andThen_of_proceed (Outcome.result_recast_eq_ok_iff.2 hproceed), hmode]
        refine ih htable' hholds' ?_ o.sink more₁
        intro i hi
        have hnext := hf (i + 1) (Nat.succ_lt_succ hi)
        rw [List.take_succ_cons, Source.allOnStack_cons, List.flatten_cons, List.length_append,
          hmode] at hnext
        rw [Nat.add_assoc number', ← hnext]
        congr 2
        omega
      · rw [Outcome.andThen_of_ne hproceed,
          Outcome.andThen_of_ne (Outcome.result_recast_eq_ok_iff.not.2 hproceed)]
        exact ⟨more₁, rfl⟩

/-! ### Runs -/

/-- The first lines of a script, and what takes their place. -/
theorem stepThrough_stackScript (m : Machine) (initial : Mode) (script : List UInt8) (sink : Sink)
    (count : Nat) :
    ∃ more, (fresh (m.startingIn .stack).config .builtin).stepThrough sink
        ((Source.numbered 1 (Source.cut (Source.stackScript initial script))).take
          (Source.place initial script count)) =
      ((fresh (m.startingIn initial).config .builtin).stepThrough sink
        ((Source.numbered 1 (Source.cut script)).take count)).map
          (Outcome.recast (Source.place initial script) .stack .stack more) := by
  rw [Source.numbered_take, Source.numbered_take, Source.take_cut_stackScript,
    fresh_startingIn m initial .stack]
  refine stepThrough_allOnStack (m := fresh (m.startingIn initial).config .builtin) rfl
    ⟨_, Chain.holds_empty initial⟩ ?_ sink 0
  intro i hi
  rw [List.length_take] at hi
  rw [List.take_take, Nat.min_eq_left (by omega), Nat.add_comm 1, Nat.add_comm 1]
  rfl

/-- A script that begins in some mode, and the script that takes its place on a machine that never
leaves the mode of a stack, as no line of it chooses one.  The runs write the same, and they have
the same result, up to the line that a diagnostic names: this is the line of the new script that
ends what takes the place of the old line.  So it is after any number of lines `k` and what takes
their place: the chains have the same values, and the same has been written.  If none of the `k`
lines fails, then the mode of the old run is the one that was chosen last among them, or else the
one that it began in.  Pops are replaced according to this. -/
theorem run_stackScript (m : Machine) (initial : Mode) (script : List UInt8) (sink : Sink) :
    ∃ (lines : List Line) (script' : List UInt8) (place : Nat → Nat) (o o' : Outcome Int32),
      lines = (Source.cut script).map Line.ofBytes ∧
      script' = Source.stackScript initial script ∧ place = Source.place initial script ∧
      (∀ k, (Source.cut script').take (place k) =
        (Source.allOnStack initial ((Source.cut script).take k)).flatten) ∧
      (∀ line ∈ Source.cut script', (Line.ofBytes line).mode? = none) ∧
      (m.startingIn initial).run { bytes := script } sink = .ok o ∧
      (m.startingIn .stack).run { bytes := script' } sink = .ok o' ∧
      o'.sink = o.sink ∧ o'.result = o.result.mapError (Diagnostic.mapLine place) ∧
      ∀ k, ∃ p p' values,
        (fresh (m.startingIn initial).config .builtin).stepThrough sink
          ((Source.numbered 1 (Source.cut script)).take k) = .ok p ∧
        (fresh (m.startingIn .stack).config .builtin).stepThrough sink
          ((Source.numbered 1 (Source.cut script')).take (place k)) = .ok p' ∧
        p.machine.chain.values = .ok values ∧ p'.machine.chain.values = .ok values ∧
        p'.sink = p.sink ∧ p'.result = p.result.mapError (Diagnostic.mapLine place) ∧
        (p.result = .ok .proceed →
          p.machine.chain.mode = Line.modeAfter initial (lines.take k)) := by
  obtain ⟨os, o, hos, hrun, hconclude⟩ :=
    exists_run_builtin (m.startingIn initial) { bytes := script } sink
  have hos : (fresh (m.startingIn initial).config .builtin).History sink
      (Source.numbered 1 (Source.cut script)) os := hos
  obtain ⟨more, hall⟩ := stepThrough_stackScript m initial script sink (Source.cut script).length
  rw [Source.numbered_take, Source.numbered_take, Source.take_cut_stackScript, List.take_length,
    ← Source.cut_stackScript, stepThrough_eq_ok_iff.2 ⟨os, hos, rfl⟩, Checked.map_ok] at hall
  have hrun' : (m.startingIn .stack).run { bytes := Source.stackScript initial script } sink =
      .ok (o.recast (Source.place initial script) .stack .stack more) := by
    rw [run_eq_conclude, table_startingIn]
    dsimp only [Source.lines]
    rw [hall, Checked.ok_bind, Outcome.ended_recast, conclude_recast, hconclude, Checked.map_ok]
  refine ⟨_, _, _, o, _, rfl, rfl, rfl, Source.take_cut_stackScript initial script,
    Source.mode?_of_mem_stackScript initial script, hrun, hrun', rfl, rfl, ?_⟩
  intro k
  obtain ⟨more, hk⟩ := stepThrough_stackScript m initial script sink k
  rw [stepThrough_eq_ok_iff.2 ⟨os.take k, hos.take k, rfl⟩, Checked.map_ok] at hk
  obtain ⟨t, ht⟩ := (hos.take k).exists_holds Table.keepsChains_builtin
    ⟨_, Chain.holds_empty initial⟩
  refine ⟨_, _, t.values, stepThrough_eq_ok_iff.2 ⟨os.take k, hos.take k, rfl⟩, hk, ht.values_eq,
    ht.values_eq, rfl, rfl, ?_⟩
  intro hproceed
  rw [(hos.take k).mode_reached rfl, (hos.take k).length_eq_of_proceed hproceed, List.take_length,
    List.map_take, Source.map_numbered]
  rfl

-- The chain has one node at the first pop, and none at the last, which is the tenth line by then.
example :
    Source.stackScript .queue (Utf8.encode "push 1\npop\nstack\npush 2\nqueue\npop\npop") =
      Utf8.encode "push 1\nrotr\npop\nnop\npush 2\nnop\nrotr\npop\nrotr\npop\n" ∧
    ((fresh { initialMode := .queue } .builtin).runText
      "push 1\npop\nstack\npush 2\nqueue\npop\npop" {}).map (·.result) =
        .ok (.error (.underflow 7 "pop" 1)) ∧
    ((fresh {} .builtin).runText
      "push 1\nrotr\npop\nnop\npush 2\nnop\nrotr\npop\nrotr\npop\n" {}).map (·.result) =
        .ok (.error (.underflow 10 "pop" 1)) := by
  decide +kernel

end Machine

end ChainMachine
