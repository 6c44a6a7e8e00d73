import ChainMachine.Proofs.Counting
import ChainMachine.Proofs.Execution

/-!
# Modes

Only `pop` looks at the mode of a chain, and only `stack` and `queue` choose one.  So the mode
before a line is known from the lines before it, and anything but `pop` does the same in either
mode.

* `Opcode.mode?`, `Line.mode?`: the mode that an instruction chooses;
* `Line.modeAfter`: the mode after some lines;
* `Chain.push_setMode`, `Chain.popHead_setMode`, …: an operation on a chain in another mode;
* `Diagnostic.mapLine`, `Opcode.handler_recast`: an instruction on another line and in another mode;
* `Machine.recast`, `Machine.executeLine_recast`: a line with another number and in another mode;
* `Machine.mode_of_executeLine`, `Machine.History.mode_reached`: the mode after lines;
* `Machine.startingIn`: a machine whose runs begin in the given mode;
* `Outcome.ended_recast`, `Machine.conclude_recast`: how a run ends in another mode.
-/

namespace ChainMachine

/-- The mode that an instruction chooses, if it chooses one. -/
def Opcode.mode? : Opcode → Option Mode
  | stack => some .stack
  | queue => some .queue
  | push | pall | pint | pop | swap | add | nop | sub | div | mul | mod | pchar | pstr | rotl
  | rotr => none

namespace Line

/-- The mode that a line chooses, if it chooses one. -/
def mode? (line : Line) : Option Mode := line.opcode?.bind Opcode.mode?

/-- The mode after some lines: the one that was chosen last, or else the one before them. -/
def modeAfter (mode : Mode) (lines : List Line) : Mode :=
  (lines.filterMap mode?).getLast?.getD mode

@[simp] theorem modeAfter_nil (mode : Mode) : modeAfter mode [] = mode := rfl

theorem modeAfter_cons (mode : Mode) (line : Line) (lines : List Line) :
    modeAfter mode (line :: lines) = modeAfter (line.mode?.getD mode) lines := by
  unfold modeAfter
  cases h : line.mode? with
  | none => rw [List.filterMap_cons_none h, Option.getD_none]
  | some chosen =>
    rw [List.filterMap_cons_some h, List.getLast?_cons, Option.getD_some, Option.getD_some]

/-- The mode before the lines does not matter when one of them chooses a mode. -/
theorem modeAfter_eq_of_mem {line : Line} {lines : List Line} (hmem : line ∈ lines)
    (hline : line.mode? ≠ none) (mode other : Mode) :
    modeAfter mode lines = modeAfter other lines := by
  obtain ⟨chosen, hchosen⟩ := Option.ne_none_iff_exists'.1 hline
  have hne : lines.filterMap mode? ≠ [] :=
    List.ne_nil_of_mem (List.mem_filterMap.2 ⟨line, hmem, hchosen⟩)
  rw [modeAfter, modeAfter, List.getLast?_eq_some_getLast hne, Option.getD_some, Option.getD_some]

/-- The mode stays when no line chooses one. -/
theorem modeAfter_eq_self {lines : List Line} (h : ∀ line ∈ lines, line.mode? = none)
    (mode : Mode) : modeAfter mode lines = mode := by
  rw [modeAfter, List.filterMap_eq_nil_iff.2 h]
  rfl

end Line

/-! ### Operations in another mode -/

namespace Chain

variable (c : Chain) (mode : Mode)

theorem setMode_setMode (other : Mode) : (c.setMode other).setMode mode = c.setMode mode := rfl

theorem setMode_self : c.setMode c.mode = c := rfl

theorem push_setMode (value : Int32) (limit : Option Nat) :
    (c.setMode mode).push value limit =
      (c.push value limit).map (Option.map fun d => d.setMode mode) := by
  unfold push
  rw [Checked.map_bind]
  refine bind_congr fun occupied => ?_
  cases occupied with
  | none => rfl
  | some occupied =>
    simp only [Checked.map_bind]
    rfl

theorem popHead_setMode :
    (c.setMode mode).popHead = c.popHead.map (Prod.map id fun d => d.setMode mode) := by
  obtain ⟨storage, head, length, own⟩ := c
  cases head with
  | none => rfl
  | some slot =>
    simp only [popHead, setMode, Checked.map_bind]
    rfl

theorem popTail_setMode :
    (c.setMode mode).popTail = c.popTail.map (Prod.map id fun d => d.setMode mode) := by
  obtain ⟨storage, head, length, own⟩ := c
  cases head with
  | none => rfl
  | some first =>
    simp only [popTail, setMode, Checked.map_bind]
    rfl

theorem setHead_setMode (value : Int32) :
    (c.setMode mode).setHead value =
      (c.setHead value).map (Prod.map id fun d => d.setMode mode) := by
  obtain ⟨storage, head, length, own⟩ := c
  cases head with
  | none => rfl
  | some slot =>
    simp only [setHead, setMode, Checked.map_bind]
    rfl

theorem swap_setMode :
    (c.setMode mode).swap = c.swap.map (Prod.map id fun d => d.setMode mode) := by
  unfold swap
  rw [Checked.map_bind]
  refine bind_congr fun slots => ?_
  cases slots with
  | none => rfl
  | some slots =>
    simp only [Checked.map_bind]
    rfl

theorem headToTail_setMode :
    (c.setMode mode).headToTail = c.headToTail.map fun d => d.setMode mode := by
  unfold headToTail
  rw [Checked.map_bind]
  refine bind_congr fun slots => ?_
  cases slots with
  | none => rfl
  | some slots =>
    simp only [Checked.map_bind]
    rfl

theorem tailToHead_setMode :
    (c.setMode mode).tailToHead = c.tailToHead.map fun d => d.setMode mode := by
  unfold tailToHead
  rw [Checked.map_bind]
  refine bind_congr fun slots => ?_
  cases slots with
  | none => rfl
  | some slots =>
    simp only [Checked.map_bind]
    rfl

/-- A pop leaves the mode as it is. -/
theorem mode_of_pop {value : Option Int32} {d : Chain} (h : c.pop = .ok (value, d)) :
    d.mode = c.mode := by
  have hpop : c.pop = c.pop.map (Prod.map id fun d => d.setMode c.mode) := by
    unfold pop
    split
    · exact c.popHead_setMode c.mode
    · exact c.popTail_setMode c.mode
  rw [h, Checked.map_ok] at hpop
  exact congrArg (fun p => p.2.mode) (Except.ok.inj hpop)

theorem clear_setMode : (c.setMode mode).clear = c.clear.map fun d => d.setMode mode := by
  unfold clear
  rw [Checked.map_bind]
  rfl

end Chain

/-! ### Instructions on another line and in another mode -/

/-- The diagnostic with another line in the place of its own. -/
def Diagnostic.mapLine (f : Nat → Nat) : Diagnostic → Diagnostic
  | storageExhausted => storageExhausted
  | invalidOperand line => invalidOperand (f line)
  | underflow line opcode needed => underflow (f line) opcode needed
  | divisionByZero line => divisionByZero (f line)
  | invalidCharacterCode line value => invalidCharacterCode (f line) value
  | unknownOpcode line opcode => unknownOpcode (f line) opcode
  | cannotOpen path cause => cannotOpen path cause
  | transfer cause => transfer cause

@[simp] theorem Diagnostic.mapLine_id (diagnostic : Diagnostic) :
    diagnostic.mapLine id = diagnostic := by
  cases diagnostic <;> rfl

namespace Reply

/-- The reply as it is on another line and in another mode. -/
def recast (f : Nat → Nat) (mode : Mode) (reply : Reply) : Reply :=
  { outcome := reply.outcome.mapError (Diagnostic.mapLine f)
    chain := reply.chain.setMode mode
    sink := reply.sink }

theorem recast_printed (f : Nat → Nat) (mode : Mode) (c : Chain) (written : Sink × Option String) :
    (printed c written).recast f mode = printed (c.setMode mode) written := by
  obtain ⟨after, failure⟩ := written
  cases failure <;> rfl

end Reply

namespace Builtin

variable (f : Nat → Nat) (ctx : Context) (c : Chain) (sink : Sink) (mode : Mode)

theorem arithmetic_recast (opcode : String) (g : Int32 → Int32 → Checked Int32) :
    arithmetic opcode g { ctx with line := f ctx.line } (c.setMode mode) sink =
      (arithmetic opcode g ctx c sink).map (Reply.recast f mode) := by
  unfold arithmetic
  rw [Checked.map_bind]
  refine bind_congr fun values => ?_
  rcases values with _ | ⟨b, a⟩
  · rfl
  dsimp only
  rw [Checked.map_bind]
  refine bind_congr fun value => ?_
  rw [Chain.popHead_setMode]
  rcases c.popHead with fault | ⟨popped, d⟩
  · rfl
  dsimp only [Checked.map_ok, Checked.ok_bind, Prod.map]
  rw [Chain.setHead_setMode]
  cases d.setHead value <;> rfl

theorem division_recast (opcode : String) (g : Int32 → Int32 → Checked Int32) :
    division opcode g { ctx with line := f ctx.line } (c.setMode mode) sink =
      (division opcode g ctx c sink).map (Reply.recast f mode) := by
  unfold division
  rw [Checked.map_bind]
  refine bind_congr fun values => ?_
  split
  · rfl
  · exact arithmetic_recast f ctx c sink mode opcode g

end Builtin

/-- An instruction does the same on another line and in another mode, except that a pop asks for the
mode that the chain is in. -/
theorem Opcode.handler_recast (op : Opcode) (f : Nat → Nat) (ctx : Context) {c : Chain}
    (sink : Sink) {mode : Mode} (hpop : op = .pop → mode = c.mode) :
    op.handler { ctx with line := f ctx.line } (c.setMode mode) sink =
      (op.handler ctx c sink).map (Reply.recast f (op.mode?.getD mode)) := by
  cases op <;> dsimp only [handler, mode?, Option.getD_none, Option.getD_some]
  case push =>
    unfold Builtin.push
    cases ctx.operands.head?.bind Numeral.read with
    | none => rfl
    | some value =>
      dsimp only
      rw [Chain.push_setMode]
      rcases c.push value ctx.slotLimit with fault | _ | d <;> rfl
  case pall =>
    unfold Builtin.pall
    rw [Checked.map_bind]
    refine bind_congr fun values => ?_
    rw [Checked.pure_eq_ok, Checked.pure_eq_ok, Checked.map_ok, Reply.recast_printed]
  case pint =>
    unfold Builtin.pint
    rw [Checked.map_bind]
    refine bind_congr fun value => ?_
    cases value with
    | none => rfl
    | some b =>
      dsimp only
      rw [Checked.pure_eq_ok, Checked.pure_eq_ok, Checked.map_ok, Reply.recast_printed]
  case pop =>
    obtain rfl := hpop rfl
    unfold Builtin.pop
    rw [Chain.setMode_self]
    cases h : c.pop with
    | error fault => rfl
    | ok popped =>
      obtain ⟨value, d⟩ := popped
      have hd : d.setMode c.mode = d := by rw [← c.mode_of_pop h, Chain.setMode_self]
      cases value <;>
        simp [Reply.recast, Reply.fail, Reply.proceed, hd, Except.mapError, Diagnostic.mapLine]
  case swap =>
    unfold Builtin.swap
    rw [Chain.swap_setMode]
    rcases c.swap with fault | ⟨_ | _, d⟩ <;> rfl
  case add | sub | mul => exact Builtin.arithmetic_recast f ctx c sink mode _ _
  case div | mod => exact Builtin.division_recast f ctx c sink mode _ _
  case pchar =>
    unfold Builtin.pchar
    rw [Checked.map_bind]
    refine bind_congr fun value => ?_
    cases value with
    | none => rfl
    | some b =>
      dsimp only
      split
      · rw [Checked.pure_eq_ok, Checked.pure_eq_ok, Checked.map_ok, Reply.recast_printed]
      · rfl
  case pstr =>
    unfold Builtin.pstr
    rw [Checked.map_bind]
    refine bind_congr fun values => ?_
    rw [Checked.pure_eq_ok, Checked.pure_eq_ok, Checked.map_ok, Reply.recast_printed]
  case rotl =>
    unfold Builtin.rotl
    rw [Chain.headToTail_setMode]
    cases c.headToTail <;> rfl
  case rotr =>
    unfold Builtin.rotr
    rw [Chain.tailToHead_setMode]
    cases c.tailToHead <;> rfl
  case stack | queue | nop => rfl

/-! ### Lines -/

/-- The machine with another initial mode, in another mode, and after so many more calls. -/
def Machine.recast (initial mode : Mode) (more : Nat) (m : Machine) : Machine :=
  { m with
    config := { m.config with initialMode := initial }
    chain := m.chain.setMode mode
    executed := m.executed + more }

/-- The machine with the built-in handlers, its runs beginning in the given mode. -/
def Machine.startingIn (mode : Mode) (m : Machine) : Machine :=
  { m with table := .builtin, config := { m.config with initialMode := mode } }

/-- The outcome as it is on another line, for a machine that is recast. -/
def Outcome.recast {α : Type} (f : Nat → Nat) (initial mode : Mode) (more : Nat) (o : Outcome α) :
    Outcome α :=
  { result := o.result.mapError (Diagnostic.mapLine f)
    machine := o.machine.recast initial mode more
    sink := o.sink }

theorem Outcome.result_recast_eq_ok_iff {α : Type} {f : Nat → Nat} {initial mode : Mode}
    {more : Nat} {o : Outcome α} {a : α} :
    (o.recast f initial mode more).result = .ok a ↔ o.result = .ok a := by
  obtain ⟨result, machine, sink⟩ := o
  cases result <;> simp [recast, Except.mapError]

theorem Outcome.result_recast_id {α : Type} (initial mode : Mode) (more : Nat) (o : Outcome α) :
    (o.recast id initial mode more).result = o.result := by
  obtain ⟨result, machine, sink⟩ := o
  cases result <;> simp [recast, Except.mapError]

theorem Outcome.ended_recast (f : Nat → Nat) (initial mode : Mode) (more : Nat)
    (failure : Option String) (o : Outcome Flow) :
    (o.recast f initial mode more).ended failure =
      (o.ended failure).recast f initial mode more := by
  obtain ⟨result, machine, sink⟩ := o
  rcases result with diagnostic | ⟨⟩ | code <;> cases failure <;> rfl

namespace Machine

variable {m : Machine} {number : Nat} {text : String} {sink : Sink}

/-- A line does the same with another number and in another mode, except that a pop asks for the
mode that the chain is in. -/
theorem executeLine_recast (htable : m.table = .builtin) (f : Nat → Nat) (initial : Mode)
    {mode : Mode} (more : Nat)
    (hpop : (Line.ofWords (Words.ofText text)).opcode? = some .pop → mode = m.chain.mode) :
    (m.recast initial mode more).executeLine (f number) text sink =
      (m.executeLine number text sink).map
        (Outcome.recast f initial ((Line.ofWords (Words.ofText text)).mode?.getD mode) more) := by
  obtain ⟨config, table, chain, executed, halt⟩ := m
  obtain rfl : table = .builtin := htable
  rw [executeLine_eq, executeLine_eq]
  cases hline : Line.ofWords (Words.ofText text) with
  | blank => rfl
  | comment => rfl
  | instruction word operands =>
    rw [hline] at hpop
    dsimp only [recast, Line.opcode?, Line.mode?] at hpop ⊢
    rw [Table.get?_builtin]
    cases hop : Opcode.ofMnemonic? word with
    | none => rfl
    | some op =>
      rw [hop] at hpop
      have h := op.handler_recast f { line := number, operands, slotLimit := config.slotLimit }
        sink fun heq => hpop (by rw [heq])
      dsimp only [Option.map_some, Option.bind_some] at h ⊢
      rw [h]
      cases op.handler { line := number, operands, slotLimit := config.slotLimit } chain sink with
      | error fault => rfl
      | ok reply =>
        simp [Outcome.recast, recast, Reply.recast, Nat.add_right_comm]

/-- What a line comes to with another number and in another mode. -/
theorem recast_of_executeLine (htable : m.table = .builtin) {o : Outcome Flow}
    (ho : m.executeLine number text sink = .ok o) (f : Nat → Nat) (initial : Mode) {mode : Mode}
    (more : Nat)
    (hpop : (Line.ofWords (Words.ofText text)).opcode? = some .pop → mode = m.chain.mode) :
    (m.recast initial mode more).executeLine (f number) text sink =
      .ok (o.recast f initial ((Line.ofWords (Words.ofText text)).mode?.getD mode) more) := by
  rw [executeLine_recast htable f initial more hpop, ho, Checked.map_ok]

theorem recast_self (m : Machine) : m.recast m.config.initialMode m.chain.mode 0 = m := rfl

/-- A line leaves the chain in the mode that it chooses, or else in the mode that the chain was
in. -/
theorem mode_of_executeLine (htable : m.table = .builtin) {o : Outcome Flow}
    (ho : m.executeLine number text sink = .ok o) :
    o.machine.chain.mode = (Line.ofWords (Words.ofText text)).mode?.getD m.chain.mode := by
  -- to recast a machine to the mode that it is in changes nothing
  have h := recast_of_executeLine htable ho id m.config.initialMode 0 fun _ => rfl
  rw [recast_self, id, ho] at h
  exact congrArg (fun o => o.machine.chain.mode) (Except.ok.inj h)

/-- The mode after the lines that were executed is the one that was chosen last among them. -/
theorem History.mode_reached {lines : List (Nat × String)} {os : List (Outcome Flow)}
    (h : m.History sink lines os) (htable : m.table = .builtin) :
    (m.reached sink os).machine.chain.mode =
      Line.modeAfter m.chain.mode
        ((lines.take os.length).map fun line => Line.ofWords (Words.ofText line.2)) := by
  induction h with
  | nil => rfl
  | stop executed stops =>
    rw [reached_singleton, mode_of_executeLine htable executed]
    simp [Line.modeAfter_cons]
  | step executed proceeds rest ih =>
    rw [reached_cons proceeds, ih ((executeLine_table_eq executed).trans htable),
      mode_of_executeLine htable executed]
    simp [Line.modeAfter_cons]

/-! ### Runs -/

theorem table_startingIn (m : Machine) (mode : Mode) : (m.startingIn mode).table = .builtin := rfl

theorem fresh_startingIn (m : Machine) (mode other : Mode) :
    fresh (m.startingIn other).config .builtin =
      (fresh (m.startingIn mode).config .builtin).recast other other 0 := rfl

/-- A run that is recast comes to its end in the same way. -/
theorem conclude_recast (f : Nat → Nat) (initial mode : Mode) (more : Nat) (o : Outcome Int32) :
    conclude (o.recast f initial mode more) =
      (conclude o).map (Outcome.recast f initial mode more) := by
  obtain ⟨result, machine, sink⟩ := o
  unfold conclude
  rw [Checked.map_bind]
  dsimp only [Outcome.recast, recast]
  rw [Chain.clear_setMode]
  cases machine.chain.clear with
  | error fault => rfl
  | ok chain =>
    rcases result with diagnostic | code
    · rfl
    · cases h : sink.flushFailure <;>
        simp [Outcome.recast, recast, Sink.flush, h, afterFlush, Except.mapError,
          Diagnostic.mapLine]

end Machine

end ChainMachine
