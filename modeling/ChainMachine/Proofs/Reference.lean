import ChainMachine.Proofs.Execution

/-!
# What a script means

A script carried out on a list of values with a mode: no slots and links, no cursor, no
table of handlers.  A machine with the built-in handlers does the same, as long as nothing
outside it fails.

* `Reference.opcode?`: opcodes by their names;
* `Reference.State`, `Reference.State.step`, `Reference.State.run`: the effect of a line
  and of the pieces of a script;
* `Reference.State.Mirrors`: a machine and a sink that are where the script has come to;
* `Reference.State.Mirrors.executeLine`, `Reference.State.Mirrors.follow`: they stay there
  line by line;
* `Machine.run_eq_reference`: a run comes to what the script means.
-/

namespace ChainMachine

namespace Reference

/-- The opcode that a word names. -/
def opcode? : String → Option Opcode
  | "push" => some .push
  | "pall" => some .pall
  | "pint" => some .pint
  | "pop" => some .pop
  | "swap" => some .swap
  | "add" => some .add
  | "nop" => some .nop
  | "sub" => some .sub
  | "div" => some .div
  | "mul" => some .mul
  | "mod" => some .mod
  | "pchar" => some .pchar
  | "pstr" => some .pstr
  | "rotl" => some .rotl
  | "rotr" => some .rotr
  | "stack" => some .stack
  | "queue" => some .queue
  | _ => none

/-- What a script has come to: the contents, the bytes printed, and the number of instructions
carried out, a failed one included. -/
structure State where
  contents : Contents
  output : List UInt8 := []
  executed : Nat := 0
  deriving DecidableEq, Repr

namespace State

/-- The effect of a line with the given words, and the reason if it fails. -/
def step (s : State) (number : Nat) : List String → Option Diagnostic × State
  | [] => (none, s)
  | word :: operands =>
    if word.toList.head? = some '#' then (none, s)
    else
      match opcode? word with
      | none => (some (.unknownOpcode number word), s)
      | some op =>
        match op.rule number operands s.contents with
        | .error diagnostic => (some diagnostic, { s with executed := s.executed + 1 })
        | .ok (contents, out) =>
          (none, { contents, output := s.output ++ out, executed := s.executed + 1 })

/-- The effect of the pieces of a script, the first of which has the given number, up to the first
that fails. -/
def run (s : State) (number : Nat) : List (List UInt8) → Option Diagnostic × State
  | [] => (none, s)
  | piece :: pieces =>
    match s.step number (Words.ofText (Utf8.decode piece)) with
    | (none, t) => t.run (number + 1) pieces
    | (some diagnostic, t) => (some diagnostic, t)

end State

/-- What a script comes to, beginning with no values and in the given mode. -/
def meaning (mode : Mode) (script : List UInt8) : Option Diagnostic × State :=
  State.run { contents := { values := [], mode } } 1 (Source.cut script)

/-- A value, unless there is a reason why not. -/
def verdict {α : Type} (value : α) : Option Diagnostic → Except Diagnostic α
  | none => .ok value
  | some diagnostic => .error diagnostic

theorem opcode?_eq_ofMnemonic? (word : String) : opcode? word = Opcode.ofMnemonic? word := by
  cases h : Opcode.ofMnemonic? word with
  | some op =>
    rw [← Opcode.mnemonic_of_ofMnemonic? h]
    cases op <;> rfl
  | none =>
    unfold opcode?
    split <;> first | rfl | exact absurd h (by decide)

namespace State

/-- A machine and a sink that are where a script has come to.  Both began with nothing done, the
machine with this configuration and the sink as `before`. -/
structure Mirrors (config : Config) (before : Sink) (m : Machine) (sink : Sink) (s : State) :
    Prop where
  config_eq : m.config = config
  table_eq : m.table = .builtin
  halt_eq : m.halt = none
  holds : m.chain.Holds s.contents
  executed_eq : m.executed = s.executed
  sink_eq : sink = { before with written := before.written ++ s.output }

variable {config : Config} {before sink : Sink} {m : Machine} {s : State}

theorem Mirrors.limit_eq (h : Mirrors config before m sink s) (hbytes : before.limit = none) :
    sink.limit = none := by
  rw [h.sink_eq]
  exact hbytes

/-- A step that a machine takes and the step of the reference agree. -/
theorem Mirrors.executeLine (h : Mirrors config before m sink s) (hslots : config.slotLimit = none)
    (hbytes : before.limit = none) (number : Nat) (text : String) :
    ∃ o, m.executeLine number text sink = .ok o ∧
      o.result = verdict .proceed (s.step number (Words.ofText text)).1 ∧
      Mirrors config before o.machine o.sink (s.step number (Words.ofText text)).2 := by
  obtain ⟨o, ho, hexecutes⟩ :=
    Machine.executeLine_executes h.table_eq h.holds number text sink
  refine ⟨o, ho, ?_⟩
  generalize Words.ofText text = words at hexecutes ⊢
  cases hexecutes with
  | blank => exact ⟨rfl, h⟩
  | comment hash =>
    rw [Line.opensComment, beq_iff_eq] at hash
    rw [step, if_pos hash]
    exact ⟨rfl, h⟩
  | unknown hash opcode =>
    rw [Line.opensComment, beq_eq_false_iff_ne] at hash
    rw [step, if_neg hash, opcode?_eq_ofMnemonic?, opcode]
    exact ⟨rfl, h⟩
  | @called word operands op reply hash opcode obeys =>
    rw [Line.opensComment, beq_eq_false_iff_ne] at hash
    rw [step, if_neg hash, opcode?_eq_ofMnemonic?, opcode]
    dsimp only
    generalize op.rule number operands s.contents = result at obeys ⊢
    cases obeys with
    | failed diagnostic =>
      exact ⟨rfl, { h with executed_eq := congrArg (· + 1) h.executed_eq }⟩
    | @done contents out chain after holds written =>
      have hsink : after = { before with written := before.written ++ (s.output ++ out) } := by
        rw [Sink.write_eq_of_ok written, h.sink_eq, Sink.written_append]
      exact ⟨rfl, { h with
        holds := holds
        executed_eq := congrArg (· + 1) h.executed_eq
        sink_eq := hsink }⟩
    | cut written =>
      -- the sink accepts everything
      rw [Sink.write_of_limit_eq_none (h.limit_eq hbytes)] at written
      cases written
    | refused full bound =>
      -- and there is always another slot
      rw [h.config_eq, hslots, Storage.mayGrow_none] at bound
      cases bound

/-- So do the lines of a script and its pieces. -/
theorem Mirrors.follow (h : Mirrors config before m sink s) (hslots : config.slotLimit = none)
    (hbytes : before.limit = none) (number : Nat) (pieces : List (List UInt8)) :
    ∃ o, m.follow none number sink pieces = .ok o ∧ o.result = verdict 0 (s.run number pieces).1 ∧
      Mirrors config before o.machine o.sink (s.run number pieces).2 := by
  induction pieces generalizing m sink s number with
  | nil => exact ⟨_, rfl, rfl, h⟩
  | cons piece pieces ih =>
    obtain ⟨o, ho, hresult, hmirrors⟩ := h.executeLine hslots hbytes number (Utf8.decode piece)
    rw [Machine.follow, ho, Checked.ok_bind, run]
    unfold Machine.afterLine
    rw [hresult]
    generalize s.step number (Words.ofText (Utf8.decode piece)) = effect at hmirrors ⊢
    rcases effect with ⟨_ | diagnostic, t⟩
    · exact ih hmirrors (number + 1)
    · exact ⟨_, rfl, rfl, hmirrors⟩

end State

end Reference

/-- A flush that does not fail changes no verdict. -/
theorem Machine.afterFlush_verdict (code : Int32) (failure : Option Diagnostic) :
    afterFlush (Reference.verdict code failure) none = Reference.verdict code failure := by
  cases failure <;> rfl

/-- A run with the built-in handlers comes to what its script means: the same result, the same
bytes after those already in the sink, the same number of instructions, no exit code, and an empty
chain in the mode that the script ends in.  What the machine did before makes no difference. -/
theorem Machine.run_eq_reference (mode : Mode) (script : List UInt8) (chain : Chain)
    (executed : Nat) (halt : Option Int32) (written : Array UInt8) (flushes : Nat) :
    ({ config := { initialMode := mode }, table := .builtin, chain, executed, halt } : Machine).run
        { bytes := script } { written, flushes } =
      .ok
        { result := Reference.verdict 0 (Reference.meaning mode script).1
          machine :=
            { config := { initialMode := mode }
              table := .builtin
              chain := .empty (Reference.meaning mode script).2.contents.mode
              executed := (Reference.meaning mode script).2.executed
              halt := none }
          sink :=
            { written := written ++ (Reference.meaning mode script).2.output
              flushes := flushes + 1 } } := by
  have hstart : Reference.State.Mirrors { initialMode := mode } { written, flushes }
      (fresh { initialMode := mode } .builtin) { written, flushes }
      { contents := { values := [], mode } } :=
    { config_eq := rfl, table_eq := rfl, halt_eq := rfl, holds := Chain.holds_empty mode,
      executed_eq := rfl, sink_eq := by simp }
  obtain ⟨o, ho, hresult, hmirrors⟩ := hstart.follow rfl rfl 1 (Source.cut script)
  obtain ⟨result, ⟨config, table, chain', executed', halt'⟩, sink⟩ := o
  obtain ⟨rfl, rfl, rfl, hholds, rfl, rfl⟩ := hmirrors
  dsimp only at hresult hholds
  subst hresult
  unfold Machine.run
  rw [runFrom_eq_follow]
  have hfollow : (fresh { initialMode := mode } .builtin).follow none 1 { written, flushes }
      (Source.lines { bytes := script }) = _ := ho
  rw [hfollow, Checked.ok_bind, hholds.clear]
  dsimp only [Sink.flush, Checked.ok_bind]
  rw [afterFlush_verdict]
  rfl

example : Reference.meaning .stack (Utf8.encode "push 3\n# note\npush 4\nsub\npint\nswap") =
    (some (.underflow 6 "swap" 2),
      { contents := { values := [-1], mode := .stack }
        output := Utf8.encode "-1\n"
        executed := 5 }) := by
  decide +kernel

end ChainMachine
