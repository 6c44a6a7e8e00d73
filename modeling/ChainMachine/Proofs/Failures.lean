import ChainMachine.Proofs.Handlers
import ChainMachine.Proofs.Numerals
import ChainMachine.Proofs.Operations
import ChainMachine.Proofs.Step

/-!
# When instructions fail

An instruction fails for its operand, for a lack of values, for a divisor that is zero or for a
value that is the code of no character, and for nothing else as long as there is room for what it
prints and pushes.

* `Opcode.need`: how many values an instruction asks for;
* `Opcode.Fails`: the diagnostics that an instruction deserves, by its operands and the values;
* `Opcode.rule_eq_error_iff`: the rules fail exactly then;
* `Reply.Obeys.error_cases`, `Reply.Obeys.outcome_of_room`: the diagnostics of a reply, and that
  where there is room it fails only if its rule does;
* `Opcode.handler_fails_iff`: the handlers fail exactly then, whatever names they go by.
-/

namespace ChainMachine

namespace Opcode

/-- How many values an instruction asks for. -/
def need : Opcode → Nat
  | pop | pint | pchar => 1
  | swap | add | sub | mul | div | mod => 2
  | push | pall | pstr | rotl | rotr | stack | queue | nop => 0

/-- An instruction on the line with the given number deserves a diagnostic.  A lack of values comes
before all that is found out from the values. -/
inductive Fails (number : Nat) (operands : List String) (values : List Int32) :
    Opcode → Diagnostic → Prop
  | operand (unread : ∀ word, operands.head? = some word →
      ∀ v : Int32, ¬Numeral.Denotes word.toList v.toInt) :
    Fails number operands values push (.invalidOperand number)
  | short {op : Opcode} (few : values.length < op.need) :
    Fails number operands values op (.underflow number op.mnemonic op.need)
  | divisor {op : Opcode} {a : Int32} {rest : List Int32} (divides : op = div ∨ op = mod)
    (zero : values = 0 :: a :: rest) :
    Fails number operands values op (.divisionByZero number)
  | code {b : Int32} {rest : List Int32} (first : values = b :: rest)
    (outside : ¬(0 ≤ b.toInt ∧ b.toInt ≤ 127)) :
    Fails number operands values pchar (.invalidCharacterCode number b)

end Opcode

/-! ### Rules -/

namespace Rule

variable {opcode : String} {f : Int → Int → Int} {number : Nat} {operands : List String}
  {s : Contents} {diagnostic : Diagnostic}

/-- No operand is read exactly when there is none or it stands for no integer of 32 bits. -/
theorem operand?_eq_none_iff :
    operands.head?.bind operand? = none ↔
      ∀ word, operands.head? = some word → ∀ v : Int32, ¬Numeral.Denotes word.toList v.toInt := by
  rw [Option.bind_eq_none_iff]
  apply forall₂_congr
  intro word _
  simp only [Option.eq_none_iff_forall_ne_some, ne_eq, Numeral.operand?_eq_some_iff]

theorem combine_eq_error_iff :
    combine opcode f number s = .error diagnostic ↔
      s.values.length < 2 ∧ diagnostic = .underflow number opcode 2 := by
  unfold combine
  split
  · next b a rest hvalues =>
    simp only [hvalues, List.length_cons, reduceCtorEq, false_iff, not_and]
    omega
  · next hvalues =>
    have hlt : s.values.length < 2 := by
      rcases hs : s.values with _ | ⟨b, _ | ⟨a, rest⟩⟩
      · simp
      · simp
      · exact absurd hs (hvalues b a rest)
    simp [hlt, eq_comm]

theorem divide_eq_error_iff :
    divide opcode f number s = .error diagnostic ↔
      (s.values.length < 2 ∧ diagnostic = .underflow number opcode 2) ∨
        (∃ a rest, s.values = 0 :: a :: rest) ∧ diagnostic = .divisionByZero number := by
  unfold divide
  split
  · next a rest hvalues =>
    constructor
    · intro h
      cases h
      exact .inr ⟨⟨a, rest, hvalues⟩, rfl⟩
    · rintro (⟨hlt, -⟩ | ⟨-, rfl⟩)
      · simp only [hvalues, List.length_cons] at hlt
        omega
      · rfl
  · next hvalues =>
    rw [combine_eq_error_iff]
    constructor
    · exact .inl
    · rintro (h | ⟨⟨a, rest, hzero⟩, -⟩)
      · exact h
      · exact absurd hzero (hvalues a rest)

end Rule

namespace Opcode

variable {op : Opcode} {number : Nat} {operands : List String} {values : List Int32}
  {s : Contents} {diagnostic : Diagnostic}

theorem fails_of_rule_eq_error (h : op.rule number operands s = .error diagnostic) :
    op.Fails number operands s.values diagnostic := by
  cases op <;> dsimp only [rule] at h
  case push =>
    split at h
    · next hnone =>
      cases h
      exact .operand (Rule.operand?_eq_none_iff.1 hnone)
    · cases h
  case pint | pop =>
    split at h
    · next hvalues =>
      cases h
      exact .short (by simp [hvalues, need])
    · cases h
  case swap =>
    split at h
    · next hlt =>
      cases h
      exact .short hlt
    · cases h
  case pchar =>
    split at h
    · next hvalues =>
      cases h
      exact .short (by simp [hvalues, need])
    · next b rest hvalues =>
      split at h
      · cases h
      · next houtside =>
        cases h
        exact .code hvalues houtside
  case add | sub | mul =>
    obtain ⟨hlt, rfl⟩ := Rule.combine_eq_error_iff.1 h
    exact .short hlt
  case div | mod =>
    rcases Rule.divide_eq_error_iff.1 h with ⟨hlt, rfl⟩ | ⟨⟨a, rest, hzero⟩, rfl⟩
    · exact .short hlt
    · exact .divisor (by simp) hzero
  case pall | pstr | rotl | rotr | stack | queue | nop => cases h

/-- A rule whose instruction asks for more values than there are fails for that reason. -/
theorem rule_eq_error_of_short (few : s.values.length < op.need) :
    op.rule number operands s = .error (.underflow number op.mnemonic op.need) := by
  cases op <;> dsimp only [rule, need, mnemonic] at few ⊢
  case push | pall | pstr | rotl | rotr | stack | queue | nop => cases few
  case pint | pop | pchar =>
    have hvalues : s.values = [] := List.length_eq_zero_iff.1 (Nat.lt_one_iff.1 few)
    simp [hvalues]
  case swap => rw [if_pos few]
  case add | sub | mul => exact Rule.combine_eq_error_iff.2 ⟨few, rfl⟩
  case div | mod => exact Rule.divide_eq_error_iff.2 (.inl ⟨few, rfl⟩)

/-- A rule fails exactly when its instruction deserves it, and with the diagnostic that it
deserves. -/
theorem rule_eq_error_iff :
    op.rule number operands s = .error diagnostic ↔
      op.Fails number operands s.values diagnostic := by
  constructor
  · exact fails_of_rule_eq_error
  · intro h
    cases h with
    | operand unread =>
      dsimp only [rule]
      rw [Rule.operand?_eq_none_iff.2 unread]
    | short few => exact rule_eq_error_of_short few
    | divisor divides zero =>
      rcases divides with rfl | rfl
      · exact Rule.divide_eq_error_iff.2 (.inr ⟨⟨_, _, zero⟩, rfl⟩)
      · exact Rule.divide_eq_error_iff.2 (.inr ⟨⟨_, _, zero⟩, rfl⟩)
    | code first outside =>
      dsimp only [rule]
      rw [first]
      exact if_neg outside

/-- A diagnostic that an instruction deserves names its line. -/
theorem Fails.line?_eq (h : op.Fails number operands values diagnostic) :
    diagnostic.line? = some number := by
  cases h <;> rfl

/-- Some instructions never fail. -/
theorem not_fails_of_mem (h : op ∈ [pall, pstr, rotl, rotr, stack, queue, nop]) :
    ¬op.Fails number operands values diagnostic := by
  intro hfails
  cases hfails with
  | operand => simp at h
  | short few =>
    have hneed : op.need = 0 := by
      cases op <;> simp at h <;> rfl
    rw [hneed] at few
    cases few
  | divisor divides => rcases divides with rfl | rfl <;> simp at h
  | code => simp at h

end Opcode

/-! ### Handlers -/

namespace Reply.Obeys

variable {c : Chain} {sink : Sink} {reply : Reply}

/-- A handler fails as its instruction deserves, or for want of storage, or with the sink. -/
theorem error_cases {limit : Option Nat} {op : Opcode} {number : Nat} {operands : List String}
    {s : Contents} (h : reply.Obeys limit c sink (op.rule number operands s))
    {diagnostic : Diagnostic} (herror : reply.outcome = .error diagnostic) :
    op.Fails number operands s.values diagnostic ∨ diagnostic = .storageExhausted ∨
      ∃ cause, diagnostic = .transfer cause := by
  generalize hrule : op.rule number operands s = result at h
  cases h with
  | done => cases herror
  | failed =>
    cases herror
    exact .inl (Opcode.rule_eq_error_iff.1 hrule)
  | cut =>
    cases herror
    exact .inr (.inr ⟨_, rfl⟩)
  | refused =>
    cases herror
    exact .inr (.inl rfl)

/-- Where the sink takes everything and slots are not bounded, a reply says what the rule says. -/
theorem outcome_of_room {result : Except Diagnostic (Contents × List UInt8)}
    (h : reply.Obeys none c sink result) (hsink : sink.limit = none) :
    reply.outcome = result.map fun _ => .proceed := by
  cases h with
  | failed => rfl
  | done => rfl
  | cut written =>
    rw [Sink.write_of_limit_eq_none hsink] at written
    cases written
  | refused _ bound =>
    rw [Storage.mayGrow_none] at bound
    cases bound

end Reply.Obeys

namespace Opcode

/-- On every chain that a schedule leads to, as long as the sink takes everything and the slots are
not bounded, a handler fails exactly with the diagnostics that its instruction deserves, which name
its line.  It lets the run go on in all other cases.  What name it was registered under makes no
difference: a line with that name has the same result, and a diagnostic bears the mnemonic. -/
theorem handler_fails_iff (op : Opcode) {c : Chain} (hreach : c.Reachable) (ctx : Context)
    (hslots : ctx.slotLimit = none) (sink : Sink) (hsink : sink.limit = none) :
    ∃ values reply, c.values = .ok values ∧ op.handler ctx c sink = .ok reply ∧
      (∀ diagnostic, reply.outcome = .error diagnostic ↔
        op.Fails ctx.line ctx.operands values diagnostic) ∧
      (reply.outcome = .ok .proceed ↔
        ∀ diagnostic, ¬op.Fails ctx.line ctx.operands values diagnostic) ∧
      (op ∈ [pall, pstr, rotl, rotr, stack, queue, nop] → reply.outcome = .ok .proceed) ∧
      ∀ (m : Machine) (name text : String), m.chain = c → m.config.slotLimit = none →
        m.table.get? name = some op.handler →
        Line.parse text = .ok (.instruction name ctx.operands) →
        ∃ o, m.executeLine ctx.line text sink = .ok o ∧ o.result = reply.outcome := by
  obtain ⟨s, hs⟩ := hreach.exists_holds
  obtain ⟨reply, hreply, hobeys⟩ := op.handler_obeys hs ctx sink
  rw [hslots] at hobeys
  have houtcome := hobeys.outcome_of_room hsink
  have herror (diagnostic : Diagnostic) : reply.outcome = .error diagnostic ↔
      op.Fails ctx.line ctx.operands s.values diagnostic := by
    rw [← rule_eq_error_iff, houtcome]
    cases op.rule ctx.line ctx.operands s <;> simp [Except.map]
  have hproceed : reply.outcome = .ok .proceed ↔
      ∀ diagnostic, ¬op.Fails ctx.line ctx.operands s.values diagnostic := by
    simp only [← herror]
    rcases hobeys.outcome_eq with h | ⟨diagnostic, h⟩ <;> simp [h]
  refine ⟨s.values, reply, hs.values_eq, hreply, herror, hproceed, ?_, ?_⟩
  · intro hmem
    exact hproceed.2 fun _ => not_fails_of_mem hmem
  · -- the table leads from the name to the handler, and the handler never sees the name
    intro m name text hchain hlimit hget hparse
    obtain ⟨number, operands, limit⟩ := ctx
    obtain rfl : limit = none := hslots
    subst hchain
    refine ⟨{ result := reply.outcome
              machine := { m with chain := reply.chain, executed := m.executed + 1 }
              sink := reply.sink }, ?_, rfl⟩
    simp [Machine.executeLine, hparse, hget, hlimit, hreply]

/-- Under the name of the sum, on a chain of one value that is zero, the remainder asks for another
value before it looks at the divisor, and asks for it in its own name. -/
theorem handler_fails_of_renamed :
    ∃ (c : Chain) (m : Machine) (reply : Reply) (o : Outcome Flow),
      c.Reachable ∧ c.values = .ok [0] ∧ m.chain = c ∧
      m.table = Table.builtin.register "add" mod.handler ∧
      mod.handler { line := 3, operands := ["-1"] } c {} = .ok reply ∧
      reply.outcome = .error (.underflow 3 "mod" 2) ∧
      m.executeLine 3 "add -1" {} = .ok o ∧ o.result = .error (.underflow 3 "mod" 2) := by
  have hreach : ({ storage := { slots := #[some ⟨0, none, none⟩] }
                   head := some 0, length := 1, mode := .stack } : Chain).Reachable :=
    ⟨.stack, Schedule.unbounded [.push 0], [.done], by decide⟩
  have hget : (Table.builtin.register "add" mod.handler).get? "add" = some mod.handler := by
    rw [Table.get?_register, if_pos rfl]
  obtain ⟨values, reply, hvalues, hreply, herror, -, -, hname⟩ :=
    mod.handler_fails_iff hreach { line := 3, operands := ["-1"] } rfl {} rfl
  have hzero : values = [0] := by
    have heval := hvalues.symm.trans (show _ = .ok [0] by decide)
    simpa using heval
  have hshort : mod.Fails 3 ["-1"] values (.underflow 3 mod.mnemonic mod.need) :=
    .short (by rw [hzero]; decide)
  have hfails : reply.outcome = .error (.underflow 3 "mod" 2) := (herror _).2 hshort
  obtain ⟨o, ho, hresult⟩ := hname { Machine.fresh {} _ with chain := _ } "add" "add -1" rfl rfl
    hget (by decide +kernel)
  exact ⟨_, _, reply, o, hreach, hzero ▸ hvalues, rfl, rfl, hreply, hfails, ho,
    hresult.trans hfails⟩

end Opcode

end ChainMachine
