import ChainMachine.Instruction.Table
import ChainMachine.Proofs.Handlers

/-!
# Handlers that leave the sink alone

What an instruction does to the chain is decided before anything is printed, and the sink is
there for nothing else.  So the reply of such a handler is known on every sink as soon as it is
known what the instruction does and prints.

* `Effect`: what an instruction does and prints, or why it fails;
* `Acts`: actions on a sink that come down to an effect, with one rule for each way in which a
  handler is put together (`Acts.bind`, `Acts.done`, `Acts.fail`, …);
* `Handler.Plain`, `Table.Plain`: handlers that are such actions;
* `Handler.LocatesErrors`, `Table.LocatesErrors`: handlers that put no other line than their own
  into a diagnostic;
* `Handler.KeepsChains`, `Table.KeepsChains`: handlers that leave the links of a chain in order;
* `Handler.Replies`, `Table.Replies`: handlers that meet no fault on such a chain;
* `Opcode.handler_acts`: what the built-in handlers do comes down to an effect, so that they are
  all of this.
-/

namespace ChainMachine

/-- What an instruction does to the chain and what it prints, or why it fails. -/
inductive Effect
  | done (chain : Chain) (out : List UInt8)
  | failed (chain : Chain) (diagnostic : Diagnostic)

namespace Effect

/-- The reply on a sink, which gets what is printed. -/
def reply (sink : Sink) : Effect → Reply
  | done chain out => .printed chain (sink.write out)
  | failed chain diagnostic => .fail diagnostic chain sink

/-- If the instruction fails, then for a reason that has no line or this one. -/
def Locates (line : Nat) : Effect → Prop
  | done _ _ => True
  | failed _ diagnostic => ∀ number, diagnostic.line? = some number → number = line

end Effect

/-- The action has the same effect on every sink, and a failure names no line but this one. -/
def Acts (line : Nat) (action : Sink → Checked Reply) : Prop :=
  ∃ effect : Checked Effect, (∀ sink, action sink = effect.map (Effect.reply sink)) ∧
    ∀ e, effect = .ok e → e.Locates line

/-- The handler has the same effect on every sink. -/
def Handler.Plain (handler : Handler) : Prop :=
  ∀ ctx chain, ∃ effect : Checked Effect,
    ∀ sink, handler ctx chain sink = effect.map (Effect.reply sink)

/-- No line is put into a diagnostic but that of the instruction. -/
def Handler.LocatesErrors (handler : Handler) : Prop :=
  ∀ ctx chain sink reply diagnostic number, handler ctx chain sink = .ok reply →
    reply.outcome = .error diagnostic → diagnostic.line? = some number → number = ctx.line

/-- A chain with some contents has some contents afterwards, too. -/
def Handler.KeepsChains (handler : Handler) : Prop :=
  ∀ ctx chain sink reply, handler ctx chain sink = .ok reply → (∃ s, chain.Holds s) →
    ∃ t, reply.chain.Holds t

/-- There is a reply on every chain with some contents. -/
def Handler.Replies (handler : Handler) : Prop :=
  ∀ ctx chain sink, (∃ s, chain.Holds s) → ∃ reply, handler ctx chain sink = .ok reply

/-- All handlers of the table have the same effect on every sink. -/
def Table.Plain (t : Table) : Prop :=
  ∀ name handler, t.get? name = some handler → handler.Plain

/-- No handler of the table puts a line into a diagnostic but that of the instruction. -/
def Table.LocatesErrors (t : Table) : Prop :=
  ∀ name handler, t.get? name = some handler → handler.LocatesErrors

/-- All handlers of the table leave the links of a chain in order. -/
def Table.KeepsChains (t : Table) : Prop :=
  ∀ name handler, t.get? name = some handler → handler.KeepsChains

/-- All handlers of the table reply on every chain with some contents. -/
def Table.Replies (t : Table) : Prop :=
  ∀ name handler, t.get? name = some handler → handler.Replies

namespace Acts

variable {α : Type} {line : Nat}

theorem fault (f : Fault) : Acts line fun _ => .error f := by
  refine ⟨.error f, fun _ => rfl, ?_⟩
  rintro e ⟨⟩

theorem done (chain : Chain) (out : List UInt8) :
    Acts line fun sink => .ok (.printed chain (sink.write out)) := by
  refine ⟨.ok (.done chain out), fun _ => rfl, ?_⟩
  rintro e ⟨⟩
  exact trivial

theorem proceed (chain : Chain) : Acts line fun sink => .ok (.proceed chain sink) := by
  have h : Acts line fun sink => .ok (.printed chain (sink.write [])) := done chain []
  simp only [Sink.write_nil] at h
  exact h

theorem fail {diagnostic : Diagnostic} (chain : Chain)
    (h : ∀ number, diagnostic.line? = some number → number = line) :
    Acts line fun sink => .ok (.fail diagnostic chain sink) := by
  refine ⟨.ok (.failed chain diagnostic), fun _ => rfl, ?_⟩
  rintro e ⟨⟩
  exact h

/-- What is found out without the sink comes first. -/
theorem bind {x : Checked α} {f : α → Sink → Checked Reply} (h : ∀ a, Acts line (f a)) :
    Acts line fun sink => x >>= fun a => f a sink := by
  cases x with
  | error f => exact fault f
  | ok a => exact h a

end Acts

/-! ### The built-in handlers -/

namespace Builtin

variable {opcode : String} {f : Int32 → Int32 → Checked Int32}

theorem arithmetic_acts (ctx : Context) (chain : Chain) :
    Acts ctx.line (arithmetic opcode f ctx chain) := by
  unfold arithmetic
  refine .bind fun values => ?_
  rcases values with _ | ⟨b, a⟩
  · exact .fail chain fun _ => by rintro ⟨⟩; rfl
  · refine .bind fun value => ?_
    refine .bind fun popped => ?_
    refine .bind fun set => ?_
    exact .proceed set.2

theorem division_acts (ctx : Context) (chain : Chain) :
    Acts ctx.line (division opcode f ctx chain) := by
  unfold division
  refine .bind fun values => ?_
  split
  · exact .fail chain fun _ => by rintro ⟨⟩; rfl
  · exact arithmetic_acts ctx chain

end Builtin

/-- A built-in handler has the same effect on every sink, and names the line of its instruction. -/
theorem Opcode.handler_acts (op : Opcode) (ctx : Context) (chain : Chain) :
    Acts ctx.line (op.handler ctx chain) := by
  cases op with
  | push =>
    simp only [handler]
    unfold Builtin.push
    cases ctx.operands.head?.bind Numeral.read with
    | none => exact .fail chain fun _ => by rintro ⟨⟩; rfl
    | some value =>
      refine .bind fun pushed => ?_
      cases pushed with
      | none => exact .fail chain fun _ => by rintro ⟨⟩
      | some d => exact .proceed d
  | pall =>
    simp only [handler]
    unfold Builtin.pall
    simp only [Sink.writeAll_eq]
    exact .bind fun values => .done chain _
  | pint =>
    simp only [handler]
    unfold Builtin.pint
    refine .bind fun value => ?_
    cases value with
    | none => exact .fail chain fun _ => by rintro ⟨⟩; rfl
    | some b => exact .done chain _
  | pop =>
    simp only [handler]
    unfold Builtin.pop
    refine .bind fun popped => ?_
    rcases popped with ⟨_ | value, d⟩
    · exact .fail d fun _ => by rintro ⟨⟩; rfl
    · exact .proceed d
  | swap =>
    simp only [handler]
    unfold Builtin.swap
    refine .bind fun swapped => ?_
    rcases swapped with ⟨_ | _, d⟩
    · exact .fail d fun _ => by rintro ⟨⟩; rfl
    · exact .proceed d
  | add => exact Builtin.arithmetic_acts ctx chain
  | sub => exact Builtin.arithmetic_acts ctx chain
  | mul => exact Builtin.arithmetic_acts ctx chain
  | div => exact Builtin.division_acts ctx chain
  | mod => exact Builtin.division_acts ctx chain
  | pchar =>
    simp only [handler]
    unfold Builtin.pchar
    refine .bind fun value => ?_
    cases value with
    | none => exact .fail chain fun _ => by rintro ⟨⟩; rfl
    | some b =>
      dsimp only
      split
      · exact .done chain _
      · exact .fail chain fun _ => by rintro ⟨⟩; rfl
  | pstr =>
    simp only [handler]
    unfold Builtin.pstr
    exact .bind fun values => .done chain _
  | rotl =>
    simp only [handler]
    unfold Builtin.rotl
    exact .bind fun d => .proceed d
  | rotr =>
    simp only [handler]
    unfold Builtin.rotr
    exact .bind fun d => .proceed d
  | stack => exact .proceed (chain.setMode .stack)
  | queue => exact .proceed (chain.setMode .queue)
  | nop => exact .proceed chain

theorem Opcode.handler_plain (op : Opcode) : op.handler.Plain := by
  intro ctx chain
  obtain ⟨effect, heffect, -⟩ := op.handler_acts ctx chain
  exact ⟨effect, heffect⟩

theorem Opcode.handler_locatesErrors (op : Opcode) : op.handler.LocatesErrors := by
  intro ctx chain sink reply diagnostic number hreply herror hline
  obtain ⟨effect, heffect, hlocates⟩ := op.handler_acts ctx chain
  rw [heffect, Checked.map_eq_ok_iff] at hreply
  obtain ⟨e, he, rfl⟩ := hreply
  have hlocates := hlocates e he
  cases e with
  | failed d reason =>
    cases herror
    exact hlocates number hline
  | done d out =>
    -- only the sink can fail here, and its diagnostic has no line
    rw [Effect.reply] at herror
    cases hw : sink.write out with
    | mk after failure =>
      rw [hw] at herror
      cases failure with
      | none => cases herror
      | some text =>
        cases herror
        cases hline

theorem Opcode.handler_keepsChains (op : Opcode) : op.handler.KeepsChains := by
  rintro ctx chain sink reply hreply ⟨s, hs⟩
  exact (Opcode.obeys_of_handler_eq_ok hreply hs).exists_holds hs

theorem Opcode.handler_replies (op : Opcode) : op.handler.Replies := by
  rintro ctx chain sink ⟨s, hs⟩
  obtain ⟨reply, hreply, -⟩ := op.handler_obeys hs ctx sink
  exact ⟨reply, hreply⟩

namespace Table

theorem plain_builtin : builtin.Plain := forall_builtin Opcode.handler_plain

theorem locatesErrors_builtin : builtin.LocatesErrors :=
  forall_builtin Opcode.handler_locatesErrors

theorem keepsChains_builtin : builtin.KeepsChains := forall_builtin Opcode.handler_keepsChains

theorem replies_builtin : builtin.Replies := forall_builtin Opcode.handler_replies

theorem Replies.register {t : Table} (h : t.Replies) (name : String) {handler : Handler}
    (hhandler : handler.Replies) : (t.register name handler).Replies :=
  forall_register hhandler h name

theorem KeepsChains.register {t : Table} (h : t.KeepsChains) (name : String) {handler : Handler}
    (hhandler : handler.KeepsChains) : (t.register name handler).KeepsChains :=
  forall_register hhandler h name

end Table

end ChainMachine
