import ChainMachine.Proofs.ByteWords
import ChainMachine.Proofs.Sessions

/-!
# Registered handlers

Which handler is found under a name after any registrations, and which names a script can ask for.

* `Table.lastRegistered`: the handler last registered under a name, and
  `Table.get?_replaceAll`: it is found;
* `Table.getElem?_replaceAll`: what is given back for each registration;
* `Unreachable`: the names that no script asks for;
* `Line.ofWords_name`: a line that asks for any other name;
* `Outcome.withTable`, `Machine.executeLine_withTable`, `Machine.run_withTable`: tables that differ
  in names that no script asks for do the same;
* `Machine.run_name`: a script that asks for one name;
* `Table.dispatch_exact`: all of this together.
-/

namespace ChainMachine

/-! ### Registrations -/

namespace Table

/-- The handler that was registered last under exactly this name. -/
def lastRegistered (registrations : List (String × Handler)) (name : String) : Option Handler :=
  (registrations.filter fun registration => registration.1 = name).getLast?.map Prod.snd

theorem replaceAll_cons (t : Table) (name : String) (handler : Handler)
    (registrations : List (String × Handler)) :
    t.replaceAll ((name, handler) :: registrations) =
      (t.get? name :: ((t.register name handler).replaceAll registrations).1,
        ((t.register name handler).replaceAll registrations).2) := by
  rw [replaceAll, replace_eq]

theorem lastRegistered_cons (name key : String) (handler : Handler)
    (registrations : List (String × Handler)) :
    lastRegistered ((key, handler) :: registrations) name =
      (lastRegistered registrations name).or (if key = name then some handler else none) := by
  unfold lastRegistered
  by_cases h : key = name
  · rw [List.filter_cons_of_pos (by simpa using h), if_pos h, List.getLast?_cons]
    cases (registrations.filter fun registration => registration.1 = name).getLast? <;> rfl
  · rw [List.filter_cons_of_neg (by simpa using h), if_neg h, Option.or_none]

/-- The last registration wins, and where there is none the table is what it was. -/
theorem get?_replaceAll (t : Table) (registrations : List (String × Handler)) (name : String) :
    (t.replaceAll registrations).2.get? name =
      (lastRegistered registrations name).or (t.get? name) := by
  induction registrations generalizing t with
  | nil => rfl
  | cons registration registrations ih =>
    obtain ⟨key, handler⟩ := registration
    rw [replaceAll_cons, ih, get?_register, lastRegistered_cons, Option.or_assoc]
    split <;> rfl

/-- What a registration gives back is what was found under its name before. -/
theorem getElem?_replaceAll (t : Table) (registrations : List (String × Handler)) (i : Nat) :
    (t.replaceAll registrations).1[i]? =
      registrations[i]?.map fun registration =>
        (t.replaceAll (registrations.take i)).2.get? registration.1 := by
  induction registrations generalizing t i with
  | nil => rfl
  | cons registration registrations ih =>
    obtain ⟨key, handler⟩ := registration
    rw [replaceAll_cons]
    cases i with
    | zero => rfl
    | succ i =>
      rw [List.getElem?_cons_succ, ih, List.getElem?_cons_succ, List.take_succ_cons,
        replaceAll_cons]

end Table

/-! ### Names -/

/-- The names that no line asks for: they are no words, or open a comment. -/
def Unreachable (name : String) : Prop :=
  name = "" ∨ name.toList.any isSeparator = true ∨ name.toList.head? = some '#'

theorem not_unreachable_iff {name : String} :
    ¬Unreachable name ↔ Words.IsWord name ∧ name.toList.head? ≠ some '#' := by
  simp only [Unreachable, Words.IsWord, not_or, Bool.not_eq_true, List.any_eq_false, and_assoc]

instance (name : String) : Decidable (Unreachable name) :=
  inferInstanceAs (Decidable (_ ∨ _ ∨ _))

/-- An opcode is never such a name. -/
theorem Line.not_unreachable {text opcode : String} {operands : List String}
    (h : ofWords (Words.ofText text) = .instruction opcode operands) : ¬Unreachable opcode := by
  obtain ⟨hwords, hhash⟩ := ofWords_eq_instruction_iff.1 h
  have hmem : opcode ∈ Words.ofText text := by
    rw [hwords]
    exact List.mem_cons_self
  exact not_unreachable_iff.2 ⟨Words.isWord_of_mem_ofText hmem, hhash⟩

/-- A line with any other name in it, and perhaps a newline, asks for that name. -/
theorem Line.ofWords_name {name ending : String} (h : ¬Unreachable name)
    (hending : ending = "" ∨ ending = "\n") :
    Source.cut (Utf8.encode (name ++ ending)) = [Utf8.encode (name ++ ending)] ∧
      ofWords (Words.ofText (name ++ ending)) = .instruction name [] := by
  obtain ⟨hword, hhash⟩ := not_unreachable_iff.1 h
  have hnewline := Words.newline_notMem_encode_of_isSeparator hword.2
  have hwords : Words.ofText (name ++ ending) = [name] := by
    rcases hending with rfl | rfl
    · rw [String.append_empty, hword.ofText_eq]
    · have hended := Words.ofText_append_singleton (c := '\n') (by decide) name ""
      rw [String.append_empty, hword.ofText_eq] at hended
      exact hended
  refine ⟨?_, ofWords_eq_instruction_iff.2 ⟨hwords, hhash⟩⟩
  rcases hending with rfl | rfl
  · rw [String.append_empty]
    refine Source.cut_of_notMem hnewline fun hnil => hword.1 ?_
    exact Utf8.encode_injective hnil
  · rw [Utf8.encode_append]
    exact Source.cut_append hnewline []

namespace Outcome

variable {α : Type}

/-- The outcome with another table. -/
def withTable (t : Table) (o : Outcome α) : Outcome α :=
  { o with machine := { o.machine with table := t } }

theorem ended_withTable (t : Table) (failure : Option String) (o : Outcome Flow) :
    (o.withTable t).ended failure = (o.ended failure).withTable t := by
  obtain ⟨result, machine, sink⟩ := o
  rcases result with diagnostic | ⟨⟩ | code <;> cases failure <;> rfl

end Outcome

namespace Machine

variable {m : Machine} {t : Table}

/-! ### Names that no script asks for -/

/-- A line does the same with a table that has the same handlers under all other names. -/
theorem executeLine_withTable (h : ∀ name, ¬Unreachable name → t.get? name = m.table.get? name)
    (number : Nat) (text : String) (sink : Sink) :
    { m with table := t }.executeLine number text sink =
      (m.executeLine number text sink).map (Outcome.withTable t) := by
  rw [executeLine_eq, executeLine_eq]
  cases hline : Line.ofWords (Words.ofText text) with
  | blank => rfl
  | comment => rfl
  | instruction opcode operands =>
    dsimp only
    rw [h opcode (Line.not_unreachable hline)]
    cases m.table.get? opcode with
    | none => rfl
    | some handler =>
      dsimp only
      cases handler { line := number, operands, slotLimit := m.config.slotLimit } m.chain sink <;>
        rfl

theorem stepThrough_withTable (h : ∀ name, ¬Unreachable name → t.get? name = m.table.get? name)
    (sink : Sink) (lines : List (Nat × String)) :
    { m with table := t }.stepThrough sink lines =
      (m.stepThrough sink lines).map (Outcome.withTable t) := by
  induction lines generalizing m sink with
  | nil => rfl
  | cons line lines ih =>
    obtain ⟨number, text⟩ := line
    rw [stepThrough, stepThrough, executeLine_withTable h]
    cases ho : m.executeLine number text sink with
    | error fault => rfl
    | ok o =>
      rw [Checked.map_ok, Checked.ok_bind, Checked.ok_bind]
      -- the line has left the table of the machine as it was
      refine Outcome.andThen_map Iff.rfl fun _ => ih ?_ o.sink
      rw [executeLine_table_eq ho]
      exact h

theorem run_withTable (h : ∀ name, ¬Unreachable name → t.get? name = m.table.get? name)
    (source : Source) (sink : Sink) :
    { m with table := t }.run source sink =
      (m.run source sink).map (Outcome.withTable t) := by
  rw [run_eq_conclude, run_eq_conclude]
  have hlines := stepThrough_withTable (m := fresh m.config m.table) h sink
    (Source.numbered 1 source.lines)
  have hfresh : { fresh m.config m.table with table := t } = fresh m.config t := rfl
  rw [hfresh] at hlines
  dsimp only
  rw [hlines]
  cases (fresh m.config m.table).stepThrough sink (Source.numbered 1 source.lines) with
  | error fault => rfl
  | ok o =>
    rw [Checked.map_ok, Checked.ok_bind, Checked.ok_bind, Outcome.ended_withTable]
    unfold conclude
    dsimp only [Outcome.withTable]
    cases (o.ended source.failure).machine.chain.clear <;> rfl

/-- A registration under a name that no script asks for makes no other difference. -/
theorem get?_register_of_unreachable {name : String} (h : Unreachable name) (handler : Handler)
    (other : String) (hother : ¬Unreachable other) :
    (m.table.register name handler).get? other = m.table.get? other := by
  rw [Table.get?_register, if_neg]
  rintro rfl
  exact hother h

/-! ### Names that a script can ask for -/

/-- The call that the first line of a run makes when there is no more in it than a name. -/
def firstCall (m : Machine) (handler : Handler) (sink : Sink) : Invocation where
  handler := handler
  context := { line := 1, operands := [], slotLimit := m.config.slotLimit }
  chain := .empty m.config.initialMode
  sink := sink

/-- What the first line of a run comes to when it makes one call. -/
def afterFirstCall (m : Machine) (reply : Reply) : Outcome Flow where
  result := reply.outcome
  machine := { fresh m.config m.table with chain := reply.chain, executed := 1 }
  sink := reply.sink

/-- A script with nothing in it but a name makes one call, of the handler under that name. -/
theorem traceLines_name {name ending : String} (hname : ¬Unreachable name)
    (hending : ending = "" ∨ ending = "\n") {handler : Handler}
    (hget : m.table.get? name = some handler) (sink : Sink) :
    (fresh m.config m.table).traceLines sink
        (Source.numbered 1 (Source.cut (Utf8.encode (name ++ ending)))) =
      (m.firstCall handler sink).reply.map fun reply =>
        ([m.firstCall handler sink], m.afterFirstCall reply) := by
  obtain ⟨hcut, hline⟩ := Line.ofWords_name hname hending
  have htable : (fresh m.config m.table).table.get? name = some handler := hget
  rw [hcut, Source.numbered_cons, Source.numbered_nil, Utf8.decode_encode, traceLines_singleton,
    traceLine, Line.parse_eq, Checked.ok_bind, hline]
  dsimp only
  rw [htable]
  rfl

theorem run_name {name ending : String} (hname : ¬Unreachable name)
    (hending : ending = "" ∨ ending = "\n") {handler : Handler}
    (hget : m.table.get? name = some handler) (sink : Sink) :
    m.run { bytes := Utf8.encode (name ++ ending) } sink =
      (m.firstCall handler sink).reply >>= fun reply =>
        conclude ((m.afterFirstCall reply).ended none) := by
  rw [run_eq_conclude, ← traceLines_snd]
  dsimp only [Source.lines]
  rw [traceLines_name hname hending hget]
  cases (m.firstCall handler sink).reply <;> rfl

end Machine

/-- After any registrations on a table of the built-in handlers, what is found under a name is the
handler that was last registered under exactly this name, or else the built-in one of the opcode
with this mnemonic, or else none; and each registration gives back what was found under its name
before.  A name that is empty, or has a separator in it, or begins with `#`, is asked for by no
line: registering a handler under it makes no difference to any run, or to any single line, but
that the table has one more handler.  A script that has nothing in it but another name calls the
handler under that name once, as its first line and without operands, and nothing else. -/
theorem Table.dispatch_exact :
    (∀ registrations : List (String × Handler),
      (∀ name, (builtin.replaceAll registrations).2.get? name =
        ((registrations.filter fun registration => registration.1 = name).getLast?.map
          Prod.snd).or ((Opcode.ofMnemonic? name).map Opcode.handler)) ∧
      ∀ i : Nat, (builtin.replaceAll registrations).1[i]? =
        registrations[i]?.map fun registration =>
          (builtin.replaceAll (registrations.take i)).2.get? registration.1) ∧
    (∀ (m : Machine) (name : String) (handler : Handler), Unreachable name →
      (∀ source sink, { m with table := m.table.register name handler }.run source sink =
        (m.run source sink).map (Outcome.withTable (m.table.register name handler))) ∧
      ∀ number text sink,
        { m with table := m.table.register name handler }.executeLine number text sink =
          (m.executeLine number text sink).map
            (Outcome.withTable (m.table.register name handler))) ∧
    (∀ (m : Machine) (name ending : String) (handler : Handler) (sink : Sink),
      ¬Unreachable name → (ending = "" ∨ ending = "\n") → m.table.get? name = some handler →
      (Machine.fresh m.config m.table).traceLines sink
          (Source.numbered 1 (Source.lines { bytes := Utf8.encode (name ++ ending) })) =
        (m.firstCall handler sink).reply.map (fun reply =>
          ([m.firstCall handler sink], m.afterFirstCall reply)) ∧
      m.run { bytes := Utf8.encode (name ++ ending) } sink =
        (m.firstCall handler sink).reply >>= fun reply =>
          Machine.conclude ((m.afterFirstCall reply).ended none)) := by
  refine ⟨fun registrations => ⟨fun name => ?_, getElem?_replaceAll builtin registrations⟩,
    fun m name handler hname => ?_, fun m name ending handler sink hname hending hget => ?_⟩
  · rw [get?_replaceAll, get?_builtin]
    rfl
  · have halike := Machine.get?_register_of_unreachable (m := m) hname handler
    exact ⟨Machine.run_withTable halike, Machine.executeLine_withTable halike⟩
  · exact ⟨Machine.traceLines_name hname hending hget sink,
      Machine.run_name hname hending hget sink⟩

/-- A handler that ends the run is registered under a word, and another under two words, which no
line asks for. -/
theorem Table.dispatch_exact_of_umlauts :
    ∃ (m : Machine) (t : Table) (o p : Outcome Int32),
      m.table = (builtin.replaceAll [("nop", .ending 1), ("größe", .ending 3)]).2 ∧
      ¬Unreachable "größe" ∧ m.table.get? "größe" = some (.ending 3) ∧
      m.run { bytes := Utf8.encode "größe" } {} = .ok o ∧
      o.result = .ok 3 ∧ o.machine.executed = 1 ∧
      Unreachable "push 1" ∧ t = m.table.register "push 1" (.ending 4) ∧
      m.run { bytes := Utf8.encode "push 1\nnop" } {} = .ok p ∧
      { m with table := t }.run { bytes := Utf8.encode "push 1\nnop" } {} = .ok (p.withTable t) ∧
      p.result = .ok 1 ∧ p.machine.executed = 2 := by
  let m : Machine :=
    .fresh {} (builtin.replaceAll [("nop", .ending 1), ("größe", .ending 3)]).2
  obtain ⟨hregistered, hunreachable, hreachable⟩ := dispatch_exact
  have hget : m.table.get? "größe" = some (.ending 3) := by
    show (builtin.replaceAll [("nop", .ending 1), ("größe", .ending 3)]).2.get? "größe" = _
    rw [(hregistered _).1]
    rfl
  have hword : ¬Unreachable "größe" := by decide
  have hwords : Unreachable "push 1" := by decide
  obtain ⟨-, hrun⟩ := hreachable m "größe" "" (.ending 3) {} hword (.inl rfl) hget
  obtain ⟨hsame, -⟩ := hunreachable m "push 1" (.ending 4) hwords
  have heval : (m.run { bytes := Utf8.encode "push 1\nnop" } {}).map
      (fun o => (o.result, o.machine.executed)) = .ok (.ok 1, 2) := by
    decide +kernel
  obtain ⟨p, hp, heval⟩ := Checked.map_eq_ok_iff.1 heval
  obtain ⟨hresult, hexecuted⟩ := Prod.mk.inj heval
  refine ⟨m, _, _, p, rfl, hword, hget, hrun, rfl, rfl, hwords, rfl, hp, ?_, hresult, hexecuted⟩
  rw [hsame, hp, Checked.map_ok]

end ChainMachine
