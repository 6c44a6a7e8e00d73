import ChainMachine.Proofs.Ending
import ChainMachine.Proofs.Execution

/-!
# Sinks that give out

A sink that takes no more than so many bytes makes no difference as long as they suffice.  The
instruction whose output goes past the limit fails, and the run with it; the sink then holds the
beginning of what would have been written without the limit.

* `Sink.cut`, `Reply.cut`, `Outcome.cut`: what comes of a sink, a reply and an outcome when there is
  a limit to what is written;
* `Sink.write_cut`, `Effect.reply_cut`, `Machine.executeLine_cut`: writing, an instruction and a
  line with a limit;
* `Machine.History.exists_sink_eq`: without a limit output only grows;
* `Machine.History.stepThrough_cut`: lines with a limit come to the first outcome that goes past it;
* `Machine.History.exists_call_of_lt`: the first call whose output goes past the limit;
* `Machine.run_cut`: a run with a limit.
-/

namespace ChainMachine

/-- The sink with a limit, and with what it had then accepted. -/
def Sink.cut (limit : Nat) (s : Sink) : Sink :=
  { s with limit := some limit, written := s.written.take limit }

/-- The reply when there is a limit: a failure if more than this has been written. -/
def Reply.cut (limit : Nat) (reply : Reply) : Reply :=
  { outcome :=
      if limit < reply.sink.written.size then .error (.transfer Sink.full) else reply.outcome
    chain := reply.chain
    sink := reply.sink.cut limit }

/-- The outcome when there is a limit: a failure if more than this has been written. -/
def Outcome.cut (limit : Nat) (o : Outcome Flow) : Outcome Flow :=
  { result := if limit < o.sink.written.size then .error (.transfer Sink.full) else o.result
    machine := o.machine
    sink := o.sink.cut limit }

variable {limit : Nat}

/-! ### Writing -/

namespace Sink

variable {s : Sink}

/-- Where there is room, a limit is all that is new. -/
theorem cut_of_le (h : s.written.size ≤ limit) : s.cut limit = { s with limit := some limit } := by
  rw [cut, Array.take_eq_extract, Array.extract_eq_self_of_le h]

/-- What comes after the limit makes no difference. -/
theorem take_eq_of_isPrefix {written more : Array UInt8} (h : written.toList <+: more.toList)
    (hlt : limit < written.size) : more.take limit = written.take limit := by
  obtain ⟨out, hout⟩ := h
  have hle : limit ≤ written.toList.length := by
    rw [Array.length_toList]
    exact Nat.le_of_lt hlt
  apply Array.ext'
  simp [← hout, List.take_append_of_le_length hle]

/-- What a sink with a limit accepts of some bytes, it would accept of more. -/
theorem cut_append (h : s.written.size ≤ limit) (bytes : List UInt8) :
    { s with written := s.written ++ bytes }.cut limit =
      { s with
        limit := some limit
        written := s.written ++ bytes.take (limit - s.written.size) } := by
  have hle : s.written.toList.length ≤ limit := by rwa [Array.length_toList]
  have hwritten : (s.written ++ bytes).take limit =
      s.written ++ bytes.take (limit - s.written.size) := by
    apply Array.ext'
    simp [List.take_append, List.take_of_length_le hle]
  rw [cut, hwritten]

/-- With a limit the same is written up to it, and what goes past it fails. -/
theorem write_cut (hlimit : s.limit = none) (h : s.written.size ≤ limit) (bytes : List UInt8) :
    (s.cut limit).write bytes =
      ((s.write bytes).1.cut limit,
        if limit < (s.write bytes).1.written.size then some full else none) := by
  rw [write_of_limit_eq_none hlimit, cut_append h, cut_of_le h]
  dsimp only [write]
  rw [size_append]
  by_cases hroom : bytes.length ≤ limit - s.written.size
  · rw [if_pos hroom, if_neg (by omega), List.take_of_length_le hroom]
  · rw [if_neg hroom, if_pos (by omega)]

end Sink

namespace Outcome

variable {o : Outcome Flow}

theorem cut_of_le (h : o.sink.written.size ≤ limit) :
    o.cut limit = o.mapSink fun s => { s with limit := some limit } := by
  rw [cut, if_neg (by omega), Sink.cut_of_le h]
  rfl

theorem cut_of_lt (h : limit < o.sink.written.size) :
    o.cut limit =
      { result := .error (.transfer Sink.full)
        machine := o.machine
        sink := o.sink.cut limit } := by
  rw [cut, if_pos h]

end Outcome

/-! ### One line -/

/-- With a limit an instruction does the same, but fails if its output goes past the limit. -/
theorem Effect.reply_cut {sink : Sink} (hlimit : sink.limit = none)
    (h : sink.written.size ≤ limit) (effect : Effect) :
    effect.reply (sink.cut limit) = (effect.reply sink).cut limit := by
  cases effect with
  | done chain out =>
    have hwrite := Sink.write_cut hlimit h out
    rw [reply, reply, hwrite, Sink.write_of_limit_eq_none hlimit]
    by_cases hlt : limit < (sink.written ++ out).size
    · simp [Reply.printed, Reply.proceed, Reply.fail, Reply.cut, hlt]
    · simp [Reply.printed, Reply.proceed, Reply.cut, hlt]
  | failed chain diagnostic =>
    have hle : ¬limit < sink.written.size := by omega
    simp [reply, Reply.fail, Reply.cut, hle]

/-- Without a limit, what an instruction prints comes behind what is there. -/
theorem Effect.sink_reply {sink : Sink} (hlimit : sink.limit = none) (effect : Effect) :
    ∃ out : List UInt8,
      (effect.reply sink).sink = { sink with written := sink.written ++ out } := by
  cases effect with
  | done chain out =>
    rw [reply, Sink.write_of_limit_eq_none hlimit]
    exact ⟨out, rfl⟩
  | failed chain diagnostic => exact ⟨[], by simp [reply, Reply.fail]⟩

namespace Machine

variable {m : Machine} {sink : Sink}

/-- With a limit a line does the same, but fails if its output goes past the limit. -/
theorem executeLine_cut (htable : m.table.Plain) (hlimit : sink.limit = none)
    (h : sink.written.size ≤ limit) (number : Nat) (text : String) :
    m.executeLine number text (sink.cut limit) =
      (m.executeLine number text sink).map (Outcome.cut limit) := by
  apply executeLine_map (F := Reply.cut limit)
  · intro result
    rw [Outcome.cut_of_le (by exact h), Sink.cut_of_le h]
    rfl
  · intro reply
    rfl
  · intro name handler hget ctx
    obtain ⟨effect, heffect⟩ := htable name handler hget ctx m.chain
    rw [heffect, heffect]
    cases effect with
    | error fault => rfl
    | ok e => rw [Checked.map_ok, Checked.map_ok, Checked.map_ok, e.reply_cut hlimit h]

/-- Without a limit, what a line prints comes behind what is there. -/
theorem exists_sink_eq_of_executeLine (htable : m.table.Plain) (hlimit : sink.limit = none)
    {number : Nat} {text : String} {o : Outcome Flow}
    (h : m.executeLine number text sink = .ok o) :
    ∃ out : List UInt8, o.sink = { sink with written := sink.written ++ out } := by
  rw [executeLine_eq_ok_iff] at h
  generalize Words.ofText text = words at h
  cases h with
  | blank => exact ⟨[], by simp⟩
  | comment => exact ⟨[], by simp⟩
  | unknown => exact ⟨[], by simp⟩
  | @called word operands handler reply hash found replied =>
    obtain ⟨effect, heffect⟩ := htable word handler found
      { line := number, operands, slotLimit := m.config.slotLimit } m.chain
    rw [heffect, Checked.map_eq_ok_iff] at replied
    obtain ⟨e, -, rfl⟩ := replied
    exact e.sink_reply hlimit

/-- Only a call changes the sink. -/
theorem Performs.executed_eq_of_sink_ne {number : Nat} {words : List String} {o : Outcome Flow}
    (h : m.Performs number sink words o) (hne : o.sink ≠ sink) :
    o.machine.executed = m.executed + 1 := by
  cases h with
  | blank => exact absurd rfl hne
  | comment => exact absurd rfl hne
  | unknown => exact absurd rfl hne
  | called => rfl

/-! ### Lines -/

namespace History

variable {lines : List (Nat × String)} {os : List (Outcome Flow)}

/-- Without a limit, what lines print comes behind what is there. -/
theorem exists_sink_eq_of_mem (h : m.History sink lines os) (htable : m.table.Plain)
    (hlimit : sink.limit = none) :
    ∀ p ∈ os, ∃ out : List UInt8, p.sink = { sink with written := sink.written ++ out } := by
  have hboth := h.induct
    (P := fun m between => m.table.Plain ∧
      ∃ out : List UInt8, between = { sink with written := sink.written ++ out }) ?_
    ⟨htable, [], by simp⟩
  · exact fun p hp => (hboth p hp).2
  · rintro m between number text o ⟨htable, out, rfl⟩ ho
    obtain ⟨more, hmore⟩ := exists_sink_eq_of_executeLine htable (by exact hlimit) ho
    rw [executeLine_table_eq ho]
    refine ⟨htable, out ++ more, ?_⟩
    rw [hmore, Sink.written_append]

theorem exists_sink_eq (h : m.History sink lines os) (htable : m.table.Plain)
    (hlimit : sink.limit = none) :
    ∃ out : List UInt8,
      (m.reached sink os).sink = { sink with written := sink.written ++ out } := by
  rcases eq_nil_or_mem_of_reached m sink os with rfl | hmem
  · exact ⟨[], by simp⟩
  · exact h.exists_sink_eq_of_mem htable hlimit _ hmem

/-- What is written after any of the lines is the beginning of what they write together. -/
theorem isPrefix_written (h : m.History sink lines os) (htable : m.table.Plain)
    (hlimit : sink.limit = none) :
    ∀ p ∈ os, p.sink.written.toList <+: (m.reached sink os).sink.written.toList := by
  induction h with
  | nil => simp
  | stop executed stops => simp
  | step executed proceeds rest ih =>
    obtain ⟨out, hout⟩ := exists_sink_eq_of_executeLine htable hlimit executed
    have hlimit' := congrArg Sink.limit hout
    rw [← executeLine_table_eq executed] at htable
    rw [reached_cons proceeds, List.forall_mem_cons]
    refine ⟨?_, ih htable (hlimit'.trans hlimit)⟩
    obtain ⟨more, hmore⟩ := rest.exists_sink_eq htable (hlimit'.trans hlimit)
    rw [hmore]
    simp

/-- Lines on a sink with a limit come to the first outcome that goes past it, if there is one, and
otherwise to what they come to without the limit. -/
theorem stepThrough_cut (h : m.History sink lines os) (htable : m.table.Plain)
    (hlimit : sink.limit = none) (hfits : sink.written.size ≤ limit) :
    m.stepThrough (sink.cut limit) lines =
      .ok (((os.find? fun o => limit < o.sink.written.size).getD
        (m.reached sink os)).cut limit) := by
  induction h with
  | nil =>
    rw [List.find?_nil, Option.getD_none, reached_nil, Outcome.cut_of_le hfits,
      Sink.cut_of_le hfits]
    rfl
  | @stop m sink number text lines o executed stops =>
    have hstops : (o.cut limit).result ≠ .ok .proceed := by
      by_cases hlt : limit < o.sink.written.size
      · simp [Outcome.cut_of_lt hlt]
      · rw [Outcome.cut_of_le (by omega)]
        exact stops
    rw [stepThrough, executeLine_cut htable hlimit hfits, executed, Checked.map_ok, Checked.ok_bind,
      Outcome.andThen_of_ne hstops, reached_singleton]
    by_cases hlt : limit < o.sink.written.size <;> simp [hlt]
  | @step m sink number text lines o os executed proceeds rest ih =>
    obtain ⟨out, hout⟩ := exists_sink_eq_of_executeLine htable hlimit executed
    have hlimit' := congrArg Sink.limit hout
    rw [stepThrough, executeLine_cut htable hlimit hfits, executed, Checked.map_ok, Checked.ok_bind,
      reached_cons proceeds]
    rw [← executeLine_table_eq executed] at htable
    by_cases hlt : limit < o.sink.written.size
    · -- the output of this line goes past the limit
      rw [Outcome.cut_of_lt hlt, Outcome.andThen_of_ne (by simp), List.find?_cons_of_pos (by simpa),
        Option.getD_some, Outcome.cut_of_lt hlt]
    · have hle : o.sink.written.size ≤ limit := by omega
      rw [List.find?_cons_of_neg (by simpa), ← ih htable (hlimit'.trans hlimit) hle,
        Outcome.cut_of_le hle, Sink.cut_of_le hle]
      exact Outcome.andThen_of_proceed proceeds

/-- Where no more is written than the limit, no line goes past it. -/
theorem find?_eq_none_of_le (h : m.History sink lines os) (htable : m.table.Plain)
    (hlimit : sink.limit = none) (hle : (m.reached sink os).sink.written.size ≤ limit) :
    (os.find? fun o => limit < o.sink.written.size) = none := by
  rw [List.find?_eq_none]
  intro p hp
  have hlength := (h.isPrefix_written htable hlimit p hp).length_le
  rw [Array.length_toList, Array.length_toList] at hlength
  rw [decide_eq_true_eq]
  omega

/-- Where more is written than the limit, there is a first call whose output goes past it. -/
theorem exists_call_of_lt (h : m.History sink lines os) (hfits : sink.written.size ≤ limit)
    (hlt : limit < (m.reached sink os).sink.written.size) :
    ∃ earlier p later, os = earlier ++ p :: later ∧
      os.find? (fun o => limit < o.sink.written.size) = some p ∧
      (∀ q ∈ earlier, q.sink.written.size ≤ limit) ∧ limit < p.sink.written.size ∧
      p.machine.executed = (m.reached sink earlier).machine.executed + 1 := by
  have hmem : m.reached sink os ∈ os := by
    rcases eq_nil_or_mem_of_reached m sink os with rfl | hmem
    · exact absurd hlt (by simpa using hfits)
    · exact hmem
  have hsome : (os.find? fun o => limit < o.sink.written.size).isSome := by
    rw [List.find?_isSome]
    exact ⟨_, hmem, by simpa using hlt⟩
  obtain ⟨p, hp⟩ := Option.isSome_iff_exists.1 hsome
  obtain ⟨hexceeds, earlier, later, rfl, hearlier⟩ := List.find?_eq_some_iff_append.1 hp
  have hwithin : ∀ q ∈ earlier, q.sink.written.size ≤ limit := by simpa using hearlier
  have hexceeds : limit < p.sink.written.size := by simpa using hexceeds
  refine ⟨earlier, p, later, rfl, hp, hwithin, hexceeds, ?_⟩
  obtain ⟨number, text, hline⟩ := h.exists_line_of_append
  refine (executeLine_eq_ok_iff.1 hline).executed_eq_of_sink_ne ?_
  -- what is there before the line is still within the limit
  intro heq
  rw [heq] at hexceeds
  rcases eq_nil_or_mem_of_reached m sink earlier with rfl | hmem
  · exact absurd hexceeds (by simpa using hfits)
  · exact absurd hexceeds (Nat.not_lt.2 (hwithin _ hmem))

end History

/-! ### Runs -/

theorem conclude_cut_of_le {p : Outcome Flow} (h : p.sink.written.size ≤ limit)
    (failure : Option String) {o : Outcome Int32} (ho : conclude (p.ended failure) = .ok o) :
    conclude ((p.cut limit).ended failure) =
      .ok { o with sink := { o.sink with limit := some limit } } := by
  rw [Outcome.cut_of_le h, Outcome.ended_mapSink, conclude_mapSink rfl, ho]
  rfl

theorem conclude_cut_of_lt {p : Outcome Flow} (h : limit < p.sink.written.size)
    (failure : Option String) {s : Contents} (hs : p.machine.chain.Holds s) :
    conclude ((p.cut limit).ended failure) =
      .ok
        { result := .error (.transfer Sink.full)
          machine := { p.machine with chain := .empty p.machine.chain.mode }
          sink := (p.sink.cut limit).flush.1 } := by
  have hcut : (p.cut limit).machine.chain.Holds s := hs
  rw [conclude_ended hcut, Outcome.cut_of_lt h]
  cases failure <;> rfl

/-- A run with the built-in handlers on a sink that accepts everything, compared with the same run
on a sink that accepts `limit` bytes.  If these suffice, the two come to the same.  If not, then the
latter comes to its end with the first call whose output goes past the limit, whatever the former
does after it: it fails with the failure of the sink, and the sink holds the first `limit` bytes of
what the former writes. -/
theorem run_cut (m : Machine) (source : Source) (failure : Option String) (limit : Nat) :
    ∃ (o : Outcome Int32) (os : List (Outcome Flow)),
      { m with table := .builtin }.run source { flushFailure := failure } = .ok o ∧
      (fresh m.config .builtin).History { flushFailure := failure }
        (Source.numbered 1 source.lines) os ∧
      (o.sink.written.size ≤ limit →
        { m with table := .builtin }.run source { limit := some limit, flushFailure := failure } =
          .ok { o with sink := { o.sink with limit := some limit } }) ∧
      (limit < o.sink.written.size →
        ∃ earlier p later, os = earlier ++ p :: later ∧
          (∀ q ∈ earlier, q.sink.written.size ≤ limit) ∧ limit < p.sink.written.size ∧
          p.machine.executed =
            ((fresh m.config .builtin).reached { flushFailure := failure } earlier).machine.executed
              + 1 ∧
          { m with table := .builtin }.run source { limit := some limit, flushFailure := failure } =
            .ok
              { result := .error (.transfer Sink.full)
                machine := { p.machine with chain := .empty p.machine.chain.mode }
                sink :=
                  { written := o.sink.written.take limit, limit := some limit,
                    flushFailure := failure, flushes := 1 } }) := by
  obtain ⟨os, o, hos, ho, hconclude⟩ := exists_run_builtin m source { flushFailure := failure }
  have hwritten : o.sink.written =
      ((fresh m.config .builtin).reached { flushFailure := failure } os).sink.written := by
    obtain ⟨chain, -, rfl⟩ := eq_of_conclude hconclude
    rw [Outcome.sink_ended]
    rfl
  have hplain : (fresh m.config .builtin).table.Plain := Table.plain_builtin
  have hlimited : { m with table := .builtin }.run source
      { limit := some limit, flushFailure := failure } =
        conclude ((((os.find? fun o => limit < o.sink.written.size).getD
          ((fresh m.config .builtin).reached { flushFailure := failure } os)).cut limit).ended
            source.failure) := by
    have hcut : ({ limit := some limit, flushFailure := failure } : Sink) =
        ({ flushFailure := failure } : Sink).cut limit := by
      simp [Sink.cut]
    rw [run_eq_conclude, hcut]
    exact congrArg (· >>= _) (hos.stepThrough_cut hplain rfl (Nat.zero_le limit))
  refine ⟨o, os, ho, hos, ?_, ?_⟩
  · intro hfits
    rw [hwritten] at hfits
    rw [hlimited, hos.find?_eq_none_of_le hplain rfl hfits, Option.getD_none]
    exact conclude_cut_of_le hfits source.failure hconclude
  · intro hlt
    rw [hwritten] at hlt
    obtain ⟨earlier, p, later, hsplit, hfind, hwithin, hexceeds, hexecuted⟩ :=
      hos.exists_call_of_lt (Nat.zero_le limit) hlt
    have hmem : p ∈ os := by simp [hsplit]
    obtain ⟨s, hs⟩ := hos.exists_holds_of_mem Table.keepsChains_builtin
      ⟨_, Chain.holds_empty m.config.initialMode⟩ p hmem
    obtain ⟨out, hout⟩ := hos.exists_sink_eq_of_mem hplain rfl p hmem
    have hbegins := hos.isPrefix_written hplain rfl p hmem
    refine ⟨earlier, p, later, hsplit, hwithin, hexceeds, hexecuted, ?_⟩
    rw [hlimited, hfind, Option.getD_some, conclude_cut_of_lt hexceeds source.failure hs]
    -- the sink holds no less than the limit by then, so what follows does not matter
    rw [hwritten, Sink.take_eq_of_isPrefix hbegins hexceeds, Sink.cut, hout]
    rfl

-- The sink gives out within the second of two values, long before the run would fail for another
-- reason.
example :
    ((fresh {} .builtin).runText "push 12\npush 7\npall\npop\npop\npop" {}).map (·.result) =
      .ok (.error (.underflow 6 "pop" 1)) ∧
    ((fresh {} .builtin).runText "push 12\npush 7\npall\npop\npop\npop" { limit := some 3 }).map
      (fun o => (o.result, o.machine.executed, o.sink.written.toList)) =
        .ok (.error (.transfer Sink.full), 3, Utf8.encode "7\n1") := by
  decide +kernel

end Machine

end ChainMachine
