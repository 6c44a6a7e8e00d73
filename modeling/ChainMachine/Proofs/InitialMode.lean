import ChainMachine.Proofs.Ending
import ChainMachine.Proofs.Modes

/-!
# The initial mode

The mode that a machine begins in makes no difference to a script that chooses one before every
`pop`: until the choice the modes differ and nothing else does, and after it nothing does.

* `Line.ChoosesBeforePop`: before every `pop` some line chooses a mode;
* `Machine.History.recast`: lines in another mode, as long as the modes agree at every `pop`;
* `Machine.run_initialMode`: the runs from either mode.
-/

namespace ChainMachine

namespace Line

/-- Before every pop some line chooses a mode. -/
def ChoosesBeforePop (lines : List Line) : Prop :=
  ∀ i (h : i < lines.length), lines[i].opcode? = some .pop →
    ∃ earlier ∈ lines.take i, earlier.mode? ≠ none

instance (lines : List Line) : Decidable (ChoosesBeforePop lines) :=
  inferInstanceAs (Decidable (∀ i (h : i < lines.length), lines[i].opcode? = some .pop →
    ∃ earlier ∈ lines.take i, earlier.mode? ≠ none))

end Line

namespace Machine

/-- Lines come to the same from another mode, as long as at every pop the modes agree. -/
theorem History.recast {m : Machine} {sink : Sink} {lines : List (Nat × String)}
    {os : List (Outcome Flow)} (h : m.History sink lines os) (htable : m.table = .builtin)
    (initial mode : Mode) {read : List Line}
    (hread : lines.map (fun line => Line.ofWords (Words.ofText line.2)) = read)
    (hpops : ∀ i line, read[i]? = some line → line.opcode? = some .pop →
      Line.modeAfter mode (read.take i) = Line.modeAfter m.chain.mode (read.take i)) :
    ∃ os', (m.recast initial mode 0).History sink lines os' ∧ os'.length = os.length ∧
      ∀ k ≤ os.length, (m.recast initial mode 0).reached sink (os'.take k) =
        (m.reached sink (os.take k)).recast id initial (Line.modeAfter mode (read.take k)) 0 := by
  induction h generalizing mode read with
  | nil =>
    refine ⟨[], .nil, rfl, fun k hk => ?_⟩
    obtain rfl : k = 0 := by simpa using hk
    rfl
  | @stop m sink number text lines o executed stops =>
    subst hread
    have hmode := hpops 0 _ rfl
    rw [List.take_zero, Line.modeAfter_nil, Line.modeAfter_nil] at hmode
    have hline := recast_of_executeLine htable executed id initial 0 hmode
    refine ⟨[_], .stop hline (Outcome.result_recast_eq_ok_iff.not.2 stops), rfl, fun k hk => ?_⟩
    cases k with
    | zero => rfl
    | succ k =>
      obtain rfl : k = 0 := by simpa using hk
      simp [Line.modeAfter_cons]
  | @step m sink number text lines o os executed proceeds rest ih =>
    subst hread
    have hmode := hpops 0 _ rfl
    rw [List.take_zero, Line.modeAfter_nil, Line.modeAfter_nil] at hmode
    have hline := recast_of_executeLine htable executed id initial 0 hmode
    have hproceeds : ∀ chosen, (o.recast id initial chosen 0).result = .ok .proceed :=
      fun _ => Outcome.result_recast_eq_ok_iff.2 proceeds
    -- the line chooses the mode for either machine, or for neither
    obtain ⟨os', hos', hlength, hreached⟩ := ih ((executeLine_table_eq executed).trans htable)
      ((Line.ofWords (Words.ofText text)).mode?.getD mode) rfl (by
        intro i line hi hop
        have hagree := hpops (i + 1) line (by simpa using hi) hop
        rw [mode_of_executeLine htable executed]
        simpa [Line.modeAfter_cons] using hagree)
    refine ⟨_ :: os', .step hline (hproceeds _) hos', by simp [hlength], fun k hk => ?_⟩
    cases k with
    | zero => rfl
    | succ k =>
      rw [List.take_succ_cons, List.take_succ_cons, List.map_cons, List.take_succ_cons,
        reached_cons (hproceeds _), reached_cons proceeds, Line.modeAfter_cons]
      exact hreached k (by simpa using hk)

/-- The runs of a script that chooses a mode before every pop, one from the mode of a stack and one
from that of a queue.  They have the same result, write the same and call as many handlers.  Each
executes as many lines as the other, and after any number of them the chains have the same values.
In the end the modes are the same if a mode was chosen, and otherwise they are those in which the
runs began. -/
theorem run_initialMode (m : Machine) (source : Source) (sink : Sink)
    (hpops : Line.ChoosesBeforePop (source.lines.map Line.ofBytes)) :
    ∃ (a b : Machine) (os os' : List (Outcome Flow)) (o o' : Outcome Int32),
      a = fresh (m.startingIn .stack).config .builtin ∧
      b = fresh (m.startingIn .queue).config .builtin ∧
      a.History sink (Source.numbered 1 source.lines) os ∧
      b.History sink (Source.numbered 1 source.lines) os' ∧
      (m.startingIn .stack).run source sink = .ok o ∧
      (m.startingIn .queue).run source sink = .ok o' ∧
      o'.result = o.result ∧ o'.sink = o.sink ∧ o'.machine.executed = o.machine.executed ∧
      o'.machine.halt = o.machine.halt ∧ os'.length = os.length ∧
      (∀ k, ∃ values, (a.reached sink (os.take k)).machine.chain.values = .ok values ∧
        (b.reached sink (os'.take k)).machine.chain.values = .ok values) ∧
      ((∃ line ∈ (source.lines.take os.length).map Line.ofBytes, line.mode? ≠ none) →
        o'.machine.chain.mode = o.machine.chain.mode) ∧
      ((∀ line ∈ (source.lines.take os.length).map Line.ofBytes, line.mode? = none) →
        o.machine.chain.mode = .stack ∧ o'.machine.chain.mode = .queue) := by
  obtain ⟨os, o, hos, hrun, hconclude⟩ := exists_run_builtin (m.startingIn .stack) source sink
  have hagree : ∀ i line, (source.lines.map Line.ofBytes)[i]? = some line →
      line.opcode? = some .pop →
      Line.modeAfter .queue ((source.lines.map Line.ofBytes).take i) =
        Line.modeAfter .stack ((source.lines.map Line.ofBytes).take i) := by
    intro i line hi hop
    obtain ⟨hlt, rfl⟩ := List.getElem?_eq_some_iff.1 hi
    obtain ⟨earlier, hmem, hchosen⟩ := hpops i hlt hop
    exact Line.modeAfter_eq_of_mem hmem hchosen _ _
  obtain ⟨os', hos', hlength, hreached⟩ :=
    hos.recast rfl .queue .queue (Source.map_numbered 1 _) hagree
  rw [← fresh_startingIn] at hos' hreached
  have hmode := hos.mode_reached rfl
  rw [List.map_take, Source.map_numbered] at hmode
  have hkeeps : ∀ k, ∃ t, ((fresh (m.startingIn .stack).config .builtin).reached sink
      (os.take k)).machine.chain.Holds t :=
    fun k => (hos.take k).exists_holds Table.keepsChains_builtin ⟨_, Chain.holds_empty .stack⟩
  -- the outcomes of either run are those of the other in another mode, and so are the runs
  have hall := hreached os.length (Nat.le_refl _)
  rw [List.take_length, List.take_of_length_le (Nat.le_of_eq hlength)] at hall
  have hrun' : (m.startingIn .queue).run source sink = .ok (o.recast id .queue
      (Line.modeAfter .queue ((source.lines.map Line.ofBytes).take os.length)) 0) := by
    rw [run_eq_conclude, table_startingIn, stepThrough_eq_ok_iff.2 ⟨os', hos', hall⟩,
      Checked.ok_bind, Outcome.ended_recast, conclude_recast, hconclude, Checked.map_ok]
  obtain ⟨t, ht⟩ := hkeeps os.length
  rw [List.take_length] at ht
  rw [conclude_ended ht] at hconclude
  obtain rfl := Except.ok.inj hconclude
  refine ⟨_, _, os, os', _, _, rfl, rfl, hos, hos', hrun, hrun', Outcome.result_recast_id _ _ _ _,
    rfl, rfl, rfl, hlength, ?_, ?_, ?_⟩
  · intro k
    obtain ⟨t, ht⟩ := hkeeps k
    refine ⟨t.values, ht.values_eq, ?_⟩
    rcases Nat.le_total k os.length with hle | hle
    · rw [hreached k hle]
      exact ht.values_eq
    · rw [List.take_of_length_le (hlength.trans_le hle), hall]
      rw [List.take_of_length_le hle] at ht
      exact ht.values_eq
  · rintro ⟨line, hmem, hline⟩
    rw [List.map_take] at hmem
    dsimp only [Outcome.recast, recast, Chain.setMode, Chain.empty]
    rw [hmode]
    exact Line.modeAfter_eq_of_mem hmem hline _ _
  · intro hnone
    rw [List.map_take] at hnone
    exact ⟨hmode.trans (Line.modeAfter_eq_self hnone _), Line.modeAfter_eq_self hnone _⟩

/-- A script that chooses to pop from the tail, and then does. -/
theorem run_initialMode_of_queue :
    ∃ (source : Source) (o o' : Outcome Int32),
      source.bytes = Utf8.encode "push 1\npush 2\nqueue\npop\npall\n" ∧
      Line.ChoosesBeforePop (source.lines.map Line.ofBytes) ∧
      ((fresh {} .builtin).startingIn .stack).run source {} = .ok o ∧
      ((fresh {} .builtin).startingIn .queue).run source {} = .ok o' ∧
      o'.result = o.result ∧ o'.sink = o.sink ∧ o.result = .ok 0 ∧
      o.sink.written.toList = Utf8.encode "2\n" ∧ o'.machine.executed = 5 ∧
      o'.machine.chain.mode = o.machine.chain.mode := by
  let source : Source := { bytes := Utf8.encode "push 1\npush 2\nqueue\npop\npall\n" }
  have hpops : Line.ChoosesBeforePop (source.lines.map Line.ofBytes) := by decide +kernel
  have heval : (((fresh {} .builtin).startingIn .stack).run source {}).map
      (fun o => (o.result, o.sink.written.toList, o.machine.executed, o.machine.chain.mode)) =
        .ok (.ok 0, Utf8.encode "2\n", 5, .queue) := by
    decide +kernel
  obtain ⟨a, b, os, os', o, o', -, -, hos, -, hrun, hrun', hresult, hsink, hexecuted, -, -, -,
    hchosen, hkept⟩ := run_initialMode (fresh {} .builtin) source {} hpops
  rw [hrun] at heval
  obtain ⟨h0, hwritten, hcalls, hmode⟩ : o.result = .ok 0 ∧
      o.sink.written.toList = Utf8.encode "2\n" ∧ o.machine.executed = 5 ∧
        o.machine.chain.mode = .queue := by
    simpa using heval
  refine ⟨source, o, o', rfl, hpops, hrun, hrun', hresult, hsink, h0, hwritten,
    hexecuted.trans hcalls, ?_⟩
  -- the mode is not that of the start, so some line chose it
  by_contra hne
  have hnone : ∀ line ∈ (source.lines.take os.length).map Line.ofBytes, line.mode? = none := by
    intro line hmem
    by_contra hline
    exact hne (hchosen ⟨line, hmem, hline⟩)
  rw [hmode] at hkept
  cases (hkept hnone).1

end Machine

end ChainMachine
