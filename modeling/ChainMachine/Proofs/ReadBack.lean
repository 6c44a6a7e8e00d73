import ChainMachine.Proofs.ByteWords
import ChainMachine.Proofs.Counting
import ChainMachine.Proofs.Execution
import ChainMachine.Proofs.Operations

/-!
# Output that is read back

What `pall` prints is one numeral a line, from the head on.  Pushing these numerals, the last line
first, makes a chain with the same values again.

* `Numeral.isSeparator_of_mem_write`, `Rule.line_injective`: a numeral is one word and stands for
  one value;
* `Source.cut_listing`: the lines of what is printed;
* `Source.pushScript`: the script that pushes the numerals in lines of output;
* `Chain.Holds.exists_push`: a push that there is room for;
* `Machine.executeLine_pushLine`, `Machine.stepThrough_pushLine`: what its lines come to;
* `Machine.runFrom_pushScript`: it makes the values again.
-/

namespace ChainMachine

/-! ### Numerals -/

namespace Numeral

/-- A numeral consists of digits and perhaps a sign. -/
theorem isSeparator_of_mem_write {v : Int32} {c : Char} (h : c ∈ (write v).toList) :
    isSeparator c = false := by
  have hdigit {c : Char} (hc : c ∈ writeNat v.toInt.natAbs) : isSeparator c = false := by
    have hdigit := Nat.isDigit_of_mem_toDigits (b := 10) (by decide) (by decide) hc
    rw [← Bool.not_eq_true, isSeparator_iff]
    intro hsep
    simp only [Char.isDigit, Bool.and_eq_true, decide_eq_true_eq, ge_iff_le, UInt32.le_iff_toNat_le]
      at hdigit
    simp only [List.mem_cons, List.not_mem_nil, or_false] at hsep
    have hval : c.val.toNat = c.toNat := rfl
    have hzero : '0'.val.toNat = 48 := rfl
    omega
  unfold write at h
  dsimp only at h
  rw [String.toList_ofList] at h
  split at h
  · rcases List.mem_cons.1 h with rfl | hc
    · decide
    · exact hdigit hc
  · exact hdigit h

theorem write_ne_empty (v : Int32) : write v ≠ "" := by
  intro h
  have hread := read_write v
  rw [h] at hread
  cases hread

end Numeral

namespace Rule

theorem line_eq_append (v : Int32) :
    line v = Utf8.encode (Numeral.write v) ++ [Source.newline] := by
  rw [line_eq, Builtin.outputLine, Utf8.encode_append]
  rfl

theorem newline_notMem_encode_write (v : Int32) :
    Source.newline ∉ Utf8.encode (Numeral.write v) :=
  Words.newline_notMem_encode_of_isSeparator fun _ => Numeral.isSeparator_of_mem_write

/-- Other values are printed in another way. -/
theorem line_injective : Function.Injective line := by
  intro v w h
  rw [line_eq_append, line_eq_append, List.append_left_inj] at h
  have hread := congrArg Numeral.read (Utf8.encode_injective h)
  rw [Numeral.read_write, Numeral.read_write] at hread
  exact Option.some.inj hread

end Rule

/-! ### Lines -/

namespace Source

theorem isLine_line (v : Int32) : IsLine (Rule.line v) :=
  ⟨_, Rule.newline_notMem_encode_write v, Rule.line_eq_append v⟩

/-- The lines of what is printed for values. -/
theorem cut_listing (values : List Int32) :
    cut (values.flatMap Rule.line) = values.map Rule.line := by
  have h : cut ((values.map Rule.line).flatten ++ []) = values.map Rule.line ++ cut [] :=
    cut_flatten_append (by simpa using fun v _ => isLine_line v) []
  simpa [List.flatMap_def, cut] using h

/-- The line that pushes the numeral in a line of output. -/
def pushLine (line : List UInt8) : List UInt8 := Utf8.encode "push " ++ line

/-- The script that pushes the numerals in lines of output, from the last to the first. -/
def pushScript (out : List UInt8) : List UInt8 := (cut out).reverse.flatMap pushLine

theorem isLine_pushLine (v : Int32) : IsLine (pushLine (Rule.line v)) := by
  obtain ⟨start, hstart, hline⟩ := isLine_line v
  refine ⟨Utf8.encode "push " ++ start, ?_, ?_⟩
  · rw [List.mem_append, not_or]
    exact ⟨by decide, hstart⟩
  · rw [pushLine, hline, List.append_assoc]

/-- The lines of the script, and of another one behind it. -/
theorem cut_pushScript_append (values : List Int32) (more : List UInt8) :
    cut (pushScript (values.flatMap Rule.line) ++ more) =
      (values.reverse.map fun v => pushLine (Rule.line v)) ++ cut more := by
  rw [pushScript, cut_listing, ← List.map_reverse, List.flatMap_def, List.map_map]
  exact cut_flatten_append (by simpa using fun v _ => isLine_pushLine v) more

/-- The line pushes the value whose numeral it is. -/
theorem ofBytes_pushLine (v : Int32) :
    Line.ofBytes (pushLine (Rule.line v)) = .instruction "push" [Numeral.write v] := by
  have htext : Utf8.decode (pushLine (Rule.line v)) =
      "push" ++ String.singleton ' ' ++
        (Numeral.write v ++ String.singleton '\n' ++ "") := by
    rw [pushLine, Rule.line_eq, Builtin.outputLine, ← Utf8.encode_append, Utf8.decode_encode,
      String.append_empty]
    rfl
  have hword : Words.ofText (Numeral.write v) = [Numeral.write v] :=
    Words.ofText_eq_singleton (fun c hc => Numeral.isSeparator_of_mem_write hc)
      (Numeral.write_ne_empty v)
  have hpush : Words.ofText "push" = ["push"] := by decide
  rw [Line.ofBytes, htext, Words.ofText_append_singleton (by decide),
    Words.ofText_append_singleton (by decide), hword, hpush]
  rfl

end Source

/-- Where everything is accepted, all values are printed. -/
theorem Builtin.pall_of_limit_eq_none {c : Chain} {s : Contents} (h : c.Holds s) (ctx : Context)
    {sink : Sink} (hlimit : sink.limit = none) :
    pall ctx c sink =
      .ok (.proceed c { sink with written := sink.written ++ s.values.flatMap Rule.line }) := by
  rw [pall_eq h, Reply.printed_write hlimit]

/-- A push that there is room for is not refused. -/
theorem Chain.Holds.exists_push {c : Chain} {s : Contents} (h : c.Holds s) (value : Int32)
    {limit : Option Nat} (hroom : ∀ bound ∈ limit, s.values.length < bound) :
    ∃ d, c.push value limit = .ok (some d) ∧ d.Holds { s with values := value :: s.values } := by
  rcases h.push value limit with hpush | ⟨-, hfree, hbound⟩
  · exact hpush
  · -- without a vacant slot there are as many slots as values
    have hlength := h.length_eq
    obtain ⟨path, hl, -⟩ := h
    rw [hl.free_eq_nil_iff.1 hfree] at hlength
    cases limit with
    | none => cases hbound
    | some bound =>
      have hlt : c.storage.size < bound := hlength ▸ hroom bound rfl
      simp [Storage.mayGrow, hlt] at hbound

namespace Machine

variable {m : Machine} {s : Contents}

theorem executeLine_pushLine (htable : m.table = .builtin) (hholds : m.chain.Holds s)
    (hroom : ∀ bound ∈ m.config.slotLimit, s.values.length < bound) (v : Int32) (number : Nat)
    (sink : Sink) :
    ∃ d, d.Holds { s with values := v :: s.values } ∧
      m.executeLine number (Utf8.decode (Source.pushLine (Rule.line v))) sink =
        .ok { result := .ok .proceed
              machine := { m with chain := d, executed := m.executed + 1 }
              sink } := by
  obtain ⟨d, hd, hholds⟩ := hholds.exists_push v hroom
  have hline : Line.ofWords (Words.ofText (Utf8.decode (Source.pushLine (Rule.line v)))) =
      .instruction "push" [Numeral.write v] := Source.ofBytes_pushLine v
  have hget : m.table.get? "push" = some Builtin.push := by
    rw [htable]
    exact Table.get?_builtin_mnemonic .push
  refine ⟨d, hholds, ?_⟩
  rw [executeLine_eq, hline]
  dsimp only
  rw [hget]
  simp [Builtin.push, hd, Reply.proceed]

/-- The values are pushed one after another. -/
theorem stepThrough_pushLine (htable : m.table = .builtin) (hholds : m.chain.Holds s)
    {values : List Int32}
    (hroom : ∀ bound ∈ m.config.slotLimit, s.values.length + values.length ≤ bound)
    (number : Nat) (sink : Sink) :
    ∃ d, d.Holds { s with values := values.reverse ++ s.values } ∧
      m.stepThrough sink
          (Source.numbered number (values.map fun v => Source.pushLine (Rule.line v))) =
        .ok { result := .ok .proceed
              machine := { m with chain := d, executed := m.executed + values.length }
              sink } := by
  induction values generalizing m s number with
  | nil => exact ⟨m.chain, hholds, rfl⟩
  | cons v values ih =>
    rw [List.length_cons] at hroom
    obtain ⟨d, hd, hline⟩ := executeLine_pushLine htable hholds
      (fun bound hbound => by have := hroom bound hbound; omega) v number sink
    obtain ⟨e, he, hlines⟩ := ih (m := { m with chain := d, executed := m.executed + 1 }) htable hd
      (fun bound hbound => by
        have := hroom bound hbound
        rw [List.length_cons]
        omega)
      (number + 1)
    refine ⟨e, ?_, ?_⟩
    · rw [List.reverse_cons, List.append_assoc]
      exact he
    · rw [List.map_cons, stepThrough_of_proceed hline, hlines, List.length_cons]
      simp [Nat.add_assoc, Nat.add_comm 1]

theorem executeLine_pall (htable : m.table = .builtin) (hholds : m.chain.Holds s) {sink : Sink}
    (hlimit : sink.limit = none) (number : Nat) :
    m.executeLine number (Utf8.decode (Utf8.encode "pall\n")) sink =
      .ok { result := .ok .proceed
            machine := { m with executed := m.executed + 1 }
            sink := { sink with written := sink.written ++ s.values.flatMap Rule.line } } := by
  have hline : Line.ofWords (Words.ofText (Utf8.decode (Utf8.encode "pall\n"))) =
      .instruction "pall" [] := by
    decide +kernel
  have hget : m.table.get? "pall" = some Builtin.pall := by
    rw [htable]
    exact Table.get?_builtin_mnemonic .pall
  rw [executeLine_eq, hline]
  dsimp only
  rw [hget]
  dsimp only
  rw [Builtin.pall_of_limit_eq_none hholds _ hlimit]
  rfl

/-- On an empty chain the script that is read back from the output for some values makes these
values, and printing them behind it writes that output again. -/
theorem runFrom_pushScript (htable : m.table = .builtin) {mode : Mode}
    (hholds : m.chain.Holds { values := [], mode }) {values : List Int32}
    (hroom : ∀ bound ∈ m.config.slotLimit, values.length ≤ bound) (number : Nat) (sink : Sink) :
    ∃ d, d.Holds { values, mode } ∧
      m.runFrom number { bytes := Source.pushScript (values.flatMap Rule.line) } sink =
        .ok { result := .ok 0
              machine := { m with chain := d, executed := m.executed + values.length }
              sink } ∧
      (sink.limit = none →
        m.runFrom number
            { bytes := Source.pushScript (values.flatMap Rule.line) ++ Utf8.encode "pall\n" } sink =
          .ok { result := .ok 0
                machine := { m with chain := d, executed := m.executed + values.length + 1 }
                sink := { sink with written := sink.written ++ values.flatMap Rule.line } }) := by
  have hroom' : ∀ bound ∈ m.config.slotLimit, 0 + values.reverse.length ≤ bound := by
    simpa using hroom
  obtain ⟨d, hd, hlines⟩ := stepThrough_pushLine htable hholds hroom' number sink
  rw [List.reverse_reverse, List.append_nil] at hd
  rw [List.length_reverse] at hlines
  refine ⟨d, hd, ?_, fun hlimit => ?_⟩
  · have hcut := Source.cut_pushScript_append values []
    rw [List.append_nil] at hcut
    rw [runFrom_eq_stepThrough]
    dsimp only [Source.lines]
    rw [hcut, show Source.cut [] = [] from rfl, List.append_nil, hlines, Checked.map_ok]
    rfl
  · have hpall := executeLine_pall
      (m := { m with chain := d, executed := m.executed + values.length }) htable hd hlimit
    rw [runFrom_eq_stepThrough]
    dsimp only [Source.lines]
    rw [Source.cut_pushScript_append, show Source.cut (Utf8.encode "pall\n") =
      [Utf8.encode "pall\n"] by decide, Source.numbered_append, stepThrough_append, hlines,
      Checked.ok_bind, Outcome.andThen_of_proceed rfl, stepThrough_of_proceed (hpall _),
      Source.numbered_nil, stepThrough, Checked.map_ok]
    rfl

end Machine

/-- What `pall` prints for a chain has as many lines as the chain has values, and they are the
decimal numerals of the values from the head on.  The script that pushes these numerals, the last
first, fails nowhere on an empty chain that there is room in, and makes the same values; `pall`
behind it prints the same again.  So chains for which `pall` prints the same have the same
values. -/
theorem Builtin.pall_readBack {c : Chain} (hc : c.Reachable) :
    ∃ (values : List Int32) (out : List UInt8),
      c.values = .ok values ∧ values.length = c.length ∧
      (∀ ctx sink, sink.limit = none →
        pall ctx c sink = .ok (.proceed c { sink with written := sink.written ++ out })) ∧
      Source.cut out =
        values.map (fun v => Utf8.encode (toString v.toInt) ++ [Source.newline]) ∧
      (∀ (m : Machine) (number : Nat) (sink : Sink), m.table = .builtin → m.chain.Reachable →
        m.chain.values = .ok [] → (∀ bound ∈ m.config.slotLimit, values.length ≤ bound) →
        ∃ d, d.values = .ok values ∧ d.mode = m.chain.mode ∧
          m.runFrom number { bytes := Source.pushScript out } sink =
            .ok { result := .ok 0
                  machine := { m with chain := d, executed := m.executed + values.length }
                  sink } ∧
          (sink.limit = none →
            m.runFrom number { bytes := Source.pushScript out ++ Utf8.encode "pall\n" } sink =
              .ok { result := .ok 0
                    machine := { m with chain := d, executed := m.executed + values.length + 1 }
                    sink := { sink with written := sink.written ++ out } })) ∧
      (∀ (m : Machine) (sink : Sink), m.table = .builtin → sink.Healthy →
        (∀ bound ∈ m.config.slotLimit, values.length ≤ bound) →
        ∃ o, m.run { bytes := Source.pushScript out ++ Utf8.encode "pall\n" } sink = .ok o ∧
          o.result = .ok 0 ∧ o.machine.executed = values.length + 1 ∧
          o.sink.written = sink.written ++ out) ∧
      (∀ (d : Chain) (ctx ctx' : Context) (sink : Sink), d.Reachable → sink.limit = none →
        (pall ctx c sink).map Reply.sink = (pall ctx' d sink).map Reply.sink →
        d.values = .ok values) := by
  obtain ⟨s, hs⟩ := hc.exists_holds
  refine ⟨s.values, s.values.flatMap Rule.line, hs.values_eq, hs.length_eq.symm,
    fun ctx sink hlimit => pall_of_limit_eq_none hs ctx hlimit, ?_, ?_, ?_, ?_⟩
  · rw [Source.cut_listing]
    exact List.map_congr_left fun v _ => by rw [Rule.line_eq_append, Rule.write_eq]
  · intro m number sink htable hreachable hempty hroom
    obtain ⟨⟨values, mode⟩, hm⟩ := hreachable.exists_holds
    obtain rfl : values = [] := Except.ok.inj (hm.values_eq.symm.trans hempty)
    obtain ⟨d, hd, hscript, hprinted⟩ := Machine.runFrom_pushScript htable hm hroom number sink
    exact ⟨d, hd.values_eq, hd.mode_eq.trans hm.mode_eq.symm, hscript, hprinted⟩
  · intro m sink htable hsink hroom
    obtain ⟨d, hd, -, hprinted⟩ := Machine.runFrom_pushScript (m := .fresh m.config m.table) htable
      (Chain.holds_empty m.config.initialMode) hroom 1 sink
    unfold Machine.run
    rw [hprinted hsink.limit_eq, Checked.ok_bind]
    dsimp only [Sink.flush]
    rw [hd.clear, hsink.flushFailure_eq]
    refine ⟨_, rfl, rfl, ?_, rfl⟩
    show 0 + s.values.length + 1 = s.values.length + 1
    rw [Nat.zero_add]
  · intro d ctx ctx' sink hd hlimit hsame
    obtain ⟨t, ht⟩ := hd.exists_holds
    rw [pall_of_limit_eq_none hs ctx hlimit, pall_of_limit_eq_none ht ctx' hlimit, Checked.map_ok,
      Checked.map_ok, Except.ok.injEq] at hsame
    have hout : s.values.flatMap Rule.line = t.values.flatMap Rule.line := by
      simpa [Reply.proceed] using congrArg (fun sink => sink.written.toList) hsame
    -- the same output has the same lines, and each of them stands for one value
    have hlines := congrArg Source.cut hout
    rw [Source.cut_listing, Source.cut_listing] at hlines
    rw [ht.values_eq, List.map_injective_iff.2 Rule.line_injective hlines]

/-- The greatest value and the least one, read back where there is room for just two values.  The
same output comes from a chain with its nodes in other slots. -/
theorem Builtin.pall_readBack_of_extremes :
    ∃ (c d e : Chain) (m : Machine) (out : List UInt8) (o : Outcome Int32),
      c ≠ d ∧ c.Reachable ∧ d.Reachable ∧ c.values = .ok [2147483647, -2147483648] ∧
      (pall { line := 1, operands := [] } c {}).map (fun reply => reply.sink.written.toList) =
        .ok out ∧
      out = Utf8.encode "2147483647\n-2147483648\n" ∧
      Source.pushScript out = Utf8.encode "push -2147483648\npush 2147483647\n" ∧
      m.table = .builtin ∧ m.config.slotLimit = some 2 ∧ m.chain.Reachable ∧
      m.chain.values = .ok [] ∧
      m.runFrom 1 { bytes := Source.pushScript out } {} =
        .ok { result := .ok 0, machine := { m with chain := e, executed := 2 }, sink := {} } ∧
      e.values = .ok [2147483647, -2147483648] ∧
      m.run { bytes := Source.pushScript out ++ Utf8.encode "pall\n" } {} = .ok o ∧
      o.result = .ok 0 ∧ o.sink.written.toList = out ∧
      (pall { line := 1, operands := [] } c {}).map Reply.sink =
        (pall { line := 4, operands := ["x"] } d {}).map Reply.sink ∧
      d.values = .ok [2147483647, -2147483648] := by
  let c : Chain :=
    { storage := { slots := #[some ⟨-2147483648, some 1, none⟩, some ⟨2147483647, none, some 0⟩] }
      head := some 1, length := 2, mode := .stack }
  let d : Chain :=
    { storage := { slots := #[some ⟨2147483647, none, some 1⟩, some ⟨-2147483648, some 0, none⟩] }
      head := some 0, length := 2, mode := .stack }
  let m : Machine := .fresh { slotLimit := some 2 } .builtin
  have hc : c.Reachable :=
    ⟨.stack, Schedule.unbounded [.push (-2147483648), .push 2147483647], [.done, .done], by decide⟩
  have hd : d.Reachable :=
    ⟨.stack, Schedule.unbounded [.push 2147483647, .push (-2147483648), .headToTail],
      [.done, .done, .done], by decide⟩
  obtain ⟨values, out, hvalues, -, hpall, -, hpart, hrun, hsame⟩ := pall_readBack hc
  obtain rfl : values = [2147483647, -2147483648] :=
    Except.ok.inj (hvalues.symm.trans (by decide))
  have hprinted : (pall { line := 1, operands := [] } c {}).map
      (fun reply => reply.sink.written.toList) =
        .ok (Utf8.encode "2147483647\n-2147483648\n") := by
    decide +kernel
  obtain rfl : out = Utf8.encode "2147483647\n-2147483648\n" := by
    rw [hpall _ {} rfl, Checked.map_ok, Except.ok.injEq] at hprinted
    simpa [Reply.proceed] using hprinted
  have hroom : ∀ bound ∈ m.config.slotLimit, 2 ≤ bound := by simp [m, Machine.fresh]
  have hempty : m.chain.Reachable := ⟨.stack, [], [], rfl⟩
  obtain ⟨e, he, -, hscript, -⟩ := hpart m 1 {} rfl hempty rfl hroom
  obtain ⟨o, ho, hresult, -, hwritten⟩ := hrun m {} rfl Sink.healthy_empty hroom
  have hsinks : (pall { line := 1, operands := [] } c {}).map Reply.sink =
      (pall { line := 4, operands := ["x"] } d {}).map Reply.sink := by
    decide +kernel
  refine ⟨c, d, e, m, _, o, by decide, hc, hd, hvalues, hprinted, rfl, by decide +kernel, rfl, rfl,
    hempty, rfl, hscript, he, ho, hresult, ?_, hsinks, hsame d _ _ {} hd rfl hsinks⟩
  simp [hwritten]

end ChainMachine
