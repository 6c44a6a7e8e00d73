import ChainMachine.Proofs.Rules

/-!
# The handlers follow the rules

On a chain with certain contents every handler does what the rule of its opcode says,
up to two things no rule knows of: the sink may refuse what is printed, and the storage
may refuse a slot.

* `Sink.writeAll_eq`: piece by piece or at once, the same is written;
* `Reply.Obeys`: a reply that goes with the result of a rule;
* `Builtin.push_obeys`, `Builtin.arithmetic_obeys`, …: the handlers whose steps need an
  argument of their own;
* `Opcode.handler_obeys`: every handler replies, and its reply goes with the rule;
  `Opcode.obeys_of_handler_eq_ok`: so does a reply that is given.
-/

namespace ChainMachine

namespace Sink

theorem written_append (written : Array UInt8) (bytes more : List UInt8) :
    written ++ (bytes ++ more) = written ++ bytes ++ more :=
  Array.ext' (by simp)

theorem size_append (written : Array UInt8) (bytes : List UInt8) :
    (written ++ bytes).size = written.size + bytes.length := by
  simp [← Array.length_toList]

/-- What follows a write that did not fail can be written along with it. -/
theorem write_append_of_ok {s t : Sink} {bytes : List UInt8} (h : s.write bytes = (t, none))
    (more : List UInt8) : s.write (bytes ++ more) = t.write more := by
  obtain rfl := write_eq_of_ok h
  cases hlimit : s.limit with
  | none => simp [write, hlimit, written_append]
  | some limit =>
    by_cases hfits : bytes.length ≤ limit - s.written.size
    · -- the room that is left is the room there was without the bytes
      have hroom : limit - (s.written ++ bytes).size =
          limit - s.written.size - bytes.length := by
        rw [size_append]
        omega
      by_cases hmore : more.length ≤ limit - s.written.size - bytes.length
      · have hall : bytes.length + more.length ≤ limit - s.written.size := by omega
        simp [write, hlimit, hroom, hmore, hall, written_append]
      · have hall : ¬bytes.length + more.length ≤ limit - s.written.size := by omega
        simp [write, hlimit, hroom, hmore, hall, List.take_append,
          List.take_of_length_le hfits, written_append]
    · simp [write, hlimit, hfits] at h

/-- Nothing is written behind a write that failed. -/
theorem write_append_of_failed {s t : Sink} {bytes : List UInt8} {text : String}
    (h : s.write bytes = (t, some text)) (more : List UInt8) :
    s.write (bytes ++ more) = (t, some text) := by
  cases hlimit : s.limit with
  | none => simp [write, hlimit] at h
  | some limit =>
    by_cases hfits : bytes.length ≤ limit - s.written.size
    · simp [write, hlimit, hfits] at h
    · have hall : ¬bytes.length + more.length ≤ limit - s.written.size := by omega
      rw [← h]
      simp [write, hlimit, hfits, hall, List.take_append_of_le_length (Nat.le_of_not_le hfits)]

theorem writeAll_eq (s : Sink) (pieces : List (List UInt8)) :
    s.writeAll pieces = s.write pieces.flatten := by
  induction pieces generalizing s with
  | nil => rw [writeAll_nil, List.flatten_nil, write_nil]
  | cons piece pieces ih =>
    rw [List.flatten_cons]
    cases hw : s.write piece with
    | mk t failure =>
      cases failure with
      | none => rw [writeAll_cons_of_ok hw, ih, write_append_of_ok hw]
      | some text => rw [writeAll_cons_of_failed hw, write_append_of_failed hw]

end Sink

/-- A sink without limit prints everything. -/
theorem Reply.printed_write {sink : Sink} (h : sink.limit = none) (c : Chain) (out : List UInt8) :
    printed c (sink.write out) = proceed c { sink with written := sink.written ++ out } := by
  rw [Sink.write_of_limit_eq_none h]
  rfl

/-- The replies that go with the result of a rule.  A failure leaves the chain as it was, and
nothing is written then but what the sink had room for. -/
inductive Reply.Obeys (limit : Option Nat) (c : Chain) (sink : Sink) :
    Except Diagnostic (Contents × List UInt8) → Reply → Prop
  | failed (diagnostic : Diagnostic) :
    Obeys limit c sink (.error diagnostic) (.fail diagnostic c sink)
  | done {t : Contents} {out : List UInt8} {d : Chain} {after : Sink} (holds : d.Holds t)
    (written : sink.write out = (after, none)) :
    Obeys limit c sink (.ok (t, out)) (.proceed d after)
  | cut {t : Contents} {out : List UInt8} {after : Sink} {text : String}
    (written : sink.write out = (after, some text)) :
    Obeys limit c sink (.ok (t, out)) (.fail (.transfer text) c after)
  | refused {t : Contents} (full : c.storage.free = [])
    (bound : c.storage.mayGrow limit = false) :
    Obeys limit c sink (.ok (t, [])) (.fail .storageExhausted c sink)

namespace Reply.Obeys

variable {limit : Option Nat} {c : Chain} {sink : Sink} {s : Contents}
  {result : Except Diagnostic (Contents × List UInt8)} {reply : Reply}

theorem proceed {d : Chain} {t : Contents} (h : d.Holds t) :
    Obeys limit c sink (.ok (t, [])) (.proceed d sink) :=
  .done h (Sink.write_nil sink)

theorem printed (h : c.Holds s) (out : List UInt8) :
    Obeys limit c sink (.ok (s, out)) (.printed c (sink.write out)) := by
  cases hw : sink.write out with
  | mk after failure =>
    cases failure with
    | none => exact .done h hw
    | some text => exact .cut hw

/-- The reply never asks for the end of the run. -/
theorem outcome_eq (h : Obeys limit c sink result reply) :
    reply.outcome = .ok .proceed ∨ ∃ diagnostic, reply.outcome = .error diagnostic := by
  cases h with
  | done => exact .inl rfl
  | failed => exact .inr ⟨_, rfl⟩
  | cut => exact .inr ⟨_, rfl⟩
  | refused => exact .inr ⟨_, rfl⟩

/-- The chain has some contents afterwards, too. -/
theorem exists_holds (h : Obeys limit c sink result reply) (hholds : c.Holds s) :
    ∃ t, reply.chain.Holds t := by
  cases h with
  | done holds => exact ⟨_, holds⟩
  | failed => exact ⟨s, hholds⟩
  | cut => exact ⟨s, hholds⟩
  | refused => exact ⟨s, hholds⟩

end Reply.Obeys

namespace Builtin

variable {c : Chain} {s : Contents}

theorem push_obeys (h : c.Holds s) (ctx : Context) (sink : Sink) :
    ∃ reply, push ctx c sink = .ok reply ∧
      reply.Obeys ctx.slotLimit c sink (Opcode.push.rule ctx.line ctx.operands s) := by
  have hread : Numeral.read = Rule.operand? := by
    funext word
    exact (Rule.operand?_eq_read word).symm
  unfold push Opcode.rule
  rw [hread]
  cases ctx.operands.head?.bind Rule.operand? with
  | none => exact ⟨_, rfl, .failed _⟩
  | some value =>
    dsimp only
    rcases h.push value ctx.slotLimit with ⟨d, hd, hholds⟩ | ⟨hrefused, hfull, hbound⟩
    · rw [hd]
      exact ⟨_, rfl, .proceed hholds⟩
    · rw [hrefused]
      exact ⟨_, rfl, .refused hfull hbound⟩

/-- Value by value or at once, the same is printed. -/
theorem pall_eq (h : c.Holds s) (ctx : Context) (sink : Sink) :
    pall ctx c sink = .ok (.printed c (sink.write (s.values.flatMap Rule.line))) := by
  have hlines : (s.values.map (outputLine ∘ Numeral.write)).flatten =
      s.values.flatMap Rule.line := by
    rw [List.flatMap_def]
    congr 2
    funext v
    exact (Rule.line_eq v).symm
  unfold pall
  rw [h.values_eq, Checked.ok_bind, Sink.writeAll_eq, hlines]
  rfl

theorem pall_obeys (h : c.Holds s) (ctx : Context) (sink : Sink) :
    ∃ reply, pall ctx c sink = .ok reply ∧
      reply.Obeys ctx.slotLimit c sink (Opcode.pall.rule ctx.line ctx.operands s) :=
  ⟨_, pall_eq h ctx sink, .printed h _⟩

theorem pint_eq (h : c.Holds s) {b : Int32} {rest : List Int32} (hvalues : s.values = b :: rest)
    (ctx : Context) (sink : Sink) :
    pint ctx c sink = .ok (.printed c (sink.write (Rule.line b))) := by
  unfold pint
  rw [h.first_eq, Checked.ok_bind, hvalues]
  dsimp only [List.head?_cons]
  rw [← Rule.line_eq]
  rfl

theorem pint_obeys (h : c.Holds s) (ctx : Context) (sink : Sink) :
    ∃ reply, pint ctx c sink = .ok reply ∧
      reply.Obeys ctx.slotLimit c sink (Opcode.pint.rule ctx.line ctx.operands s) := by
  unfold Opcode.rule
  cases hvalues : s.values with
  | nil =>
    unfold pint
    rw [h.first_eq, Checked.ok_bind, hvalues]
    exact ⟨_, rfl, .failed _⟩
  | cons b rest => exact ⟨_, pint_eq h hvalues ctx sink, .printed h _⟩

theorem pop_obeys (h : c.Holds s) (ctx : Context) (sink : Sink) :
    ∃ reply, pop ctx c sink = .ok reply ∧
      reply.Obeys ctx.slotLimit c sink (Opcode.pop.rule ctx.line ctx.operands s) := by
  unfold pop Opcode.rule
  by_cases hvalues : s.values = []
  · rw [h.pop_of_nil hvalues, if_pos hvalues]
    exact ⟨_, rfl, .failed _⟩
  · obtain ⟨d, hd, hholds⟩ := h.pop
    obtain ⟨value, hvalue⟩ := Contents.exists_pop_eq_some hvalues
    rw [hd, hvalue, if_neg hvalues]
    exact ⟨_, rfl, .proceed hholds⟩

theorem swap_obeys (h : c.Holds s) (ctx : Context) (sink : Sink) :
    ∃ reply, swap ctx c sink = .ok reply ∧
      reply.Obeys ctx.slotLimit c sink (Opcode.swap.rule ctx.line ctx.operands s) := by
  unfold swap Opcode.rule
  by_cases hvalues : s.values.length < 2
  · rw [h.swap_of_lt hvalues, if_pos hvalues]
    exact ⟨_, rfl, .failed _⟩
  · obtain ⟨d, hd, hholds⟩ := h.swap
    rw [hd, decide_eq_true (Nat.le_of_not_lt hvalues), if_neg hvalues]
    exact ⟨_, rfl, .proceed hholds⟩

/-- The second value and the first give way to what is made of them. -/
theorem arithmetic_eq (h : c.Holds s) {f : Int32 → Int32 → Checked Int32} {b a r : Int32}
    {rest : List Int32} (hvalues : s.values = b :: a :: rest) (hf : f a b = .ok r)
    (opcode : String) (ctx : Context) (sink : Sink) :
    ∃ d, arithmetic opcode f ctx c sink = .ok (.proceed d sink) ∧
      d.Holds { s with values := r :: rest } := by
  -- the head goes and the value after it, which is the head then, is overwritten
  obtain ⟨d, hd, hholds⟩ := h.popHead
  obtain ⟨e, he, hholds'⟩ := hholds.setHead r
  rw [hvalues] at hholds'
  refine ⟨e, ?_, hholds'⟩
  unfold arithmetic
  rw [h.firstTwo_eq, Checked.ok_bind, hvalues]
  dsimp only [Contents.firstTwo]
  rw [hf, Checked.ok_bind, hd, Checked.ok_bind, he]
  rfl

theorem arithmetic_obeys (h : c.Holds s) {f : Int32 → Int32 → Checked Int32}
    {g : Int → Int → Int} (opcode : String)
    (hf : ∀ b a rest, s.values = b :: a :: rest → f a b = .ok (Int32.ofInt (g a.toInt b.toInt)))
    (ctx : Context) (sink : Sink) :
    ∃ reply, arithmetic opcode f ctx c sink = .ok reply ∧
      reply.Obeys ctx.slotLimit c sink (Rule.combine opcode g ctx.line s) := by
  rcases hvalues : s.values with _ | ⟨b, _ | ⟨a, rest⟩⟩
  · unfold arithmetic Rule.combine
    rw [h.firstTwo_eq, Checked.ok_bind, hvalues]
    exact ⟨_, rfl, .failed _⟩
  · unfold arithmetic Rule.combine
    rw [h.firstTwo_eq, Checked.ok_bind, hvalues]
    exact ⟨_, rfl, .failed _⟩
  · obtain ⟨d, hd, hholds⟩ := arithmetic_eq h hvalues (hf b a rest hvalues) opcode ctx sink
    unfold Rule.combine
    rw [hvalues]
    exact ⟨_, hd, .proceed hholds⟩

/-- Two values the first of which is not zero are divided like any others are combined. -/
theorem division_eq (h : c.Holds s) {b a : Int32} {rest : List Int32}
    (hvalues : s.values = b :: a :: rest) (hb : b ≠ 0) (opcode : String)
    (f : Int32 → Int32 → Checked Int32) (ctx : Context) (sink : Sink) :
    division opcode f ctx c sink = arithmetic opcode f ctx c sink := by
  unfold division
  rw [h.firstTwo_eq, Checked.ok_bind, hvalues]
  split
  · next a' hzero =>
    cases hzero
    exact absurd rfl hb
  · rfl

/-- A divisor that is zero is found before anything is changed. -/
theorem division_obeys (h : c.Holds s) {f : Int32 → Int32 → Checked Int32}
    {g : Int → Int → Int} (opcode : String)
    (hf : ∀ a b, b ≠ 0 → f a b = .ok (Int32.ofInt (g a.toInt b.toInt)))
    (ctx : Context) (sink : Sink) :
    ∃ reply, division opcode f ctx c sink = .ok reply ∧
      reply.Obeys ctx.slotLimit c sink (Rule.divide opcode g ctx.line s) := by
  unfold division Rule.divide
  rw [h.firstTwo_eq, Checked.ok_bind]
  split
  · next a hzero =>
    obtain ⟨rest, hvalues⟩ := Contents.firstTwo_eq_some hzero
    rw [hvalues]
    exact ⟨_, rfl, .failed _⟩
  · next hzero =>
    -- here the rule has no zero either: the divisor is another, or there are too few values
    split
    · next a rest hvalues => exact absurd (by rw [hvalues]; rfl) (hzero a)
    · next hvalues =>
      apply arithmetic_obeys h opcode
      intro b a rest hv
      apply hf
      rintro rfl
      exact hvalues a rest hv

theorem quotient_eq (a b : Int32) (hb : b ≠ 0) :
    quotient a b = .ok (Int32.ofInt (a.toInt.tdiv b.toInt)) := by
  rw [quotient, if_neg hb, Rule.ofInt_tdiv]

theorem remainder_eq (a b : Int32) (hb : b ≠ 0) :
    remainder a b = .ok (Int32.ofInt (a.toInt.tmod b.toInt)) := by
  rw [remainder, if_neg hb, Rule.ofInt_tmod]

/-- The code of a character of ASCII is printed as that character. -/
theorem pchar_eq (h : c.Holds s) {b : Int32} {rest : List Int32} (hvalues : s.values = b :: rest)
    (hb : 0 ≤ b.toInt ∧ b.toInt ≤ 127) (ctx : Context) (sink : Sink) :
    pchar ctx c sink = .ok (.printed c (sink.write [Rule.code b, 0x0A])) := by
  have hline := Rule.outputLine_ofList [b] (by simpa using hb)
  rw [List.map_singleton, List.map_singleton, ← String.singleton_eq_ofList] at hline
  unfold pchar
  rw [h.first_eq, Checked.ok_bind, hvalues]
  dsimp only [List.head?_cons]
  rw [if_pos (Rule.isAscii_iff.2 hb), hline]
  rfl

/-- No other code is printed. -/
theorem pchar_refused (h : c.Holds s) {b : Int32} {rest : List Int32}
    (hvalues : s.values = b :: rest) (hb : ¬(0 ≤ b.toInt ∧ b.toInt ≤ 127)) (ctx : Context)
    (sink : Sink) :
    pchar ctx c sink = .ok (.fail (.invalidCharacterCode ctx.line b) c sink) := by
  unfold pchar
  rw [h.first_eq, Checked.ok_bind, hvalues]
  dsimp only [List.head?_cons]
  rw [if_neg (mt Rule.isAscii_iff.1 hb)]
  rfl

theorem pchar_obeys (h : c.Holds s) (ctx : Context) (sink : Sink) :
    ∃ reply, pchar ctx c sink = .ok reply ∧
      reply.Obeys ctx.slotLimit c sink (Opcode.pchar.rule ctx.line ctx.operands s) := by
  unfold Opcode.rule
  cases hvalues : s.values with
  | nil =>
    unfold pchar
    rw [h.first_eq, Checked.ok_bind, hvalues]
    exact ⟨_, rfl, .failed _⟩
  | cons b rest =>
    dsimp only
    by_cases hb : 0 ≤ b.toInt ∧ b.toInt ≤ 127
    · rw [if_pos hb]
      exact ⟨_, pchar_eq h hvalues hb ctx sink, .printed h _⟩
    · rw [if_neg hb]
      exact ⟨_, pchar_refused h hvalues hb ctx sink, .failed _⟩

/-- The codes of characters are printed as they stand, up to the first value that is none. -/
theorem pstr_eq (h : c.Holds s) (ctx : Context) (sink : Sink) :
    pstr ctx c sink = .ok (.printed c (sink.write
      ((s.values.takeWhile fun v => 1 ≤ v.toInt ∧ v.toInt ≤ 127).map Rule.code ++ [0x0A]))) := by
  have htext : isText = fun v => decide (1 ≤ v.toInt ∧ v.toInt ≤ 127) := by
    funext v
    rw [Bool.eq_iff_iff, Rule.isText_iff, decide_eq_true_iff]
  unfold pstr
  rw [h.values_eq, Checked.ok_bind, htext]
  dsimp only
  rw [Rule.outputLine_ofList]
  · rfl
  · intro v hv
    have hrange := Rule.isText_of_mem_takeWhile hv
    omega

theorem pstr_obeys (h : c.Holds s) (ctx : Context) (sink : Sink) :
    ∃ reply, pstr ctx c sink = .ok reply ∧
      reply.Obeys ctx.slotLimit c sink (Opcode.pstr.rule ctx.line ctx.operands s) :=
  ⟨_, pstr_eq h ctx sink, .printed h _⟩

end Builtin

/-- Every handler replies, and its reply goes with the rule. -/
theorem Opcode.handler_obeys {c : Chain} {s : Contents} (op : Opcode) (h : c.Holds s)
    (ctx : Context) (sink : Sink) :
    ∃ reply, op.handler ctx c sink = .ok reply ∧
      reply.Obeys ctx.slotLimit c sink (op.rule ctx.line ctx.operands s) := by
  cases op with
  | push => exact Builtin.push_obeys h ctx sink
  | pall => exact Builtin.pall_obeys h ctx sink
  | pint => exact Builtin.pint_obeys h ctx sink
  | pop => exact Builtin.pop_obeys h ctx sink
  | swap => exact Builtin.swap_obeys h ctx sink
  | add => exact Builtin.arithmetic_obeys h "add" (fun b a _ _ => by simp) ctx sink
  | sub => exact Builtin.arithmetic_obeys h "sub" (fun b a _ _ => by simp) ctx sink
  | mul => exact Builtin.arithmetic_obeys h "mul" (fun b a _ _ => by simp) ctx sink
  | div => exact Builtin.division_obeys h "div" Builtin.quotient_eq ctx sink
  | mod => exact Builtin.division_obeys h "mod" Builtin.remainder_eq ctx sink
  | pchar => exact Builtin.pchar_obeys h ctx sink
  | pstr => exact Builtin.pstr_obeys h ctx sink
  | rotl =>
    obtain ⟨d, hd, hholds⟩ := h.headToTail
    exact ⟨_, by simp [handler, Builtin.rotl, hd], .proceed hholds⟩
  | rotr =>
    obtain ⟨d, hd, hholds⟩ := h.tailToHead
    exact ⟨_, by simp [handler, Builtin.rotr, hd], .proceed hholds⟩
  | stack => exact ⟨_, rfl, .proceed (h.setMode .stack)⟩
  | queue => exact ⟨_, rfl, .proceed (h.setMode .queue)⟩
  | nop => exact ⟨_, rfl, .proceed h⟩

/-- Whatever a handler replies goes with the rule. -/
theorem Opcode.obeys_of_handler_eq_ok {c : Chain} {s : Contents} {op : Opcode} {ctx : Context}
    {sink : Sink} {reply : Reply} (hreply : op.handler ctx c sink = .ok reply) (h : c.Holds s) :
    reply.Obeys ctx.slotLimit c sink (op.rule ctx.line ctx.operands s) := by
  obtain ⟨reply', hreply', hobeys⟩ := op.handler_obeys h ctx sink
  rw [hreply] at hreply'
  cases hreply'
  exact hobeys

end ChainMachine
