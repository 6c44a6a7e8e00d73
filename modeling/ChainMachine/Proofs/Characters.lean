import ChainMachine.Proofs.Operands

/-!
# Texts in a chain

The values from the head on, up to the first that is no character, spell a text.  `pstr` prints it
at once; `pchar` and `pop` print it character by character.

* `Spells`: the bytes that values spell, and `spells_spelling`: there are some for all values;
* `Opcode.carryOut_turn`: a character is printed and popped, and `Opcode.carryOut_turns`: this is
  done again and again;
* `spelling_append`: a text before a value that is no character;
* `Opcode.carryOut_pushes`: operands pushed one after another, and `Opcode.carryOut_text`: a text
  that is pushed and printed;
* `Builtin.behind_text`: what can be behind a text;
* `Builtin.pstr_exact`: what is printed at once is what is printed character by character, and a
  text whose characters have been pushed is printed.
-/

namespace ChainMachine

/-! ### Spelling -/

/-- The bytes are the values from the head on, as long as these are characters other than NUL. -/
structure Spells (values : List Int32) (bytes : List UInt8) : Prop where
  codes : (values.take bytes.length).map Int32.toInt = bytes.map fun b => (b.toNat : Int)
  text : ∀ b ∈ bytes, 1 ≤ b.toNat ∧ b.toNat ≤ 127
  stop : ∀ v ∈ values[bytes.length]?, ¬(1 ≤ v.toInt ∧ v.toInt ≤ 127)

/-- The bytes that values spell. -/
def spelling (values : List Int32) : List UInt8 :=
  (values.takeWhile fun v => 1 ≤ v.toInt ∧ v.toInt ≤ 127).map Rule.code

/-- Bytes each of which is a line of its own. -/
def byteLines (bytes : List UInt8) : List (List UInt8) := bytes.map fun b => [b, Source.newline]

variable {values : List Int32} {v : Int32}

theorem spells_spelling (values : List Int32) : Spells values (spelling values) where
  codes := by
    have hprefix := List.prefix_iff_eq_take.1
      (List.takeWhile_prefix (l := values) fun v => 1 ≤ v.toInt ∧ v.toInt ≤ 127)
    rw [spelling, List.length_map, ← hprefix, List.map_map]
    refine List.map_congr_left fun v hv => ?_
    obtain ⟨hlow, hhigh⟩ := Rule.isText_of_mem_takeWhile hv
    exact (Rule.toNat_code (by omega) hhigh).symm
  text := by
    intro b hb
    obtain ⟨v, hv, rfl⟩ := List.mem_map.1 hb
    obtain ⟨hlow, hhigh⟩ := Rule.isText_of_mem_takeWhile hv
    have hcode := Rule.toNat_code (by omega) hhigh
    omega
  stop := by
    intro v hv
    -- behind the prefix stands the first value that is no character
    have hnext (start rest : List Int32) (h : start ++ rest = values) :
        values[start.length]? = rest.head? := by
      rw [← h, List.getElem?_append_right (Nat.le_refl _), Nat.sub_self, List.head?_eq_getElem?]
    have hnot := List.head?_dropWhile_not (fun v : Int32 => 1 ≤ v.toInt ∧ v.toInt ≤ 127) values
    rw [spelling, List.length_map, hnext _ _ List.takeWhile_append_dropWhile] at hv
    rw [Option.mem_def.1 hv] at hnot
    simpa using hnot

/-- No spelling of values is longer than another. -/
theorem Spells.length_le {bytes other : List UInt8} (h : Spells values bytes)
    (h' : Spells values other) : other.length ≤ bytes.length := by
  by_contra hlt
  rw [Nat.not_le] at hlt
  -- the value at which the first stops would be a character of the second
  have hcode := congrArg (·[bytes.length]?) h'.codes
  simp only [List.getElem?_map, List.getElem?_take_of_lt hlt, List.getElem?_eq_getElem hlt,
    Option.map_some, Option.map_eq_some_iff] at hcode
  obtain ⟨v, hv, hcode⟩ := hcode
  have hrange := h'.text _ (List.getElem_mem hlt)
  exact h.stop v hv (by omega)

theorem spells_iff {bytes : List UInt8} : Spells values bytes ↔ bytes = spelling values := by
  constructor
  · intro h
    have hspelling := spells_spelling values
    have hlength := Nat.le_antisymm (hspelling.length_le h) (h.length_le hspelling)
    have hcodes := h.codes
    rw [hlength, hspelling.codes] at hcodes
    exact List.map_injective_iff.2 (fun a b hab => UInt8.toNat_inj.1 (Int.ofNat_inj.1 hab))
      hcodes.symm
  · rintro rfl
    exact spells_spelling values

theorem spelling_cons (h : 1 ≤ v.toInt ∧ v.toInt ≤ 127) (values : List Int32) :
    spelling (v :: values) = Rule.code v :: spelling values := by
  rw [spelling, List.takeWhile_cons_of_pos (by simpa using h)]
  rfl

/-- Where no character comes first nothing is spelled. -/
theorem spelling_eq_nil (h : ∀ v ∈ values.head?, ¬(1 ≤ v.toInt ∧ v.toInt ≤ 127)) :
    spelling values = [] := by
  cases values with
  | nil => rfl
  | cons v values =>
    rw [spelling, List.takeWhile_cons_of_neg (by simpa using h v rfl)]
    rfl

/-- What is spelled before a value that is no character. -/
theorem spelling_append {text : List Int32} (htext : ∀ v ∈ text, 1 ≤ v.toInt ∧ v.toInt ≤ 127)
    (hvalues : ∀ v ∈ values.head?, ¬(1 ≤ v.toInt ∧ v.toInt ≤ 127)) :
    spelling (text ++ values) = text.map Rule.code := by
  induction text with
  | nil => exact spelling_eq_nil hvalues
  | cons v text ih =>
    rw [List.forall_mem_cons] at htext
    rw [List.cons_append, spelling_cons htext.1, ih htext.2, List.map_cons]

/-- The codes of the characters of a text. -/
def charCodes (text : String) : List Int32 := text.toList.map fun ch => Int32.ofNat ch.toNat

/-- The text has no character but those of ASCII, and none of them is NUL. -/
def IsAsciiText (text : String) : Prop := ∀ ch ∈ text.toList, 1 ≤ ch.toNat ∧ ch.toNat ≤ 127

instance (text : String) : Decidable (IsAsciiText text) := List.decidableBAll ..

theorem toInt_ofNat_toNat {ch : Char} (h : ch.toNat ≤ 127) :
    (Int32.ofNat ch.toNat).toInt = ch.toNat := by
  have hmin : Int32.minValue.toInt ≤ (ch.toNat : Int) := by
    rw [Int32.toInt_minValue]
    omega
  rw [← Int32.ofInt_eq_ofNat, Int32.toInt_ofInt_of_le hmin (by omega)]

theorem isText_of_mem_charCodes {text : String} (htext : IsAsciiText text)
    (hv : v ∈ charCodes text) : 1 ≤ v.toInt ∧ v.toInt ≤ 127 := by
  obtain ⟨ch, hch, rfl⟩ := List.mem_map.1 hv
  obtain ⟨hlow, hhigh⟩ := htext ch hch
  rw [toInt_ofNat_toNat hhigh]
  omega

/-- The codes of a text are printed as the text. -/
theorem map_code_charCodes {text : String} (htext : IsAsciiText text) :
    (charCodes text).map Rule.code ++ [Source.newline] = Utf8.encode (text ++ "\n") := by
  have hchars : (charCodes text).map Builtin.toChar = text.toList := by
    rw [charCodes, List.map_map]
    refine (List.map_congr_left fun ch hch => ?_).trans (List.map_id _)
    rw [Function.comp_apply, Builtin.toChar, toInt_ofNat_toNat (htext ch hch).2,
      Int.toNat_natCast, Char.ofNat_toNat, id]
  have hline := Rule.outputLine_ofList (charCodes text) fun v hv => by
    have hrange := isText_of_mem_charCodes htext hv
    omega
  rw [hchars, String.ofList_toList] at hline
  exact hline.symm

/-! ### Printing -/

namespace Opcode

variable {c : Chain} {s : Contents} {sink : Sink}

/-- The instructions that print the head as a character and pop it. -/
def turn (ctxs : Context × Context) : List (Opcode × Context) :=
  [(.pchar, ctxs.1), (.pop, ctxs.2)]

theorem handler_pstr (h : c.Holds s) (ctx : Context) (hlimit : sink.limit = none) :
    pstr.handler ctx c sink =
      .ok (.proceed c
        { sink with written := sink.written ++ (spelling s.values ++ [Source.newline]) }) := by
  rw [handler, Builtin.pstr_eq h, Reply.printed_write hlimit]
  rfl

/-- In stack mode the head is printed and popped, if it is a character. -/
theorem carryOut_turn (h : c.Holds { values := v :: values, mode := .stack })
    (hv : 1 ≤ v.toInt ∧ v.toInt ≤ 127) (ctxs : Context × Context) (hlimit : sink.limit = none) :
    ∃ d, d.Holds { values, mode := .stack } ∧
      carryOut c sink (turn ctxs) =
        .ok (.proceed d
          { sink with written := sink.written ++ [Rule.code v, Source.newline] }) := by
  have hpchar : pchar.handler ctxs.1 c sink =
      .ok (.proceed c { sink with written := sink.written ++ [Rule.code v, Source.newline] }) := by
    rw [handler, Builtin.pchar_eq h rfl ⟨by omega, hv.2⟩, Reply.printed_write hlimit]
    rfl
  obtain ⟨d, hpop, hd⟩ := h.pop
  have hpop (sink : Sink) : pop.handler ctxs.2 c sink = .ok (.proceed d sink) := by
    rw [handler, Builtin.pop, hpop]
    rfl
  exact ⟨d, hd, carryOut_cons_eq_proceed_iff.2
    ⟨c, _, hpchar, carryOut_cons_eq_proceed_iff.2 ⟨d, _, hpop _, rfl⟩⟩⟩

/-- In stack mode as many characters are printed and popped as are asked for, if that many are
spelled. -/
theorem carryOut_turns (h : c.Holds { values, mode := .stack }) {turns : List (Context × Context)}
    (hturns : turns.length ≤ (spelling values).length) (hlimit : sink.limit = none) :
    ∃ d, d.Holds { values := values.drop turns.length, mode := .stack } ∧
      carryOut c sink (turns.flatMap turn) =
        .ok (.proceed d
          { sink with
            written :=
              sink.written ++ ((byteLines (spelling values)).take turns.length).flatten }) := by
  induction turns generalizing c values sink with
  | nil =>
    refine ⟨c, h, ?_⟩
    simp [carryOut]
  | cons ctxs turns ih =>
    -- there is a value left, and it is a character
    cases values with
    | nil => cases hturns
    | cons v values =>
      by_cases hv : 1 ≤ v.toInt ∧ v.toInt ≤ 127
      · rw [spelling_cons hv, List.length_cons, List.length_cons] at hturns
        obtain ⟨d, hd, hfirst⟩ := carryOut_turn h hv ctxs hlimit
        let mid : Sink := { sink with written := sink.written ++ [Rule.code v, Source.newline] }
        have hmid : mid.limit = none := hlimit
        obtain ⟨e, he, hrest⟩ := ih hd (Nat.le_of_succ_le_succ hturns) hmid
        refine ⟨e, he, ?_⟩
        rw [List.flatMap_cons, carryOut_append_eq_proceed_iff]
        refine ⟨d, mid, hfirst, ?_⟩
        rw [hrest, spelling_cons hv, List.length_cons]
        simp [byteLines, mid]
      · rw [spelling_eq_nil (by simpa using hv)] at hturns
        cases hturns

/-- Operands that are read as values are pushed one after another, where there is room for them. -/
theorem carryOut_pushes (h : c.Holds s) {pushes : List Context} {values : List Int32}
    (hread : pushes.map (fun ctx => ctx.operands.head?.bind Numeral.read) = values.map some)
    (hroom : ∀ ctx ∈ pushes, ∀ bound ∈ ctx.slotLimit,
      s.values.length + pushes.length ≤ bound) (sink : Sink) :
    ∃ d, d.Holds { s with values := values.reverse ++ s.values } ∧
      carryOut c sink (pushes.map fun ctx => (push, ctx)) = .ok (.proceed d sink) := by
  induction pushes generalizing c s values with
  | nil =>
    obtain rfl : values = [] := by simpa using hread.symm
    exact ⟨c, h, rfl⟩
  | cons ctx pushes ih =>
    cases values with
    | nil => cases hread
    | cons v values =>
      obtain ⟨hfirst, hrest⟩ := List.cons.inj hread
      rw [List.forall_mem_cons, List.length_cons] at hroom
      obtain ⟨d, hpush, hd⟩ := handler_push h hfirst
        (fun bound hbound => by have := hroom.1 bound hbound; omega) sink
      obtain ⟨e, he, hpushes⟩ := ih hd hrest fun ctx hctx bound hbound => by
        have := hroom.2 ctx hctx bound hbound
        rw [List.length_cons]
        omega
      refine ⟨e, ?_, carryOut_cons_eq_proceed_iff.2 ⟨d, sink, hpush, hpushes⟩⟩
      rw [List.reverse_cons, List.append_assoc]
      exact he

/-- A text whose characters are pushed from its end on, before a value that is no character, is
printed. -/
theorem carryOut_text (h : c.Holds s) {text : String} (htext : IsAsciiText text)
    (hstop : ∀ v ∈ s.values.head?, ¬(1 ≤ v.toInt ∧ v.toInt ≤ 127)) {pushes : List Context}
    (hread : pushes.map (fun ctx => ctx.operands.head?.bind Numeral.read) =
      (charCodes text).reverse.map some)
    (hroom : ∀ ctx ∈ pushes, ∀ bound ∈ ctx.slotLimit, s.values.length + pushes.length ≤ bound)
    (ctx : Context) (hlimit : sink.limit = none) :
    ∃ d, d.Holds { s with values := charCodes text ++ s.values } ∧
      carryOut c sink (pushes.map (fun ctx => (.push, ctx)) ++ [(.pstr, ctx)]) =
        .ok (.proceed d
          { sink with written := sink.written ++ Utf8.encode (text ++ "\n") }) := by
  obtain ⟨d, hd, hpushes⟩ := carryOut_pushes h hread hroom sink
  rw [List.reverse_reverse] at hd
  have hpstr := handler_pstr hd ctx hlimit
  rw [spelling_append (fun v => isText_of_mem_charCodes htext) hstop,
    map_code_charCodes htext] at hpstr
  refine ⟨d, hd, carryOut_append_eq_proceed_iff.2 ⟨d, sink, hpushes, ?_⟩⟩
  exact carryOut_cons_eq_proceed_iff.2 ⟨d, _, hpstr, rfl⟩

end Opcode

/-- Behind a text there is nothing, or zero, or a value that cannot be printed as a character. -/
theorem Builtin.behind_text {c : Chain} {s : Contents} (h : c.Holds s)
    (hstop : ∀ v ∈ s.values.head?, ¬(1 ≤ v.toInt ∧ v.toInt ≤ 127)) :
    s.values = [] ∨ s.values.head? = some 0 ∨
      ∃ v, s.values.head? = some v ∧ ∀ ctx sink,
        pchar ctx c sink = .ok (.fail (.invalidCharacterCode ctx.line v) c sink) := by
  cases hvalues : s.values with
  | nil => exact .inl rfl
  | cons v rest =>
    have hv : ¬(1 ≤ v.toInt ∧ v.toInt ≤ 127) := hstop v (by rw [hvalues]; rfl)
    by_cases hzero : v.toInt = 0
    · rw [← Int32.toInt_zero, Int32.toInt_inj] at hzero
      exact .inr (.inl (congrArg some hzero))
    · exact .inr (.inr ⟨v, rfl, pchar_refused h hvalues (by omega)⟩)

/-- On a chain with some values, `pstr` writes the bytes that these spell and a newline, and leaves
the chain as it is.  In stack mode as many characters as are spelled, or fewer, can be printed and
popped in turn, and what is written are the same bytes, each followed by a newline; when all of them
are gone, the chain is empty, or its head is zero, or its head cannot be printed.  When the head is
no character, pushing the codes of a text from its end on and printing them at once writes the
text. -/
theorem Builtin.pstr_exact {c : Chain} (hc : c.Reachable) :
    ∃ (values : List Int32) (bytes : List UInt8),
      c.values = .ok values ∧ (∀ other, Spells values other ↔ other = bytes) ∧
      (∀ ctx sink, sink.limit = none →
        pstr ctx c sink =
          .ok (.proceed c { sink with written := sink.written ++ (bytes ++ [Source.newline]) })) ∧
      (byteLines bytes).flatMap List.dropLast = bytes ∧
      (∀ (turns : List (Context × Context)) (sink : Sink), c.mode = .stack →
        turns.length ≤ bytes.length → sink.limit = none →
        ∃ d, d.values = .ok (values.drop turns.length) ∧
          Opcode.carryOut c sink (turns.flatMap Opcode.turn) =
            .ok (.proceed d
              { sink with
                written := sink.written ++ ((byteLines bytes).take turns.length).flatten }) ∧
          (turns.length = bytes.length →
            values.drop turns.length = [] ∨
            (values.drop turns.length).head? = some 0 ∨
            ∃ v, (values.drop turns.length).head? = some v ∧ ∀ ctx sink,
              pchar ctx d sink = .ok (.fail (.invalidCharacterCode ctx.line v) d sink))) ∧
      (∀ (text : String) (pushes : List Context) (ctx : Context) (sink : Sink),
        IsAsciiText text → (∀ v ∈ values.head?, v = 0 ∨ v.toInt < 0 ∨ 127 < v.toInt) →
        pushes.map (fun ctx => ctx.operands.head?.bind Numeral.read) =
          (charCodes text).reverse.map some →
        (∀ ctx ∈ pushes, ∀ bound ∈ ctx.slotLimit, c.length + pushes.length ≤ bound) →
        sink.limit = none →
        ∃ d, d.values = .ok (charCodes text ++ values) ∧
          Opcode.carryOut c sink (pushes.map (fun ctx => (.push, ctx)) ++ [(.pstr, ctx)]) =
            .ok (.proceed d
              { sink with written := sink.written ++ Utf8.encode (text ++ "\n") })) := by
  obtain ⟨⟨values, mode⟩, hs⟩ := hc.exists_holds
  refine ⟨values, spelling values, hs.values_eq, fun _ => spells_iff,
    fun ctx sink hlimit => Opcode.handler_pstr hs ctx hlimit, ?_, ?_, ?_⟩
  · simp [byteLines, List.flatMap_map]
  · intro turns sink hmode hturns hlimit
    obtain rfl : mode = .stack := hs.mode_eq.symm.trans hmode
    obtain ⟨d, hd, hprinted⟩ := Opcode.carryOut_turns hs hturns hlimit
    refine ⟨d, hd.values_eq, hprinted, fun hall => behind_text hd fun v hv => ?_⟩
    apply (spells_spelling values).stop
    rwa [← hall, ← List.head?_drop]
  · intro text pushes ctx sink htext hhead hread hroom hlimit
    have hstop : ∀ v ∈ values.head?, ¬(1 ≤ v.toInt ∧ v.toInt ≤ 127) := by
      intro v hv
      rcases hhead v hv with rfl | hlow | hhigh
      · decide
      · omega
      · omega
    rw [hs.length_eq] at hroom
    obtain ⟨d, hd, hprinted⟩ := Opcode.carryOut_text hs htext hstop hread hroom ctx hlimit
    exact ⟨d, hd.values_eq, hprinted⟩

/-- A text is pushed onto a value that is no character, and printed at once.  On a chain with the
same values its characters are printed and popped in turn, up to that value, which cannot be
printed. -/
theorem Builtin.pstr_exact_of_greeting :
    ∃ (c d e f : Chain) (pushes : List Context) (turns : List (Context × Context)) (ctx : Context),
      c.Reachable ∧ c.values = .ok [200] ∧ IsAsciiText "Hi" ∧
      pushes.map Context.operands = [["105"], ["072", "x"]] ∧
      (∀ ctx ∈ pushes, ∀ bound ∈ ctx.slotLimit, c.length + pushes.length ≤ bound) ∧
      d.values = .ok [72, 105, 200] ∧
      Opcode.carryOut c {} (pushes.map (fun ctx => (.push, ctx)) ++ [(.pstr, ctx)]) =
        .ok (.proceed d { written := (#[] : Array UInt8) ++ Utf8.encode "Hi\n" }) ∧
      e.Reachable ∧ e.mode = .stack ∧ e.values = .ok [72, 105, 200] ∧ turns.length = 2 ∧
      f.values = .ok [200] ∧
      Opcode.carryOut e {} (turns.flatMap Opcode.turn) =
        .ok (.proceed f { written := (#[] : Array UInt8) ++ Utf8.encode "H\ni\n" }) ∧
      pchar ctx f {} = .ok (.fail (.invalidCharacterCode 3 200) f {}) := by
  let c : Chain :=
    { storage := { slots := #[some ⟨200, none, none⟩] }
      head := some 0, length := 1, mode := .queue }
  let e : Chain :=
    { storage := { slots := #[some ⟨200, some 1, none⟩, some ⟨105, some 2, some 0⟩,
                      some ⟨72, none, some 1⟩] }
      head := some 2, length := 3, mode := .stack }
  let pushes : List Context :=
    [{ line := 1, operands := ["105"], slotLimit := some 3 },
      { line := 2, operands := ["072", "x"] }]
  let ctx : Context := { line := 3, operands := [] }
  have hc : c.Reachable := ⟨.queue, Schedule.unbounded [.push 200], [.done], by decide⟩
  have he : e.Reachable :=
    ⟨.stack, Schedule.unbounded [.push 200, .push 105, .push 72], [.done, .done, .done], by decide⟩
  have hroom : ∀ ctx ∈ pushes, ∀ bound ∈ ctx.slotLimit, c.length + pushes.length ≤ bound := by
    simp [c, pushes]
  obtain ⟨values, bytes, hvalues, -, -, -, -, htext⟩ := pstr_exact hc
  obtain rfl : values = [200] := Except.ok.inj (hvalues.symm.trans (by decide))
  have hascii : IsAsciiText "Hi" := by decide
  have hstop : ∀ v ∈ ([200] : List Int32).head?, v = 0 ∨ v.toInt < 0 ∨ 127 < v.toInt := by
    rintro v ⟨⟩
    decide
  have hread : pushes.map (fun ctx => ctx.operands.head?.bind Numeral.read) =
      (charCodes "Hi").reverse.map some := by
    decide
  obtain ⟨d, hd, hprinted⟩ := htext "Hi" pushes ctx {} hascii hstop hread hroom rfl
  obtain ⟨values', bytes', hvalues', hspells, -, -, hturns, -⟩ := pstr_exact he
  obtain rfl : values' = [72, 105, 200] := Except.ok.inj (hvalues'.symm.trans (by decide))
  obtain rfl := (hspells [0x48, 0x69]).1 (spells_iff.2 (by decide))
  obtain ⟨f, hf, hpopped, hend⟩ := hturns [(ctx, ctx), (ctx, ctx)] {} rfl (by decide) rfl
  refine ⟨c, d, e, f, pushes, _, ctx, hc, hvalues, hascii, rfl, hroom, hd, hprinted, he, rfl,
    hvalues', rfl, hf, hpopped, ?_⟩
  rcases hend rfl with hnone | hzero | ⟨v, hv, hrefused⟩
  · cases hnone
  · exact absurd hzero (by decide)
  · cases hv
    exact hrefused ctx {}

end ChainMachine
