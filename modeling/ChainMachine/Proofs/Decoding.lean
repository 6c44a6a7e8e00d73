import ChainMachine.Proofs.Stepping
import Mathlib.Algebra.Group.Nat.Defs

/-!
# Decoding line by line

A script that is not UTF-8 is decoded one line at a time.  The lines are those of the script
decoded as a whole: a newline ends any sequence that is being read, and no sequence is decoded to
a newline.

* `Utf8.Sequence.Proper`: sequences that come to the code of a character, and not to an ASCII
  one; a decoder reads no others;
* `Utf8.Decoder.Reads`: what bytes do to a decoder, whatever was decoded before
  (`Utf8.Decoder.exists_reads_byte` for one byte, `Utf8.Decoder.exists_reads` for all);
* `Utf8.decode_append_cons`: an ASCII byte stands for itself and separates what is decoded;
* `Utf8.exists_of_mem_decode`: every ASCII character that is decoded is one of the bytes;
* `Utf8.head?_decode_iff`: an ASCII character comes first if its byte does;
* `Source.cut_encode_decode`: the lines of a decoded script;
* `Machine.run_eq_runText_decode`: running bytes is running the text that they stand for.
-/

namespace ChainMachine

namespace Utf8

theorem toNat_ofNat {n : Nat} (h : n.isValidChar) : (Char.ofNat n).toNat = n := by
  rw [Char.ofNat, dif_pos h]
  rfl

/-! ### Sequences -/

namespace Sequence

/-- The least code that a sequence can still come to. -/
def least (s : Sequence) : Nat := (s.bits * 64 + (s.low - 0x80)) * 64 ^ (s.missing - 1)

/-- The codes that a sequence can still come to are less than this. -/
def beyond (s : Sequence) : Nat := (s.bits * 64 + (s.high - 0x80) + 1) * 64 ^ (s.missing - 1)

/-- No ASCII byte continues the sequence, and it comes to the code of a character that is not
ASCII. -/
structure Proper (s : Sequence) : Prop where
  missing_pos : 0 < s.missing
  low_ge : 0x80 ≤ s.low
  high_le : s.high ≤ 0xBF
  least_ge : 0x80 ≤ s.least
  valid : s.beyond ≤ 0xD800 ∨ 0xE000 ≤ s.least ∧ s.beyond ≤ 0x110000

/-- A sequence that has just begun. -/
theorem proper_ofLead? {b : Nat} {s : Sequence} (h : ofLead? b = some s) : s.Proper := by
  -- the bounds of the codes are computed for each kind of first byte
  unfold ofLead? at h
  split at h
  · cases h
  split at h
  · cases h
    exact ⟨by simp, by simp, by simp, by simp [least]; omega, by simp [beyond]; omega⟩
  split at h
  · cases h
    exact ⟨by simp, by simp, by simp, by simp [least], by simp [beyond]⟩
  split at h
  · cases h
    exact ⟨by simp, by simp, by simp, by simp [least], by simp [beyond]⟩
  split at h
  · cases h
    exact ⟨by simp, by simp, by simp, by simp [least]; omega, by simp [least, beyond]; omega⟩
  split at h
  · cases h
    exact ⟨by simp, by simp, by simp, by simp [least], by simp [least, beyond]⟩
  split at h
  · cases h
    exact ⟨by simp, by simp, by simp, by simp [least]; omega, by simp [least, beyond]; omega⟩
  split at h
  · cases h
    exact ⟨by simp, by simp, by simp, by simp [least], by simp [least, beyond]⟩
  · cases h

/-- A byte in the middle of a sequence leaves one that comes to the same codes, or fewer. -/
theorem Proper.next {s : Sequence} (h : s.Proper) {b : Nat} (hl : s.low ≤ b) (hh : b ≤ s.high)
    (hm : 1 < s.missing) :
    Proper { bits := s.bits * 64 + b % 64, missing := s.missing - 1 } := by
  have hb : b % 64 = b - 0x80 := by have := h.low_ge; have := h.high_le; omega
  have hpow : 64 ^ (s.missing - 1) = 64 * 64 ^ (s.missing - 1 - 1) := by
    rw [← Nat.pow_succ', Nat.succ_eq_add_one, Nat.sub_add_cancel (by omega)]
  have hleast : s.least ≤ least { bits := s.bits * 64 + b % 64, missing := s.missing - 1 } := by
    simp only [least, hpow, ← Nat.mul_assoc]
    exact Nat.mul_le_mul_right _ (by omega)
  have hbeyond : beyond { bits := s.bits * 64 + b % 64, missing := s.missing - 1 } ≤ s.beyond := by
    simp only [beyond, hpow, ← Nat.mul_assoc]
    exact Nat.mul_le_mul_right _ (by omega)
  refine ⟨by dsimp only; omega, by simp, by simp, Nat.le_trans h.least_ge hleast, ?_⟩
  have := h.valid
  omega

/-- The last byte of a sequence makes the code of a character that is not ASCII. -/
theorem Proper.last {s : Sequence} (h : s.Proper) {b : Nat} (hl : s.low ≤ b) (hh : b ≤ s.high)
    (hm : s.missing ≤ 1) : 0x80 ≤ (Char.ofNat (s.bits * 64 + b % 64)).toNat := by
  have hb : b % 64 = b - 0x80 := by have := h.low_ge; have := h.high_le; omega
  have hleast := h.least_ge
  have hvalid := h.valid
  simp only [least, beyond, show s.missing - 1 = 0 by omega, Nat.pow_zero, Nat.mul_one]
    at hleast hvalid
  have hchar : (s.bits * 64 + b % 64).isValidChar := by
    unfold Nat.isValidChar
    omega
  rw [toNat_ofNat hchar]
  omega

end Sequence

/-! ### Bytes -/

namespace Decoder

/-- From one pending sequence to another the bytes are decoded to characters that do not depend on
earlier text. -/
structure Reads (p : Option Sequence) (bytes : List UInt8) (cs : List Char)
    (p' : Option Sequence) : Prop where
  foldl_eq : ∀ text, bytes.foldl feed { text, pending := p } =
    { text := text ++ String.ofList cs, pending := p' }
  proper : ∀ s ∈ p', s.Proper
  /-- Every ASCII character is one of the bytes. -/
  ascii : ∀ c ∈ cs, c.toNat < 0x80 → ∃ b ∈ bytes, b.toNat = c.toNat
  /-- No byte is lost. -/
  kept : bytes ≠ [] ∨ p ≠ none → cs ≠ [] ∨ p' ≠ none

namespace Reads

variable {p q r : Option Sequence} {xs ys : List UInt8} {cs ds : List Char}

theorem nil (hp : ∀ s ∈ p, s.Proper) : Reads p [] [] p where
  foldl_eq text := by simp
  proper := hp
  ascii := by simp
  kept := by simp

theorem append (h : Reads p xs cs q) (h' : Reads q ys ds r) :
    Reads p (xs ++ ys) (cs ++ ds) r where
  foldl_eq text := by
    rw [List.foldl_append, h.foldl_eq, h'.foldl_eq, String.ofList_append, String.append_assoc]
  proper := h'.proper
  ascii c hc hascii := by
    rcases List.mem_append.1 hc with hc | hc
    · obtain ⟨b, hb, heq⟩ := h.ascii c hc hascii
      exact ⟨b, List.mem_append_left _ hb, heq⟩
    · obtain ⟨b, hb, heq⟩ := h'.ascii c hc hascii
      exact ⟨b, List.mem_append_right _ hb, heq⟩
  kept hne := by
    have hq : (ys ≠ [] ∨ q ≠ none) ∨ cs ≠ [] := by
      by_cases hys : ys = []
      · rcases h.kept (by simpa [hys] using hne) with hcs | hq
        · exact .inr hcs
        · exact .inl (.inr hq)
      · exact .inl (.inl hys)
    rcases hq with hq | hcs
    · rcases h'.kept hq with hds | hr
      · exact .inl (by simp [hds])
      · exact .inr hr
    · exact .inl (by simp [hcs])

end Reads

theorem push_eq_append (text : String) (c : Char) : text.push c = text ++ String.ofList [c] := by
  simp

/-- A byte that does not go on with a sequence. -/
theorem exists_reads_begin (b : UInt8) : ∃ cs p, Reads none [b] cs p := by
  have hstep (text : String) : [b].foldl feed { text } = begin text b.toNat := rfl
  by_cases hb : b.toNat < 0x80
  · refine ⟨[Char.ofNat b.toNat], none, fun text => ?_, by simp, fun c hc _ => ?_, by simp⟩
    · rw [hstep, begin_of_lt text hb, push_eq_append]
    · rw [List.mem_singleton.1 hc, toNat_ofNat (.inl (by omega))]
      exact ⟨b, List.mem_singleton_self b, rfl⟩
  · cases hs : Sequence.ofLead? b.toNat with
    | none =>
      refine ⟨[replacement], none, fun text => ?_, by simp, fun c hc hascii => ?_, by simp⟩
      · simp only [hstep, begin, if_neg hb, hs, push_eq_append]
      · rw [List.mem_singleton.1 hc] at hascii
        exact absurd hascii (by decide)
    | some s =>
      refine ⟨[], some s, fun text => ?_, ?_, by simp, by simp⟩
      · rw [hstep, begin_of_lead text (by omega) hs, String.ofList_nil, String.append_empty]
      · rintro _ ⟨⟩
        exact Sequence.proper_ofLead? hs

theorem exists_reads_byte {p : Option Sequence} (hp : ∀ s ∈ p, s.Proper) (b : UInt8) :
    ∃ cs q, Reads p [b] cs q := by
  cases p with
  | none => exact exists_reads_begin b
  | some s =>
    have hs : s.Proper := hp s rfl
    by_cases hrange : s.low ≤ b.toNat ∧ b.toNat ≤ s.high
    · obtain ⟨hl, hh⟩ := hrange
      by_cases hm : s.missing ≤ 1
      · refine ⟨[Char.ofNat (s.bits * 64 + b.toNat % 64)], none, fun text => ?_, by simp,
          fun c hc hascii => ?_, by simp⟩
        · exact (step_last text hl hh hm).trans (by rw [push_eq_append])
        · rw [List.mem_singleton.1 hc] at hascii
          exact absurd hascii (Nat.not_lt.2 (hs.last hl hh hm))
      · refine ⟨[], some { bits := s.bits * 64 + b.toNat % 64, missing := s.missing - 1 },
          fun text => ?_, ?_, by simp, by simp⟩
        · rw [String.ofList_nil, String.append_empty]
          exact step_next text hl hh (by omega)
        · rintro _ ⟨⟩
          exact hs.next hl hh (by omega)
    · -- the sequence is given up, and the byte begins anew
      obtain ⟨cs, q, h⟩ := exists_reads_begin b
      refine ⟨replacement :: cs, q, fun text => ?_, h.proper, fun c hc hascii => ?_, by simp⟩
      · have hstep : [b].foldl feed { text, pending := some s } =
            [b].foldl feed { text := text.push replacement } := by
          simp [feed, step, hrange]
        rw [hstep, h.foldl_eq, push_eq_append, String.append_assoc, ← String.ofList_append]
        rfl
      · rcases List.mem_cons.1 hc with rfl | hc
        · exact absurd hascii (by decide)
        · exact h.ascii c hc hascii

theorem exists_reads {p : Option Sequence} (hp : ∀ s ∈ p, s.Proper) (bytes : List UInt8) :
    ∃ cs q, Reads p bytes cs q := by
  induction bytes generalizing p with
  | nil => exact ⟨[], p, .nil hp⟩
  | cons b bytes ih =>
    obtain ⟨cs, q, h⟩ := exists_reads_byte hp b
    obtain ⟨ds, r, h'⟩ := ih h.proper
    exact ⟨cs ++ ds, r, h.append h'⟩

/-- The characters that the end of the bytes adds. -/
def atEnd (p : Option Sequence) : List Char :=
  match p with
  | none => []
  | some _ => [replacement]

theorem finish_eq (text : String) (p : Option Sequence) :
    finish { text, pending := p } = text ++ String.ofList (atEnd p) := by
  cases p with
  | none => simp [finish, atEnd]
  | some s => exact push_eq_append text replacement

end Decoder

/-- What bytes are decoded to. -/
theorem exists_decode_eq (bytes : List UInt8) :
    ∃ cs p, Decoder.Reads none bytes cs p ∧
      decode bytes = String.ofList (cs ++ Decoder.atEnd p) := by
  obtain ⟨cs, p, h⟩ := Decoder.exists_reads (p := none) (by simp) bytes
  refine ⟨cs, p, h, ?_⟩
  rw [decode, h.foldl_eq, Decoder.finish_eq, String.ofList_append]
  simp

/-- Every ASCII character that is decoded is one of the bytes. -/
theorem exists_of_mem_decode {bytes : List UInt8} {c : Char} (hc : c ∈ (decode bytes).toList)
    (hascii : c.toNat < 0x80) : ∃ b ∈ bytes, b.toNat = c.toNat := by
  obtain ⟨cs, p, h, heq⟩ := exists_decode_eq bytes
  rw [heq, String.toList_ofList] at hc
  rcases List.mem_append.1 hc with hc | hc
  · exact h.ascii c hc hascii
  · cases p with
    | none => cases hc
    | some s =>
      rw [List.mem_singleton.1 hc] at hascii
      exact absurd hascii (by decide)

/-- Only nothing is decoded to nothing. -/
theorem decode_ne_empty {bytes : List UInt8} (hne : bytes ≠ []) : decode bytes ≠ "" := by
  obtain ⟨cs, p, h, heq⟩ := exists_decode_eq bytes
  rw [heq, Ne, ← String.toList_inj, String.toList_ofList]
  rcases h.kept (.inl hne) with hcs | hp
  · simp [hcs]
  · cases p with
    | none => exact absurd rfl hp
    | some s => simp [Decoder.atEnd]

/-- An ASCII byte stands for itself, whatever stands before it, and decoding begins anew behind
it. -/
theorem decode_append_cons {b : UInt8} (hb : b.toNat < 0x80) (xs ys : List UInt8) :
    decode (xs ++ b :: ys) = decode xs ++ String.singleton (Char.ofNat b.toNat) ++ decode ys := by
  obtain ⟨cs, p, hxs, hdecode⟩ := exists_decode_eq xs
  obtain ⟨ds, q, hys, hdecode'⟩ := exists_decode_eq ys
  -- an ASCII byte goes on with no sequence
  have hbyte (text : String) : Decoder.feed { text, pending := p } b =
      { text := text ++ String.ofList (Decoder.atEnd p) ++
          String.singleton (Char.ofNat b.toNat) } := by
    rw [← Decoder.finish_eq]
    cases p with
    | none => exact (Decoder.begin_of_lt _ hb).trans (by rw [Decoder.push_eq_append]; rfl)
    | some s =>
      have hlow := (hxs.proper s rfl).low_ge
      simp [Decoder.feed, Decoder.step, Decoder.begin_of_lt _ hb, Decoder.finish,
        show ¬s.low ≤ b.toNat by omega]
  rw [hdecode, hdecode', decode, List.foldl_append, hxs.foldl_eq, List.foldl_cons, hbyte,
    hys.foldl_eq, Decoder.finish_eq]
  simp [← String.toList_inj]

/-- An ASCII character is decoded first if its byte stands first, and only then. -/
theorem head?_decode_iff {b : UInt8} (hb : b.toNat < 0x80) {bytes : List UInt8} :
    (decode bytes).toList.head? = some (Char.ofNat b.toNat) ↔ bytes.head? = some b := by
  have hchar : (Char.ofNat b.toNat).toNat = b.toNat := toNat_ofNat (.inl (by omega))
  constructor
  · intro h
    have hmem {bytes : List UInt8}
        (h : (decode bytes).toList.head? = some (Char.ofNat b.toNat)) : b ∈ bytes := by
      obtain ⟨b', hb', heq⟩ := exists_of_mem_decode (List.mem_of_mem_head? h) (by omega)
      rwa [← UInt8.toNat_inj.1 (heq.trans hchar)]
    -- what stands before the byte would be decoded before it
    obtain ⟨before, after, rfl, hbefore⟩ := List.eq_append_cons_of_mem (hmem h)
    by_cases hnil : before = []
    · rw [hnil]
      rfl
    · have hchars : (decode before).toList ≠ [] := by
        simpa using decode_ne_empty hnil
      obtain ⟨c, cs, hcs⟩ := List.exists_cons_of_ne_nil hchars
      rw [decode_append_cons hb, String.append_assoc, String.toList_append, hcs] at h
      exact absurd (hmem (hcs ▸ h)) hbefore
  · intro h
    obtain ⟨rest, rfl⟩ := List.head?_eq_some_iff.1 h
    rw [show b :: rest = [] ++ b :: rest from rfl, decode_append_cons hb]
    simp

/-- The bytes of what is decoded have no ASCII byte that was not there before. -/
theorem exists_of_mem_encode_decode {bytes : List UInt8} {b : UInt8}
    (hb : b ∈ encode (decode bytes)) (hascii : b.toNat < 0x80) : b ∈ bytes := by
  rw [← String.ofList_toList (s := decode bytes), encode_ofList, List.mem_flatMap] at hb
  obtain ⟨c, hc, hb⟩ := hb
  rcases toNat_of_mem_encodeChar hb with heq | ⟨hge, -⟩
  · obtain ⟨b', hb', heq'⟩ := exists_of_mem_decode hc (by omega)
    rwa [← UInt8.toNat_inj.1 (heq'.trans heq.symm)]
  · omega

theorem encode_decode_ne_nil {bytes : List UInt8} (hne : bytes ≠ []) :
    encode (decode bytes) ≠ [] := by
  intro h
  exact decode_ne_empty hne (encode_injective (h.trans encode_empty.symm))

end Utf8

namespace Source

variable {source rest : Source}

/-- Only a reader that fails makes reading fail. -/
theorem failure_of_readLine_failed {text : String} (h : source.readLine = .failed text) :
    source.failure = some text := by
  rcases source.readLine_cases with ⟨line, rest, hread, -, -⟩ | ⟨-, hread⟩
  · rw [hread] at h
    cases h
  · rw [hread] at h
    cases hfailure : source.failure with
    | none => rw [hfailure] at h; cases h
    | some text' => rw [hfailure] at h; cases h; rfl

theorem failure_of_readLine_line {line : List UInt8} (h : source.readLine = .line line rest) :
    rest.failure = source.failure := by
  rcases source.readLine_cases with ⟨line', rest', hread, -, hfailure⟩ | ⟨-, hread⟩
  · rw [hread] at h
    cases h
    exact hfailure
  · rw [hread] at h
    cases hfailure : source.failure <;> rw [hfailure] at h <;> cases h

theorem encode_newline : Utf8.encode (String.singleton (Char.ofNat newline.toNat)) = [newline] := by
  decide

/-- A line that is not the last one is decoded up to its newline. -/
theorem encode_decode_append_newline (line rest : List UInt8) :
    Utf8.encode (Utf8.decode (line ++ newline :: rest)) =
      Utf8.encode (Utf8.decode line) ++ newline :: Utf8.encode (Utf8.decode rest) := by
  rw [Utf8.decode_append_cons (by decide), Utf8.encode_append, Utf8.encode_append, encode_newline,
    List.append_assoc, List.singleton_append]

theorem newline_notMem_encode_decode {line : List UInt8} (h : newline ∉ line) :
    newline ∉ Utf8.encode (Utf8.decode line) := fun hmem =>
  h (Utf8.exists_of_mem_encode_decode hmem (by decide))

/-- The lines of a decoded script are its lines, decoded one by one. -/
theorem cut_encode_decode (script : List UInt8) :
    cut (Utf8.encode (Utf8.decode script)) =
      (cut script).map fun line => Utf8.encode (Utf8.decode line) := by
  induction script using induction_lines with
  | last line hline =>
    by_cases hne : line = []
    · rw [hne]
      rfl
    · rw [cut_of_notMem (newline_notMem_encode_decode hline) (Utf8.encode_decode_ne_nil hne),
        cut_of_notMem hline hne]
      rfl
  | step line rest hline ih =>
    rw [encode_decode_append_newline, cut_append (newline_notMem_encode_decode hline), ih,
      cut_append hline, List.map_cons, encode_decode_append_newline]
    rfl

/-- Lines are decoded alike before and after the script has been decoded. -/
theorem numbered_encode_decode (number : Nat) (lines : List (List UInt8)) :
    numbered number (lines.map fun line => Utf8.encode (Utf8.decode line)) =
      numbered number lines := by
  induction lines generalizing number with
  | nil => rfl
  | cons line lines ih =>
    rw [List.map_cons, numbered_cons, numbered_cons, ih, Utf8.decode_encode]

end Source

namespace Machine

/-- Executing the lines of a script is executing those of its decoding. -/
theorem runFrom_encode_decode (m : Machine) (number : Nat) (script : List UInt8) (sink : Sink) :
    m.runFrom number { bytes := Utf8.encode (Utf8.decode script) } sink =
      m.runFrom number { bytes := script } sink := by
  rw [runFrom_eq_stepThrough, runFrom_eq_stepThrough]
  dsimp only [Source.lines]
  rw [Source.cut_encode_decode, Source.numbered_encode_decode]

/-- Running bytes is running the text that they stand for: the lines are decoded one by one, but
they are the lines of the decoded script.  Reading fails only when the reader does, whatever it
delivers, and scripts that are decoded alike run alike. -/
theorem run_eq_runText_decode (m : Machine) (script : List UInt8) (sink : Sink) :
    m.run { bytes := script } sink = m.runText (Utf8.decode script) sink ∧
    Source.cut (Utf8.encode (Utf8.decode script)) =
      (Source.cut script).map (fun line => Utf8.encode (Utf8.decode line)) ∧
    (∀ source : Source, (∀ text, source.readLine = .failed text → source.failure = some text) ∧
      ∀ line rest, source.readLine = .line line rest → rest.failure = source.failure) ∧
    ∀ other, Utf8.decode other = Utf8.decode script →
      m.run { bytes := other } sink = m.run { bytes := script } sink := by
  have hrun (script : List UInt8) :
      m.run { bytes := script } sink = m.runText (Utf8.decode script) sink := by
    rw [runText, run, run, runFrom_encode_decode]
  refine ⟨hrun script, Source.cut_encode_decode script, fun source => ⟨?_, ?_⟩,
    fun other hother => ?_⟩
  · exact fun text h => source.failure_of_readLine_failed h
  · exact fun line rest h => source.failure_of_readLine_line h
  · rw [hrun, hrun, hother]

/-- One line ends with the beginning of a longer sequence, and so does the script.  It runs like
the script that has a byte of no sequence in these places. -/
theorem run_eq_run_of_cut_short :
    ∃ (m : Machine) (script other : List UInt8) (o : Outcome Int32), script ≠ other ∧
      (Source.cut script).length = 3 ∧ m.run { bytes := script } {} = .ok o ∧
      o.result = .error (.unknownOpcode 3 "\uFFFD") ∧
      m.run { bytes := other } {} = .ok o := by
  let script := Utf8.encode "push 1 " ++ [0xE2, 0x82] ++ Utf8.encode "\npall\n" ++ [0xF0, 0x9F]
  let other := Utf8.encode "push 1 " ++ [0xFF] ++ Utf8.encode "\npall\n" ++ [0xC0]
  have heval : ((fresh {} .builtin).run { bytes := script } {}).map Outcome.result =
      .ok (.error (.unknownOpcode 3 "\uFFFD")) := by
    decide +kernel
  obtain ⟨o, ho, hresult⟩ := Checked.map_eq_ok_iff.1 heval
  obtain ⟨-, -, -, halike⟩ := run_eq_runText_decode (fresh {} .builtin) script {}
  have hother : Utf8.decode other = Utf8.decode script := by decide +kernel
  exact ⟨_, script, other, o, by decide, by decide, ho, hresult, (halike other hother).trans ho⟩

end Machine

end ChainMachine
