/-!
# UTF-8

Text as bytes, and bytes of any kind as text.  Bytes that are not UTF-8 are
decoded too: each longest beginning of a well-formed sequence that cannot be
continued, and each byte that begins none, becomes one replacement character.

* `Utf8.encode`: the bytes of a text;
* `Utf8.Sequence`: a sequence of which some continuation bytes are missing;
* `Utf8.Decoder`, `Utf8.Decoder.feed`, `Utf8.Decoder.finish`: decoding byte by byte;
* `Utf8.decode`: the text that bytes stand for.
-/

namespace ChainMachine.Utf8

/-- The bytes of a text. -/
def encode (text : String) : List UInt8 := text.toByteArray.data.toList

@[simp] theorem encode_empty : encode "" = [] := rfl

@[simp] theorem encode_append (s t : String) : encode (s ++ t) = encode s ++ encode t := by
  simp [encode, String.toByteArray_append]

/-- The character that stands for bytes that are not UTF-8. -/
def replacement : Char := '\uFFFD'

/-- A sequence of which some continuation bytes are missing: the bits read so far, how
many bytes are still to come, and the range the next one has to be in. -/
structure Sequence where
  bits : Nat
  missing : Nat
  low : Nat := 0x80
  high : Nat := 0xBF
  deriving DecidableEq, Repr

/-- The sequence that a byte above the ASCII range begins.  The range of the second byte
leaves out longer forms of shorter sequences, surrogates and everything past U+10FFFF. -/
def Sequence.ofLead? (b : Nat) : Option Sequence :=
  if b < 0xC2 then none
  else if b < 0xE0 then some { bits := b % 32, missing := 1 }
  else if b = 0xE0 then some { bits := 0, missing := 2, low := 0xA0 }
  else if b = 0xED then some { bits := 13, missing := 2, high := 0x9F }
  else if b < 0xF0 then some { bits := b % 16, missing := 2 }
  else if b = 0xF0 then some { bits := 0, missing := 3, low := 0x90 }
  else if b < 0xF4 then some { bits := b % 8, missing := 3 }
  else if b = 0xF4 then some { bits := 4, missing := 3, high := 0x8F }
  else none

/-- The text decoded so far, and the sequence that is being read. -/
structure Decoder where
  text : String := ""
  pending : Option Sequence := none
  deriving DecidableEq, Repr

namespace Decoder

/-- Read a byte that begins a sequence or stands for a character of its own. -/
def begin (text : String) (b : Nat) : Decoder :=
  if b < 0x80 then { text := text.push (Char.ofNat b) }
  else match Sequence.ofLead? b with
    | some sequence => { text, pending := some sequence }
    | none => { text := text.push replacement }

/-- Read one byte, given as a number.  A byte that does not continue the pending sequence ends
it, and begins anew after its replacement character. -/
def step (d : Decoder) (b : Nat) : Decoder :=
  match d.pending with
  | none => begin d.text b
  | some s =>
    if s.low ≤ b ∧ b ≤ s.high then
      let bits := s.bits * 64 + b % 64
      if s.missing ≤ 1 then { text := d.text.push (Char.ofNat bits) }
      else { text := d.text, pending := some { bits, missing := s.missing - 1 } }
    else begin (d.text.push replacement) b

/-- Read one byte. -/
def feed (d : Decoder) (b : UInt8) : Decoder := d.step b.toNat

/-- The text at the end of the bytes: a sequence cut short is replaced as well. -/
def finish (d : Decoder) : String :=
  match d.pending with
  | none => d.text
  | some _ => d.text.push replacement

end Decoder

/-- The text that bytes stand for. -/
def decode (bytes : List UInt8) : String :=
  (bytes.foldl Decoder.feed {}).finish

@[simp] theorem decode_nil : decode [] = "" := rfl

end ChainMachine.Utf8
