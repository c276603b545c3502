/-!
# Bytes as text

Strings of a chunk are bytes; names shown to a reader are text. Well-formed UTF-8 is decoded, and
each longest ill-formed piece that still begins a character becomes one replacement character.

* `Utf8.lead?` gives what a first byte asks of the bytes after it.
* `Utf8.decode` turns any bytes into text; `Utf8.encode` is the byte form of a text.
-/

namespace ShortCircuit.Utf8

/-- Stands for bytes that form no character. -/
def replacement : Char := '\uFFFD'

/-- What a first byte asks for: how many more bytes, the range of the next one, and the bits that
the first byte itself contributes. -/
structure Lead where
  owed : Nat
  low : Nat
  high : Nat
  bits : Nat
deriving DecidableEq, Repr

/-- The demands of a first byte; `none` for a byte that begins no character. -/
def lead? (b : Nat) : Option Lead :=
  if b < 0x80 then some ⟨0, 0x80, 0xBF, b⟩
  else if b < 0xC2 then none
  else if b < 0xE0 then some ⟨1, 0x80, 0xBF, b - 0xC0⟩
  else if b = 0xE0 then some ⟨2, 0xA0, 0xBF, 0⟩
  else if b = 0xED then some ⟨2, 0x80, 0x9F, 0xD⟩
  else if b < 0xF0 then some ⟨2, 0x80, 0xBF, b - 0xE0⟩
  else if b = 0xF0 then some ⟨3, 0x90, 0xBF, 0⟩
  else if b < 0xF4 then some ⟨3, 0x80, 0xBF, b - 0xF0⟩
  else if b = 0xF4 then some ⟨3, 0x80, 0x8F, 4⟩
  else none

/-- Collects the bytes owed to a first byte. Gives the code point, or `none` at the first byte out
of range, and the bytes not used. -/
def tail (lead : Lead) : List UInt8 → Option Nat × List UInt8
  | [] => if lead.owed = 0 then (some lead.bits, []) else (none, [])
  | b :: rest =>
    if lead.owed = 0 then (some lead.bits, b :: rest)
    else if lead.low ≤ b.toNat ∧ b.toNat ≤ lead.high then
      tail ⟨lead.owed - 1, 0x80, 0xBF, lead.bits * 64 + b.toNat % 64⟩ rest
    else (none, b :: rest)

theorem length_tail_le (lead : Lead) (bytes : List UInt8) :
    (tail lead bytes).2.length ≤ bytes.length := by
  induction bytes generalizing lead with
  | nil => unfold tail; split <;> simp
  | cons b rest ih =>
    unfold tail
    split
    · simp
    · split
      · exact Nat.le_succ_of_le (ih _)
      · simp

/-- Decodes bytes into characters, with the replacement character for what is ill-formed. -/
def decodeChars : List UInt8 → List Char
  | [] => []
  | b :: rest =>
    match lead? b.toNat with
    | none => replacement :: decodeChars rest
    | some lead =>
      let read := tail lead rest
      (match read.1 with
        | none => replacement
        | some point => Char.ofNat point) :: decodeChars read.2
termination_by bytes => bytes.length
decreasing_by
  · simp
  · exact Nat.lt_succ_of_le (length_tail_le _ _)

/-- Decodes bytes into text. -/
def decode (bytes : List UInt8) : String := String.ofList (decodeChars bytes)

/-- The bytes of a text. -/
def encode (s : String) : List UInt8 := s.toList.flatMap String.utf8EncodeChar

end ShortCircuit.Utf8
