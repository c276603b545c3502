import ShortCircuit.Instruction.Basic

/-!
# Instruction words

The layout of an instruction in 32 bits, from the low end: six bits opcode, eight bits `A`,
nine bits `C`, nine bits `B`; `Bx` covers the eighteen bits of `C` and `B`. Fields are read and
placed by division and remainder, so facts about them are facts of linear arithmetic.

* `Instruction.decode?` reads a word, `Instruction.encode` writes one.
* `Instruction.decodeList` reads a list and reports the position of the first bad word.
-/

namespace ShortCircuit.Instruction

/-- Reads a word; `none` when its low six bits name no opcode. -/
def decode? (word : UInt32) : Option Instruction :=
  (Opcode.ofCode? (word.toNat % 64)).map fun op =>
    { op
      a := UInt8.ofNat (word.toNat / 64 % 256)
      b := UInt16.ofNat (word.toNat / 8388608 % 512)
      c := UInt16.ofNat (word.toNat / 16384 % 512)
      bx := UInt32.ofNat (word.toNat / 16384) }

/-- Writes a word; bits of a field that lie outside the word are lost. -/
def encode (i : Instruction) : UInt32 :=
  if i.op.isWide then
    UInt32.ofNat (i.op.code + 64 * i.a.toNat + 16384 * i.bx.toNat)
  else
    UInt32.ofNat
      (i.op.code + 64 * i.a.toNat + 16384 * (i.c.toNat % 512) + 8388608 * (i.b.toNat % 512))

/-- Reads words numbered from `pc`. -/
def decodeFrom (pc : Nat) : List UInt32 → Except Nat (List Instruction)
  | [] => .ok []
  | word :: words =>
    match decode? word with
    | none => .error pc
    | some i => (decodeFrom (pc + 1) words).map (i :: ·)

/-- Reads a list of words, or gives the position of the first one without an opcode. -/
def decodeList (words : List UInt32) : Except Nat (List Instruction) := decodeFrom 0 words

end ShortCircuit.Instruction
