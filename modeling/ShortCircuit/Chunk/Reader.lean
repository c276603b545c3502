/-!
# Reading bytes

A reader takes a value from the front of a byte string and leaves the rest, or fails with the
cause and the bytes that were unread at the failing step.

* `Reader.take` reads an exact number of bytes, `Reader.natural` a little-endian number.
* `Reader.many` and `Reader.listOf` read counted lists.
-/

namespace ShortCircuit

/-- Why reading stopped. -/
inductive ReadCause where
  | truncated
  | badTag
  | badOpcode
deriving DecidableEq, Repr

/-- A failed reading step: its cause and the bytes unread before it. -/
structure Malformed where
  cause : ReadCause
  unread : List UInt8
deriving DecidableEq, Repr

/-- Takes a value from the front of a byte string. -/
abbrev Reader := StateT (List UInt8) (Except Malformed)

namespace Reader

/-- Splits off exactly `n` bytes. -/
def split? : Nat → List UInt8 → Option (List UInt8 × List UInt8)
  | 0, bytes => some ([], bytes)
  | _ + 1, [] => none
  | n + 1, b :: bytes =>
    match split? n bytes with
    | none => none
    | some (taken, rest) => some (b :: taken, rest)

/-- Fails with the bytes that are still unread. -/
def fail {α : Type} (cause : ReadCause) : Reader α := fun bytes => .error ⟨cause, bytes⟩

/-- Reads exactly `n` bytes. -/
def take (n : Nat) : Reader (List UInt8) := fun bytes =>
  match split? n bytes with
  | some taken => .ok taken
  | none => .error ⟨.truncated, bytes⟩

/-- The number whose little-endian digits to base 256 are the bytes. -/
def littleEndian : List UInt8 → Nat
  | [] => 0
  | b :: bytes => b.toNat + 256 * littleEndian bytes

/-- Reads a little-endian number of `n` bytes. -/
def natural (n : Nat) : Reader Nat := littleEndian <$> take n

/-- Reads one byte. -/
def byte : Reader UInt8 := UInt8.ofNat <$> natural 1

/-- Reads `n` values one after the other. -/
def many {α : Type} (item : Reader α) : Nat → Reader (List α)
  | 0 => pure []
  | n + 1 => do
    let x ← item
    let xs ← many item n
    return x :: xs

/-- Reads a list that starts with its length in four bytes. -/
def listOf {α : Type} (item : Reader α) : Reader (List α) := do
  let n ← natural 4
  many item n

end Reader

end ShortCircuit
