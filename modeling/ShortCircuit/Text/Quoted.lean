/-!
# Quoted strings

A byte string as a double-quoted literal. Printable characters stand for themselves, quotes and
backslashes are escaped, and line breaks and tabs have letters; any other byte is a backslash and
its decimal number without padding.

* `Quoted.encode` writes a literal.
* `Quoted.decode?` reads one by the rules of the language: a decimal escape takes up to three
  digits, as many as there are.
-/

namespace ShortCircuit.Quoted

/-- The characters that stand for one byte inside a literal. -/
def escape (b : UInt8) : List Char :=
  if b = 34 then ['\\', '"']
  else if b = 92 then ['\\', '\\']
  else if b = 10 then ['\\', 'n']
  else if b = 13 then ['\\', 'r']
  else if b = 9 then ['\\', 't']
  else if 32 ≤ b.toNat ∧ b.toNat ≤ 126 then [Char.ofNat b.toNat]
  else '\\' :: Nat.toDigits 10 b.toNat

/-- The characters of the literal for a byte string. -/
def encodeChars (bytes : List UInt8) : List Char :=
  '"' :: (bytes.flatMap escape ++ ['"'])

/-- The literal for a byte string. -/
def encode (bytes : List UInt8) : String := String.ofList (encodeChars bytes)

/-- The byte named by a letter escape. -/
def letter? (c : Char) : Option UInt8 :=
  if c = 'n' then some 10
  else if c = 'r' then some 13
  else if c = 't' then some 9
  else if c = '"' then some 34
  else if c = '\\' then some 92
  else none

/-- The digits at the front of a text, at most three, and what follows them. -/
def digitRun (cs : List Char) : List Char × List Char :=
  let run := (cs.take 3).takeWhile Char.isDigit
  (run, cs.drop run.length)

/-- The number that decimal digits stand for. -/
def digitsValue (digits : List Char) : Nat :=
  digits.foldl (fun n d => 10 * n + (d.toNat - 48)) 0

theorem length_drop_digitRun_le (cs : List Char) : (digitRun cs).2.length ≤ cs.length := by
  simp [digitRun]

/-- Reads the inside of a literal up to the closing quote, which must end the text. -/
def decodeBody : List Char → Option (List UInt8)
  | [] => none
  | '"' :: rest => if rest.isEmpty then some [] else none
  | '\\' :: c :: rest =>
    match letter? c with
    | some b => (decodeBody rest).map (b :: ·)
    | none =>
      if c.isDigit then
        let run := digitRun (c :: rest)
        let n := digitsValue run.1
        if n < 256 then (decodeBody run.2).map (UInt8.ofNat n :: ·) else none
      else none
  | c :: rest =>
    if c = '\\' then none else (decodeBody rest).map (UInt8.ofNat c.toNat :: ·)
termination_by cs => cs.length
decreasing_by
  · simp only [List.length_cons]
    omega
  · have h := length_drop_digitRun_le (c :: rest)
    simp only [List.length_cons] at h ⊢
    omega
  · simp only [List.length_cons]
    omega

/-- Reads a whole literal. -/
def decode? (literal : String) : Option (List UInt8) :=
  match literal.toList with
  | '"' :: body => decodeBody body
  | _ => none

end ShortCircuit.Quoted
