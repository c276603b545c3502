import ShortCircuit.Number.Binary64
import ShortCircuit.Text.Quoted
import ShortCircuit.Text.Utf8

/-!
# Constants of a function

The constants that code refers to, and how each is written in source.
-/

namespace ShortCircuit

/-- A constant: nil, a truth value, a number or a string of bytes. -/
inductive Literal where
  | nil
  | bool (value : Bool)
  | number (value : Binary64)
  | string (bytes : List UInt8)
deriving DecidableEq, Repr

namespace Literal

/-- The words that cannot be names. -/
def keywords : List String :=
  ["and", "break", "do", "else", "elseif", "end", "false", "for", "function", "if", "in",
   "local", "nil", "not", "or", "repeat", "return", "then", "true", "until", "while"]

/-- An ASCII letter or underscore. -/
def isNameStart (b : UInt8) : Bool :=
  (65 ≤ b.toNat && b.toNat ≤ 90) || (97 ≤ b.toNat && b.toNat ≤ 122) || b.toNat == 95

/-- A character that may follow in a name: also a digit. -/
def isNamePart (b : UInt8) : Bool := isNameStart b || (48 ≤ b.toNat && b.toNat ≤ 57)

/-- Whether bytes form a name: letters, digits and underscores, not starting with a digit, and
no keyword. -/
def isName : List UInt8 → Bool
  | [] => false
  | b :: rest =>
    isNameStart b && rest.all isNamePart
      && !keywords.contains (String.ofList ((b :: rest).map fun c => Char.ofNat c.toNat))

/-- The constant as source text. -/
def render : Literal → String
  | .nil => "nil"
  | .bool b => if b then "true" else "false"
  | .number x => x.text
  | .string bytes => Quoted.encode bytes

/-- A string constant as text. -/
def text? : Literal → Option String
  | .string bytes => some (Utf8.decode bytes)
  | _ => none

/-- Whether the constant is a string that can be written as a name. -/
def isIdentifier : Literal → Bool
  | .string bytes => isName bytes
  | _ => false

/-- The name that the constant can be written as. -/
def identifier? (l : Literal) : Option String := if l.isIdentifier then l.text? else none

end Literal

end ShortCircuit
