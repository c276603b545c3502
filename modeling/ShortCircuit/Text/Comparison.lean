import ShortCircuit.Formula.Operator

/-!
# Comparisons as text

Conditions are carried as rendered text. This module finds the comparison operator at the top level
of such a text, exchanges its operands, and negates the text. Operators inside brackets or string
literals do not count, and an operator stands between single spaces.

* `Comparison.split?` cuts a text at its operator.
* `Comparison.swap` exchanges the operands, `Comparison.negate` negates the text.
-/

namespace ShortCircuit.Comparison

/-- An opening bracket of any kind. -/
def isOpening (c : Char) : Bool := c == '(' || c == '[' || c == '\x7b'

/-- A closing bracket of any kind. -/
def isClosing (c : Char) : Bool := c == ')' || c == ']' || c == '\x7d'

/-- A quote that opens a string literal. -/
def isQuote (c : Char) : Bool := c == '"' || c == '\''

/-- The operator and space at the front of `cs`, with what follows; two-character operators are
tried first. -/
def operator? (cs : List Char) : Option (Comparator × List Char) :=
  Comparator.all.findSome? fun op =>
    let token := op.symbol.toList ++ [' ']
    if token.isPrefixOf cs then some (op, cs.drop token.length) else none

/-- The two sides of a comparison and the operator between them. -/
structure Split where
  left : List Char
  op : Comparator
  right : List Char
deriving DecidableEq, Repr

/-- The split of a text that has one more character in front. -/
def Split.cons (c : Char) (s : Split) : Split := { s with left := c :: s.left }

/-- Scans for the operator. `quote` is the quote of the literal that is open, `depth` the number of
open brackets; a closing bracket without an opening one is passed over. -/
def scan (quote : Option Char) (depth : Nat) : List Char → Option Split
  | [] => none
  | c :: rest =>
    match quote with
    | some q =>
      if c = '\\' then
        match rest with
        | [] => none
        | e :: rest => (scan (some q) depth rest).map fun s => (s.cons e).cons c
      else (scan (if c = q then none else some q) depth rest).map (Split.cons c)
    | none =>
      if isQuote c then (scan (some c) depth rest).map (Split.cons c)
      else if isOpening c then (scan none (depth + 1) rest).map (Split.cons c)
      else if isClosing c then (scan none (depth - 1) rest).map (Split.cons c)
      else if c = ' ' ∧ depth = 0 then
        match operator? rest with
        | some (op, right) => some ⟨[], op, right⟩
        | none => (scan none depth rest).map (Split.cons c)
      else (scan none depth rest).map (Split.cons c)

/-- Cuts a text at its first top-level comparison operator. -/
def split? (text : String) : Option Split := scan none 0 text.toList

/-- The text of a comparison. -/
def Split.text (s : Split) : String :=
  String.ofList s.left ++ " " ++ s.op.symbol ++ " " ++ String.ofList s.right

/-- Exchanges the operands of a comparison and keeps its meaning; other text stays as it is. -/
def swap (text : String) : String :=
  match split? text with
  | some s => Split.text ⟨s.right, s.op.swap, s.left⟩
  | none => text

/-- Whether round brackets close in order, starting with `depth` open ones. -/
def isBalancedFrom (depth : Nat) : List Char → Bool
  | [] => depth == 0
  | c :: rest =>
    if c = '(' then isBalancedFrom (depth + 1) rest
    else if c = ')' then
      match depth with
      | 0 => false
      | d + 1 => isBalancedFrom d rest
    else isBalancedFrom depth rest

/-- Whether round brackets are balanced; other brackets and quotes do not count. -/
def isBalanced (cs : List Char) : Bool := isBalancedFrom 0 cs

/-- The inside of `not(...)` when its brackets are balanced. -/
def negand? (cs : List Char) : Option (List Char) :=
  let opening := ['n', 'o', 't', '(']
  if opening.isPrefixOf cs then
    let body := cs.drop opening.length
    if body.getLast? = some ')' ∧ isBalanced body.dropLast then some body.dropLast else none
  else none

/-- Negates a text: a comparison gets the opposite operator, `not(...)` is taken off, and any other
text is put into `not(...)`. -/
def negate (text : String) : String :=
  match split? text with
  | some s => Split.text { s with op := s.op.negate }
  | none =>
    match negand? text.toList with
    | some inner => String.ofList inner
    | none => "not(" ++ text ++ ")"

end ShortCircuit.Comparison
