import ShortCircuit.Formula.Operator
import Mathlib.Tactic.Common

/-!
# Reading expressions

Expressions of the source language over atoms of any kind: operators in front of and between their
operands, brackets, and the suffixes for fields, methods, elements and calls. A grammar says which
tokens stand for which expression, and a parser that goes through the tokens once, with a stack of
what waits for a right operand, decides it.

* `Level`: how tightly the parts of an expression bind.
* `BinaryOperator.level`, `BinaryOperator.leftLeast`, `BinaryOperator.rightLeast`: how tightly an
  operator binds, and how tightly its operands have to.
* `Expression.Reads`: the tokens of an expression, by level.
* `Expression.parse`: the expression of a list of tokens.
* `Expression.parse_eq_some_iff`: the parser gives exactly the expression of the grammar, so there
  is at most one.
-/

namespace ShortCircuit

namespace Level

/-- Arguments with commas between them. -/
def arguments : Nat := 0
/-- Every other expression; `or` binds weakest. -/
def or : Nat := 1
/-- Operations of `and`. -/
def and : Nat := 2
/-- Comparisons. -/
def comparison : Nat := 3
/-- Operations of `..`. -/
def concat : Nat := 4
/-- Sums and differences. -/
def sum : Nat := 5
/-- Products, quotients and remainders. -/
def product : Nat := 6
/-- Operations of `not`, `-` and `#` on one operand. -/
def unary : Nat := 7
/-- Powers. -/
def power : Nat := 8
/-- Calls, fields, methods and elements. -/
def suffix : Nat := 9
/-- Atoms and expressions in brackets. -/
def atom : Nat := 10

end Level

/-- An operator in front of its operand. -/
inductive UnaryOperator where
  | minus | not | length
deriving DecidableEq, Repr

/-- An operator between its operands. The comma stands between the arguments of a call. -/
inductive BinaryOperator where
  | comma
  | logic (op : Connective)
  | compare (op : Comparator)
  | concat
  | add | sub | mul | div | mod | pow
deriving DecidableEq, Repr

namespace BinaryOperator

/-- The operator as written. -/
def symbol : BinaryOperator → String
  | .comma => ","
  | .logic .or => "or"
  | .logic .and => "and"
  | .compare .eq => "=="
  | .compare .ne => "~="
  | .compare .le => "<="
  | .compare .ge => ">="
  | .compare .lt => "<"
  | .compare .gt => ">"
  | .concat => ".."
  | .add => "+"
  | .sub => "-"
  | .mul => "*"
  | .div => "/"
  | .mod => "%"
  | .pow => "^"

/-- How tightly an operator binds. -/
def level : BinaryOperator → Nat
  | .comma => Level.arguments
  | .logic .or => Level.or
  | .logic .and => Level.and
  | .compare _ => Level.comparison
  | .concat => Level.concat
  | .add | .sub => Level.sum
  | .mul | .div | .mod => Level.product
  | .pow => Level.power

/-- Whether a chain of the operator is nested to the right. -/
def associatesRight : BinaryOperator → Bool
  | .concat | .pow => true
  | _ => false

/-- The least level of a left operand. -/
def leftLeast (op : BinaryOperator) : Nat :=
  if op.associatesRight then op.level + 1 else op.level

/-- The least level of a right operand. A unary operator may stand to the right of any operator,
also of a power. -/
def rightLeast (op : BinaryOperator) : Nat :=
  if op.associatesRight then min op.level Level.unary else op.level + 1

/-- The levels of operators that nest to the right are apart from the others. -/
theorem level_cases (op : BinaryOperator) :
    op.associatesRight = true ∧ (op.level = 4 ∨ op.level = 8) ∨
      op.associatesRight = false ∧ op.level ≠ 4 ∧ op.level ≤ 6 := by
  cases op with
  | logic c => cases c <;> decide
  | compare c => cases c <;> decide
  | _ => decide

theorem rightLeast_pos (op : BinaryOperator) : 0 < op.rightLeast := by
  unfold rightLeast Level.unary
  rcases op.level_cases with ⟨h, hl⟩ | ⟨h, hl⟩ <;> rw [h] <;> grind

theorem rightLeast_le_unary (op : BinaryOperator) : op.rightLeast ≤ Level.unary := by
  unfold rightLeast Level.unary
  rcases op.level_cases with ⟨h, hl⟩ | ⟨h, hl⟩ <;> rw [h] <;> grind

theorem level_le_power (op : BinaryOperator) : op.level ≤ Level.power := by
  unfold Level.power
  rcases op.level_cases with ⟨-, hl⟩ | ⟨-, hl⟩ <;> omega

theorem leftLeast_le_suffix (op : BinaryOperator) : op.leftLeast ≤ Level.suffix := by
  unfold leftLeast Level.suffix
  rcases op.level_cases with ⟨h, hl⟩ | ⟨h, hl⟩ <;> rw [h] <;> grind

theorem level_le_leftLeast (op : BinaryOperator) : op.level ≤ op.leftLeast := by
  unfold leftLeast
  split_ifs <;> omega

/-- An operator that does not belong to the operand of a unary operator can have the operation on
its left. -/
theorem leftLeast_le_unary {op : BinaryOperator} (h : op.level < Level.unary) :
    op.leftLeast ≤ Level.unary := by
  unfold leftLeast
  split_ifs <;> omega

/-- An operator that does not belong to the right operand of another can have the operation of the
other on its left. -/
theorem leftLeast_le_level {op other : BinaryOperator} (h : op.level < other.rightLeast) :
    op.leftLeast ≤ other.level := by
  unfold rightLeast Level.unary at h
  unfold leftLeast
  rcases op.level_cases with ⟨ho, hl⟩ | ⟨ho, hl⟩ <;>
    rcases other.level_cases with ⟨ho', hl'⟩ | ⟨ho', hl'⟩ <;>
    simp only [ho, ho', if_true, if_false, Bool.false_eq_true] at h ⊢ <;> omega

end BinaryOperator

/-- Brackets: round ones group an expression or hold arguments, square ones hold a key. -/
inductive Bracket where
  | round | square
deriving DecidableEq, Repr

/-- A suffix without an expression inside. -/
inductive Selection where
  | field (name : String)
  | method (name : String)
  | invoke
deriving DecidableEq, Repr

/-- An expression. `apply` is a call with arguments or the element under a key. -/
inductive Expression (α : Type) where
  | atom (a : α)
  | unary (op : UnaryOperator) (e : Expression α)
  | binary (op : BinaryOperator) (left right : Expression α)
  | select (e : Expression α) (s : Selection)
  | apply (b : Bracket) (e argument : Expression α)
deriving DecidableEq, Repr

/-- A token. The minus sign is always the binary one. -/
inductive Token (α : Type) where
  | atom (a : α)
  | binary (op : BinaryOperator)
  | not
  | length
  | member (name : String)
  | method (name : String)
  | opening (b : Bracket)
  | closing (b : Bracket)
deriving DecidableEq, Repr

/-- The token of an operator in front of its operand. -/
def UnaryOperator.token {α : Type} : UnaryOperator → Token α
  | .minus => .binary .sub
  | .not => .not
  | .length => .length

/-- The tokens of a suffix. -/
def Selection.tokens {α : Type} : Selection → List (Token α)
  | .field name => [.member name]
  | .method name => [.method name]
  | .invoke => [.opening .round, .closing .round]

/-- The least level of what stands in the brackets of a suffix: commas separate arguments. -/
def Bracket.least : Bracket → Nat
  | .round => Level.arguments
  | .square => Level.or

namespace Expression

variable {α : Type}

/-! ## The grammar -/

/-- The tokens stand for the expression, whose outermost operator binds at least as tightly as the
level says. -/
inductive Reads : Nat → List (Token α) → Expression α → Prop
  | atom (a : α) : Reads Level.atom [.atom a] (.atom a)
  | group {ts : List (Token α)} {e : Expression α} (h : Reads Level.or ts e) :
      Reads Level.atom (.opening .round :: (ts ++ [.closing .round])) e
  | select {ts : List (Token α)} {e : Expression α} (h : Reads Level.suffix ts e)
      (s : Selection) : Reads Level.suffix (ts ++ s.tokens) (.select e s)
  | apply {ts us : List (Token α)} {e x : Expression α} (b : Bracket)
      (h : Reads Level.suffix ts e) (hx : Reads b.least us x) :
      Reads Level.suffix (ts ++ .opening b :: (us ++ [.closing b])) (.apply b e x)
  | unary {ts : List (Token α)} {e : Expression α} (op : UnaryOperator)
      (h : Reads Level.unary ts e) : Reads Level.unary (op.token :: ts) (.unary op e)
  | binary {ts us : List (Token α)} {x y : Expression α} (op : BinaryOperator)
      (hx : Reads op.leftLeast ts x) (hy : Reads op.rightLeast us y) :
      Reads op.level (ts ++ .binary op :: us) (.binary op x y)
  | weaken {p q : Nat} {ts : List (Token α)} {e : Expression α} (h : Reads q ts e)
      (hle : p ≤ q) : Reads p ts e

/-! ## The parser -/

/-- What waits for an expression to its right: an open bracket, or an operator. -/
inductive Pending (α : Type) where
  | group
  | enter (b : Bracket) (e : Expression α)
  | unary (op : UnaryOperator)
  | binary (left : Expression α) (op : BinaryOperator)
deriving DecidableEq, Repr

/-- The least level of the operators that belong to the awaited expression. -/
def Pending.least : Pending α → Nat
  | .group => Level.or
  | .enter b _ => b.least
  | .unary _ => Level.unary
  | .binary _ op => op.rightLeast

/-- The least level of the operators that belong to the expression awaited by a stack. -/
def least : List (Pending α) → Nat
  | [] => Level.or
  | p :: _ => p.least

/-- Completes the operations on top of a stack that an operator of some level does not belong to. -/
def settle (level : Nat) (e : Expression α) :
    List (Pending α) → Expression α × List (Pending α)
  | .unary op :: stack =>
    if level < Level.unary then settle level (.unary op e) stack else (e, .unary op :: stack)
  | .binary left op :: stack =>
    if level < op.rightLeast then settle level (.binary op left e) stack
    else (e, .binary left op :: stack)
  | stack => (e, stack)

mutual

/-- Reads on where an operand has to stand. A call may have no arguments. -/
def operand (stack : List (Pending α)) : List (Token α) → Option (Expression α)
  | .atom a :: ts => operator stack (.atom a) ts
  | .opening .round :: ts => operand (.group :: stack) ts
  | .binary .sub :: ts => operand (.unary .minus :: stack) ts
  | .not :: ts => operand (.unary .not :: stack) ts
  | .length :: ts => operand (.unary .length :: stack) ts
  | .closing .round :: ts =>
    match stack with
    | .enter .round e :: stack => operator stack (.select e .invoke) ts
    | _ => none
  | _ => none

/-- Reads on behind an operand. -/
def operator (stack : List (Pending α)) (e : Expression α) :
    List (Token α) → Option (Expression α)
  | [] =>
    match settle 0 e stack with
    | (e, []) => some e
    | _ => none
  | .binary op :: ts =>
    let (e, stack) := settle op.level e stack
    if least stack ≤ op.level then operand (.binary e op :: stack) ts else none
  | .member name :: ts => operator stack (.select e (.field name)) ts
  | .method name :: ts => operator stack (.select e (.method name)) ts
  | .opening b :: ts => operand (.enter b e :: stack) ts
  | .closing b :: ts =>
    match settle 0 e stack with
    | (x, .enter b' e :: stack) => if b' = b then operator stack (.apply b e x) ts else none
    | (x, .group :: stack) => if b = .round then operator stack x ts else none
    | _ => none
  | _ => none

end

/-- The expression of a list of tokens. -/
def parse (ts : List (Token α)) : Option (Expression α) := operand [] ts

/-! ## The parser finds what the grammar allows -/

/-- Whether tokens end an operand that has to have some level: the text is over, a bracket closes,
or an operator follows that does not belong to the operand. -/
def Ends (level : Nat) : List (Token α) → Prop
  | [] => True
  | .closing _ :: _ => True
  | .binary op :: _ => op.level < level
  | _ => False

/-- An operator below this level does not belong to any operation that ends an expression of level
`p`. -/
def bound (p : Nat) : Nat :=
  if p = Level.concat then Level.concat else min (p + 1) Level.unary

/-- What may follow an expression of level `p`: anything follows a name, brackets and suffixes. -/
def Follows (p : Nat) (rest : List (Token α)) : Prop := Level.power < p ∨ Ends (bound p) rest

theorem Ends.mono {m n : Nat} (hle : m ≤ n) : ∀ {rest : List (Token α)}, Ends m rest → Ends n rest
  | [], _ => trivial
  | .closing _ :: _, _ => trivial
  | .binary _ :: _, h => Nat.lt_of_lt_of_le h hle

theorem Follows.mono {p q : Nat} (hle : p ≤ q) {rest : List (Token α)} (h : Follows p rest) :
    Follows q rest := by
  by_cases hq : Level.power < q
  · exact .inl hq
  · refine .inr ((h.resolve_left fun hp => hq (Nat.lt_of_lt_of_le hp hle)).mono ?_)
    unfold bound Level.unary Level.concat
    unfold Level.power at hq
    split_ifs <;> omega

theorem follows_left (op : BinaryOperator) (rest : List (Token α)) :
    Follows op.leftLeast (.binary op :: rest) := by
  unfold Follows Ends bound BinaryOperator.leftLeast
  rcases op.level_cases with ⟨h, hl | hl⟩ | ⟨h, hl⟩ <;> simp only [h] <;> grind [Level.power,
    Level.concat, Level.unary]

theorem bound_level (op : BinaryOperator) : bound op.level = op.rightLeast := by
  unfold bound BinaryOperator.rightLeast
  rcases op.level_cases with ⟨h, hl | hl⟩ | ⟨h, hl⟩ <;> simp only [h] <;> grind [Level.power,
    Level.concat, Level.unary]

theorem le_bound {p : Nat} (h : p ≤ Level.unary) : p ≤ bound p := by
  unfold bound
  split_ifs with hp
  · exact Nat.le_of_eq hp
  · exact Nat.le_min.2 ⟨Nat.le_succ p, h⟩

/-- What follows an operation follows its right operand. -/
theorem Follows.right {op : BinaryOperator} {rest : List (Token α)} (h : Follows op.level rest) :
    Ends op.rightLeast rest ∧ Follows op.rightLeast rest := by
  have hends := h.resolve_left (Nat.not_lt.2 op.level_le_power)
  rw [bound_level] at hends
  exact ⟨hends, .inr (hends.mono (le_bound op.rightLeast_le_unary))⟩

theorem Ends.operator_unary {rest : List (Token α)} (h : Ends Level.unary rest)
    (op : UnaryOperator) (stack : List (Pending α)) (e : Expression α) :
    operator (.unary op :: stack) e rest = operator stack (.unary op e) rest := by
  unfold Ends at h
  split at h
  · simp [operator, settle, Level.unary]
  · simp [operator, settle, Level.unary]
  · simp [operator, settle, h]
  · exact h.elim

theorem Ends.operator_binary {op : BinaryOperator} {rest : List (Token α)}
    (h : Ends op.rightLeast rest) (left : Expression α) (stack : List (Pending α))
    (e : Expression α) :
    operator (.binary left op :: stack) e rest = operator stack (.binary op left e) rest := by
  unfold Ends at h
  split at h
  · simp [operator, settle, op.rightLeast_pos]
  · simp [operator, settle, op.rightLeast_pos]
  · simp [operator, settle, h]
  · exact h.elim

/-- Nothing is completed for an operator that belongs to the awaited expression. -/
theorem settle_of_least_le {level : Nat} {stack : List (Pending α)} (h : least stack ≤ level)
    (e : Expression α) : settle level e stack = (e, stack) := by
  unfold settle
  split
  · exact if_neg (Nat.not_lt.2 h)
  · exact if_neg (Nat.not_lt.2 h)
  · rfl

theorem operator_binary_of_least_le {op : BinaryOperator} {stack : List (Pending α)}
    (h : least stack ≤ op.level) (e : Expression α) (ts : List (Token α)) :
    operator stack e (.binary op :: ts) = operand (.binary e op :: stack) ts := by
  simp [operator, settle_of_least_le h, h]

/-- An expression that the stack awaits is read as a whole, if what follows is not part of it. -/
theorem Reads.operand_append {p : Nat} {ts : List (Token α)} {e : Expression α} (h : Reads p ts e)
    (stack : List (Pending α)) (rest : List (Token α)) (hleast : least stack ≤ p)
    (hrest : Follows p rest) : operand stack (ts ++ rest) = operator stack e rest := by
  induction h generalizing stack rest with
  | atom a => rfl
  | @group ts e h ih =>
    have hin := ih (.group :: stack) (.closing .round :: rest) (Nat.le_refl _)
      (.inr trivial)
    simp only [List.cons_append, List.append_assoc, List.nil_append]
    rw [operand, hin]
    simp [operator, settle]
  | @select ts e h s ih =>
    have hin := ih stack (s.tokens ++ rest) hleast (.inl (by decide))
    rw [List.append_assoc, hin]
    cases s <;> simp [Selection.tokens, operator, operand]
  | @apply ts us e x b h hx ih ihx =>
    have hin := ih stack (.opening b :: (us ++ .closing b :: rest)) hleast
      (.inl (by decide))
    have hinx := ihx (.enter b e :: stack) (.closing b :: rest) (Nat.le_refl _)
      (.inr trivial)
    simp only [List.append_assoc, List.cons_append, List.nil_append]
    rw [hin, operator, hinx]
    simp [operator, settle]
  | @unary ts e op h ih =>
    have hin := ih (.unary op :: stack) rest (Nat.le_refl _) hrest
    have hends : Ends Level.unary rest := hrest.resolve_left (by decide)
    have hsign : operand stack (op.token :: (ts ++ rest)) =
        operand (.unary op :: stack) (ts ++ rest) := by
      cases op <;> simp [UnaryOperator.token, operand]
    rw [List.cons_append, hsign, hin, hends.operator_unary]
  | @binary ts us x y op hx hy ihx ihy =>
    have hinx := ihx stack (.binary op :: (us ++ rest))
      (Nat.le_trans hleast op.level_le_leftLeast) (follows_left op _)
    obtain ⟨hends, hright⟩ := hrest.right
    have hiny := ihy (.binary x op :: stack) rest (Nat.le_refl _) hright
    rw [List.append_assoc, List.cons_append, hinx, operator_binary_of_least_le hleast, hiny,
      hends.operator_binary]
  | weaken h hle ih => exact ih stack rest (Nat.le_trans hleast hle) (hrest.mono hle)

theorem Reads.parse_eq {ts : List (Token α)} {e : Expression α}
    (h : Reads Level.or ts e) : parse ts = some e := by
  have hread := h.operand_append [] [] (Nat.le_refl _) (.inr trivial)
  rw [List.append_nil] at hread
  rw [parse, hread]
  simp [operator, settle]

/-! ## The grammar allows what the parser finds -/

/-- A stack stands for the tokens read so far. -/
inductive Holds : List (Pending α) → List (Token α) → Prop
  | nil : Holds [] []
  | group {stack : List (Pending α)} {ts : List (Token α)} (h : Holds stack ts) :
      Holds (.group :: stack) (ts ++ [.opening .round])
  | enter {stack : List (Pending α)} {ts us : List (Token α)} {e : Expression α} (b : Bracket)
      (h : Holds stack ts) (he : Reads Level.suffix us e) :
      Holds (.enter b e :: stack) (ts ++ us ++ [.opening b])
  | unary {stack : List (Pending α)} {ts : List (Token α)} (op : UnaryOperator)
      (h : Holds stack ts) : Holds (.unary op :: stack) (ts ++ [op.token])
  | binary {stack : List (Pending α)} {ts us : List (Token α)} {e : Expression α}
      {op : BinaryOperator} (h : Holds stack ts) (he : Reads op.leftLeast us e)
      (hleast : least stack ≤ op.level) : Holds (.binary e op :: stack) (ts ++ us ++ [.binary op])

theorem least_le_unary (stack : List (Pending α)) : least stack ≤ Level.unary := by
  cases stack with
  | nil => exact show Level.or ≤ Level.unary by decide
  | cons p stack =>
    cases p with
    | group => exact show Level.or ≤ Level.unary by decide
    | enter b e =>
      cases b with
      | round => exact Nat.zero_le _
      | square => exact show Level.or ≤ Level.unary by decide
    | unary op => exact Nat.le_refl _
    | binary e op => exact op.rightLeast_le_unary

/-- Completing operations keeps the tokens read and gives an expression of the grammar that the rest
of the stack awaits. An operator that could have the operand on its left can have the result there,
if it does not belong to the operations that are completed. -/
theorem Holds.settle {stack : List (Pending α)} {ts us : List (Token α)} {e : Expression α}
    {q : Nat} (h : Holds stack ts) (he : Reads q us e) (hleast : least stack ≤ q) (level : Nat) :
    ∃ ts' us' q', ts ++ us = ts' ++ us' ∧ Holds (settle level e stack).2 ts' ∧
      Reads q' us' (settle level e stack).1 ∧ least (settle level e stack).2 ≤ q' ∧
      ∀ op : BinaryOperator, op.level = level → op.leftLeast ≤ q → op.leftLeast ≤ q' := by
  induction h generalizing us e q with
  | nil => exact ⟨[], us, q, rfl, .nil, he, hleast, fun _ _ h => h⟩
  | group h ih => exact ⟨_, us, q, rfl, .group h, he, hleast, fun _ _ h => h⟩
  | enter b h hf ih => exact ⟨_, us, q, rfl, .enter b h hf, he, hleast, fun _ _ h => h⟩
  | @unary stack ts op h ih =>
    rw [Expression.settle]
    split_ifs with hlt
    · obtain ⟨ts', us', q', htokens, hholds, hreads, hle, hop⟩ :=
        ih (.unary op (he.weaken hleast)) (least_le_unary stack)
      refine ⟨ts', us', q', by simpa using htokens, hholds, hreads, hle, ?_⟩
      rintro op rfl -
      exact hop op rfl (BinaryOperator.leftLeast_le_unary hlt)
    · exact ⟨_, us, q, rfl, .unary op h, he, hleast, fun _ _ h => h⟩
  | @binary stack ts vs x op h hx hstack ih =>
    rw [Expression.settle]
    split_ifs with hlt
    · obtain ⟨ts', us', q', htokens, hholds, hreads, hle, hop⟩ :=
        ih (.binary op hx (he.weaken hleast)) hstack
      refine ⟨ts', us', q', by simpa using htokens, hholds, hreads, hle, ?_⟩
      rintro op rfl -
      exact hop op rfl (BinaryOperator.leftLeast_le_level hlt)
    · exact ⟨_, us, q, rfl, .binary h hx hstack, he, hleast, fun _ _ h => h⟩

mutual

/-- What is read from a place where an operand has to stand is an expression of the grammar. -/
theorem reads_of_operand {stack : List (Pending α)} {ts : List (Token α)} {x : Expression α}
    (hs : Holds stack ts) :
    ∀ rest, operand stack rest = some x → Reads Level.or (ts ++ rest) x
  | .atom a :: rest, h => by
    have hread := reads_of_operator hs (.weaken (.atom a) (by decide)) rest h
    simpa using hread
  | .opening .round :: rest, h => by
    have hread := reads_of_operand hs.group rest h
    simpa using hread
  | .binary .sub :: rest, h => by
    have hread := reads_of_operand (hs.unary .minus) rest h
    simpa [UnaryOperator.token] using hread
  | .not :: rest, h => by
    have hread := reads_of_operand (hs.unary .not) rest h
    simpa [UnaryOperator.token] using hread
  | .length :: rest, h => by
    have hread := reads_of_operand (hs.unary .length) rest h
    simpa [UnaryOperator.token] using hread
  | .closing .round :: rest, h => by
    cases hs with
    | enter b hs' he =>
      cases b with
      | round =>
        have hread := reads_of_operator hs' (he.select .invoke) rest h
        simpa [Selection.tokens] using hread
      | square => simp [operand] at h
    | _ => simp [operand] at h

/-- What is read from a place behind an operand is an expression of the grammar. -/
theorem reads_of_operator {stack : List (Pending α)} {ts us : List (Token α)} {e x : Expression α}
    (hs : Holds stack ts) (he : Reads Level.suffix us e) :
    ∀ rest, operator stack e rest = some x → Reads Level.or (ts ++ us ++ rest) x
  | [], h => by
    obtain ⟨ts', us', q, htokens, hholds, hreads, hle, -⟩ :=
      hs.settle he (Nat.le_trans (least_le_unary stack) (by decide)) 0
    rw [operator] at h
    split at h
    · next y heq =>
      cases h
      rw [heq] at hholds hreads hle
      cases hholds
      rw [List.append_nil, htokens]
      exact hreads.weaken hle
    · cases h
  | .binary op :: rest, h => by
    obtain ⟨ts', us', q, htokens, hholds, hreads, -, hop⟩ :=
      hs.settle he (Nat.le_trans (least_le_unary stack) (by decide)) op.level
    rw [operator] at h
    dsimp only at h
    split_ifs at h with hle
    have hq := hop op rfl op.leftLeast_le_suffix
    have hread := reads_of_operand (hholds.binary (hreads.weaken hq) hle) rest h
    rw [htokens]
    simpa using hread
  | .member name :: rest, h => by
    have hread := reads_of_operator hs (he.select (.field name)) rest h
    simpa [Selection.tokens] using hread
  | .method name :: rest, h => by
    have hread := reads_of_operator hs (he.select (.method name)) rest h
    simpa [Selection.tokens] using hread
  | .opening b :: rest, h => by
    have hread := reads_of_operand (hs.enter b he) rest h
    simpa using hread
  | .closing b :: rest, h => by
    obtain ⟨ts', us', q, htokens, hholds, hreads, hle, -⟩ :=
      hs.settle he (Nat.le_trans (least_le_unary stack) (by decide)) 0
    rw [operator] at h
    split at h
    · next y b' f stack' heq =>
      split_ifs at h with hb
      subst hb
      rw [heq] at hholds hreads hle
      cases hholds with
      | enter b hs' hf =>
        have hread := reads_of_operator hs' (.apply _ hf (hreads.weaken hle)) rest h
        rw [htokens]
        simpa using hread
    · next y stack' heq =>
      split_ifs at h with hb
      subst hb
      rw [heq] at hholds hreads hle
      cases hholds with
      | group hs' =>
        have hgroup := (Reads.group (hreads.weaken hle)).weaken (p := Level.suffix) (by decide)
        have hread := reads_of_operator hs' hgroup rest h
        rw [htokens]
        simpa using hread
    · cases h

end

/-- The parser gives exactly the expressions of the grammar. -/
theorem parse_eq_some_iff {ts : List (Token α)} {e : Expression α} :
    parse ts = some e ↔ Reads Level.or ts e :=
  ⟨reads_of_operand .nil ts, Reads.parse_eq⟩

end Expression

end ShortCircuit
