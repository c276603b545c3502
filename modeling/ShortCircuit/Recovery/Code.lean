import ShortCircuit.Instruction.Basic

/-!
# Shapes in code

The shapes that condition recovery looks for: a conditional with its jump, a pair of boolean loads,
and a chain of tests that jumps backwards.
-/

namespace ShortCircuit.Code

theorem lt_length {code : List Instruction} {pc : Nat} {i : Instruction}
    (h : code[pc]? = some i) : pc < code.length :=
  (List.getElem?_eq_some_iff.1 h).1

/-- Where the jump after the conditional at `pc` goes; `none` when no jump follows. -/
def jumpAfter? (code : List Instruction) (pc : Nat) : Option Nat :=
  match code[pc + 1]? with
  | some jump => if jump.op = .jmp then jump.jumpTarget? (pc + 1) else none
  | none => none

/-- Whether the instruction at `pc` loads a boolean. -/
def isBooleanLoad (code : List Instruction) (pc : Nat) : Bool :=
  match code[pc]? with
  | some i => i.op = .loadBool
  | none => false

/-- Whether two boolean loads stand at `pc`: the end of a condition used as a value. -/
def isBooleanEnd (code : List Instruction) (pc : Nat) : Bool :=
  isBooleanLoad code pc && isBooleanLoad code (pc + 1)

/-- Whether the chain of tests from `pc` on jumps backwards, as the condition of a loop that is
tested at its end does. -/
def jumpsBack (code : List Instruction) (pc : Nat) : Bool :=
  match _h : code[pc]? with
  | none => false
  | some i =>
    if i.isConditional then
      match jumpAfter? code pc with
      | none => false
      | some target => if target ≤ pc + 1 then true else jumpsBack code (pc + 2)
    else if i.isTransparent && i.op ≠ .jmp then jumpsBack code (pc + 1)
    else false
termination_by code.length - pc
decreasing_by
  all_goals
    have := lt_length _h
    omega

end ShortCircuit.Code
