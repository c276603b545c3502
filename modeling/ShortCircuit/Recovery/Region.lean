import ShortCircuit.Recovery.Condition

/-!
# Regions of a function

One pass over the code of a function. At every conditional the condition that starts there is
recovered, or the conditional is left as a jump with the reason. All other instructions are
executed, so that later tests are rendered with the values they read.

* `Cursor.advance?` makes one step of the pass, `Region.recover` lists the regions of all steps.
* `Region.text` is the line shown for a region.
-/

namespace ShortCircuit

/-- A recovered condition, or a conditional that stays a jump. -/
inductive Region where
  | condition (condition : Condition)
  | jump (pc : Nat) (target : Option Nat) (cause : ConditionError)
deriving DecidableEq, Repr

namespace Region

/-- Where a region starts. -/
def start : Region → Nat
  | .condition c => c.start
  | .jump pc _ _ => pc

/-- Whether the region is a recovered condition. -/
def isCondition : Region → Bool
  | .condition _ => true
  | .jump .. => false

/-- The line shown for a region. -/
def text : Region → String
  | .condition c =>
    let range := "[" ++ toString c.start ++ ".." ++ toString c.endPc ++ "] "
    let statement := c.statement.render
    match c.use with
    | .value _ (some target) _ => range ++ target ++ " = " ++ statement
    | .value _ none _ => range ++ "value " ++ statement
    | .test body exit =>
      range ++ "if " ++ statement ++ " (true -> " ++ toString body ++ ", false -> "
        ++ toString exit ++ ")"
  | .jump pc target cause =>
    let place := match target with
      | some target => toString target
      | none => "?"
    "[" ++ toString pc ++ "] goto " ++ place ++ " (" ++ cause.message ++ ")"

/-- The registers after a condition: a value is bound to its register. -/
def bindValue (s : RegisterStack) (c : Condition) : RegisterStack :=
  match c.register? with
  | some r => s.define r ⟨c.statement.render, .ofConnective c.statement.connective?⟩
  | none => s

/-- The registers after an ordinary instruction. One that cannot be executed leaves its destination
unknown. -/
def step (function : Prototype) (pc : Nat) (i : Instruction) (s : RegisterStack) : RegisterStack :=
  match RegisterStack.execute function pc i s with
  | .ok _ s => s
  | .error _ s =>
    match i.destination? with
    | some r => s.forget r
    | none => s

/-- The registers after a conditional that stays a jump. -/
def skip (i : Instruction) (s : RegisterStack) : RegisterStack :=
  if i.op = .testSet then s.forget i.a else s

end Region

/-- A place in the code with the registers there. -/
structure Cursor where
  pc : Nat
  stack : RegisterStack
deriving DecidableEq, Repr

namespace Cursor

/-- The start of a function. -/
def initial : Cursor := ⟨0, .empty⟩

/-- What stands at a cursor and where the pass goes on: a condition is passed as a whole, a
conditional that stays a jump together with its jump. `none` at the end of the code. -/
def advance? (function : Prototype) (c : Cursor) : Option (Option Region × Cursor) :=
  match function.code[c.pc]? with
  | none => none
  | some i =>
    let pass (s : RegisterStack) : Option Region × Cursor :=
      (none, ⟨c.pc + 1, Region.step function c.pc i s⟩)
    if i.isConditional then
      match Condition.startingAt function (Code.jumpsBack function.code c.pc) c.pc c.stack with
      | .ok (some condition) s =>
        some (some (.condition condition),
          ⟨max condition.resume (c.pc + 1), Region.bindValue s condition⟩)
      | .ok none s => some (pass s)
      | .error cause s =>
        match Code.jumpAfter? function.code c.pc with
        | some target =>
          some (some (.jump c.pc (some target) cause), ⟨c.pc + 2, Region.skip i s⟩)
        | none => some (some (.jump c.pc none cause), ⟨c.pc + 1, Region.skip i s⟩)
    else some (pass c.stack)

/-- The pass moves forward and stays inside the code until its end. -/
theorem lt_of_advance? {function : Prototype} {c d : Cursor} {r : Option Region}
    (h : c.advance? function = some (r, d)) : c.pc < function.code.length ∧ c.pc < d.pc := by
  unfold advance? at h
  split at h
  · cases h
  · next i hi =>
    refine ⟨Code.lt_length hi, ?_⟩
    split at h
    · split at h
      · cases h
        exact Nat.lt_of_lt_of_le (Nat.lt_succ_self _) (Nat.le_max_right _ _)
      · cases h
        exact Nat.lt_succ_self _
      · split at h
        · cases h
          exact Nat.lt_add_of_pos_right (by decide)
        · cases h
          exact Nat.lt_succ_self _
    · cases h
      exact Nat.lt_succ_self _

/-- The regions from a cursor on. -/
def regions (function : Prototype) (c : Cursor) : List Region :=
  match _h : c.advance? function with
  | none => []
  | some (some r, d) => r :: d.regions function
  | some (none, d) => d.regions function
termination_by function.code.length - c.pc
decreasing_by
  all_goals
    have := lt_of_advance? _h
    omega

end Cursor

/-- The regions of a function, in the order of its code. -/
def Region.recover (function : Prototype) : List Region := Cursor.initial.regions function

end ShortCircuit
