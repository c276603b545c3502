import ShortCircuit.Recovery.Exits

/-!
# Values of paths

In a value context every path that leaves the tests is followed to the consumer, or to the store it
meets, and what it wrote last is its value.

* `Path.follow` gives the value of one path and drops its effects on the registers.
* `Path.leaves` gives the leaves of all paths and the destination they store to.
-/

namespace ShortCircuit

/-- The end of a path: its value, and the destination when it met a store. -/
structure PathEnd where
  value : LeafValue
  target : Option String
deriving DecidableEq, Repr

namespace Path

/-- Whether a place belongs to the pair of boolean loads before the consumer. -/
def isInFinalPair (code : List Instruction) (consumer pc : Nat) : Bool :=
  2 ≤ consumer && Code.isBooleanEnd code (consumer - 2) && consumer - 2 ≤ pc && pc < consumer

/-- The value of a path from `origin` that wrote `text`. Only the final pair of boolean loads yields
bare truth values; elsewhere such a literal is an operand like any other text. -/
def written (code : List Instruction) (consumer origin : Nat) (text : String) : LeafValue :=
  match LeafValue.ofText text with
  | .bool b => if isInFinalPair code consumer origin then .bool b else .text text
  | value => value

/-- The value that a store takes from a path. -/
def stored (f : Frame) (consumer origin : Nat) (wrote : Option UInt8) (a : Assignment) :
    LeafValue :=
  match wrote with
  | none => .nil
  | some _ =>
    let text := match a.source with
      | some r => f.registers.valueText r
      | none => a.value
    written f.function.code consumer origin text

/-- Follows the path from `origin` at `pc`, where `wrote` is the register written last. -/
def followFrom (function : Prototype) (start consumer origin : Nat) (wrote : Option UInt8)
    (pc : Nat) : Analysis PathEnd :=
  if pc = consumer then do
    let f ← Analysis.frame function pc
    match wrote with
    | some r =>
      return ⟨written function.code consumer origin (f.registers.valueText r), none⟩
    | none => return ⟨.nil, none⟩
  else
    match _h : function.code[pc]? with
    | none => throw (.inconclusive start (.unresolvedPath origin))
    | some i =>
      match i.role with
      | .tableStore | .globalStore => do
        let f ← Analysis.frame function pc
        match f.assignment? i with
        | some a => return ⟨stored f consumer origin wrote a, some a.target⟩
        | none => throw (.inconclusive start (.unresolvedPath origin))
      | .booleanLoad => do
        Analysis.execute function start pc i
        followFrom function start consumer origin (some i.a) (pc + if i.c = 0 then 1 else 2)
      | .jump =>
        match i.jumpTarget? pc with
        | some target =>
          if _forward : pc < target then followFrom function start consumer origin wrote target
          else throw (.inconclusive start (.unresolvedPath origin))
        | none => throw (.inconclusive start (.unresolvedPath origin))
      | _ =>
        if i.isTransparent then do
          Analysis.execute function start pc i
          followFrom function start consumer origin (i.destination? <|> wrote) (pc + 1)
        else throw (.inconclusive start (.unresolvedPath origin))
termination_by function.code.length - pc
decreasing_by
  all_goals
    have := Code.lt_length _h
    grind

/-- The end of the path from a place; its effects are dropped. -/
def follow (function : Prototype) (start consumer origin : Nat) : Analysis PathEnd :=
  RegisterStack.inScope (followFrom function start consumer origin none origin)

/-- The common destination of two paths; different ones are a conflict. -/
def joinTarget : Option String → Option String → Analysis (Option String)
  | some first, some second =>
    if first = second then return some first else throw (.conflictingTargets first second)
  | first, second => return first <|> second

/-- The leaves of the paths from several places, in order, and the destination they store to. -/
def leaves (function : Prototype) (start consumer : Nat) (target : Option String) :
    List Nat → Analysis (List Node × Option String)
  | [] => return ([], target)
  | origin :: origins => do
    let path ← follow function start consumer origin
    let target ← joinTarget target path.target
    let (nodes, target) ← leaves function start consumer target origins
    return ({ key := origin, content := .leaf path.value } :: nodes, target)

end Path

end ShortCircuit
