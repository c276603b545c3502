import ShortCircuit.Registers.Precedence

/-!
# The register file

256 registers, each unknown or holding a rendered expression, and a stack of snapshots, so that a
path can be tried and its effects dropped.

* `Registers.get_put` says what a write does to each register.
* `RegisterStack.inScope` runs an action on a snapshot and restores it on every outcome.
-/

namespace ShortCircuit

/-- What a register holds. A method slot holds `object:name`, and the call that uses it does not
show its first argument. -/
structure Slot extends Rendered where
  isMethod : Bool := false
deriving DecidableEq, Repr

/-- The contents of all registers; `none` is unknown. -/
structure Registers where
  slots : Vector (Option Slot) 256
deriving DecidableEq, Repr

namespace Registers

/-- Nothing is known. -/
def empty : Registers := ⟨Vector.replicate 256 none⟩

/-- The contents of a register. -/
def get (rs : Registers) (r : UInt8) : Option Slot :=
  have : r.toNat < 256 := r.toNat_lt
  rs.slots[r.toNat]

/-- Changes the contents of one register. -/
def put (rs : Registers) (r : UInt8) (slot : Option Slot) : Registers :=
  ⟨rs.slots.set r.toNat slot r.toNat_lt⟩

@[simp]
theorem get_empty (r : UInt8) : empty.get r = none := by
  simp [get, empty]

@[simp]
theorem get_put_self (rs : Registers) (r : UInt8) (slot : Option Slot) :
    (rs.put r slot).get r = slot := by
  simp [get, put]

theorem get_put_of_ne (rs : Registers) {r q : UInt8} (slot : Option Slot) (h : q ≠ r) :
    (rs.put r slot).get q = rs.get q := by
  have hn : r.toNat ≠ q.toNat := fun e => h (UInt8.toNat_inj.1 e.symm)
  simp [get, put, hn]

theorem get_put (rs : Registers) (r q : UInt8) (slot : Option Slot) :
    (rs.put r slot).get q = if q = r then slot else rs.get q := by
  split
  · next h => subst h; simp
  · next h => exact get_put_of_ne rs slot h

/-- The expression in a register, or the name of the register when it is unknown. -/
def rendered (rs : Registers) (r : UInt8) : Rendered :=
  match rs.get r with
  | some slot => slot.toRendered
  | none => .atom ("r" ++ toString r.toNat)

/-- The expression in a register as an operand of a comparison. -/
def valueText (rs : Registers) (r : UInt8) : String := (rs.rendered r).wrapOperand

/-- The registers from `first` to `last`, both included. -/
def range (first last : Nat) : List UInt8 :=
  (List.range' first (last + 1 - first)).map UInt8.ofNat

end Registers

/-- A change of one register. -/
structure Write where
  register : UInt8
  slot : Option Slot
deriving DecidableEq, Repr

namespace Write

/-- Stores an expression. -/
def store (r : UInt8) (e : Rendered) : Write := ⟨r, some { toRendered := e }⟩

/-- Makes a register unknown. -/
def clear (r : UInt8) : Write := ⟨r, none⟩

end Write

/-- Performs changes in order. -/
def Registers.apply (rs : Registers) (writes : List Write) : Registers :=
  writes.foldl (fun rs w => rs.put w.register w.slot) rs

/-- The current registers and the snapshots of the open scopes, innermost first. -/
structure RegisterStack where
  current : Registers
  saved : List Registers
deriving DecidableEq, Repr

namespace RegisterStack

/-- Nothing is known and no scope is open. -/
def empty : RegisterStack := ⟨.empty, []⟩

/-- Opens a scope. -/
def push (s : RegisterStack) : RegisterStack := { s with saved := s.current :: s.saved }

/-- Closes the innermost scope and restores its snapshot; without a scope nothing happens. -/
def pop (s : RegisterStack) : RegisterStack :=
  match s.saved with
  | [] => s
  | snapshot :: saved => ⟨snapshot, saved⟩

/-- The number of open scopes. -/
def depth (s : RegisterStack) : Nat := s.saved.length

/-- Binds a register to a rendered expression. -/
def define (s : RegisterStack) (r : UInt8) (e : Rendered) : RegisterStack :=
  { s with current := s.current.put r (some { toRendered := e }) }

/-- Makes a register unknown. -/
def forget (s : RegisterStack) (r : UInt8) : RegisterStack :=
  { s with current := s.current.put r none }

/-- Runs an action inside a scope that is closed on success and on failure. -/
def inScope {ε α : Type} (action : EStateM ε RegisterStack α) : EStateM ε RegisterStack α :=
  fun s =>
    match action s.push with
    | .ok a s => .ok a s.pop
    | .error e s => .error e s.pop

end RegisterStack

end ShortCircuit
