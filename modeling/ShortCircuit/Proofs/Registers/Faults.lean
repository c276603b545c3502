import ShortCircuit.Registers.Execution

/-!
# Which instructions fail

Whether an instruction has a symbolic effect can be told without executing it: it fails when its
operation is not supported, or when it reads a constant that the function does not have. Names,
values of constants and registers play no part in that.

* `Instruction.fault?` is the failure of an instruction, from the number of constants.
* `Frame.effect_cases`: the effect of an instruction exists or is that failure.
* `RegisterStack.execute_cases`: the same for execution.
-/

namespace ShortCircuit

/-- The constants that an operand reads. -/
def Operand.constants : Operand → List Nat
  | .register _ => []
  | .constant index => [index]

namespace Instruction

/-- Whether the operation has a symbolic effect. -/
def isSupported (i : Instruction) : Bool :=
  match i.op with
  | .forLoop | .forPrep | .tforLoop | .closure => false
  | _ => true

/-- The constants that an instruction reads when it is executed, in that order. -/
def constantsRead (i : Instruction) : List Nat :=
  match i.op with
  | .loadK | .getGlobal => [i.bx.toNat]
  | .getTable | .self => (Operand.ofField i.c).constants
  | .add | .sub | .mul | .div | .mod | .pow =>
    (Operand.ofField i.b).constants ++ (Operand.ofField i.c).constants
  | _ => []

/-- Why an instruction at a place fails in a function with `count` constants. -/
def fault? (i : Instruction) (count pc : Nat) : Option ExecutionError :=
  if i.isSupported then
    (i.constantsRead.find? (count ≤ ·)).map (.missingConstant · pc)
  else some (.unsupported i.op pc)

end Instruction

namespace Frame

variable {α β : Type} {f : Frame}

/-- A result that needs some constants of the function: it exists when all of them do, and else
fails for the first one that does not. -/
def Needs (f : Frame) (indices : List Nat) (x : Except ExecutionError α) : Prop :=
  match indices.find? (f.function.constants.length ≤ ·) with
  | none => ∃ a, x = .ok a
  | some index => x = .error (.missingConstant index f.pc)

theorem needs_ok (a : α) : f.Needs [] (.ok a) := ⟨a, rfl⟩

theorem Needs.map {indices : List Nat} {x : Except ExecutionError α} (h : f.Needs indices x)
    (g : α → β) : f.Needs indices (x.map g) := by
  unfold Needs at *
  split at h
  · obtain ⟨a, rfl⟩ := h
    exact ⟨g a, rfl⟩
  · subst h
    rfl

theorem Needs.bind {first second : List Nat} {x : Except ExecutionError α}
    {g : α → Except ExecutionError β} (hx : f.Needs first x) (hg : ∀ a, f.Needs second (g a)) :
    f.Needs (first ++ second) (x.bind g) := by
  unfold Needs at hx
  split at hx
  · next hfirst =>
    obtain ⟨a, rfl⟩ := hx
    have ha := hg a
    rw [Needs] at ha ⊢
    rw [List.find?_append, hfirst]
    exact ha
  · next index hfirst =>
    subst hx
    rw [Needs, List.find?_append, hfirst]
    rfl

variable (f)

theorem needs_constant (index : Nat) : f.Needs [index] (f.constant index) := by
  unfold Needs constant
  by_cases h : f.function.constants.length ≤ index
  · rw [List.find?_cons_of_pos (by simpa using h), List.getElem?_eq_none h]
  · rw [List.find?_cons_of_neg (by simpa using h), List.getElem?_eq_getElem (by omega)]
    exact ⟨_, rfl⟩

theorem needs_operand (field : UInt16) :
    f.Needs (Operand.ofField field).constants (f.operand field) := by
  unfold operand
  cases Operand.ofField field with
  | register r => exact needs_ok _
  | constant index => exact (f.needs_constant index).map _

theorem needs_element (table : Rendered) (key : UInt16) :
    f.Needs (Operand.ofField key).constants (f.element table key) := by
  unfold element
  cases Operand.ofField key with
  | register r => exact needs_ok _
  | constant index => exact (f.needs_constant index).map _

/-- Selecting a method reads its name once more when the name is no string, which cannot fail. -/
theorem needs_selected (i : Instruction) (object : Rendered) :
    f.Needs (Operand.ofField i.c).constants (f.selected i object) := by
  have helement (g : Frame) := g.needs_element object i.c
  unfold selected
  cases hoperand : Operand.ofField i.c with
  | register r =>
    rw [hoperand] at helement
    exact (helement { f with registers := _ }).map _
  | constant index =>
    rw [hoperand] at helement
    have hindex := f.needs_constant index
    have hagain := (helement f).map fun text =>
      ({ text, precedence := Precedence.suffix } : Slot)
    unfold Needs at hindex hagain ⊢
    simp only [Operand.constants] at hagain ⊢
    split at hindex
    · next hnone =>
      obtain ⟨l, hl⟩ := hindex
      rw [hnone] at hagain
      simp only [hl, Except.bind]
      cases l.text? with
      | some name => exact ⟨_, rfl⟩
      | none => exact hagain
    · rw [hindex]
      rfl

/-- The effect of a supported operation needs the constants that it reads. -/
theorem needs_effect {i : Instruction} (h : i.isSupported = true) :
    f.Needs i.constantsRead (f.effect i) := by
  unfold effect Instruction.constantsRead
  unfold Instruction.isSupported at h
  cases hop : i.op with
  | loadK => exact (f.needs_constant _).map _
  | getGlobal => exact ((f.needs_constant _).map _).map _
  | getTable => exact (f.needs_element _ _).map _
  | self => exact (f.needs_selected i _).map _
  | add | sub | mul | div | mod | pow =>
    refine (f.needs_operand i.b).bind fun left => ?_
    rw [← List.append_nil (Operand.ofField i.c).constants]
    exact (f.needs_operand i.c).bind fun right => needs_ok _
  | forLoop | forPrep | tforLoop | closure =>
    rw [hop] at h
    cases h
  | _ => exact needs_ok _

/-- The effect of an instruction exists, or it is the failure that the number of constants tells. -/
theorem effect_cases (i : Instruction) :
    (i.fault? f.function.constants.length f.pc = none ∧ ∃ writes, f.effect i = .ok writes) ∨
      ∃ e, i.fault? f.function.constants.length f.pc = some e ∧ f.effect i = .error e := by
  unfold Instruction.fault?
  cases hs : i.isSupported with
  | true =>
    have h := f.needs_effect hs
    unfold Needs at h
    split at h
    · next hnone => exact .inl ⟨by simp [hnone], h⟩
    · next index hsome => exact .inr ⟨_, by simp [hsome], h⟩
  | false =>
    refine .inr ⟨_, rfl, ?_⟩
    unfold Instruction.isSupported at hs
    unfold effect
    cases hop : i.op <;> simp_all

end Frame

namespace RegisterStack

/-- Execution succeeds, or it fails as the number of constants tells and changes nothing. -/
theorem execute_cases (function : Prototype) (pc : Nat) (i : Instruction) (s : RegisterStack) :
    (i.fault? function.constants.length pc = none ∧ ∃ s', execute function pc i s = .ok () s') ∨
      ∃ e, i.fault? function.constants.length pc = some e ∧
        execute function pc i s = .error e s := by
  rcases (s.frame function pc).effect_cases i with ⟨hnone, writes, h⟩ | ⟨e, hsome, h⟩
  · exact .inl ⟨hnone, _, by rw [execute, h]⟩
  · exact .inr ⟨e, hsome, by rw [execute, h]⟩

end RegisterStack

end ShortCircuit
