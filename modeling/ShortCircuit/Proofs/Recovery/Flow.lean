import ShortCircuit.Proofs.Recovery.Path
import ShortCircuit.Proofs.Recovery.Scan
import Mathlib.Logic.Relation

/-!
# Control flow between the tests of a condition

The collection of a chain goes through the code place by place, while control follows jumps and
skips a place after some boolean loads. Between the tests of a condition the two agree as long as
control that leaves the order of the code comes back before the next test. Where a jump or a skip
goes back or passes over a test, the tests behind it are collected although control may never get
there.

* `Code.successors`, `Code.Reaches`: the control-flow graph of a function.
* `Code.Diverts`, `Code.LeadsOn`: control leaves the order of the code at a place, and whether it
  comes back before the next conditional.
* `Code.exists_flow_ahead`: one step of control towards a conditional.
* `Condition.reaches_of_startingAt`: control reaches the tests of a condition.
* `Condition.not_reachesTests_diverted`: conditions with tests that control does not reach.
-/

namespace ShortCircuit

/-- The places that control can go to after an instruction. -/
def Instruction.successors (i : Instruction) (pc : Nat) : List Nat :=
  if i.isConditional then [pc + 1, pc + 2]
  else if i.role = .jump then (i.jumpTarget? pc).toList
  else [i.after pc]

namespace Code

/-- The places that control can go to from a place; none from outside of the code. -/
def successors (code : List Instruction) (pc : Nat) : List Nat :=
  match code[pc]? with
  | some i => i.successors pc
  | none => []

/-- Control can go from one place to another in one step. -/
def Flows (code : List Instruction) (a b : Nat) : Prop := b ∈ successors code a

/-- Control can go from one place to another. -/
def Reaches (code : List Instruction) : Nat → Nat → Prop := Relation.ReflTransGen (Flows code)

instance (code : List Instruction) (pc : Nat) : Decidable (ConditionalAt code pc) :=
  decidable_of_iff (∃ i ∈ code[pc]?, i.isConditional = true) Iff.rfl

/-- The place directly behind a conditional, where its jump stands. -/
def BehindTest (code : List Instruction) (pc : Nat) : Prop := pc ≠ 0 ∧ ConditionalAt code (pc - 1)

instance (code : List Instruction) (pc : Nat) : Decidable (BehindTest code pc) :=
  inferInstanceAs (Decidable (_ ∧ _))

/-- Control leaves the order of the code at a place: a jump stands there that belongs to no test, or
a boolean load that skips a place. -/
def Diverts (code : List Instruction) (pc : Nat) : Prop :=
  ∃ i ∈ code[pc]?, i.role = .jump ∧ ¬BehindTest code pc ∨ i.role = .booleanLoad ∧ i.c ≠ 0

instance (code : List Instruction) (pc : Nat) : Decidable (Diverts code pc) :=
  inferInstanceAs (Decidable (∃ i ∈ code[pc]?, _))

/-- Control can go forward from a place without passing over a conditional. -/
def LeadsOn (code : List Instruction) (pc : Nat) : Prop :=
  ∃ place ∈ successors code pc, pc < place ∧ ∀ r < place, pc < r → ¬ConditionalAt code r

instance (code : List Instruction) (pc : Nat) : Decidable (LeadsOn code pc) :=
  inferInstanceAs (Decidable (∃ place ∈ successors code pc, _))

variable {code : List Instruction}

/-- Control does not leave a set of places that contains their successors. -/
theorem mem_of_reaches {l : List Nat} {a b : Nat}
    (hclosed : ∀ p ∈ l, ∀ q ∈ successors code p, q ∈ l) (ha : a ∈ l)
    (h : Reaches code a b) : b ∈ l := by
  induction h with
  | refl => exact ha
  | tail _ hflow ih => exact hclosed _ ih _ hflow

/-! ## Control towards a conditional -/

section Ahead

variable {q pc : Nat}

theorem successors_of_conditional (h : ConditionalAt code q) :
    successors code q = [q + 1, q + 2] := by
  obtain ⟨i, hi, hc⟩ := h
  rw [successors, hi]
  exact if_pos hc

/-- Where control is not diverted and no test stands, it goes on to the next place. -/
theorem successors_of_not_diverts (hlt : q < code.length) (hc : ¬ConditionalAt code q)
    (hbehind : ¬BehindTest code q) (hdivert : ¬Diverts code q) : successors code q = [q + 1] := by
  have hi : code[q]? = some code[q] := List.getElem?_eq_getElem hlt
  have hconditional : ¬code[q].isConditional = true := fun h => hc ⟨_, hi, h⟩
  have hjump : code[q].role ≠ .jump := fun h => hdivert ⟨_, hi, .inl ⟨h, hbehind⟩⟩
  have hafter : code[q].after q = q + 1 := if_neg fun h => hdivert ⟨_, hi, .inr h⟩
  rw [successors, hi]
  dsimp only
  rw [Instruction.successors, if_neg hconditional, if_neg hjump, hafter]

/-- A step of control towards a conditional that lies ahead. Every test before it has a jump, and
where control is diverted it comes back in time. -/
theorem exists_flow_ahead (hlt : q < pc) (hpc : ConditionalAt code pc)
    (hq : ConditionalAt code q ∨ ¬BehindTest code q)
    (hjump : ConditionalAt code q → ∃ target, jumpAfter? code q = some target)
    (hdivert : Diverts code q → LeadsOn code q) :
    ∃ place, Flows code q place ∧ q < place ∧ place ≤ pc ∧ ¬BehindTest code place := by
  by_cases hc : ConditionalAt code q
  · -- The jump of the test is passed.
    obtain ⟨target, htarget⟩ := hjump hc
    have hnext := (not_conditionalAt_jump htarget).2
    have hne : pc ≠ q + 1 := by
      rintro rfl
      exact hnext hpc
    refine ⟨q + 2, ?_, by omega, by omega, fun h => hnext h.2⟩
    rw [Flows, successors_of_conditional hc]
    simp
  by_cases hd : Diverts code q
  · obtain ⟨place, hflow, hplace, hclear⟩ := hdivert hd
    refine ⟨place, hflow, hplace, ?_, ?_⟩
    · by_contra hle
      exact hclear pc (by omega) hlt hpc
    · rintro ⟨-, hbehind⟩
      rcases Nat.eq_or_lt_of_le (Nat.le_sub_one_of_lt hplace) with heq | hlt'
      · exact hc (heq ▸ hbehind)
      · exact hclear _ (by omega) hlt' hbehind
  · have hlength : q < code.length := by
      obtain ⟨i, hi, -⟩ := hpc
      exact Nat.lt_trans hlt (lt_length hi)
    have hsucc := successors_of_not_diverts hlength hc (hq.resolve_left hc) hd
    refine ⟨q + 1, ?_, by omega, hlt, fun h => hc h.2⟩
    rw [Flows, hsucc]
    simp

/-- Control reaches a conditional from a place before it that it reaches, when every test between
them has a jump and control comes back in time wherever it is diverted. -/
theorem reaches_ahead {start : Nat} (hpc : ConditionalAt code pc)
    (hjump : ∀ r, start ≤ r → r < pc → ConditionalAt code r →
      ∃ target, jumpAfter? code r = some target)
    (hdivert : ∀ r, start ≤ r → r < pc → Reaches code start r → Diverts code r → LeadsOn code r)
    (hstart : start ≤ q) (hle : q ≤ pc) (hreach : Reaches code start q)
    (hq : ConditionalAt code q ∨ ¬BehindTest code q) : Reaches code start pc := by
  -- Every step of control goes forward, and not beyond the conditional.
  induction hn : pc - q using Nat.strongRecOn generalizing q with
  | _ n ih =>
    rcases Nat.eq_or_lt_of_le hle with rfl | hlt
    · exact hreach
    · obtain ⟨place, hflow, hforward, hplace, hbehind⟩ :=
        exists_flow_ahead hlt hpc hq (hjump q hstart hlt) (hdivert q hstart hlt hreach)
      exact ih (pc - place) (by omega) (by omega) hplace (hreach.tail hflow) (.inr hbehind) rfl

end Ahead

end Code

/-- A test of a chain is followed by its jump. -/
theorem Chain.Segmented.jumpAfter?_of_mem {code : List Instruction} {key : Nat} {pairs : List Pair}
    (h : Segmented code key pairs) {p : Pair} (hp : p ∈ pairs) :
    Code.jumpAfter? code p.pc = some p.target := by
  induction pairs generalizing key with
  | nil => cases hp
  | cons q pairs ih =>
    obtain ⟨-, -, -, -, hj, hrest⟩ := h
    rcases List.mem_cons.1 hp with rfl | hp
    · exact hj
    · exact ih hrest hp

namespace Condition

/-- All conditionals between the start of a condition and the place where it resumes are its tests,
and control reaches each of them from the start, provided that wherever it is diverted before that
test, by a jump that belongs to no test or by a boolean load that skips a place, it goes forward
without passing over a conditional. -/
theorem reaches_of_startingAt {function : Prototype} {inLoop : Bool} {start : Nat}
    {s : RegisterStack} {c : Condition} (hstart : Code.ConditionalAt function.code start)
    (h : (startingAt function inLoop start).run' s = some (some c)) :
    ∃ chain s₁, Chain.collect function inLoop start s.push = .ok chain s₁ ∧
      ∀ pc, start ≤ pc → pc < c.resume → Code.ConditionalAt function.code pc →
        (∃ p ∈ chain.pairs, p.pc = pc) ∧
        ((∀ q, start ≤ q → q < pc → Code.Reaches function.code start q →
            Code.Diverts function.code q → Code.LeadsOn function.code q) →
          Code.Reaches function.code start pc) := by
  obtain ⟨s', h⟩ := Analysis.eq_ok_of_run' h
  obtain ⟨i, hi, -⟩ := id hstart
  obtain ⟨-, -, -, chain, s₁, hcollect, htests⟩ :=
    span_of_startingAt (Nat.le_of_lt (Code.lt_length hi)) h
  have hseg := Chain.segmented_of_collect hcollect
  refine ⟨chain, s₁, hcollect, fun pc hle hlt hpc => ⟨htests pc hle hlt hpc, fun hdivert => ?_⟩⟩
  refine Code.reaches_ahead hpc ?_ hdivert (Nat.le_refl _) hle .refl (.inl hstart)
  intro r hr hrpc hc
  obtain ⟨p, hp, rfl⟩ := htests r hr (Nat.lt_trans hrpc hlt) hc
  exact ⟨p.target, hseg.jumpAfter?_of_mem hp⟩

/-- Two tests with a forward jump between them that passes over a load. -/
def shortDetour : Prototype where
  code :=
    [.ofABx .getGlobal 0 0, .ofABC .test 0 0 0, .ofAsBx .jmp 0 7, .ofAsBx .jmp 0 1,
     .ofABC .loadNil 0 0 0, .ofABx .getGlobal 0 1, .ofABC .test 0 0 0, .ofAsBx .jmp 0 2,
     .ofABx .getGlobal 0 2, .ofABC .call 0 1 1, .ofABC .ret 0 1 0]
  constants := [.string [97], .string [98], .string [102]]

/-- Control is diverted at 3, but goes on to 5 and from there to the second test. -/
theorem reaches_of_startingAt_shortDetour :
    Code.Diverts shortDetour.code 3 ∧ Code.Reaches shortDetour.code 1 6 := by
  have h : (startingAt shortDetour false 1).run' (RegisterStack.empty.define 0 (.atom "a")) =
      some (some ⟨1, 8, .join .and (.atom "a" false) (.atom "b" false) false, .test 8 10⟩) := by
    decide +kernel
  have hdivert : ∀ q < 6, Code.Diverts shortDetour.code q → Code.LeadsOn shortDetour.code q := by
    decide
  obtain ⟨chain, s₁, -, htests⟩ := reaches_of_startingAt (by decide) h
  refine ⟨by decide, (htests 6 (by decide) (by decide) (by decide)).2 ?_⟩
  intro q _ hq _
  exact hdivert q hq

/-- Control reaches every conditional between the start of a condition that decides a jump and the
place where it resumes. -/
def ReachesTests (function : Prototype) (inLoop : Bool) (start : Nat) (s : RegisterStack) : Prop :=
  Code.ConditionalAt function.code start →
    ∀ c, (startingAt function inLoop start).run' s = some (some c) → c.isValue = false →
      ∀ pc, start ≤ pc → pc < c.resume → Code.ConditionalAt function.code pc →
        Code.Reaches function.code start pc

/-- Two tests with a jump between them that passes over the second test. -/
def jumpOverTest : Prototype where
  code :=
    [.ofABx .getGlobal 0 0, .ofABC .test 0 0 0, .ofAsBx .jmp 0 6, .ofAsBx .jmp 0 3,
     .ofABx .getGlobal 0 1, .ofABC .test 0 0 0, .ofAsBx .jmp 0 2, .ofABx .getGlobal 0 2,
     .ofABC .call 0 1 1, .ofABC .ret 0 1 0]
  constants := [.string [97], .string [98], .string [102]]

/-- Two tests with a boolean load between them that skips the second test. -/
def skipOverTest : Prototype where
  code :=
    [.ofABx .getGlobal 0 0, .ofABC .test 0 0 0, .ofAsBx .jmp 0 6, .ofABx .getGlobal 0 1,
     .ofABC .loadBool 1 1 1, .ofABC .test 0 0 0, .ofAsBx .jmp 0 2, .ofABx .getGlobal 0 2,
     .ofABC .call 0 1 1, .ofABC .ret 0 1 0]
  constants := [.string [97], .string [98], .string [102]]

/-- Both conditions are `a and b` and resume at 7, but control never gets to the test of `b`
at 5. -/
theorem not_reachesTests_diverted :
    ¬ReachesTests jumpOverTest false 1 (RegisterStack.empty.define 0 (.atom "a")) ∧
      ¬ReachesTests skipOverTest false 1 (RegisterStack.empty.define 0 (.atom "a")) := by
  constructor
  · intro h
    have hreach := h (by decide)
      ⟨1, 7, .join .and (.atom "a" false) (.atom "b" false) false, .test 7 9⟩ (by decide +kernel)
      rfl 5 (by decide) (by decide) (by decide)
    have hmem := Code.mem_of_reaches (l := [1, 2, 3, 7, 8, 9, 10]) (by decide) (by decide) hreach
    revert hmem
    decide
  · intro h
    have hreach := h (by decide)
      ⟨1, 7, .join .and (.atom "a" false) (.atom "b" false) false, .test 7 9⟩ (by decide +kernel)
      rfl 5 (by decide) (by decide) (by decide)
    have hmem := Code.mem_of_reaches (l := [1, 2, 3, 4, 6, 9, 10]) (by decide) (by decide) hreach
    revert hmem
    decide

end Condition

end ShortCircuit
