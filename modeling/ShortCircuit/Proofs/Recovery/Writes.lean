import ShortCircuit.Proofs.Recovery.Flow
import ShortCircuit.Proofs.Recovery.Pass
import ShortCircuit.Proofs.Recovery.Scope
import ShortCircuit.Proofs.Recovery.Stage
import ShortCircuit.Proofs.Registers.Effects

/-!
# Registers written inside a condition

The instructions between the tests of a condition write registers. The tests behind such a write are
rendered with it. The pass over the function, however, goes on behind the condition with the
registers that it had at the start: the writes belong to the scope of the analysis and are dropped
with it, and the pass never gets to the instructions again. A register that is written between the
tests, and that no variable names, is stale from there on.

* `Registers.through`: the registers after all instructions of a range.
* `Registers.get_through`: a register that no instruction of the range writes keeps its contents.
* `Chain.Scans.text_eq`: every recorded test is rendered with the writes before it.
* `Region.registers_of_recover`: with which registers the pass goes on behind a condition.
* `Region.not_keepsWrites_staleTest`: a later test that reads a stale register.
-/

namespace ShortCircuit

/-! ## Ranges of instructions -/

/-- The writes of the instruction at a frame. Tests and jumps are passed over, and an instruction that
cannot be executed changes nothing. -/
def Frame.writes (f : Frame) : List Write :=
  match f.function.code[f.pc]? with
  | none => []
  | some i =>
    if i.isConditional ∨ i.role = .jump then []
    else match f.effect i with
      | .ok writes => writes
      | .error _ => []

namespace Registers

/-- The registers after the instructions from one place up to another. -/
def through (function : Prototype) (first last : Nat) (rs : Registers) : Registers :=
  (List.range' first (last - first)).foldl
    (fun rs pc => rs.apply (Frame.mk function pc rs).writes) rs

/-- Some instruction from one place up to another writes a register. -/
def Written (function : Prototype) (first last : Nat) (rs : Registers) (r : UInt8) : Prop :=
  ∃ pc < last, first ≤ pc ∧
    ∃ w ∈ (Frame.mk function pc (rs.through function first pc)).writes, w.register = r

instance (function : Prototype) (first last : Nat) (rs : Registers) (r : UInt8) :
    Decidable (Written function first last rs r) :=
  inferInstanceAs (Decidable (∃ pc < last, _))

variable {function : Prototype} {first last : Nat} {rs : Registers} {r : UInt8}

theorem through_self (function : Prototype) (pc : Nat) (rs : Registers) :
    rs.through function pc pc = rs := by
  rw [through, Nat.sub_self]
  rfl

theorem through_of_lt (h : first < last) :
    rs.through function first last =
      (rs.apply (Frame.mk function first rs).writes).through function (first + 1) last := by
  obtain ⟨n, hn⟩ : ∃ n, last - first = n + 1 := ⟨last - first - 1, by omega⟩
  have hrest : last - (first + 1) = n := by omega
  rw [through, hn, List.range'_succ, List.foldl_cons, through, hrest]

/-- A register that no instruction of a range writes keeps its contents. -/
theorem get_through (h : ¬Written function first last rs r) :
    (rs.through function first last).get r = rs.get r := by
  induction hn : last - first generalizing first rs with
  | zero =>
    rw [through, hn]
    rfl
  | succ n ih =>
    have hlt : first < last := by omega
    have hhere : ∀ w ∈ (Frame.mk function first rs).writes, w.register ≠ r := by
      intro w hw he
      refine h ⟨first, hlt, Nat.le_refl _, w, ?_, he⟩
      rwa [through_self]
    have hrest : ¬Written function (first + 1) last
        (rs.apply (Frame.mk function first rs).writes) r := by
      rintro ⟨pc, hpc, hle, w, hw, he⟩
      rw [← through_of_lt hle] at hw
      exact h ⟨pc, hpc, Nat.le_of_lt hle, w, hw, he⟩
    rw [through_of_lt hlt, ih hrest (by omega), get_apply hhere]

end Registers

/-! ## Tests inside the condition -/

section Writes

variable {function : Prototype} {pc : Nat} {i : Instruction}

theorem Frame.writes_of_conditional (rs : Registers) (hi : function.code[pc]? = some i)
    (hc : i.isConditional = true) : (Frame.mk function pc rs).writes = [] := by
  simp [Frame.writes, hi, hc]

theorem Frame.writes_of_jump (rs : Registers) (hi : function.code[pc]? = some i)
    (hrole : i.role = .jump) : (Frame.mk function pc rs).writes = [] := by
  simp [Frame.writes, hi, hrole]

/-- An instruction that computes performs its writes. -/
theorem Frame.apply_writes {s s₁ : RegisterStack} (hi : function.code[pc]? = some i)
    (hrole : i.role ≠ .jump) (ht : i.isTransparent = true)
    (he : RegisterStack.execute function pc i s = .ok () s₁) :
    s.current.apply (Frame.mk function pc s.current).writes = s₁.current := by
  have hc := Instruction.isConditional_of_isTransparent ht
  unfold RegisterStack.execute at he
  split at he
  · next writes hwrites =>
    cases he
    have heffect : (Frame.mk function pc s.current).effect i = .ok writes := hwrites
    simp [Frame.writes, hi, hc, hrole, heffect]
  · cases he

end Writes

/-- Every recorded test is rendered with the registers after the instructions before it. -/
theorem Chain.Scans.text_eq {function : Prototype} {inLoop : Bool} {a b : Chain.Stage}
    {ps : List Pair} (h : Chain.Scans function inLoop a ps b) :
    ∀ p ∈ ps, a.pc ≤ p.pc ∧ p.text = (Frame.mk function p.pc
      (a.stack.current.through function a.pc p.pc)).testText p.instruction := by
  induction h with
  | here => simp
  | jump hi hrole rest ih =>
    intro p hp
    obtain ⟨hle, htext⟩ := ih p hp
    refine ⟨Nat.le_of_lt hle, ?_⟩
    rw [htext, Registers.through_of_lt hle, Frame.writes_of_jump _ hi hrole]
    rfl
  | compute hi hrole ht he rest ih =>
    intro p hp
    obtain ⟨hle, htext⟩ := ih p hp
    refine ⟨Nat.le_of_lt hle, ?_⟩
    rw [htext, Registers.through_of_lt hle, Frame.apply_writes hi hrole ht he]
  | test hi hc hj hforward rest ih =>
    intro p hp
    rcases List.mem_cons.1 hp with rfl | hp
    · refine ⟨Nat.le_refl _, ?_⟩
      simp only [Pair.ofFrame, RegisterStack.frame, Registers.through_self]
    · -- The test and its jump are passed over.
      obtain ⟨hle, htext⟩ := ih p hp
      obtain ⟨jump, hjump, hrole⟩ := Code.exists_jump hj
      refine ⟨Nat.le_of_lt (Nat.lt_of_succ_lt hle), ?_⟩
      rw [htext, Registers.through_of_lt (Nat.lt_of_succ_lt hle),
        Frame.writes_of_conditional _ hi hc, Registers.through_of_lt hle,
        Frame.writes_of_jump _ hjump hrole]
      rfl

/-! ## The pass behind the condition -/

/-- At a place, a register is rendered alike with two register files. -/
def Registers.RendersAs (function : Prototype) (pc : Nat) (rs rs' : Registers) (r : UInt8) : Prop :=
  (Frame.mk function pc rs).register r = (Frame.mk function pc rs').register r

instance (function : Prototype) (pc : Nat) (rs rs' : Registers) (r : UInt8) :
    Decidable (Registers.RendersAs function pc rs rs' r) :=
  inferInstanceAs (Decidable (_ = _))

/-- A variable that lives in a register hides the contents. -/
theorem Registers.rendersAs_iff {function : Prototype} {pc : Nat} {rs rs' : Registers} {r : UInt8} :
    RendersAs function pc rs rs' r ↔
      (function.localName? r pc).isSome = true ∨ rs.rendered r = rs'.rendered r := by
  unfold RendersAs Frame.register
  cases function.localName? r pc with
  | none => simp
  | some name => simp

/-- The pass goes on behind a condition that decides a jump with the registers of its start. -/
theorem Cursor.advance?_of_test {function : Prototype} {before after : Cursor} {c : Condition}
    (h : before.advance? function = some (some (.condition c), after)) (htest : c.isValue = false) :
    c.start = before.pc ∧ after = ⟨c.resume, before.stack⟩ ∧
      ∃ chain s, Chain.collect function (Code.jumpsBack function.code before.pc) before.pc
        before.stack.push = .ok chain s := by
  have hlt := Nat.le_of_lt (lt_of_advance? h).1
  obtain ⟨-, hr, -⟩ | ⟨⟨i, hi, hc⟩, condition, s, hs, hr, -⟩ | ⟨-, cause, hr, -⟩ := advance?_cases h
  · cases hr
  · cases hr
    obtain ⟨hstart, hresume, -, chain, s₁, hcollect, -⟩ := Condition.span_of_startingAt hlt hs
    have hstack : s = before.stack := by
      rw [← RegisterStack.left_of_ok hs, Condition.left_startingAt]
    have hbind : Region.bindValue s c = s := by
      unfold Region.bindValue Condition.register?
      unfold Condition.isValue at htest
      cases huse : c.use with
      | test body exit => rfl
      | value consumer target register => simp [huse] at htest
    have hafter := h.symm.trans (advance?_of_condition hi hc hs)
    rw [Nat.max_eq_left hresume, hbind, hstack] at hafter
    cases hafter
    exact ⟨hstart, rfl, chain, s₁, hcollect⟩
  · cases hr

/-- Every jump between the start of a condition and the place where it resumes belongs to a test and
goes to the exit: the body is reached only past all tests. -/
def Condition.IsConjunction (code : List Instruction) (c : Condition) : Prop :=
  ∀ pc < c.resume, c.start ≤ pc → ∀ i ∈ code[pc]?, i.role = .jump →
    Code.BehindTest code pc ∧ i.jumpTarget? pc = some c.endPc

instance (code : List Instruction) (c : Condition) : Decidable (c.IsConjunction code) :=
  inferInstanceAs (Decidable (∀ pc < c.resume, _))

namespace Region

/-- Behind a condition that decides a jump the pass goes on with the registers of its start, while
the tests of the condition are rendered with the registers written before them. So a register that
an instruction of the condition writes is rendered behind it as after these instructions only if a
variable lives there or the contents happen to have the same text; all other registers are. -/
theorem registers_of_recover {function : Prototype} {c : Condition}
    (h : .condition c ∈ recover function) (htest : c.isValue = false) :
    ∃ before, Cursor.Visited function before ∧ before.pc = c.start ∧
      before.advance? function = some (some (.condition c), ⟨c.resume, before.stack⟩) ∧
      (∃ chain s, Chain.collect function (Code.jumpsBack function.code c.start) c.start
          before.stack.push = .ok chain s ∧
        ∀ p ∈ chain.pairs, p.text = (Frame.mk function p.pc
          (before.stack.current.through function c.start p.pc)).testText p.instruction) ∧
      ∀ r, (Registers.RendersAs function c.resume before.stack.current
            (before.stack.current.through function c.start c.resume) r ↔
          (function.localName? r c.resume).isSome = true ∨ before.stack.current.rendered r =
            (before.stack.current.through function c.start c.resume).rendered r) ∧
        (¬Registers.Written function c.start c.resume before.stack.current r →
          Registers.RendersAs function c.resume before.stack.current
            (before.stack.current.through function c.start c.resume) r) := by
  obtain ⟨before, after, hvisited, hadvance⟩ := Cursor.exists_step_of_mem_regions h
  obtain ⟨hstart, rfl, chain, s, hcollect⟩ := Cursor.advance?_of_test hadvance htest
  obtain ⟨b, hscan, -⟩ := Chain.scans_of_collect hcollect
  rw [hstart]
  refine ⟨before, hvisited, rfl, hadvance, ⟨chain, s, hcollect, fun p hp => ?_⟩, fun r => ?_⟩
  · exact (hscan.text_eq p hp).2
  · refine ⟨Registers.rendersAs_iff, fun hwritten => Registers.rendersAs_iff.2 (.inr ?_)⟩
    rw [Registers.rendered, Registers.rendered, Registers.get_through hwritten]

/-- The code of a test of `a` and `b` whose body calls `f` and then tests register 0 again. This
register holds `a` at the first test and `b` from the second one on. -/
def staleTest : Prototype where
  code :=
    [.ofABx .getGlobal 0 0, .ofABC .eq 0 0 257, .ofAsBx .jmp 0 9, .ofABx .getGlobal 0 2,
     .ofABC .eq 0 0 257, .ofAsBx .jmp 0 6, .ofABx .getGlobal 1 3, .ofABC .call 1 1 1,
     .ofABC .eq 0 0 260, .ofAsBx .jmp 0 2, .ofABx .getGlobal 1 3, .ofABC .call 1 1 1,
     .ofABC .ret 0 1 0]
  constants := [.string [97], .string [111, 110], .string [98], .string [102],
    .string [111, 102, 102]]

/-- The first condition of `staleTest`. -/
def staleTestFirst : Condition :=
  ⟨1, 6, .join .and (.atom "a == \"on\"" false) (.atom "b == \"on\"" false) false, .test 6 12⟩

/-- The pass goes on at 6 with the registers that it had at 1. -/
theorem registers_of_recover_staleTest :
    ∃ before, Cursor.Visited staleTest before ∧
      before.advance? staleTest = some (some (.condition staleTestFirst), ⟨6, before.stack⟩) ∧
      ∀ r, ¬Registers.Written staleTest 1 6 before.stack.current r →
        Registers.RendersAs staleTest 6 before.stack.current
          (before.stack.current.through staleTest 1 6) r := by
  have hmem : Region.condition staleTestFirst ∈ recover staleTest := by decide +kernel
  obtain ⟨before, hvisited, -, hadvance, -, hregisters⟩ := registers_of_recover hmem rfl
  exact ⟨before, hvisited, hadvance, fun r => (hregisters r).2⟩

/-- Where the pass finds a conjunction that decides a jump, it goes on with registers that are
rendered as those after the instructions of the conjunction. -/
def KeepsWrites (function : Prototype) : Prop :=
  ∀ before after c, Cursor.Visited function before →
    before.advance? function = some (some (.condition c), after) → c.isValue = false →
    c.IsConjunction function.code →
      ∀ r, Registers.RendersAs function c.resume after.stack.current
        (before.stack.current.through function c.start c.resume) r

/-- The conjunction of `staleTest` leaves `b` in register 0, but the pass goes on with `a` there, so
that the last test is rendered as one of `a`. -/
theorem not_keepsWrites_staleTest :
    ¬KeepsWrites staleTest ∧ (recover staleTest).map Region.text =
      ["[1..12] if a == \"on\" and b == \"on\" (true -> 6, false -> 12)",
       "[8..12] if a == \"off\" (true -> 10, false -> 12)"] := by
  refine ⟨fun hkeeps => ?_, by decide +kernel⟩
  have hload : staleTest.code[Cursor.initial.pc]? = some (.ofABx .getGlobal 0 0) := rfl
  have hfirst := Cursor.advance?_of_not_conditional hload rfl
  have hfound : (Cursor.advance? staleTest ⟨1, Region.step staleTest 0 (.ofABx .getGlobal 0 0)
      .empty⟩).bind (·.1) = some (.condition staleTestFirst) := by
    decide +kernel
  obtain ⟨⟨_, after⟩, hadvance, rfl⟩ := Option.bind_eq_some_iff.1 hfound
  have hregister := hkeeps _ _ _ (.single ⟨_, hfirst⟩) hadvance rfl (by decide +kernel) 0
  rw [(Cursor.advance?_of_test hadvance rfl).2.1] at hregister
  revert hregister
  decide +kernel

end Region

end ShortCircuit
