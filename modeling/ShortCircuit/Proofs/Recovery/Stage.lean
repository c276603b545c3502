import ShortCircuit.Proofs.Recovery.Path
import ShortCircuit.Proofs.Recovery.Scan

/-!
# The course of a collection

The collection of a chain goes from stage to stage: it passes a jump, executes an instruction that
computes, or records a test. It may stop or fail at any stage, and in both cases the tests recorded
before are known.

* `Chain.Scans` relates a stage to a later one by the tests that are recorded between them.
* `Chain.Ends`: how a collection ends at a stage. It fails for two reasons only.
* `Chain.exists_scans`: every collection goes from stage to stage until it ends.
* `Chain.Scans.recorded`: every conditional on the way is recorded.
* `Chain.Scans.forward`: outside a loop no recorded test jumps backwards.
-/

namespace ShortCircuit

namespace Chain

/-- A stage of a collection: where the current segment starts, the place that is looked at, and the
registers there. -/
structure Stage where
  key : Nat
  pc : Nat
  stack : RegisterStack

/-- A collection gets from one stage to another and records some tests on the way. -/
inductive Scans (function : Prototype) (inLoop : Bool) : Stage → List Pair → Stage → Prop
  | here (a : Stage) : Scans function inLoop a [] a
  | jump {key pc : Nat} {s : RegisterStack} {i : Instruction} {ps : List Pair} {b : Stage}
      (hi : function.code[pc]? = some i) (hrole : i.role = .jump)
      (rest : Scans function inLoop ⟨key, pc + 1, s⟩ ps b) : Scans function inLoop ⟨key, pc, s⟩ ps b
  | compute {key pc : Nat} {s s₁ : RegisterStack} {i : Instruction} {ps : List Pair} {b : Stage}
      (hi : function.code[pc]? = some i) (hrole : i.role ≠ .jump) (ht : i.isTransparent = true)
      (he : RegisterStack.execute function pc i s = .ok () s₁)
      (rest : Scans function inLoop ⟨key, pc + 1, s₁⟩ ps b) :
      Scans function inLoop ⟨key, pc, s⟩ ps b
  | test {key pc target : Nat} {s : RegisterStack} {i : Instruction} {ps : List Pair} {b : Stage}
      (hi : function.code[pc]? = some i) (hc : i.isConditional = true)
      (hj : Code.jumpAfter? function.code pc = some target)
      (hforward : inLoop = false → pc + 1 < target)
      (rest : Scans function inLoop ⟨pc + 2, pc + 2, s⟩ ps b) :
      Scans function inLoop ⟨key, pc, s⟩ (.ofFrame (s.frame function pc) key i target :: ps) b

/-- How a collection that started at a place ends at a stage: it stops, an instruction cannot be
executed, or a test of the first segment has no jump. -/
inductive Ends (function : Prototype) (start : Nat) (ps : List Pair) (b : Stage) :
    EStateM.Result ConditionError RegisterStack Chain → Prop
  | stop {c : Chain} (hc : c.pairs = ps) : Ends function start ps b (.ok c b.stack)
  | execution {e : ExecutionError} (s : RegisterStack) :
      Ends function start ps b (.error (.inconclusive start (.execution e)) s)
  | missingJump (hkey : b.key = start) (hc : Code.ConditionalAt function.code b.pc)
      (hj : Code.jumpAfter? function.code b.pc = none) (s : RegisterStack) :
      Ends function start ps b (.error (.inconclusive start (.missingJump b.pc)) s)

/-! ## Collections -/

section Collect

variable {function : Prototype} {inLoop : Bool} {start : Nat}

/-- A test is recorded unless it jumps backwards outside a loop. -/
theorem forward_of_not_back {pc target : Nat}
    (h : ¬(decide (target ≤ pc + 1) && !inLoop) = true) (hloop : inLoop = false) :
    pc + 1 < target := by
  subst hloop
  simpa using h

/-- A recorded test stands in front of what is recorded after it. -/
theorem Ends.cons {ps : List Pair} {b : Stage} {x : Analysis Chain} {s : RegisterStack}
    (h : Ends function start ps b (x s)) (p : Pair) :
    Ends function start (p :: ps) b ((do return (← x).cons p : Analysis Chain) s) := by
  generalize hr : x s = r at h
  cases h with
  | stop hc =>
    rw [Analysis.bind_of_ok hr]
    exact .stop (by rw [Chain.cons, hc])
  | execution s' =>
    rw [Analysis.bind_of_error hr]
    exact .execution s'
  | missingJump hkey hc hj s' =>
    rw [Analysis.bind_of_error hr]
    exact .missingJump hkey hc hj s'

/-- A collection goes from stage to stage until it ends. -/
theorem exists_scans (function : Prototype) (inLoop : Bool) (start key pc : Nat)
    (s : RegisterStack) :
    ∃ ps b, Scans function inLoop ⟨key, pc, s⟩ ps b ∧
      Ends function start ps b (collectFrom function inLoop start key pc s) := by
  induction key, pc using collectFrom.induct function inLoop start generalizing s with
  | case1 key pc hi =>
    rw [collectFrom_end hi]
    exact ⟨[], _, .here _, .stop rfl⟩
  | case2 pc i hi hc hj =>
    rw [collectFrom_conditional hi hc, hj]
    simp only [if_true]
    exact ⟨[], _, .here _, Ends.missingJump (b := ⟨start, pc, s⟩) rfl ⟨i, hi, hc⟩ hj s⟩
  | case3 key pc i hi hc hj hne =>
    rw [collectFrom_conditional hi hc, hj]
    simp only [if_neg hne]
    exact ⟨[], _, .here _, .stop rfl⟩
  | case4 key pc i hi hc target hj hback =>
    rw [collectFrom_conditional hi hc, hj]
    simp only [if_pos hback]
    exact ⟨[], _, .here _, .stop rfl⟩
  | case5 key pc i hi hc target hj hback ih =>
    rw [collectFrom_conditional hi hc, hj]
    simp only [if_neg hback]
    rw [Analysis.bind_of_ok (Analysis.frame_eq function pc s)]
    obtain ⟨ps, b, hb, hends⟩ := ih s
    exact ⟨_, b, .test hi hc hj (forward_of_not_back hback) hb, hends.cons _⟩
  | case6 key pc i hi hc hstore =>
    rw [collectFrom_other hi (by simpa using hc), if_pos hstore]
    exact ⟨[], _, .here _, .stop rfl⟩
  | case7 key pc i hi hc hstore hpair =>
    rw [collectFrom_other hi (by simpa using hc), if_neg hstore, if_pos hpair]
    exact ⟨[], _, .here _, .stop rfl⟩
  | case8 key pc i hi hc hstore hpair hjump ih =>
    rw [collectFrom_other hi (by simpa using hc), if_neg hstore, if_neg hpair, if_pos hjump]
    obtain ⟨ps, b, hb, hends⟩ := ih s
    exact ⟨ps, b, .jump hi hjump hb, hends⟩
  | case9 key pc i hi hc hstore hpair hjump ht ih =>
    rw [collectFrom_other hi (by simpa using hc), if_neg hstore, if_neg hpair, if_neg hjump,
      if_pos ht]
    cases he : Analysis.execute function start pc i s with
    | ok u s₁ =>
      rw [Analysis.bind_of_ok he]
      obtain ⟨ps, b, hb, hends⟩ := ih s₁
      exact ⟨ps, b, .compute hi hjump ht (Analysis.execute_eq_ok he) hb, hends⟩
    | error cause s₁ =>
      rw [Analysis.bind_of_error he]
      obtain ⟨e, rfl⟩ := Analysis.execute_eq_error he
      exact ⟨[], _, .here _, .execution s₁⟩
  | case10 key pc i hi hc hstore hpair hjump ht =>
    rw [collectFrom_other hi (by simpa using hc), if_neg hstore, if_neg hpair, if_neg hjump,
      if_neg ht]
    exact ⟨[], _, .here _, .stop rfl⟩

/-- A collection that stops returns the tests recorded on its way. -/
theorem scans_of_collect {c : Chain} {s s' : RegisterStack}
    (h : collect function inLoop start s = .ok c s') :
    ∃ b, Scans function inLoop ⟨start, start, s⟩ c.pairs b ∧ b.stack = s' := by
  obtain ⟨ps, b, hb, hends⟩ := exists_scans function inLoop start start start s
  rw [← collect, h] at hends
  cases hends with
  | stop hc => exact ⟨b, hc ▸ hb, rfl⟩

end Collect

/-! ## Facts about the course -/

section Scans

variable {function : Prototype} {inLoop : Bool} {a b : Stage} {ps : List Pair}
  (h : Scans function inLoop a ps b)

include h

/-- The segment changes only with a recorded test. -/
theorem Scans.key_of_mem (ha : a.key ≤ a.pc) :
    a.key ≤ b.key ∧ b.key ≤ b.pc ∧ ∀ p ∈ ps, a.key < b.key := by
  induction h with
  | here => exact ⟨Nat.le_refl _, ha, by simp⟩
  | jump hi hrole rest ih => exact ih (Nat.le_succ_of_le ha)
  | compute hi hrole ht he rest ih => exact ih (Nat.le_succ_of_le ha)
  | test hi hc hj hforward rest ih =>
    obtain ⟨hle, hb, -⟩ := ih (Nat.le_refl _)
    have hlt := Nat.lt_of_le_of_lt ha (Nat.lt_of_succ_lt hle)
    exact ⟨Nat.le_of_lt hlt, hb, fun p _ => hlt⟩

/-- Every conditional on the way is recorded. -/
theorem Scans.recorded {q : Nat} (hle : a.pc ≤ q) (hlt : q < b.pc)
    (hq : Code.ConditionalAt function.code q) : ∃ p ∈ ps, p.pc = q := by
  induction h with
  | here => omega
  | @jump key pc s i ps b hi hrole rest ih =>
    refine ih ?_ hlt
    have hne : q ≠ pc := by
      rintro rfl
      exact Code.not_conditionalAt hi (by simp [Instruction.isConditional, hrole]) hq
    exact Nat.lt_of_le_of_ne hle hne.symm
  | @compute key pc s s₁ i ps b hi hrole ht he rest ih =>
    refine ih ?_ hlt
    have hne : q ≠ pc := by
      rintro rfl
      exact Code.not_conditionalAt hi (Instruction.isConditional_of_isTransparent ht) hq
    exact Nat.lt_of_le_of_ne hle hne.symm
  | @test key pc target s i ps b hi hc hj hforward rest ih =>
    by_cases hpc : q = pc
    · exact ⟨_, List.mem_cons_self, hpc.symm⟩
    · have hjump : q ≠ pc + 1 := by
        rintro rfl
        exact (Code.not_conditionalAt_jump hj).2 hq
      dsimp only at hle
      obtain ⟨p, hp, hpq⟩ := ih (by dsimp only; omega) hlt
      exact ⟨p, List.mem_cons_of_mem _ hp, hpq⟩

/-- Outside a loop no recorded test jumps backwards. -/
theorem Scans.forward (hloop : inLoop = false) : ∀ p ∈ ps, p.pc + 1 < p.target := by
  induction h with
  | here => simp
  | jump hi hrole rest ih => exact ih
  | compute hi hrole ht he rest ih => exact ih
  | test hi hc hj hforward rest ih =>
    intro p hp
    rcases List.mem_cons.1 hp with rfl | hp
    · exact hforward hloop
    · exact ih p hp

end Scans

end Chain

end ShortCircuit
