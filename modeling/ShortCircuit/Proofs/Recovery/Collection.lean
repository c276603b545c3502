import ShortCircuit.Recovery.Condition
import Mathlib.Tactic.Common

/-!
# The collected tests

What the collection of a chain returns, as facts about the code: the tests stand at increasing
places, each is a conditional followed by its jump, and the segment of a test starts right after
the pair before it.

* `Analysis.bind_eq_ok` takes a successful analysis apart.
* `Chain.segmented_of_collect`: the collected tests are segmented.
* `Condition.startingAt_eq_ok`: the parts of a successful analysis.
-/

namespace ShortCircuit

namespace Analysis

theorem bind_eq_ok {α β : Type} {x : Analysis α} {f : α → Analysis β} {s s' : RegisterStack}
    {b : β} (h : (x >>= f) s = .ok b s') : ∃ a s₁, x s = .ok a s₁ ∧ f a s₁ = .ok b s' := by
  change EStateM.bind x f s = .ok b s' at h
  unfold EStateM.bind at h
  split at h
  · next a s₁ hx => exact ⟨a, s₁, hx, h⟩
  · cases h

theorem bind_eq_error {α β : Type} {x : Analysis α} {f : α → Analysis β} {s s' : RegisterStack}
    {cause : ConditionError} (h : (x >>= f) s = .error cause s') :
    x s = .error cause s' ∨ ∃ a s₁, x s = .ok a s₁ ∧ f a s₁ = .error cause s' := by
  change EStateM.bind x f s = .error cause s' at h
  unfold EStateM.bind at h
  split at h
  · next a s₁ hx => exact .inr ⟨a, s₁, hx, h⟩
  · next e s₁ hx =>
    cases h
    exact .inl hx

theorem bind_of_ok {α β : Type} {x : Analysis α} {f : α → Analysis β} {s s₁ : RegisterStack}
    {a : α} (h : x s = .ok a s₁) : (x >>= f) s = f a s₁ := by
  show EStateM.bind x f s = f a s₁
  rw [EStateM.bind, h]

theorem bind_of_error {α β : Type} {x : Analysis α} {f : α → Analysis β} {s s₁ : RegisterStack}
    {cause : ConditionError} (h : x s = .error cause s₁) : (x >>= f) s = .error cause s₁ := by
  show EStateM.bind x f s = .error cause s₁
  rw [EStateM.bind, h]

theorem pure_eq_ok {α : Type} {a b : α} {s s' : RegisterStack}
    (h : (pure a : Analysis α) s = .ok b s') : a = b ∧ s = s' := by
  cases h
  exact ⟨rfl, rfl⟩

theorem eq_ok_of_run' {α : Type} {x : Analysis α} {s : RegisterStack} {a : α}
    (h : x.run' s = some a) : ∃ s', x s = .ok a s' := by
  unfold EStateM.run' EStateM.run at h
  split at h
  · next b s' hx =>
    cases h
    exact ⟨s', hx⟩
  · cases h

theorem ofExcept_ok {α : Type} (start : Nat) (a : α) (s : RegisterStack) :
    ofExcept start (.ok a) s = .ok a s := rfl

theorem ofExcept_eq_ok {α : Type} {start : Nat} {x : Except Obstacle α} {a : α}
    {s s' : RegisterStack} (h : ofExcept start x s = .ok a s') : x = .ok a ∧ s' = s := by
  cases x with
  | ok b =>
    obtain ⟨rfl, rfl⟩ := pure_eq_ok h
    exact ⟨rfl, rfl⟩
  | error e => cases h

theorem ofExcept_eq_error {α : Type} {start : Nat} {x : Except Obstacle α} {cause : ConditionError}
    {s s' : RegisterStack} (h : ofExcept start x s = .error cause s') :
    ∃ obstacle, x = .error obstacle ∧ cause = .inconclusive start obstacle := by
  cases x with
  | ok a => cases h
  | error obstacle =>
    cases h
    exact ⟨obstacle, rfl, rfl⟩

theorem frame_eq (function : Prototype) (pc : Nat) (s : RegisterStack) :
    frame function pc s = .ok (s.frame function pc) s := rfl

theorem execute_eq_ok {function : Prototype} {start pc : Nat} {i : Instruction} {u : Unit}
    {s s' : RegisterStack} (h : execute function start pc i s = .ok u s') :
    RegisterStack.execute function pc i s = .ok () s' := by
  change EStateM.adaptExcept _ _ s = .ok u s' at h
  unfold EStateM.adaptExcept at h
  split at h
  · cases h
  · next a s₁ hx =>
    cases h
    exact hx

theorem execute_eq_error {function : Prototype} {start pc : Nat} {i : Instruction}
    {cause : ConditionError} {s s' : RegisterStack}
    (h : execute function start pc i s = .error cause s') :
    ∃ e, cause = .inconclusive start (.execution e) := by
  change EStateM.adaptExcept _ _ s = .error cause s' at h
  unfold EStateM.adaptExcept at h
  split at h
  · next e s₁ hx =>
    cases h
    exact ⟨e, rfl⟩
  · cases h

end Analysis

namespace Chain

/-- Tests from a key on: each stands in a segment that starts at its key, is a conditional followed
by its jump, and the next segment starts after that jump. -/
def Segmented (code : List Instruction) : Nat → List Pair → Prop
  | _, [] => True
  | key, p :: ps =>
    p.key = key ∧ key ≤ p.pc ∧ code[p.pc]? = some p.instruction ∧
      p.instruction.isConditional = true ∧ Code.jumpAfter? code p.pc = some p.target ∧
      Segmented code (p.pc + 2) ps

section Collect

variable {function : Prototype} {inLoop : Bool} {start key pc : Nat} {i : Instruction}

theorem collectFrom_end (hi : function.code[pc]? = none) :
    collectFrom function inLoop start key pc = pure stop := by
  rw [collectFrom]
  split
  · rfl
  · next j hj => cases hi.symm.trans hj

theorem collectFrom_conditional (hi : function.code[pc]? = some i)
    (hc : i.isConditional = true) :
    collectFrom function inLoop start key pc =
      match Code.jumpAfter? function.code pc with
      | none => if key = start then throw (.inconclusive start (.missingJump pc)) else pure stop
      | some target =>
        if target ≤ pc + 1 && !inLoop then pure stop
        else do
          let pair := Pair.ofFrame (← Analysis.frame function pc) key i target
          let rest ← collectFrom function inLoop start (pc + 2) (pc + 2)
          return rest.cons pair := by
  rw [collectFrom]
  split
  · next hj => cases hi.symm.trans hj
  · next j hj =>
    cases hi.symm.trans hj
    exact if_pos hc

theorem collectFrom_other (hi : function.code[pc]? = some i) (hc : i.isConditional = false) :
    collectFrom function inLoop start key pc =
      if i.role = .tableStore ∨ i.role = .globalStore then pure (stopAt pc)
      else if Code.isBooleanEnd function.code pc then pure (stopAt (pc + 2))
      else if i.role = .jump then collectFrom function inLoop start key (pc + 1)
      else if i.isTransparent then do
        Analysis.execute function start pc i
        collectFrom function inLoop start key (pc + 1)
      else pure stop := by
  rw [collectFrom]
  split
  · next hj => cases hi.symm.trans hj
  · next j hj =>
    cases hi.symm.trans hj
    rw [if_neg (by simp [hc])]

end Collect

theorem segmented_of_collectFrom {function : Prototype} {inLoop : Bool} {start key pc : Nat}
    {c : Chain} {s s' : RegisterStack}
    (h : collectFrom function inLoop start key pc s = .ok c s') (hk : key ≤ pc) :
    Segmented function.code key c.pairs := by
  induction key, pc using collectFrom.induct function inLoop start generalizing c s s' with
  | case1 key pc hi =>
    rw [collectFrom_end hi] at h
    obtain ⟨rfl, rfl⟩ := Analysis.pure_eq_ok h
    trivial
  | case2 pc i hi hc hj =>
    rw [collectFrom_conditional hi hc, hj] at h
    simp only [if_true] at h
    cases h
  | case3 key pc i hi hc hj hne =>
    rw [collectFrom_conditional hi hc, hj] at h
    simp only [if_neg hne] at h
    obtain ⟨rfl, rfl⟩ := Analysis.pure_eq_ok h
    trivial
  | case4 key pc i hi hc target hj hback =>
    rw [collectFrom_conditional hi hc, hj] at h
    simp only [if_pos hback] at h
    obtain ⟨rfl, rfl⟩ := Analysis.pure_eq_ok h
    trivial
  | case5 key pc i hi hc target hj hback ih =>
    rw [collectFrom_conditional hi hc, hj] at h
    simp only [if_neg hback] at h
    obtain ⟨f, s₁, hf, h⟩ := Analysis.bind_eq_ok h
    cases hf
    obtain ⟨rest, s₂, hrest, h⟩ := Analysis.bind_eq_ok h
    obtain ⟨rfl, rfl⟩ := Analysis.pure_eq_ok h
    exact ⟨rfl, hk, hi, hc, hj, ih hrest (Nat.le_refl _)⟩
  | case6 key pc i hi hc hstore =>
    rw [collectFrom_other hi (by simpa using hc), if_pos hstore] at h
    obtain ⟨rfl, rfl⟩ := Analysis.pure_eq_ok h
    trivial
  | case7 key pc i hi hc hstore hpair =>
    rw [collectFrom_other hi (by simpa using hc), if_neg hstore, if_pos hpair] at h
    obtain ⟨rfl, rfl⟩ := Analysis.pure_eq_ok h
    trivial
  | case8 key pc i hi hc hstore hpair hjump ih =>
    rw [collectFrom_other hi (by simpa using hc), if_neg hstore, if_neg hpair, if_pos hjump] at h
    exact ih h (Nat.le_succ_of_le hk)
  | case9 key pc i hi hc hstore hpair hjump ht ih =>
    rw [collectFrom_other hi (by simpa using hc), if_neg hstore, if_neg hpair, if_neg hjump,
      if_pos ht] at h
    obtain ⟨-, s₁, -, h⟩ := Analysis.bind_eq_ok h
    exact ih h (Nat.le_succ_of_le hk)
  | case10 key pc i hi hc hstore hpair hjump ht =>
    rw [collectFrom_other hi (by simpa using hc), if_neg hstore, if_neg hpair, if_neg hjump,
      if_neg ht] at h
    obtain ⟨rfl, rfl⟩ := Analysis.pure_eq_ok h
    trivial

/-- The collected tests are segmented from the start on. -/
theorem segmented_of_collect {function : Prototype} {inLoop : Bool} {start : Nat} {c : Chain}
    {s s' : RegisterStack} (h : collect function inLoop start s = .ok c s') :
    Segmented function.code start c.pairs :=
  segmented_of_collectFrom h (Nat.le_refl _)

end Chain

/-- A chain decides a jump, or its value is consumed where the collection says. -/
theorem Context.ofChain_cases (c : Chain) (inLoop : Bool) (start : Nat) :
    Context.ofChain c inLoop start = Context.ofExits (c.table start) inLoop start ∨
      ∃ consumer, c.consumer = some consumer ∧
        Context.ofChain c inLoop start = .ok (.value consumer) := by
  unfold Context.ofChain
  dsimp only
  split
  · exact .inl rfl
  · next consumer hconsumer =>
    split_ifs
    · exact .inl rfl
    · exact .inr ⟨consumer, hconsumer, rfl⟩

namespace Condition

/-- A condition found at a place is that of the chain collected there. -/
theorem startingAt_eq_ok {function : Prototype} {inLoop : Bool} {start : Nat}
    {s s' : RegisterStack} {c : Condition}
    (h : startingAt function inLoop start s = .ok (some c) s') :
    ∃ chain s₁ s₂, Chain.collect function inLoop start s.push = .ok chain s₁ ∧
      chain.pairs ≠ [] ∧ ofChain function inLoop start chain s₁ = .ok c s₂ := by
  unfold startingAt RegisterStack.inScope at h
  split at h
  · next a s₂ hbody =>
    cases h
    obtain ⟨chain, s₁, hchain, hbody⟩ := Analysis.bind_eq_ok hbody
    split at hbody
    · obtain ⟨h, -⟩ := Analysis.pure_eq_ok hbody
      cases h
    · next hne =>
      obtain ⟨c', s₃, hc', hbody⟩ := Analysis.bind_eq_ok hbody
      obtain ⟨h, rfl⟩ := Analysis.pure_eq_ok hbody
      cases h
      exact ⟨chain, s₁, s₃, hchain, by simpa using hne, hc'⟩
  · cases h

theorem startingAt_of_collect {function : Prototype} {inLoop : Bool} {start : Nat}
    {s s₁ s₂ : RegisterStack} {chain : Chain} {c : Condition}
    (hcollect : Chain.collect function inLoop start s.push = .ok chain s₁)
    (hne : chain.pairs ≠ []) (hc : ofChain function inLoop start chain s₁ = .ok c s₂) :
    startingAt function inLoop start s = .ok (some c) s₂.pop := by
  have hempty : ¬chain.pairs.isEmpty = true := by simpa using hne
  rw [startingAt, RegisterStack.inScope, Analysis.bind_of_ok hcollect, if_neg hempty,
    Analysis.bind_of_ok hc]
  rfl

/-- The table of a test is closed with the leaves at its exits, or fails as they do. -/
theorem close_test (function : Prototype) (start body exit : Nat) (t : Table) :
    close function start (.test body exit) t =
      Analysis.ofExcept start ((testLeaves body exit t.exits).map fun leaves =>
        ((leaves.foldl Table.insert t).link, none)) := by
  simp only [close]
  cases testLeaves body exit t.exits with
  | ok leaves => rfl
  | error obstacle => rfl

/-- The parts of the analysis of a chain: its context, the closed table, and its reduction. -/
theorem ofChain_eq_ok {function : Prototype} {inLoop : Bool} {start : Nat} {chain : Chain}
    {s s' : RegisterStack} {c : Condition}
    (h : ofChain function inLoop start chain s = .ok c s') :
    ∃ context table target s₁ reduced, Context.ofChain chain inLoop start = .ok context ∧
      close function start context (chain.table start) s = .ok (table, target) s₁ ∧
      table.reduce = (.ok (), reduced) ∧ reduced.statement = .ok c.statement ∧
      c.start = start ∧
      match context with
      | .test body exit => c.resume = chain.resume start ∧ c.use = .test body exit
      | .value consumer => c.resume = consumer ∧
          c.use = valueUse (s₁.frame function consumer) consumer chain.register? target := by
  obtain ⟨context, s₁, hx, h₁⟩ := Analysis.bind_eq_ok h
  obtain ⟨⟨table, target⟩, s₂, hclose, h₂⟩ := Analysis.bind_eq_ok h₁
  obtain ⟨u, s₃, hy, h₃⟩ := Analysis.bind_eq_ok h₂
  obtain ⟨f, s₄, hz, h₄⟩ := Analysis.bind_eq_ok h₃
  obtain ⟨hcontext, rfl⟩ := Analysis.ofExcept_eq_ok hx
  obtain ⟨hreduce, rfl⟩ := Analysis.ofExcept_eq_ok hy
  obtain ⟨hstatement, rfl⟩ := Analysis.ofExcept_eq_ok hz
  refine ⟨context, table, target, s₄, table.reduce.2, hcontext, hclose, ?_, ?_⟩
  · rw [← hreduce]
  · cases context with
    | test body exit =>
      obtain ⟨rfl, rfl⟩ := Analysis.pure_eq_ok h₄
      exact ⟨hstatement, rfl, rfl, rfl⟩
    | value consumer =>
      obtain ⟨g, s₅, hg, h₅⟩ := Analysis.bind_eq_ok h₄
      cases hg
      obtain ⟨rfl, rfl⟩ := Analysis.pure_eq_ok h₅
      exact ⟨hstatement, rfl, rfl, rfl⟩

/-- A use as a value keeps the consumer. -/
theorem exists_valueUse_eq (f : Frame) (consumer : Nat) (assigned : Option UInt8)
    (target : Option String) :
    ∃ target' register, valueUse f consumer assigned target = .value consumer target' register := by
  unfold valueUse
  dsimp only
  split
  · exact ⟨_, _, rfl⟩
  · exact ⟨_, _, rfl⟩

end Condition

end ShortCircuit
