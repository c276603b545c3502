import ShortCircuit.Proofs.Recovery.Exits

/-!
# Why the analysis of a condition fails

The analysis has several parts, and each part fails in its own ways: the collection when an
instruction cannot be executed or the first test has no jump, the choice of a context when the exits
are not two, a path when it does not get to the consumer, the reduction when it stops early or the
root is gone. What the exits of a chain look like excludes some failures and bounds others.

* `Analysis.FailsOnly`: an action fails only with causes of some kind; closed under sequencing.
* `Context.ofExits_eq_error`: what a wrong number of exits can be.
* `Condition.Obstructed`: the parts of the analysis and how each of them fails.
* `Condition.obstructed_of_error`: every failure of the analysis is one of these.
* `Condition.obstacle_of_error`: which obstacles there are.
-/

namespace ShortCircuit

namespace Analysis

variable {α β : Type} {P : ConditionError → Prop}

/-- An action fails only with causes that satisfy a condition. -/
def FailsOnly (P : ConditionError → Prop) (x : Analysis α) : Prop :=
  ∀ ⦃s cause s'⦄, x s = .error cause s' → P cause

theorem failsOnly_pure (a : α) : FailsOnly P (pure a : Analysis α) := by
  intro s cause s' h
  cases h

theorem failsOnly_throw {cause : ConditionError} (h : P cause) :
    FailsOnly P (throw cause : Analysis α) := by
  rintro s _ s' ⟨⟩
  exact h

theorem FailsOnly.bind {x : Analysis α} {f : α → Analysis β} (hx : FailsOnly P x)
    (hf : ∀ a, FailsOnly P (f a)) : FailsOnly P (x >>= f) := by
  intro s cause s' h
  rcases bind_eq_error h with h | ⟨a, s₁, -, h⟩
  · exact hx h
  · exact hf a h

theorem failsOnly_frame (function : Prototype) (pc : Nat) :
    FailsOnly P (frame function pc) := by
  intro s cause s' h
  cases h

theorem failsOnly_execute {start : Nat} (h : ∀ e, P (.inconclusive start (.execution e)))
    (function : Prototype) (pc : Nat) (i : Instruction) :
    FailsOnly P (execute function start pc i) := by
  intro s cause s' hs
  obtain ⟨e, rfl⟩ := execute_eq_error hs
  exact h e

/-- A scope does not change the cause of a failure. -/
theorem FailsOnly.inScope {x : Analysis α} (hx : FailsOnly P x) :
    FailsOnly P (RegisterStack.inScope x : Analysis α) := by
  intro s cause s' h
  unfold RegisterStack.inScope at h
  split at h
  · cases h
  · next hs =>
    cases h
    exact hx hs

end Analysis

open Analysis

/-! ## Paths -/

namespace Path

/-- The failures of paths: an instruction cannot be executed, a path does not get to the consumer,
or two paths store to different destinations. -/
inductive IsFailure (start : Nat) : ConditionError → Prop
  | execution (e : ExecutionError) : IsFailure start (.inconclusive start (.execution e))
  | unresolved (origin : Nat) : IsFailure start (.inconclusive start (.unresolvedPath origin))
  | conflict (first second : String) : IsFailure start (.conflictingTargets first second)

variable (function : Prototype) (start consumer : Nat)

theorem failsOnly_followFrom (origin : Nat) (wrote : Option UInt8) (pc : Nat) :
    FailsOnly (IsFailure start) (followFrom function start consumer origin wrote pc) := by
  have hthrow : FailsOnly (IsFailure start)
      (throw (.inconclusive start (.unresolvedPath origin)) : Analysis PathEnd) :=
    failsOnly_throw (.unresolved origin)
  have hstore : ∀ {wrote pc i}, pc ≠ consumer → function.code[pc]? = some i →
      i.role = .tableStore ∨ i.role = .globalStore →
      FailsOnly (IsFailure start) (followFrom function start consumer origin wrote pc) := by
    intro wrote pc i hpc hi hrole
    rw [followFrom_store hpc hi hrole]
    refine (failsOnly_frame function pc).bind fun f => ?_
    cases f.assignment? i with
    | some a => exact failsOnly_pure _
    | none => exact hthrow
  have hexecute := failsOnly_execute (P := IsFailure start) .execution function
  induction wrote, pc using followFrom.induct function consumer with
  | case1 wrote =>
    rw [followFrom, if_pos rfl]
    refine (failsOnly_frame function consumer).bind fun f => ?_
    cases wrote with
    | none => exact failsOnly_pure _
    | some r => exact failsOnly_pure _
  | case2 wrote pc hpc hi =>
    rw [followFrom_end hpc hi]
    exact hthrow
  | case3 wrote pc hpc i hi hrole => exact hstore hpc hi (.inl hrole)
  | case4 wrote pc hpc i hi hrole => exact hstore hpc hi (.inr hrole)
  | case5 wrote pc hpc i hi hrole ih =>
    obtain ⟨ht, hd⟩ := Instruction.of_booleanLoad hrole
    rw [followFrom_compute hpc hi (by simp [hrole]) ht, hd, Instruction.after_of_booleanLoad hrole]
    exact (hexecute pc i).bind fun _ => ih
  | case6 wrote pc hpc i hi hrole target ht hlt ih =>
    rw [followFrom_jump hpc hi hrole, ht]
    simp only [if_pos hlt]
    exact ih
  | case7 wrote pc hpc i hi hrole target ht hlt =>
    rw [followFrom_jump hpc hi hrole, ht]
    simp only [if_neg hlt]
    exact hthrow
  | case8 wrote pc hpc i hi hrole ht =>
    rw [followFrom_jump hpc hi hrole, ht]
    exact hthrow
  | case9 wrote pc hpc i hi ht htable hglobal hload hjump ih =>
    rw [followFrom_compute hpc hi hjump ht, Instruction.after_of_ne hload]
    exact (hexecute pc i).bind fun _ => ih
  | case10 wrote pc hpc i hi ht htable hglobal hload hjump =>
    rw [followFrom_other hpc hi htable hglobal (by simpa using ht)]
    exact hthrow

theorem failsOnly_joinTarget (first second : Option String) :
    FailsOnly (IsFailure start) (joinTarget first second) := by
  unfold joinTarget
  split
  · split_ifs
    · exact failsOnly_pure _
    · exact failsOnly_throw (.conflict _ _)
  · exact failsOnly_pure _

theorem failsOnly_leaves (target : Option String) (origins : List Nat) :
    FailsOnly (IsFailure start) (leaves function start consumer target origins) := by
  induction origins generalizing target with
  | nil => exact failsOnly_pure _
  | cons origin origins ih =>
    refine (failsOnly_followFrom function start consumer origin none origin).inScope.bind
      fun path => ?_
    refine (failsOnly_joinTarget start target path.target).bind fun joined => ?_
    exact (ih joined).bind fun _ => failsOnly_pure _

end Path

/-! ## Contexts and reductions -/

/-- A wrong number of exits is one, or three and more; there is always an exit that does not lie
before the start. -/
theorem Context.ofExits_eq_error {t : Table} {inLoop : Bool} {start resume : Nat}
    {obstacle : Obstacle} (hresume : resume ∈ t.exits) (hstart : start ≤ resume)
    (h : Context.ofExits t inLoop start = .error obstacle) :
    obstacle = .tooFewExits 1 ∨ obstacle = .tooManyExits t.exits.length ∧ 3 ≤ t.exits.length := by
  have hsorted := t.pairwise_exits
  unfold Context.ofExits at h
  split at h
  · next first second he =>
    rw [he] at hsorted hresume
    have hlt : first < second := by simpa using hsorted
    have hle : start ≤ second := by
      rcases (by simpa using hresume : resume = first ∨ resume = second) with rfl | rfl <;> omega
    have hback : ¬(inLoop && decide (second < start)) = true := by
      simp [Nat.not_lt.2 hle]
    rw [if_neg hback] at h
    split_ifs at h
  · next hpair =>
    split_ifs at h with hlength
    · cases h
      exact .inr ⟨rfl, hlength⟩
    · cases h
      have hpos : 0 < t.exits.length := List.length_pos_of_mem hresume
      have hne : t.exits.length ≠ 2 := by
        intro htwo
        obtain ⟨first, second, he⟩ := List.length_eq_two.1 htwo
        exact hpair first second he
      have hone : t.exits.length = 1 := by omega
      exact .inl (by rw [hone])

namespace Table

/-- The reduction fails only by stopping early. -/
theorem stalled_of_reduce {t u : Table} {obstacle : Obstacle}
    (h : t.reduce = (.error obstacle, u)) : ∃ n, obstacle = .stalled n := by
  induction t using reduce.induct with
  | case1 t hle =>
    rw [reduce_of_openCount_le hle] at h
    cases h
  | case2 t hle w hw ih =>
    rw [reduce_of_sweep hle hw] at h
    exact ih h
  | case3 t hle w hw =>
    rw [reduce_of_stuck hle hw] at h
    cases h
    exact ⟨_, rfl⟩

/-- A table has no statement only when its root is missing or a leaf. -/
theorem unresolved_of_statement {t : Table} {obstacle : Obstacle}
    (h : t.statement = .error obstacle) : obstacle = .unresolvedPath t.root := by
  unfold statement at h
  split at h
  · cases h
    rfl
  · split at h
    · cases h
    · cases h
    · cases h
      rfl

end Table

/-! ## The parts of the analysis -/

namespace Condition

variable {function : Prototype} {inLoop : Bool} {start : Nat}

/-- How the analysis of the condition at a place fails, when the collection records some tests and
ends at a stage: in the collection, because of the exits, on a path to the consumer of a value, or
in the reduction. -/
inductive Obstructed (function : Prototype) (inLoop : Bool) (start : Nat) (s : RegisterStack)
    (ps : List Pair) (b : Chain.Stage) : Obstacle → Prop
  | execution (e : ExecutionError) : Obstructed function inLoop start s ps b (.execution e)
  | missingJump (hkey : b.key = start) (hc : Code.ConditionalAt function.code b.pc)
      (hj : Code.jumpAfter? function.code b.pc = none) :
      Obstructed function inLoop start s ps b (.missingJump b.pc)
  | tooFewExits : Obstructed function inLoop start s ps b (.tooFewExits 1)
  | tooManyExits {n : Nat} (hlow : 3 ≤ n) (hhigh : n ≤ ps.length + 1) :
      Obstructed function inLoop start s ps b (.tooManyExits n)
  | path {chain : Chain} {s₁ : RegisterStack} {consumer : Nat} (origin : Nat)
      (hcollect : Chain.collect function inLoop start s.push = .ok chain s₁)
      (hcontext : Context.ofChain chain inLoop start = .ok (.value consumer)) :
      Obstructed function inLoop start s ps b (.unresolvedPath origin)
  | stalled (remaining : Nat) : Obstructed function inLoop start s ps b (.stalled remaining)
  | root : Obstructed function inLoop start s ps b (.unresolvedPath start)

/-- The analysis fails in the collection, or for the chain that it collected. -/
theorem startingAt_eq_error {s s' : RegisterStack} {cause : ConditionError}
    (h : startingAt function inLoop start s = .error cause s') :
    (∃ s₁, Chain.collect function inLoop start s.push = .error cause s₁) ∨
      ∃ chain s₁ s₂, Chain.collect function inLoop start s.push = .ok chain s₁ ∧
        chain.pairs ≠ [] ∧ ofChain function inLoop start chain s₁ = .error cause s₂ := by
  unfold startingAt RegisterStack.inScope at h
  split at h
  · cases h
  · next cause' s₂ hbody =>
    cases h
    rcases bind_eq_error hbody with hcollect | ⟨chain, s₁, hcollect, hrest⟩
    · exact .inl ⟨s₂, hcollect⟩
    · split at hrest
      · cases hrest
      · next hne =>
        rcases bind_eq_error hrest with hchain | ⟨c, s₃, -, hpure⟩
        · exact .inr ⟨chain, s₁, s₂, hcollect, by simpa using hne, hchain⟩
        · cases hpure

theorem failsOnly_close_value (function : Prototype) (start consumer : Nat) (t : Table) :
    FailsOnly (Path.IsFailure start) (close function start (.value consumer) t) :=
  (Path.failsOnly_leaves function start consumer none t.exits).bind fun _ => failsOnly_pure _

/-- Closing keeps the root. -/
theorem root_of_close {context : Context} {t table : Table} {target : Option String}
    {s s' : RegisterStack} (h : close function start context t s = .ok (table, target) s') :
    table.root = t.root := by
  cases context with
  | test body exit => simp [close_test_eq_ok h, testTable]
  | value consumer =>
    obtain ⟨⟨leaves, joined⟩, s₁, -, hrest⟩ := bind_eq_ok h
    obtain ⟨he, -⟩ := pure_eq_ok hrest
    cases he
    simp

/-- The analysis of a chain fails because of its exits, on a path to the consumer of a value, or in
the reduction. -/
theorem ofChain_eq_error {chain : Chain} {s s' : RegisterStack} {cause : ConditionError}
    (h : ofChain function inLoop start chain s = .error cause s') :
    (∃ obstacle, Context.ofExits (chain.table start) inLoop start = .error obstacle ∧
      cause = .inconclusive start obstacle) ∨
    (∃ consumer, Context.ofChain chain inLoop start = .ok (.value consumer) ∧
      Path.IsFailure start cause) ∨
    (∃ remaining, cause = .inconclusive start (.stalled remaining)) ∨
    cause = .inconclusive start (.unresolvedPath start) := by
  rcases bind_eq_error h with hfail | ⟨context, s₁, hok, hrest⟩
  · obtain ⟨obstacle, hobstacle, rfl⟩ := ofExcept_eq_error hfail
    rcases Context.ofChain_cases chain inLoop start with hexits | ⟨consumer, -, hvalue⟩
    · exact .inl ⟨obstacle, hexits.symm.trans hobstacle, rfl⟩
    · cases hobstacle.symm.trans hvalue
  obtain ⟨hcontext, rfl⟩ := ofExcept_eq_ok hok
  rcases bind_eq_error hrest with hfail | ⟨⟨table, target⟩, s₂, hclose, hrest⟩
  · cases context with
    | test body exit => cases hfail.symm.trans (close_of_test hcontext function s₁)
    | value consumer =>
      exact .inr (.inl ⟨consumer, hcontext, failsOnly_close_value _ _ _ _ hfail⟩)
  rcases bind_eq_error hrest with hfail | ⟨_, s₃, -, hrest⟩
  · obtain ⟨obstacle, hobstacle, rfl⟩ := ofExcept_eq_error hfail
    obtain ⟨n, rfl⟩ := Table.stalled_of_reduce (Prod.ext hobstacle rfl)
    exact .inr (.inr (.inl ⟨n, rfl⟩))
  rcases bind_eq_error hrest with hfail | ⟨f, s₄, -, hrest⟩
  · obtain ⟨obstacle, hobstacle, rfl⟩ := ofExcept_eq_error hfail
    have hroot : table.reduce.2.root = start := by
      rw [Table.root_of_steps (Table.steps_of_reduce rfl).1, root_of_close hclose,
        Chain.root_table]
    rw [Table.unresolved_of_statement hobstacle, hroot]
    exact .inr (.inr (.inr rfl))
  · cases context with
    | test body exit => cases hrest
    | value consumer => cases hrest

/-- When a chain with recorded tests has a wrong number of exits, it has one exit, or at least three
and at most one more than it has tests. -/
theorem exits_of_ofExits {s s₁ : RegisterStack} {chain : Chain} {obstacle : Obstacle}
    (hcollect : Chain.collect function inLoop start s = .ok chain s₁) (hne : chain.pairs ≠ [])
    (h : Context.ofExits (chain.table start) inLoop start = .error obstacle) :
    obstacle = .tooFewExits 1 ∨
      ∃ n, obstacle = .tooManyExits n ∧ 3 ≤ n ∧ n ≤ chain.pairs.length + 1 := by
  have hseg := Chain.segmented_of_collect hcollect
  obtain ⟨last, hlast⟩ := Option.ne_none_iff_exists'.1 (mt List.getLast?_eq_none_iff.1 hne)
  have hstart := Nat.le_of_lt (hseg.start_lt_behind (List.mem_of_getLast? hlast))
  rcases Context.ofExits_eq_error (Chain.resume_mem_exits hseg hlast) hstart h with
    rfl | ⟨rfl, hlength⟩
  · exact .inl rfl
  · exact .inr ⟨_, rfl, hlength, Chain.length_exits_le hseg hlast⟩

/-- Every failure that is no conflict of destinations names the start and is one of the failures of
the parts. -/
theorem obstructed_of_error {s s' : RegisterStack} {place : Nat} {obstacle : Obstacle}
    (h : startingAt function inLoop start s = .error (.inconclusive place obstacle) s') :
    place = start ∧ ∃ ps b, Chain.Scans function inLoop ⟨start, start, s.push⟩ ps b ∧
      Chain.Ends function start ps b (Chain.collect function inLoop start s.push) ∧
      Obstructed function inLoop start s ps b obstacle := by
  obtain ⟨ps, b, hscan, hends⟩ := Chain.exists_scans function inLoop start start start s.push
  rw [← Chain.collect] at hends
  suffices hparts : place = start ∧ Obstructed function inLoop start s ps b obstacle from
    ⟨hparts.1, ps, b, hscan, hends, hparts.2⟩
  rcases startingAt_eq_error h with ⟨s₁, hcollect⟩ | ⟨chain, s₁, s₂, hcollect, hne, hchain⟩
  · rw [hcollect] at hends
    cases hends with
    | execution => exact ⟨rfl, .execution _⟩
    | missingJump hkey hc hj => exact ⟨rfl, .missingJump hkey hc hj⟩
  · have hps : chain.pairs = ps := by
      rw [hcollect] at hends
      cases hends with
      | stop hc => exact hc
    rcases ofChain_eq_error hchain with ⟨o, hexits, ho⟩ | ⟨consumer, hcontext, hpath⟩ | ⟨n, hn⟩ | hn
    · cases ho
      rcases exits_of_ofExits hcollect hne hexits with rfl | ⟨n, rfl, hlow, hhigh⟩
      · exact ⟨rfl, .tooFewExits⟩
      · exact ⟨rfl, .tooManyExits hlow (hps ▸ hhigh)⟩
    · cases hpath with
      | execution e => exact ⟨rfl, .execution e⟩
      | unresolved origin => exact ⟨rfl, .path origin hcollect hcontext⟩
    · cases hn
      exact ⟨rfl, .stalled n⟩
    · cases hn
      exact ⟨rfl, .root⟩

/-! ## Which obstacles there are -/

/-- A test of the first segment that has no jump is the first conditional. -/
theorem first_of_missingJump {s : RegisterStack} {ps : List Pair} {b : Chain.Stage}
    (hscan : Chain.Scans function inLoop ⟨start, start, s⟩ ps b) (hkey : b.key = start) :
    ps = [] ∧ start ≤ b.pc ∧ ∀ q, start ≤ q → q < b.pc → ¬Code.ConditionalAt function.code q := by
  obtain ⟨-, hle, hmem⟩ := hscan.key_of_mem (Nat.le_refl _)
  have hps : ps = [] := by
    refine List.eq_nil_iff_forall_not_mem.2 fun p hp => ?_
    exact absurd (hmem p hp) (by rw [hkey]; exact Nat.lt_irrefl _)
  refine ⟨hps, hkey ▸ hle, fun q hq hlt hc => ?_⟩
  obtain ⟨p, hp, -⟩ := hscan.recorded hq hlt hc
  rw [hps] at hp
  cases hp

/-- Both exits of a chain that decides a jump get a truth value. -/
theorem leaves_of_test {s s₁ : RegisterStack} {chain : Chain} {body exit : Nat}
    (hcollect : Chain.collect function inLoop start s = .ok chain s₁)
    (hcontext : Context.ofChain chain inLoop start = .ok (.test body exit)) :
    ∃ table, close function start (.test body exit) (chain.table start) s₁ = .ok (table, none) s₁ ∧
      table.content? body = some (.leaf (.bool true)) ∧
      table.content? exit = some (.leaf (.bool false)) := by
  have hclose := close_of_test hcontext function s₁
  obtain ⟨hne, hexits, -⟩ := Context.ofChain_eq_test hcontext
  obtain ⟨-, hleaf⟩ := closes_of_test (Chain.segmented_of_collect hcollect) hclose
  refine ⟨_, hclose, ?_, ?_⟩
  · rw [hleaf body ((hexits body).2 (.inl rfl)), decide_eq_true rfl]
  · rw [hleaf exit ((hexits exit).2 (.inr rfl)), decide_eq_false hne.symm]

/-- The obstacles that an analysis can meet. The failure names the start of the condition. A chain
with too few exits has one, and a chain with too many has at least three and at most one more than
the collection recorded tests. A jump is missing only behind the first conditional, before any test
is recorded. A loop never goes back on both sides. The exits of a chain that decides a jump always
get their values, so that the only place without one can be the start. -/
theorem obstacle_of_error {s s' : RegisterStack} {place : Nat} {obstacle : Obstacle}
    (h : startingAt function inLoop start s = .error (.inconclusive place obstacle) s') :
    place = start ∧ obstacle ≠ .backwardLoop ∧
      (∀ n, obstacle = .tooFewExits n → n = 1) ∧
      (∃ ps b, Chain.Scans function inLoop ⟨start, start, s.push⟩ ps b ∧
        Chain.Ends function start ps b (Chain.collect function inLoop start s.push) ∧
        (∀ n, obstacle = .tooManyExits n → 3 ≤ n ∧ n ≤ ps.length + 1) ∧
        ∀ pc, obstacle = .missingJump pc → ps = [] ∧ start ≤ pc ∧
          Code.ConditionalAt function.code pc ∧ Code.jumpAfter? function.code pc = none ∧
          ∀ q, start ≤ q → q < pc → ¬Code.ConditionalAt function.code q) ∧
      ∀ chain s₁ body exit, Chain.collect function inLoop start s.push = .ok chain s₁ →
        Context.ofChain chain inLoop start = .ok (.test body exit) →
        (∀ pc, obstacle = .unresolvedPath pc → pc = start) ∧
        ∃ table, close function start (.test body exit) (chain.table start) s₁ =
            .ok (table, none) s₁ ∧
          table.content? body = some (.leaf (.bool true)) ∧
          table.content? exit = some (.leaf (.bool false)) := by
  obtain ⟨rfl, ps, b, hscan, hends, hobstructed⟩ := obstructed_of_error h
  refine ⟨rfl, ?_, ?_, ⟨ps, b, hscan, hends, ?_, ?_⟩, ?_⟩
  · rintro rfl
    cases hobstructed
  · rintro n rfl
    cases hobstructed with
    | tooFewExits => rfl
  · rintro n rfl
    cases hobstructed with
    | tooManyExits hlow hhigh => exact ⟨hlow, hhigh⟩
  · rintro pc rfl
    cases hobstructed with
    | missingJump hkey hc hj =>
      obtain ⟨hps, hle, hfirst⟩ := first_of_missingJump hscan hkey
      exact ⟨hps, hle, hc, hj, hfirst⟩
  · intro chain s₁ body exit hcollect hcontext
    refine ⟨?_, leaves_of_test hcollect hcontext⟩
    rintro pc rfl
    cases hobstructed with
    | path origin hcollect' hcontext' =>
      cases hcollect.symm.trans hcollect'
      cases hcontext.symm.trans hcontext'
    | root => rfl

/-- Two tests that jump to different places. -/
def threeExits : Prototype where
  code :=
    [.ofABC .test 0 0 0, .ofAsBx .jmp 0 4, .ofABC .test 1 0 0, .ofAsBx .jmp 0 1,
     .ofABC .call 0 1 1, .ofABC .call 1 1 1, .ofABC .ret 0 1 0]

/-- The three exits of two tests are as many as there can be. -/
theorem obstacle_of_error_threeExits :
    ∃ s', startingAt threeExits false 0 .empty = .error (.inconclusive 0 (.tooManyExits 3)) s' ∧
      ∃ ps b, Chain.Scans threeExits false ⟨0, 0, RegisterStack.empty.push⟩ ps b ∧
        Chain.Ends threeExits 0 ps b (Chain.collect threeExits false 0 RegisterStack.empty.push) ∧
        2 ≤ ps.length := by
  have h : (match startingAt threeExits false 0 .empty with
      | .error cause _ => some cause
      | .ok _ _ => none) = some (.inconclusive 0 (.tooManyExits 3)) := by
    decide +kernel
  split at h
  · next cause s' hs =>
    cases h
    obtain ⟨-, -, -, ⟨ps, b, hscan, hends, hmany, -⟩, -⟩ := obstacle_of_error hs
    exact ⟨s', hs, ps, b, hscan, hends, by have := hmany 3 rfl; omega⟩
  · cases h

end Condition

end ShortCircuit
