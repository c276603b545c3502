import ShortCircuit.Proofs.Recovery.Path

/-!
# Scopes are closed on every way out

The analysis of a condition leaves at many places: the tests may not be followed by jumps, an
instruction between them or on the path of a leaf may fail, two paths may disagree, and the
reduction may stop. Each way out has its own number of open scopes. What all of them have in common
is that the snapshots of the scopes that were open before are still there, so that closing a scope
restores the registers of its opening.

* `RegisterStack.IsBalanced`: an action keeps the snapshots of the open scopes, on success and on
  failure. Single instructions are balanced, and so is what is put together from balanced actions.
* `RegisterStack.IsBalanced.left_inScope`: a scope around a balanced action restores everything.
* `Condition.startingAt_leaves_stack`: after the analysis of a condition the caller has the
  registers and the snapshots that it had before.
-/

namespace ShortCircuit

namespace RegisterStack

variable {ε ε' α β : Type}

/-- The registers that an action leaves, whether it succeeds or fails. -/
def left (x : EStateM ε RegisterStack α) (s : RegisterStack) : RegisterStack :=
  match x s with
  | .ok _ s' => s'
  | .error _ s' => s'

/-- An action keeps the snapshots of the open scopes, whether it succeeds or fails. -/
def IsBalanced (x : EStateM ε RegisterStack α) : Prop := ∀ s, (left x s).saved = s.saved

theorem left_of_ok {x : EStateM ε RegisterStack α} {s s' : RegisterStack} {a : α}
    (h : x s = .ok a s') : left x s = s' := by
  rw [left, h]

theorem left_of_error {x : EStateM ε RegisterStack α} {s s' : RegisterStack} {e : ε}
    (h : x s = .error e s') : left x s = s' := by
  rw [left, h]

/-! ## Balanced actions -/

theorem isBalanced_pure (a : α) : IsBalanced (pure a : EStateM ε RegisterStack α) :=
  fun _ => rfl

theorem isBalanced_throw (e : ε) : IsBalanced (throw e : EStateM ε RegisterStack α) :=
  fun _ => rfl

theorem IsBalanced.bind {x : EStateM ε RegisterStack α} {f : α → EStateM ε RegisterStack β}
    (hx : IsBalanced x) (hf : ∀ a, IsBalanced (f a)) : IsBalanced (x >>= f) := by
  intro s
  have hx := hx s
  cases h : x s with
  | ok a s₁ =>
    have hbind : (x >>= f) s = f a s₁ := by
      show EStateM.bind x f s = f a s₁
      rw [EStateM.bind, h]
    rw [left_of_ok h] at hx
    calc
      (left (x >>= f) s).saved = (left (f a) s₁).saved := by rw [left, hbind, left]
      _ = s₁.saved := hf a s₁
      _ = s.saved := hx
  | error e s₁ =>
    have hbind : (x >>= f) s = .error e s₁ := by
      show EStateM.bind x f s = .error e s₁
      rw [EStateM.bind, h]
    rw [left_of_error hbind, ← left_of_error h]
    exact hx

theorem IsBalanced.adaptExcept {x : EStateM ε RegisterStack α} (hx : IsBalanced x)
    (g : ε → ε') : IsBalanced (EStateM.adaptExcept g x) := by
  intro s
  have hx := hx s
  unfold left at hx ⊢
  unfold EStateM.adaptExcept
  cases h : x s with
  | ok a s₁ =>
    rw [h] at hx
    exact hx
  | error e s₁ =>
    rw [h] at hx
    exact hx

/-- An instruction changes at most the current registers. -/
theorem isBalanced_execute (function : Prototype) (pc : Nat) (i : Instruction) :
    IsBalanced (execute function pc i) := by
  intro s
  unfold left execute
  cases (s.frame function pc).effect i with
  | ok writes => rfl
  | error e => rfl

/-- Closing the scope of a balanced action restores the registers and the snapshots. -/
theorem IsBalanced.left_inScope {x : EStateM ε RegisterStack α} (hx : IsBalanced x)
    (s : RegisterStack) : left (inScope x) s = s := by
  have hpop : (left x s.push).pop = s := by
    have hsaved : (left x s.push).saved = s.current :: s.saved := hx s.push
    rw [pop, hsaved]
  have hscope : left (inScope x) s = (left x s.push).pop := by
    unfold left inScope
    cases x s.push with
    | ok a s₁ => rfl
    | error e s₁ => rfl
  rw [hscope, hpop]

theorem IsBalanced.inScope {x : EStateM ε RegisterStack α} (hx : IsBalanced x) :
    IsBalanced (inScope x) := by
  intro s
  rw [hx.left_inScope s]

end RegisterStack

open RegisterStack

namespace Analysis

theorem isBalanced_ofExcept {α : Type} (start : Nat) (x : Except Obstacle α) :
    IsBalanced (ofExcept start x) := by
  cases x with
  | ok a => exact isBalanced_pure a
  | error obstacle => exact isBalanced_throw _

theorem isBalanced_execute (function : Prototype) (start pc : Nat) (i : Instruction) :
    IsBalanced (execute function start pc i) :=
  (RegisterStack.isBalanced_execute function pc i).adaptExcept _

theorem isBalanced_frame (function : Prototype) (pc : Nat) : IsBalanced (frame function pc) :=
  fun _ => rfl

end Analysis

/-! ## The parts of the analysis -/

namespace Chain

theorem isBalanced_collectFrom (function : Prototype) (inLoop : Bool) (start key pc : Nat) :
    IsBalanced (collectFrom function inLoop start key pc) := by
  induction key, pc using collectFrom.induct function inLoop start with
  | case1 key pc hi =>
    rw [collectFrom_end hi]
    exact isBalanced_pure _
  | case2 pc i hi hc hj =>
    rw [collectFrom_conditional hi hc, hj]
    simp only [if_true]
    exact isBalanced_throw _
  | case3 key pc i hi hc hj hne =>
    rw [collectFrom_conditional hi hc, hj]
    simp only [if_neg hne]
    exact isBalanced_pure _
  | case4 key pc i hi hc target hj hback =>
    rw [collectFrom_conditional hi hc, hj]
    simp only [if_pos hback]
    exact isBalanced_pure _
  | case5 key pc i hi hc target hj hback ih =>
    rw [collectFrom_conditional hi hc, hj]
    simp only [if_neg hback]
    refine (Analysis.isBalanced_frame function pc).bind fun f => ih.bind fun rest => ?_
    exact isBalanced_pure _
  | case6 key pc i hi hc hstore =>
    rw [collectFrom_other hi (by simpa using hc), if_pos hstore]
    exact isBalanced_pure _
  | case7 key pc i hi hc hstore hpair =>
    rw [collectFrom_other hi (by simpa using hc), if_neg hstore, if_pos hpair]
    exact isBalanced_pure _
  | case8 key pc i hi hc hstore hpair hjump ih =>
    rw [collectFrom_other hi (by simpa using hc), if_neg hstore, if_neg hpair, if_pos hjump]
    exact ih
  | case9 key pc i hi hc hstore hpair hjump ht ih =>
    rw [collectFrom_other hi (by simpa using hc), if_neg hstore, if_neg hpair, if_neg hjump,
      if_pos ht]
    exact (Analysis.isBalanced_execute function start pc i).bind fun _ => ih
  | case10 key pc i hi hc hstore hpair hjump ht =>
    rw [collectFrom_other hi (by simpa using hc), if_neg hstore, if_neg hpair, if_neg hjump,
      if_neg ht]
    exact isBalanced_pure _

end Chain

namespace Path

section Follow

variable {function : Prototype} {start consumer origin pc : Nat} {wrote : Option UInt8}
  {i : Instruction}

theorem isBalanced_followFrom_store (hpc : pc ≠ consumer) (hi : function.code[pc]? = some i)
    (hrole : i.role = .tableStore ∨ i.role = .globalStore) :
    IsBalanced (followFrom function start consumer origin wrote pc) := by
  rw [followFrom_store hpc hi hrole]
  refine (Analysis.isBalanced_frame function pc).bind fun f => ?_
  cases f.assignment? i with
  | some a => exact isBalanced_pure _
  | none => exact isBalanced_throw _

theorem isBalanced_followFrom_compute (hpc : pc ≠ consumer) (hi : function.code[pc]? = some i)
    (hrole : i.role ≠ .jump) (ht : i.isTransparent = true)
    (rest : IsBalanced
      (followFrom function start consumer origin (i.destination? <|> wrote) (i.after pc))) :
    IsBalanced (followFrom function start consumer origin wrote pc) := by
  rw [followFrom_compute hpc hi hrole ht]
  exact (Analysis.isBalanced_execute function start pc i).bind fun _ => rest

end Follow

theorem isBalanced_followFrom (function : Prototype) (start consumer origin : Nat)
    (wrote : Option UInt8) (pc : Nat) :
    IsBalanced (followFrom function start consumer origin wrote pc) := by
  induction wrote, pc using followFrom.induct function consumer with
  | case1 wrote =>
    rw [followFrom, if_pos rfl]
    refine (Analysis.isBalanced_frame function consumer).bind fun f => ?_
    cases wrote with
    | none => exact isBalanced_pure _
    | some r => exact isBalanced_pure _
  | case2 wrote pc hpc hi =>
    rw [followFrom_end hpc hi]
    exact isBalanced_throw _
  | case3 wrote pc hpc i hi hrole => exact isBalanced_followFrom_store hpc hi (.inl hrole)
  | case4 wrote pc hpc i hi hrole => exact isBalanced_followFrom_store hpc hi (.inr hrole)
  | case5 wrote pc hpc i hi hrole ih =>
    obtain ⟨ht, hd⟩ := Instruction.of_booleanLoad hrole
    refine isBalanced_followFrom_compute hpc hi (by simp [hrole]) ht ?_
    rw [hd, Instruction.after_of_booleanLoad hrole]
    exact ih
  | case6 wrote pc hpc i hi hrole target ht hlt ih =>
    rw [followFrom_jump hpc hi hrole, ht]
    simp only [if_pos hlt]
    exact ih
  | case7 wrote pc hpc i hi hrole target ht hlt =>
    rw [followFrom_jump hpc hi hrole, ht]
    simp only [if_neg hlt]
    exact isBalanced_throw _
  | case8 wrote pc hpc i hi hrole ht =>
    rw [followFrom_jump hpc hi hrole, ht]
    exact isBalanced_throw _
  | case9 wrote pc hpc i hi ht htable hglobal hload hjump ih =>
    refine isBalanced_followFrom_compute hpc hi hjump ht ?_
    rw [Instruction.after_of_ne hload]
    exact ih
  | case10 wrote pc hpc i hi ht htable hglobal hload hjump =>
    rw [followFrom_other hpc hi htable hglobal (by simpa using ht)]
    exact isBalanced_throw _

/-- The excursion along a path has a scope of its own inside that of the analysis. -/
theorem isBalanced_follow (function : Prototype) (start consumer origin : Nat) :
    IsBalanced (follow function start consumer origin) :=
  (isBalanced_followFrom function start consumer origin none origin).inScope

theorem isBalanced_joinTarget (first second : Option String) :
    IsBalanced (joinTarget first second) := by
  unfold joinTarget
  split
  · split_ifs
    · exact isBalanced_pure _
    · exact isBalanced_throw _
  · exact isBalanced_pure _

theorem isBalanced_leaves (function : Prototype) (start consumer : Nat) (target : Option String)
    (origins : List Nat) : IsBalanced (leaves function start consumer target origins) := by
  induction origins generalizing target with
  | nil => exact isBalanced_pure _
  | cons origin origins ih =>
    refine (isBalanced_follow function start consumer origin).bind fun path => ?_
    refine (isBalanced_joinTarget target path.target).bind fun joined => ?_
    exact (ih joined).bind fun _ => isBalanced_pure _

end Path

namespace Condition

theorem isBalanced_close (function : Prototype) (start : Nat) (context : Context) (t : Table) :
    IsBalanced (close function start context t) := by
  cases context with
  | test body exit =>
    rw [close_test]
    exact Analysis.isBalanced_ofExcept start _
  | value consumer =>
    exact (Path.isBalanced_leaves function start consumer none t.exits).bind fun _ =>
      isBalanced_pure _

theorem isBalanced_ofChain (function : Prototype) (inLoop : Bool) (start : Nat) (chain : Chain) :
    IsBalanced (ofChain function inLoop start chain) := by
  refine (Analysis.isBalanced_ofExcept start _).bind fun context => ?_
  refine (isBalanced_close function start context _).bind fun closed => ?_
  refine (Analysis.isBalanced_ofExcept start _).bind fun _ => ?_
  refine (Analysis.isBalanced_ofExcept start _).bind fun statement => ?_
  cases context with
  | test body exit => exact isBalanced_pure _
  | value consumer =>
    exact (Analysis.isBalanced_frame function consumer).bind fun _ => isBalanced_pure _

theorem left_startingAt (function : Prototype) (inLoop : Bool) (start : Nat) (s : RegisterStack) :
    left (startingAt function inLoop start) s = s := by
  refine IsBalanced.left_inScope ?_ s
  refine (Chain.isBalanced_collectFrom function inLoop start start start).bind fun chain => ?_
  split_ifs
  · exact isBalanced_pure _
  · exact (isBalanced_ofChain function inLoop start chain).bind fun _ => isBalanced_pure _

/-- The analysis of a condition leaves the registers and the snapshots of all open scopes as it
found them, whether it finds a condition, finds none or fails, and wherever it fails. -/
theorem startingAt_leaves_stack (function : Prototype) (inLoop : Bool) (start : Nat)
    (s : RegisterStack) :
    (∃ found, startingAt function inLoop start s = .ok found s) ∨
      ∃ cause, startingAt function inLoop start s = .error cause s := by
  have hleft := left_startingAt function inLoop start s
  cases h : startingAt function inLoop start s with
  | ok found s' =>
    rw [left_of_ok h] at hleft
    exact .inl ⟨found, by rw [hleft]⟩
  | error cause s' =>
    rw [left_of_error h] at hleft
    exact .inr ⟨cause, by rw [hleft]⟩

end Condition

end ShortCircuit
