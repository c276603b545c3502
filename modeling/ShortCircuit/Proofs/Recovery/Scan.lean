import ShortCircuit.Proofs.Recovery.Collection

/-!
# The places that a condition takes

The collection of a chain goes through the code from the start of the chain to the place where it
stops, and records every conditional that it passes. A condition resumes inside that range, so all
conditionals between its start and the place where it resumes are its tests.

* `Code.ConditionalAt`: a conditional stands at a place.
* `Chain.Scanned`: the places that a collection passes, and `Chain.scanned_of_collectFrom`.
* `Condition.startingAt_ne_none`: the analysis of a conditional finds a condition or fails.
* `Condition.span_of_startingAt`: the places that a condition takes.
-/

namespace ShortCircuit

/-- A conditional stands at a place. -/
def Code.ConditionalAt (code : List Instruction) (pc : Nat) : Prop :=
  ∃ i, code[pc]? = some i ∧ i.isConditional = true

theorem Code.not_conditionalAt {code : List Instruction} {pc : Nat} {i : Instruction}
    (hi : code[pc]? = some i) (hc : i.isConditional = false) : ¬Code.ConditionalAt code pc := by
  rintro ⟨j, hj, hcj⟩
  cases hi.symm.trans hj
  rw [hc] at hcj
  cases hcj

theorem Code.exists_jump {code : List Instruction} {pc target : Nat}
    (h : Code.jumpAfter? code pc = some target) :
    ∃ jump, code[pc + 1]? = some jump ∧ jump.role = .jump := by
  unfold Code.jumpAfter? at h
  split at h
  · next jump hjump =>
    split_ifs at h with hop
    exact ⟨jump, hjump, by simp [Instruction.role, hop]⟩
  · cases h

/-- The jump after a conditional is no conditional itself. -/
theorem Code.not_conditionalAt_jump {code : List Instruction} {pc target : Nat}
    (h : Code.jumpAfter? code pc = some target) :
    pc + 1 < code.length ∧ ¬Code.ConditionalAt code (pc + 1) := by
  obtain ⟨jump, hjump, hrole⟩ := Code.exists_jump h
  refine ⟨Code.lt_length hjump, Code.not_conditionalAt hjump ?_⟩
  simp [Instruction.isConditional, hrole]

theorem Code.not_conditionalAt_load {code : List Instruction} {pc : Nat}
    (h : Code.isBooleanLoad code pc = true) :
    pc < code.length ∧ ¬Code.ConditionalAt code pc := by
  unfold Code.isBooleanLoad at h
  split at h
  · next i hi =>
    have hop : i.op = .loadBool := by simpa using h
    refine ⟨Code.lt_length hi, Code.not_conditionalAt hi ?_⟩
    simp [Instruction.isConditional, Instruction.role, hop]
  · cases h

/-- A chain whose first test jumps backwards closes a loop. -/
theorem Code.jumpsBack_of_target {code : List Instruction} {pc target : Nat} {i : Instruction}
    (hi : code[pc]? = some i) (hc : i.isConditional = true)
    (hj : Code.jumpAfter? code pc = some target) (hle : target ≤ pc + 1) :
    Code.jumpsBack code pc = true := by
  rw [Code.jumpsBack]
  split
  · next hn => cases hi.symm.trans hn
  · next j hn =>
    cases hi.symm.trans hn
    simp only [if_pos hc, hj, if_pos hle]

/-! ## The places that a collection passes -/

namespace Chain

/-- The collection of a chain passes the places from `pc` to `stop`: it records every conditional
there, and a value is consumed where it stops. -/
structure Scanned (code : List Instruction) (pc : Nat) (c : Chain) (stop : Nat) : Prop where
  le : pc ≤ stop
  le_length : stop ≤ code.length
  recorded : ∀ q, pc ≤ q → q < stop → Code.ConditionalAt code q → ∃ p ∈ c.pairs, p.pc = q
  passed : ∀ p ∈ c.pairs, pc ≤ p.pc ∧ p.pc + 2 ≤ stop
  consumer : ∀ place, c.consumer = some place → place = stop

variable {code : List Instruction} {pc end' : Nat} {c : Chain}

theorem scanned_stop (h : pc ≤ code.length) : Scanned code pc .stop pc where
  le := Nat.le_refl pc
  le_length := h
  recorded := by
    intro q hle hlt
    omega
  passed := by simp [stop]
  consumer := by simp [stop]

/-- A place that holds no conditional is passed. -/
theorem Scanned.skip (hpc : ¬Code.ConditionalAt code pc) (h : Scanned code (pc + 1) c end') :
    Scanned code pc c end' where
  le := Nat.le_of_succ_le h.le
  le_length := h.le_length
  recorded := by
    intro q hle hlt hq
    rcases Nat.eq_or_lt_of_le hle with rfl | hlt'
    · exact absurd hq hpc
    · exact h.recorded q hlt' hlt hq
  passed := by
    intro p hp
    have := h.passed p hp
    omega
  consumer := h.consumer

/-- A recorded test is passed together with its jump. -/
theorem Scanned.record {p : Pair} (hjump : ¬Code.ConditionalAt code (p.pc + 1))
    (h : Scanned code (p.pc + 2) c end') : Scanned code p.pc (c.cons p) end' where
  le := by
    have := h.le
    omega
  le_length := h.le_length
  recorded := by
    intro q hle hlt hq
    by_cases hp : q = p.pc
    · exact ⟨p, List.mem_cons_self, hp.symm⟩
    · by_cases hq' : q = p.pc + 1
      · subst hq'
        exact absurd hq hjump
      · obtain ⟨r, hr, hrq⟩ := h.recorded q (by omega) hlt hq
        exact ⟨r, List.mem_cons_of_mem _ hr, hrq⟩
  passed := by
    intro q hq
    rcases List.mem_cons.1 hq with rfl | hq
    · exact ⟨Nat.le_refl _, h.le⟩
    · have := h.passed q hq
      omega
  consumer := h.consumer

/-- A store consumes the value where the collection stops. -/
theorem scanned_stopAt (h : pc ≤ code.length) : Scanned code pc (.stopAt pc) pc :=
  { scanned_stop h with
    passed := by simp [stopAt]
    consumer := by simp [stopAt]
    recorded := by
      intro q hle hlt
      omega }

/-- A collection passes the places up to where it stops. -/
theorem scanned_of_collectFrom {function : Prototype} {inLoop : Bool} {start key pc : Nat}
    {c : Chain} {s s' : RegisterStack}
    (h : collectFrom function inLoop start key pc s = .ok c s') (hpc : pc ≤ function.code.length) :
    ∃ stop, Scanned function.code pc c stop := by
  induction key, pc using collectFrom.induct function inLoop start generalizing c s s' with
  | case1 key pc hi =>
    rw [collectFrom_end hi] at h
    obtain ⟨rfl, rfl⟩ := Analysis.pure_eq_ok h
    exact ⟨pc, scanned_stop hpc⟩
  | case2 pc i hi hc hj =>
    rw [collectFrom_conditional hi hc, hj] at h
    simp only [if_true] at h
    cases h
  | case3 key pc i hi hc hj hne =>
    rw [collectFrom_conditional hi hc, hj] at h
    simp only [if_neg hne] at h
    obtain ⟨rfl, rfl⟩ := Analysis.pure_eq_ok h
    exact ⟨pc, scanned_stop hpc⟩
  | case4 key pc i hi hc target hj hback =>
    rw [collectFrom_conditional hi hc, hj] at h
    simp only [if_pos hback] at h
    obtain ⟨rfl, rfl⟩ := Analysis.pure_eq_ok h
    exact ⟨pc, scanned_stop hpc⟩
  | case5 key pc i hi hc target hj hback ih =>
    rw [collectFrom_conditional hi hc, hj] at h
    simp only [if_neg hback] at h
    obtain ⟨f, s₁, hf, h⟩ := Analysis.bind_eq_ok h
    cases hf
    obtain ⟨rest, s₂, hrest, h⟩ := Analysis.bind_eq_ok h
    obtain ⟨rfl, rfl⟩ := Analysis.pure_eq_ok h
    obtain ⟨hlt, hjump⟩ := Code.not_conditionalAt_jump hj
    obtain ⟨stop, hstop⟩ := ih hrest hlt
    exact ⟨stop, Scanned.record (p := .ofFrame (s.frame function pc) key i target) hjump hstop⟩
  | case6 key pc i hi hc hstore =>
    rw [collectFrom_other hi (by simpa using hc), if_pos hstore] at h
    obtain ⟨rfl, rfl⟩ := Analysis.pure_eq_ok h
    exact ⟨pc, scanned_stopAt hpc⟩
  | case7 key pc i hi hc hstore hpair =>
    rw [collectFrom_other hi (by simpa using hc), if_neg hstore, if_pos hpair] at h
    obtain ⟨rfl, rfl⟩ := Analysis.pure_eq_ok h
    obtain ⟨hfirst, hsecond⟩ := (Bool.and_eq_true _ _).mp hpair
    obtain ⟨-, hfirst⟩ := Code.not_conditionalAt_load hfirst
    obtain ⟨hlt, hsecond⟩ := Code.not_conditionalAt_load hsecond
    exact ⟨pc + 2, .skip hfirst (.skip hsecond (scanned_stopAt hlt))⟩
  | case8 key pc i hi hc hstore hpair hjump ih =>
    rw [collectFrom_other hi (by simpa using hc), if_neg hstore, if_neg hpair, if_pos hjump] at h
    obtain ⟨stop, hstop⟩ := ih h (Code.lt_length hi)
    exact ⟨stop, .skip (Code.not_conditionalAt hi (by simpa using hc)) hstop⟩
  | case9 key pc i hi hc hstore hpair hjump ht ih =>
    rw [collectFrom_other hi (by simpa using hc), if_neg hstore, if_neg hpair, if_neg hjump,
      if_pos ht] at h
    obtain ⟨-, s₁, -, h⟩ := Analysis.bind_eq_ok h
    obtain ⟨stop, hstop⟩ := ih h (Code.lt_length hi)
    exact ⟨stop, .skip (Code.not_conditionalAt hi (by simpa using hc)) hstop⟩
  | case10 key pc i hi hc hstore hpair hjump ht =>
    rw [collectFrom_other hi (by simpa using hc), if_neg hstore, if_neg hpair, if_neg hjump,
      if_neg ht] at h
    obtain ⟨rfl, rfl⟩ := Analysis.pure_eq_ok h
    exact ⟨pc, scanned_stop hpc⟩

/-- The first test is recorded, unless the collection fails. -/
theorem pairs_ne_nil_of_collect {function : Prototype} {start : Nat} {c : Chain}
    {s s' : RegisterStack} (hstart : Code.ConditionalAt function.code start)
    (h : collect function (Code.jumpsBack function.code start) start s = .ok c s') :
    c.pairs ≠ [] := by
  obtain ⟨i, hi, hc⟩ := hstart
  rw [collect, collectFrom_conditional hi hc] at h
  cases hj : Code.jumpAfter? function.code start with
  | none =>
    simp only [hj, if_true] at h
    cases h
  | some target =>
    -- a first test that jumps backwards makes the chain one that closes a loop
    have hloop : ¬(target ≤ start + 1 && !Code.jumpsBack function.code start) = true := by
      intro hback
      obtain ⟨hle, hloop⟩ := (Bool.and_eq_true _ _).mp hback
      rw [Code.jumpsBack_of_target hi hc hj (of_decide_eq_true hle)] at hloop
      cases hloop
    simp only [hj, if_neg hloop] at h
    obtain ⟨f, s₁, -, h⟩ := Analysis.bind_eq_ok h
    obtain ⟨rest, s₂, -, h⟩ := Analysis.bind_eq_ok h
    obtain ⟨rfl, -⟩ := Analysis.pure_eq_ok h
    exact List.cons_ne_nil _ _

end Chain

/-! ## Conditions at conditionals -/

namespace Condition

/-- The analysis of a conditional finds a condition or fails. -/
theorem startingAt_ne_none {function : Prototype} {start : Nat} {s s' : RegisterStack}
    (hstart : Code.ConditionalAt function.code start) :
    startingAt function (Code.jumpsBack function.code start) start s ≠ .ok none s' := by
  intro h
  unfold startingAt RegisterStack.inScope at h
  split at h
  · next a s₂ hbody =>
    cases h
    obtain ⟨chain, s₁, hchain, hbody⟩ := Analysis.bind_eq_ok hbody
    rw [if_neg (by simpa using Chain.pairs_ne_nil_of_collect hstart hchain)] at hbody
    obtain ⟨c, s₃, -, hbody⟩ := Analysis.bind_eq_ok hbody
    obtain ⟨h, -⟩ := Analysis.pure_eq_ok hbody
    cases h
  · cases h

/-- The consumer of a value is where its chain stops. -/
theorem consumer_of_value {chain : Chain} {inLoop : Bool} {start consumer : Nat}
    (h : Context.ofChain chain inLoop start = .ok (.value consumer)) :
    chain.consumer = some consumer := by
  rcases Context.ofChain_cases chain inLoop start with hexits | ⟨place, hplace, hvalue⟩
  · rw [hexits] at h
    unfold Context.ofExits at h
    split at h
    · split_ifs at h <;> cases h
    · split_ifs at h
  · cases h.symm.trans hvalue
    exact hplace

/-- A condition reaches from its start over tests of its chain to the place where it resumes. -/
theorem span_of_startingAt {function : Prototype} {inLoop : Bool} {start : Nat}
    {s s' : RegisterStack} {c : Condition} (hstart : start ≤ function.code.length)
    (h : startingAt function inLoop start s = .ok (some c) s') :
    c.start = start ∧ start < c.resume ∧ c.resume ≤ function.code.length ∧
      ∃ chain s₁, Chain.collect function inLoop start s.push = .ok chain s₁ ∧
        ∀ pc, start ≤ pc → pc < c.resume → Code.ConditionalAt function.code pc →
          ∃ p ∈ chain.pairs, p.pc = pc := by
  obtain ⟨chain, s₁, s₂, hcollect, hne, hchain⟩ := startingAt_eq_ok h
  obtain ⟨context, table, target, s₃, reduced, hcontext, -, -, -, hcstart, huse⟩ :=
    ofChain_eq_ok hchain
  obtain ⟨stop, hscan⟩ := Chain.scanned_of_collectFrom hcollect hstart
  have hle : c.resume ≤ stop ∧ start < c.resume := by
    cases context with
    | test body exit =>
      rw [huse.1, Chain.resume, List.getLast?_eq_some_getLast hne]
      have := hscan.passed _ (List.getLast_mem hne)
      dsimp only
      omega
    | value consumer =>
      rw [huse.1]
      have hstop := hscan.consumer consumer (consumer_of_value hcontext)
      obtain ⟨p, hp⟩ := List.exists_mem_of_ne_nil _ hne
      have := hscan.passed p hp
      omega
  have hlength := hscan.le_length
  refine ⟨hcstart, hle.2, by omega, chain, s₁, hcollect, ?_⟩
  intro pc hpc hlt
  exact hscan.recorded pc hpc (by omega)

end Condition

end ShortCircuit
