import ShortCircuit.Proofs.Recovery.Collection

/-!
# Paths to the consumer

The path from an exit of the tests, as a relation on registers and places: instructions that compute
are executed, forward jumps are taken, and the path ends at the consumer or at the first store. It
yields the text that it wrote and the place of its last write, or nothing when it wrote nothing.

* `Path.Leads` is that relation, `Path.Leads.unique` says that it is deterministic.
* `Path.follows`: a path that is followed with success leads to a yield, and its value
  is the one of that yield.
* `Path.leaves_eq_ok`: what the leaves of several paths are.
-/

namespace ShortCircuit

/-- The place after an instruction that computes a value: a boolean load may skip one place. -/
def Instruction.after (i : Instruction) (pc : Nat) : Nat :=
  if i.role = .booleanLoad ∧ i.c ≠ 0 then pc + 2 else pc + 1

theorem Instruction.after_of_booleanLoad {i : Instruction} (h : i.role = .booleanLoad) (pc : Nat) :
    i.after pc = pc + if i.c = 0 then 1 else 2 := by
  by_cases hc : i.c = 0 <;> simp [after, h, hc]

theorem Instruction.after_of_ne {i : Instruction} (h : i.role ≠ .booleanLoad) (pc : Nat) :
    i.after pc = pc + 1 :=
  if_neg fun hload => h hload.1

/-- Only computations, boolean loads and jumps are transparent. -/
theorem Instruction.role_of_isTransparent {i : Instruction} (h : i.isTransparent = true) :
    i.role = .other ∨ i.role = .booleanLoad ∨ i.role = .jump := by
  unfold isTransparent at h
  unfold role
  cases hop : i.op <;> simp [hop] at h ⊢

theorem Instruction.isConditional_of_isTransparent {i : Instruction} (h : i.isTransparent = true) :
    i.isConditional = false := by
  rcases role_of_isTransparent h with hr | hr | hr <;> simp [isConditional, hr]

/-- A boolean load is transparent and defines its register. -/
theorem Instruction.of_booleanLoad {i : Instruction} (h : i.role = .booleanLoad) :
    i.isTransparent = true ∧ i.destination? = some i.a := by
  unfold role at h
  unfold isTransparent destination?
  cases hop : i.op <;> simp [hop] at h ⊢

theorem Instruction.isTransparent_of_jump {i : Instruction} (h : i.role = .jump) :
    i.isTransparent = true := by
  unfold role at h
  unfold isTransparent
  cases hop : i.op <;> simp [hop] at h ⊢

/-- The text that a store takes: the contents of its source, or its constant. -/
def Assignment.storedText (a : Assignment) (rs : Registers) : String :=
  match a.source with
  | some r => rs.valueText r
  | none => a.value

namespace Path

/-- The register written last and the place of that write. -/
abbrev LastWrite := Option (UInt8 × Nat)

/-- What a path yields: the text that it wrote and the place of its last write. -/
abbrev Yield := Option (String × Nat)

/-- From a place with registers and a last write, the path leads to the consumer or to a store and
yields what it wrote. -/
inductive Leads (function : Prototype) (consumer : Nat) :
    Registers → Nat → LastWrite → Yield → Prop
  | consumed {rs : Registers} {last : LastWrite} :
      Leads function consumer rs consumer last (last.map fun (r, place) => (rs.valueText r, place))
  | stored {rs : Registers} {pc : Nat} {last : LastWrite} {i : Instruction} {a : Assignment}
      (hpc : pc ≠ consumer) (hi : function.code[pc]? = some i)
      (hrole : i.role = .tableStore ∨ i.role = .globalStore)
      (ha : (Frame.mk function pc rs).assignment? i = some a) :
      Leads function consumer rs pc last (last.map fun (_, place) => (a.storedText rs, place))
  | jump {rs : Registers} {pc target : Nat} {last : LastWrite} {i : Instruction} {y : Yield}
      (hpc : pc ≠ consumer) (hi : function.code[pc]? = some i) (hrole : i.role = .jump)
      (ht : i.jumpTarget? pc = some target) (hlt : pc < target)
      (rest : Leads function consumer rs target last y) : Leads function consumer rs pc last y
  | compute {rs : Registers} {pc : Nat} {last : LastWrite} {i : Instruction} {writes : List Write}
      {y : Yield} (hpc : pc ≠ consumer) (hi : function.code[pc]? = some i)
      (hrole : i.role ≠ .jump) (ht : i.isTransparent = true)
      (he : (Frame.mk function pc rs).effect i = .ok writes)
      (rest : Leads function consumer (rs.apply writes) (i.after pc)
        ((i.destination?.map fun r => (r, pc)) <|> last) y) :
      Leads function consumer rs pc last y

/-- A path that loads a register right before the consumer yields what it loads. -/
theorem Leads.of_load {function : Prototype} {consumer pc : Nat} {rs : Registers}
    {last : LastWrite} {i : Instruction} {e : Rendered} (hpc : pc ≠ consumer)
    (hi : function.code[pc]? = some i) (hrole : i.role ≠ .jump) (ht : i.isTransparent = true)
    (hd : i.destination? = some i.a)
    (he : (Frame.mk function pc rs).effect i = .ok [.store i.a e])
    (hafter : i.after pc = consumer) :
    Leads function consumer rs pc last (some (e.wrapOperand, pc)) := by
  refine .compute hpc hi hrole ht he ?_
  have htext : (rs.apply [.store i.a e]).valueText i.a = e.wrapOperand := by
    simp [Registers.apply, Write.store, Registers.valueText, Registers.rendered]
  rw [hd, hafter, ← htext]
  exact .consumed

/-- Paths are deterministic. -/
theorem Leads.unique {function : Prototype} {consumer pc : Nat} {rs : Registers}
    {last : LastWrite} {y y' : Yield} (h : Leads function consumer rs pc last y)
    (h' : Leads function consumer rs pc last y') : y = y' := by
  have hstore : ∀ {i : Instruction}, i.role = .tableStore ∨ i.role = .globalStore →
      i.isTransparent ≠ true := by
    rintro i (hr | hr) ht <;> simpa [hr] using Instruction.role_of_isTransparent ht
  induction h with
  | consumed =>
    cases h' with
    | consumed => rfl
    | stored hpc => exact absurd rfl hpc
    | jump hpc => exact absurd rfl hpc
    | compute hpc => exact absurd rfl hpc
  | stored hpc hi hrole ha =>
    cases h' with
    | consumed => exact absurd rfl hpc
    | stored hpc' hi' hrole' ha' =>
      cases hi.symm.trans hi'
      cases ha.symm.trans ha'
      rfl
    | jump hpc' hi' hrole' =>
      cases hi.symm.trans hi'
      simp [hrole'] at hrole
    | compute hpc' hi' hrole' ht' =>
      cases hi.symm.trans hi'
      exact absurd ht' (hstore hrole)
  | jump hpc hi hrole ht hlt rest ih =>
    cases h' with
    | consumed => exact absurd rfl hpc
    | stored hpc' hi' hrole' ha' =>
      cases hi.symm.trans hi'
      simp [hrole] at hrole'
    | jump hpc' hi' hrole' ht' hlt' rest' =>
      cases hi.symm.trans hi'
      cases ht.symm.trans ht'
      exact ih rest'
    | compute hpc' hi' hrole' =>
      cases hi.symm.trans hi'
      exact absurd hrole hrole'
  | compute hpc hi hrole ht he rest ih =>
    cases h' with
    | consumed => exact absurd rfl hpc
    | stored hpc' hi' hrole' ha' =>
      cases hi.symm.trans hi'
      exact absurd ht (hstore hrole')
    | jump hpc' hi' hrole' =>
      cases hi.symm.trans hi'
      exact absurd hrole' hrole
    | compute hpc' hi' hrole' ht' he' rest' =>
      cases hi.symm.trans hi'
      cases he.symm.trans he'
      exact ih rest'

/-- The leaf of a path from `origin` with a yield; without one it has no value. -/
def leafOf (code : List Instruction) (consumer origin : Nat) : Yield → LeafValue
  | none => .nil
  | some (text, _) => written code consumer origin text

/-! ## Following a path -/

section Follow

variable {function : Prototype} {start consumer origin pc : Nat} {wrote : Option UInt8}
  {i : Instruction} {s s' : RegisterStack} {e : PathEnd}

theorem followFrom_end (hpc : pc ≠ consumer) (hi : function.code[pc]? = none) :
    followFrom function start consumer origin wrote pc =
      throw (.inconclusive start (.unresolvedPath origin)) := by
  rw [followFrom, if_neg hpc]
  split
  · rfl
  · next j hj => cases hi.symm.trans hj

theorem followFrom_other (hpc : pc ≠ consumer) (hi : function.code[pc]? = some i)
    (htable : i.role ≠ .tableStore) (hglobal : i.role ≠ .globalStore)
    (ht : i.isTransparent = false) :
    followFrom function start consumer origin wrote pc =
      throw (.inconclusive start (.unresolvedPath origin)) := by
  rw [followFrom, if_neg hpc]
  split
  · rfl
  · next j hj =>
    cases hi.symm.trans hj
    split
    · next hr => exact absurd hr htable
    · next hr => exact absurd hr hglobal
    · next hr => simp [(Instruction.of_booleanLoad hr).1] at ht
    · next hr => simp [Instruction.isTransparent_of_jump hr] at ht
    · simp [ht]

theorem followFrom_store (hpc : pc ≠ consumer) (hi : function.code[pc]? = some i)
    (hrole : i.role = .tableStore ∨ i.role = .globalStore) :
    followFrom function start consumer origin wrote pc =
      Analysis.frame function pc >>= fun f =>
        match f.assignment? i with
        | some a => pure ⟨stored f consumer origin wrote a, some a.target⟩
        | none => throw (.inconclusive start (.unresolvedPath origin)) := by
  rw [followFrom, if_neg hpc]
  split
  · next hj => cases hi.symm.trans hj
  · next j hj =>
    cases hi.symm.trans hj
    split
    · rfl
    · rfl
    · next hr => simp [hr] at hrole
    · next hr => simp [hr] at hrole
    · next htable hglobal _ _ => exact absurd hrole (not_or.2 ⟨htable, hglobal⟩)

theorem followFrom_jump (hpc : pc ≠ consumer) (hi : function.code[pc]? = some i)
    (hrole : i.role = .jump) :
    followFrom function start consumer origin wrote pc =
      match i.jumpTarget? pc with
      | some target =>
        if pc < target then followFrom function start consumer origin wrote target
        else throw (.inconclusive start (.unresolvedPath origin))
      | none => throw (.inconclusive start (.unresolvedPath origin)) := by
  rw [followFrom, if_neg hpc]
  split
  · next hj => cases hi.symm.trans hj
  · next j hj =>
    cases hi.symm.trans hj
    simp only [hrole]
    rfl

theorem followFrom_compute (hpc : pc ≠ consumer) (hi : function.code[pc]? = some i)
    (hrole : i.role ≠ .jump) (ht : i.isTransparent = true) :
    followFrom function start consumer origin wrote pc =
      Analysis.execute function start pc i >>= fun _ =>
        followFrom function start consumer origin (i.destination? <|> wrote) (i.after pc) := by
  rw [followFrom, if_neg hpc]
  split
  · next hj => cases hi.symm.trans hj
  · next j hj =>
    cases hi.symm.trans hj
    rcases Instruction.role_of_isTransparent ht with hr | hr | hr
    · simp [hr, ht, Instruction.after]
    · by_cases hc : i.c = 0 <;> simp [hr, hc, (Instruction.of_booleanLoad hr).2, Instruction.after]
    · exact absurd hr hrole

/-- Executing an instruction performs its writes and keeps the open scopes. -/
theorem execute_eq_ok {u : Unit} (h : Analysis.execute function start pc i s = .ok u s') :
    ∃ writes, (Frame.mk function pc s.current).effect i = .ok writes ∧
      s' = { s with current := s.current.apply writes } := by
  have hx := Analysis.execute_eq_ok h
  unfold RegisterStack.execute at hx
  split at hx
  · next writes hw =>
    cases hx
    exact ⟨writes, hw, rfl⟩
  · cases hx

/-- A followed path leads on: scopes are kept, and the value is that of the yield. -/
def Follows (function : Prototype) (start consumer origin : Nat) (wrote : Option UInt8)
    (pc : Nat) : Prop :=
  ∀ ⦃s s' : RegisterStack⦄ ⦃e : PathEnd⦄ ⦃last : LastWrite⦄,
    followFrom function start consumer origin wrote pc s = .ok e s' → last.map Prod.fst = wrote →
    s'.saved = s.saved ∧ ∃ y, Leads function consumer s.current pc last y ∧
      e.value = leafOf function.code consumer origin y

theorem Follows.consumed : Follows function start consumer origin wrote consumer := by
  intro s s' e last h hlast
  rw [followFrom, if_pos rfl] at h
  obtain ⟨f, s₁, hf, h₁⟩ := Analysis.bind_eq_ok h
  cases hf
  subst hlast
  cases last with
  | none =>
    obtain ⟨rfl, rfl⟩ := Analysis.pure_eq_ok h₁
    exact ⟨rfl, _, .consumed, rfl⟩
  | some w =>
    obtain ⟨rfl, rfl⟩ := Analysis.pure_eq_ok h₁
    exact ⟨rfl, _, .consumed, rfl⟩

theorem Follows.stored (hpc : pc ≠ consumer) (hi : function.code[pc]? = some i)
    (hrole : i.role = .tableStore ∨ i.role = .globalStore) :
    Follows function start consumer origin wrote pc := by
  intro s s' e last h hlast
  rw [followFrom_store hpc hi hrole] at h
  obtain ⟨f, s₁, hf, h₁⟩ := Analysis.bind_eq_ok h
  cases hf
  subst hlast
  cases ha : (s.frame function pc).assignment? i with
  | none =>
    simp only [ha] at h₁
    cases h₁
  | some a =>
    simp only [ha] at h₁
    obtain ⟨rfl, rfl⟩ := Analysis.pure_eq_ok h₁
    refine ⟨rfl, _, .stored hpc hi hrole ha, ?_⟩
    cases last with
    | none => rfl
    | some w => rfl

theorem Follows.jump (hpc : pc ≠ consumer) (hi : function.code[pc]? = some i)
    (hrole : i.role = .jump)
    (rest : ∀ target, i.jumpTarget? pc = some target → pc < target →
      Follows function start consumer origin wrote target) :
    Follows function start consumer origin wrote pc := by
  intro s s' e last h hlast
  rw [followFrom_jump hpc hi hrole] at h
  cases ht : i.jumpTarget? pc with
  | none =>
    rw [ht] at h
    cases h
  | some target =>
    simp only [ht] at h
    by_cases hlt : pc < target
    · rw [if_pos hlt] at h
      obtain ⟨hsaved, y, hy, hv⟩ := rest target ht hlt h hlast
      exact ⟨hsaved, y, .jump hpc hi hrole ht hlt hy, hv⟩
    · rw [if_neg hlt] at h
      cases h

theorem Follows.compute (hpc : pc ≠ consumer) (hi : function.code[pc]? = some i)
    (hrole : i.role ≠ .jump) (ht : i.isTransparent = true)
    (rest : Follows function start consumer origin (i.destination? <|> wrote) (i.after pc)) :
    Follows function start consumer origin wrote pc := by
  intro s s' e last h hlast
  rw [followFrom_compute hpc hi hrole ht] at h
  obtain ⟨u, s₁, hx, h₁⟩ := Analysis.bind_eq_ok h
  obtain ⟨writes, hw, rfl⟩ := execute_eq_ok hx
  have hlast' : (((i.destination?.map fun r => (r, pc)) <|> last).map Prod.fst) =
      (i.destination? <|> wrote) := by
    rw [← hlast]
    cases i.destination? <;> rfl
  obtain ⟨hsaved, y, hy, hv⟩ := rest h₁ hlast'
  exact ⟨hsaved, y, .compute hpc hi hrole ht hw hy, hv⟩

variable (function start consumer origin) in
theorem follows (wrote : Option UInt8) (pc : Nat) :
    Follows function start consumer origin wrote pc := by
  induction wrote, pc using followFrom.induct function consumer with
  | case1 wrote => exact .consumed
  | case2 wrote pc hpc hi =>
    intro s s' e last h
    rw [followFrom_end hpc hi] at h
    cases h
  | case3 wrote pc hpc i hi hrole => exact .stored hpc hi (.inl hrole)
  | case4 wrote pc hpc i hi hrole => exact .stored hpc hi (.inr hrole)
  | case5 wrote pc hpc i hi hrole ih =>
    obtain ⟨ht, hd⟩ := Instruction.of_booleanLoad hrole
    refine .compute hpc hi (by simp [hrole]) ht ?_
    rw [hd, Instruction.after_of_booleanLoad hrole]
    exact ih
  | case6 wrote pc hpc i hi hrole target ht hlt ih =>
    refine .jump hpc hi hrole fun target' ht' hlt' => ?_
    cases ht.symm.trans ht'
    exact ih
  | case7 wrote pc hpc i hi hrole target ht hlt =>
    refine .jump hpc hi hrole fun target' ht' hlt' => ?_
    cases ht.symm.trans ht'
    exact absurd hlt' hlt
  | case8 wrote pc hpc i hi hrole ht =>
    refine .jump hpc hi hrole fun target' ht' hlt' => ?_
    cases ht.symm.trans ht'
  | case9 wrote pc hpc i hi ht htable hglobal hload hjump ih =>
    refine .compute hpc hi hjump ht ?_
    rw [Instruction.after_of_ne hload]
    exact ih
  | case10 wrote pc hpc i hi ht htable hglobal hload hjump =>
    intro s s' e last h
    rw [followFrom_other hpc hi htable hglobal (by simpa using ht)] at h
    cases h

/-- A path that is followed with success leaves the registers as they were. -/
theorem follow_eq_ok (h : follow function start consumer origin s = .ok e s') :
    s' = s ∧ ∃ y, Leads function consumer s.current origin none y ∧
      e.value = leafOf function.code consumer origin y := by
  unfold follow RegisterStack.inScope at h
  split at h
  · next e' s₁ hf =>
    cases h
    have hlast : (none : LastWrite).map Prod.fst = none := rfl
    obtain ⟨hsaved, hy⟩ := follows function start consumer origin none origin hf hlast
    refine ⟨?_, hy⟩
    rw [RegisterStack.pop, hsaved]
    rfl
  · cases h

end Follow

theorem joinTarget_eq_ok {first second joined : Option String} {s s' : RegisterStack}
    (h : joinTarget first second s = .ok joined s') : s' = s := by
  unfold joinTarget at h
  split at h
  · split_ifs at h
    · exact (Analysis.pure_eq_ok h).2.symm
    · cases h
  · exact (Analysis.pure_eq_ok h).2.symm

/-- The leaves of the paths from several places. -/
theorem leaves_eq_ok {function : Prototype} {start consumer : Nat} {target target' : Option String}
    {origins : List Nat} {nodes : List Node} {s s' : RegisterStack}
    (h : leaves function start consumer target origins s = .ok (nodes, target') s') :
    nodes.map (·.key) = origins ∧ ∀ n ∈ nodes, ∃ y,
      Leads function consumer s.current n.key none y ∧
        n.content = .leaf (leafOf function.code consumer n.key y) := by
  induction origins generalizing target nodes s with
  | nil =>
    obtain ⟨he, -⟩ := Analysis.pure_eq_ok h
    cases he
    simp
  | cons origin origins ih =>
    obtain ⟨e, s₁, he, h₁⟩ := Analysis.bind_eq_ok h
    obtain ⟨rfl, y, hy, hv⟩ := follow_eq_ok he
    obtain ⟨joined, s₂, hj, h₂⟩ := Analysis.bind_eq_ok h₁
    obtain rfl := joinTarget_eq_ok hj
    obtain ⟨⟨rest, target₁⟩, s₃, hrest, h₃⟩ := Analysis.bind_eq_ok h₂
    obtain ⟨hn, rfl⟩ := Analysis.pure_eq_ok h₃
    cases hn
    obtain ⟨hkeys, hcontent⟩ := ih hrest
    refine ⟨by simp [hkeys], fun n hn => ?_⟩
    rcases List.mem_cons.1 hn with rfl | hn
    · exact ⟨y, hy, by rw [hv]⟩
    · exact hcontent n hn

end Path

end ShortCircuit
