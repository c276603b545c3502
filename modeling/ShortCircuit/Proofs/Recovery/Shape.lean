import ShortCircuit.Proofs.Decision.Relabel
import ShortCircuit.Proofs.Recovery.Failure
import ShortCircuit.Proofs.Registers.Faults

/-!
# The shape of a test does not depend on names

Two functions with the same code and the same number of constants are analysed side by side, on
registers that have nothing to do with each other. Constants, names and registers only ever get into
texts, and in a chain that decides a jump no text is looked at. So the two analyses go alike: they
find conditions of one shape with the same places, or they fail for the same cause.

* `Analysis.Agree`: two analyses that succeed with related results or fail alike, on any registers;
  closed under sequencing.
* `Chain.collect_agree`: the collected chains differ in their texts only.
* `Context.ofChain_relabel`, `Chain.table_relabel`: what is made of a chain under a change of texts.
* `Condition.startingAt_agree`: the two analyses go alike unless the chain computes a value.
-/

namespace ShortCircuit

/-! ## Analyses that go alike -/

namespace Analysis

variable {α β : Type} {R : α → α → Prop} {S : β → β → Prop}

/-- Two analyses, each on any registers, succeed with related results or fail for one cause. -/
def Agree (R : α → α → Prop) (x y : Analysis α) : Prop :=
  ∀ s t, (∃ a b s' t', x s = .ok a s' ∧ y t = .ok b t' ∧ R a b) ∨
    ∃ cause s' t', x s = .error cause s' ∧ y t = .error cause t'

theorem agree_pure {a b : α} (h : R a b) : Agree R (pure a) (pure b) := fun s t =>
  .inl ⟨a, b, s, t, rfl, rfl, h⟩

theorem agree_throw (cause : ConditionError) : Agree R (throw cause) (throw cause) := fun s t =>
  .inr ⟨cause, s, t, rfl, rfl⟩

theorem Agree.bind {x y : Analysis α} {f g : α → Analysis β} (h : Agree R x y)
    (hfg : ∀ a b, R a b → Agree S (f a) (g b)) : Agree S (x >>= f) (y >>= g) := by
  intro s t
  rcases h s t with ⟨a, b, s₁, t₁, hx, hy, hab⟩ | ⟨cause, s₁, t₁, hx, hy⟩
  · rw [bind_of_ok hx, bind_of_ok hy]
    exact hfg a b hab s₁ t₁
  · exact .inr ⟨cause, s₁, t₁, bind_of_error hx, bind_of_error hy⟩

theorem agree_frame (F G : Prototype) (pc : Nat) :
    Agree (fun f g => f.pc = pc ∧ g.pc = pc) (frame F pc) (frame G pc) := fun s t =>
  .inl ⟨_, _, s, t, rfl, rfl, rfl, rfl⟩

/-- Instructions succeed or fail alike in functions with equally many constants. -/
theorem agree_execute {F G : Prototype} (hconstants : F.constants.length = G.constants.length)
    (start pc : Nat) (i : Instruction) :
    Agree (fun _ _ => True) (execute F start pc i) (execute G start pc i) := by
  intro s t
  unfold execute EStateM.adaptExcept
  rcases RegisterStack.execute_cases F pc i s with ⟨hF, s', hs⟩ | ⟨e, hF, hs⟩ <;>
    rcases RegisterStack.execute_cases G pc i t with ⟨hG, t', ht⟩ | ⟨e', hG, ht⟩
  · exact .inl ⟨(), (), s', t', by rw [hs], by rw [ht], trivial⟩
  · rw [← hconstants, hF] at hG
    cases hG
  · rw [← hconstants, hF] at hG
    cases hG
  · rw [← hconstants, hF] at hG
    cases hG
    exact .inr ⟨_, s, t, by rw [hs], by rw [ht]⟩

/-- Results that are related or fail for one obstacle. -/
theorem agree_ofExcept (start : Nat) {x y : Except Obstacle α}
    (h : (∃ a b, x = .ok a ∧ y = .ok b ∧ R a b) ∨ ∃ o, x = .error o ∧ y = .error o) :
    Agree R (ofExcept start x) (ofExcept start y) := by
  rcases h with ⟨a, b, rfl, rfl, hab⟩ | ⟨o, rfl, rfl⟩
  · exact agree_pure hab
  · exact agree_throw _

/-- A result that both analyses have. -/
theorem agree_ofExcept_self (start : Nat) (x : Except Obstacle α) :
    Agree (fun a b => b = a ∧ x = .ok a) (ofExcept start x) (ofExcept start x) := by
  cases x with
  | ok a => exact agree_pure ⟨rfl, rfl⟩
  | error o => exact agree_throw _

end Analysis

/-! ## Chains under a change of texts -/

/-- Replaces the text of a test. -/
def Pair.relabel (φ : String → String) (p : Pair) : Pair := { p with text := φ p.text }

theorem Pair.node_relabel (φ : String → String) (p : Pair) :
    (p.relabel φ).node = p.node.relabel φ := by
  have hbranch : (p.relabel φ).branch = p.branch.relabel φ := by
    by_cases h : p.instruction.polarity = true <;>
      simp [branch, relabel, Branch.relabel, h]
  rw [node, hbranch]
  rfl

theorem Table.foldl_insert_relabel (φ : String → String) (t : Table) (nodes : List Node) :
    (nodes.map (Node.relabel φ)).foldl insert (t.relabel φ) =
      (nodes.foldl insert t).relabel φ := by
  induction nodes generalizing t with
  | nil => rfl
  | cons n nodes ih =>
    rw [List.map_cons, List.foldl_cons, List.foldl_cons, insert_relabel, ih]

namespace Chain

/-- Replaces the texts of all tests. -/
def relabel (φ : String → String) (c : Chain) : Chain :=
  { c with pairs := c.pairs.map (Pair.relabel φ) }

/-- Two chains that differ in their texts only. -/
def SameShape (c d : Chain) : Prop := c.relabel (fun _ => "") = d.relabel fun _ => ""

variable (φ : String → String) (c : Chain)

theorem table_relabel (start : Nat) :
    (c.relabel φ).table start = (c.table start).relabel φ := by
  have hpairs : (c.pairs.map (Pair.relabel φ)).map Pair.node =
      (c.pairs.map Pair.node).map (Node.relabel φ) := by
    simp only [List.map_map, Function.comp_def, Pair.node_relabel]
  have htable (c : Chain) :
      c.table start = (c.pairs.map Pair.node).foldl Table.insert (.empty start) := by
    rw [table, List.foldl_map]
  rw [htable, htable, ← Table.foldl_insert_relabel, ← hpairs]
  rfl

theorem resume_relabel (start : Nat) : (c.relabel φ).resume start = c.resume start := by
  simp only [resume, relabel, List.getLast?_map]
  cases c.pairs.getLast? <;> rfl

theorem isEmpty_pairs_relabel : (c.relabel φ).pairs.isEmpty = c.pairs.isEmpty := by
  simp [relabel]

end Chain

namespace Context

theorem escapes_relabel (φ : String → String) (t : Table) (start consumer : Nat) :
    escapes (t.relabel φ) start consumer = escapes t start consumer := by
  rw [escapes, escapes, Table.targets_relabel]

theorem ofExits_relabel (φ : String → String) (t : Table) (inLoop : Bool) (start : Nat) :
    ofExits (t.relabel φ) inLoop start = ofExits t inLoop start := by
  rw [ofExits, ofExits, Table.exits_relabel]

/-- The context of a chain does not depend on its texts. -/
theorem ofChain_relabel (φ : String → String) (c : Chain) (inLoop : Bool) (start : Nat) :
    ofChain (c.relabel φ) inLoop start = ofChain c inLoop start := by
  simp only [ofChain, Chain.table_relabel, ofExits_relabel, escapes_relabel]
  rfl

end Context

namespace Chain

section Collect

variable {F G : Prototype} {inLoop : Bool} {start : Nat}

theorem sameShape_cons {f g : Frame} (h : f.pc = g.pc) (key : Nat) (i : Instruction) (target : Nat)
    {c d : Chain} (hcd : c.SameShape d) :
    (c.cons (Pair.ofFrame f key i target)).SameShape (d.cons (Pair.ofFrame g key i target)) := by
  unfold SameShape relabel at *
  injection hcd with hpairs hconsumer
  simp only [cons, List.map_cons, hpairs, hconsumer, Pair.relabel, Pair.ofFrame, h]

/-- Functions with the same code and equally many constants have chains that differ in their texts
only. -/
theorem collectFrom_agree (hcode : F.code = G.code)
    (hconstants : F.constants.length = G.constants.length) (key pc : Nat) :
    Analysis.Agree SameShape (collectFrom F inLoop start key pc)
      (collectFrom G inLoop start key pc) := by
  -- Every branch of the collection is decided by the code, so both take the same one; the registers
  -- drift apart as instructions are executed, and the hypothesis holds for any of them.
  induction key, pc using collectFrom.induct F inLoop start with
  | case1 key pc hi =>
    have hG : G.code[pc]? = none := hcode ▸ hi
    rw [collectFrom_end hi, collectFrom_end hG]
    exact Analysis.agree_pure rfl
  | case2 pc i hi hc hj =>
    have hG : G.code[pc]? = some i := hcode ▸ hi
    rw [collectFrom_conditional hi hc, collectFrom_conditional hG hc, ← hcode, hj]
    simp only [if_true]
    exact Analysis.agree_throw _
  | case3 key pc i hi hc hj hne =>
    have hG : G.code[pc]? = some i := hcode ▸ hi
    rw [collectFrom_conditional hi hc, collectFrom_conditional hG hc, ← hcode, hj]
    simp only [if_neg hne]
    exact Analysis.agree_pure rfl
  | case4 key pc i hi hc target hj hback =>
    have hG : G.code[pc]? = some i := hcode ▸ hi
    rw [collectFrom_conditional hi hc, collectFrom_conditional hG hc, ← hcode, hj]
    simp only [if_pos hback]
    exact Analysis.agree_pure rfl
  | case5 key pc i hi hc target hj hback ih =>
    have hG : G.code[pc]? = some i := hcode ▸ hi
    rw [collectFrom_conditional hi hc, collectFrom_conditional hG hc, ← hcode, hj]
    simp only [if_neg hback]
    refine (Analysis.agree_frame F G pc).bind fun f g hfg => ?_
    refine ih.bind fun c d hcd => Analysis.agree_pure ?_
    exact sameShape_cons (hfg.1.trans hfg.2.symm) key i target hcd
  | case6 key pc i hi hc hstore =>
    have hG : G.code[pc]? = some i := hcode ▸ hi
    have hc : i.isConditional = false := by simpa using hc
    rw [collectFrom_other hi hc, collectFrom_other hG hc, ← hcode]
    simp only [if_pos hstore]
    exact Analysis.agree_pure rfl
  | case7 key pc i hi hc hstore hpair =>
    have hG : G.code[pc]? = some i := hcode ▸ hi
    have hc : i.isConditional = false := by simpa using hc
    rw [collectFrom_other hi hc, collectFrom_other hG hc, ← hcode]
    simp only [if_neg hstore, if_pos hpair]
    exact Analysis.agree_pure rfl
  | case8 key pc i hi hc hstore hpair hjump ih =>
    have hG : G.code[pc]? = some i := hcode ▸ hi
    have hc : i.isConditional = false := by simpa using hc
    rw [collectFrom_other hi hc, collectFrom_other hG hc, ← hcode]
    simp only [if_neg hstore, if_neg hpair, if_pos hjump]
    exact ih
  | case9 key pc i hi hc hstore hpair hjump ht ih =>
    have hG : G.code[pc]? = some i := hcode ▸ hi
    have hc : i.isConditional = false := by simpa using hc
    rw [collectFrom_other hi hc, collectFrom_other hG hc, ← hcode]
    simp only [if_neg hstore, if_neg hpair, if_neg hjump, if_pos ht]
    exact (Analysis.agree_execute hconstants start pc i).bind fun _ _ _ => ih
  | case10 key pc i hi hc hstore hpair hjump ht =>
    have hG : G.code[pc]? = some i := hcode ▸ hi
    have hc : i.isConditional = false := by simpa using hc
    rw [collectFrom_other hi hc, collectFrom_other hG hc, ← hcode]
    simp only [if_neg hstore, if_neg hpair, if_neg hjump, if_neg ht]
    exact Analysis.agree_pure rfl

theorem collect_agree (hcode : F.code = G.code)
    (hconstants : F.constants.length = G.constants.length) :
    Analysis.Agree SameShape (collect F inLoop start) (collect G inLoop start) :=
  collectFrom_agree hcode hconstants start start

end Collect

variable {c d : Chain}

theorem SameShape.context_eq (h : c.SameShape d) (inLoop : Bool) (start : Nat) :
    Context.ofChain c inLoop start = Context.ofChain d inLoop start := by
  rw [← Context.ofChain_relabel (fun _ => "") c, ← Context.ofChain_relabel (fun _ => "") d, h]

theorem SameShape.table_eq (h : c.SameShape d) (start : Nat) :
    (c.table start).relabel (fun _ => "") = (d.table start).relabel fun _ => "" := by
  rw [← table_relabel, ← table_relabel, h]

theorem SameShape.resume_eq (h : c.SameShape d) (start : Nat) :
    c.resume start = d.resume start := by
  rw [← resume_relabel (fun _ => "") c, ← resume_relabel (fun _ => "") d, h]

theorem SameShape.isEmpty_eq (h : c.SameShape d) : c.pairs.isEmpty = d.pairs.isEmpty := by
  rw [← isEmpty_pairs_relabel (fun _ => "") c, ← isEmpty_pairs_relabel (fun _ => "") d, h]

end Chain

/-! ## Conditions -/

namespace Table

/-- The statements of two tables that differ in their texts only are of one shape, or missing. -/
theorem statement_cases {t u : Table} (h : t.relabel (fun _ => "") = u.relabel fun _ => "") :
    (∃ f g, t.statement = .ok f ∧ u.statement = .ok g ∧ f.SameShape g) ∨
      ∃ o, t.statement = .error o ∧ u.statement = .error o := by
  have hmap := congrArg statement h
  rw [statement_relabel, statement_relabel] at hmap
  cases ht : t.statement with
  | error o =>
    cases hu : u.statement with
    | error o' =>
      rw [ht, hu] at hmap
      injection hmap with ho
      exact .inr ⟨o, rfl, ho ▸ rfl⟩
    | ok g =>
      rw [ht, hu] at hmap
      cases hmap
  | ok f =>
    cases hu : u.statement with
    | error o' =>
      rw [ht, hu] at hmap
      cases hmap
    | ok g =>
      rw [ht, hu] at hmap
      injection hmap with hfg
      exact .inl ⟨f, g, rfl, rfl, Formula.sameShape_iff.2 hfg⟩

end Table

namespace Condition

variable {F G : Prototype} {inLoop : Bool} {start : Nat}

/-- Two conditions at the same places and for the same use, whose statements are of one shape. -/
structure SameShape (c d : Condition) : Prop where
  start : d.start = c.start
  resume : d.resume = c.resume
  use : d.use = c.use
  statement : c.statement.SameShape d.statement

/-- The leaves of a test carry no texts. -/
theorem testTable_relabel (φ : String → String) (body : Nat) (t : Table) :
    testTable body (t.relabel φ) = (testTable body t).relabel φ := by
  have hleaves : ((t.exits.map (exitLeaf body)).map (Node.relabel φ)) =
      t.exits.map (exitLeaf body) := by
    rw [List.map_map]
    rfl
  rw [testTable, testTable, ← Table.link_relabel, ← Table.foldl_insert_relabel, hleaves,
    Table.exits_relabel]

/-- Closing two tables of a test keeps what they have in common. -/
theorem close_agree {t u : Table} (h : t.relabel (fun _ => "") = u.relabel fun _ => "")
    (body exit : Nat) :
    Analysis.Agree (fun p q => p.1.relabel (fun _ => "") = q.1.relabel fun _ => "")
      (close F start (.test body exit) t) (close G start (.test body exit) u) := by
  have hexits : t.exits = u.exits := by
    rw [← Table.exits_relabel (fun _ => "") t, h, Table.exits_relabel]
  have htable : (testTable body t).relabel (fun _ => "") =
      (testTable body u).relabel fun _ => "" := by
    rw [← testTable_relabel, ← testTable_relabel, h]
  rw [close_test, close_test, ← hexits]
  refine Analysis.agree_ofExcept start ?_
  cases hleaves : testLeaves body exit t.exits with
  | error obstacle => exact .inr ⟨obstacle, rfl, rfl⟩
  | ok leaves =>
    rw [testTable, testTable, ← hexits, ← testLeaves_eq_ok hleaves] at htable
    exact .inl ⟨_, _, rfl, rfl, htable⟩

/-- Chains that differ in their texts only and decide a jump have conditions of one shape, or none
for the same reason. -/
theorem ofChain_agree {c d : Chain} (h : c.SameShape d)
    (hvalue : ∀ consumer, Context.ofChain c inLoop start ≠ .ok (.value consumer)) :
    Analysis.Agree SameShape (ofChain F inLoop start c) (ofChain G inLoop start d) := by
  unfold ofChain
  rw [← h.context_eq inLoop start]
  refine (Analysis.agree_ofExcept_self start (Context.ofChain c inLoop start)).bind ?_
  -- From here on both analyses are in the same context, and it is a test.
  rintro (consumer | ⟨body, exit⟩) _ ⟨rfl, hx⟩
  · exact absurd hx (hvalue consumer)
  refine (close_agree (h.table_eq start) body exit).bind ?_
  rintro ⟨t, target⟩ ⟨u, target'⟩ htu
  have hreduce : (t.relabel fun _ => "").reduce = (u.relabel fun _ => "").reduce :=
    congrArg Table.reduce htu
  rw [Table.reduce_relabel, Table.reduce_relabel] at hreduce
  obtain ⟨houtcome, hreduced⟩ := Prod.mk.inj hreduce
  show Analysis.Agree _ (Analysis.ofExcept start t.reduce.1 >>= _)
    (Analysis.ofExcept start u.reduce.1 >>= _)
  rw [← houtcome]
  refine (Analysis.agree_ofExcept_self start t.reduce.1).bind fun _ _ _ => ?_
  refine (Analysis.agree_ofExcept start (Table.statement_cases hreduced)).bind fun f g hfg => ?_
  exact Analysis.agree_pure ⟨rfl, (h.resume_eq start).symm, rfl, hfg⟩

/-- Whether the tests collected at a place compute a value that is consumed. -/
def computesValue (function : Prototype) (inLoop : Bool) (start : Nat) (s : RegisterStack) :
    Bool :=
  match Chain.collect function inLoop start s.push with
  | .ok chain _ =>
    match Context.ofChain chain inLoop start with
    | .ok (.value _) => !chain.pairs.isEmpty
    | _ => false
  | .error _ _ => false

theorem ofChain_ne_value {s s₁ : RegisterStack} {chain : Chain}
    (h : computesValue F inLoop start s = false)
    (hcollect : Chain.collect F inLoop start s.push = .ok chain s₁) (hne : chain.pairs ≠ [])
    (consumer : Nat) : Context.ofChain chain inLoop start ≠ .ok (.value consumer) := by
  intro hcontext
  rw [computesValue, hcollect] at h
  simp only [hcontext, Bool.not_eq_eq_eq_not, Bool.not_false] at h
  exact hne (List.isEmpty_iff.1 h)

theorem computesValue_eq_false {s s' : RegisterStack} {c : Condition}
    (h : startingAt F inLoop start s = .ok (some c) s') (hc : c.isValue = false) :
    computesValue F inLoop start s = false := by
  obtain ⟨chain, s₁, s₂, hcollect, -, hchain⟩ := startingAt_eq_ok h
  obtain ⟨context, table, target, s₃, reduced, hcontext, -, -, -, -, huse⟩ := ofChain_eq_ok hchain
  rw [computesValue, hcollect]
  simp only [hcontext]
  cases context with
  | test body exit => rfl
  | value consumer =>
    obtain ⟨target', register, heq⟩ := exists_valueUse_eq (s₃.frame F consumer) consumer
      chain.register? target
    rw [isValue, huse.2, heq] at hc
    cases hc

/-- The analyses of two functions with the same code and equally many constants go alike unless the
chain computes a value. -/
theorem startingAt_agree (hcode : F.code = G.code)
    (hconstants : F.constants.length = G.constants.length) {s : RegisterStack}
    (h : computesValue F inLoop start s = false) (t : RegisterStack) :
    (∃ a b s' t', startingAt F inLoop start s = .ok a s' ∧ startingAt G inLoop start t = .ok b t' ∧
        Option.Rel SameShape a b) ∨
      ∃ cause s' t', startingAt F inLoop start s = .error cause s' ∧
        startingAt G inLoop start t = .error cause t' := by
  unfold startingAt RegisterStack.inScope
  rcases Chain.collect_agree hcode hconstants s.push t.push with
    ⟨c, d, s₁, t₁, hF, hG, hcd⟩ | ⟨cause, s₁, t₁, hF, hG⟩
  · rw [Analysis.bind_of_ok hF, Analysis.bind_of_ok hG, ← hcd.isEmpty_eq]
    by_cases hempty : c.pairs.isEmpty = true
    · rw [if_pos hempty, if_pos hempty]
      exact .inl ⟨none, none, _, _, rfl, rfl, .none⟩
    rw [if_neg hempty, if_neg hempty]
    have hvalue := ofChain_ne_value h hF (by simpa using hempty)
    rcases ofChain_agree hcd hvalue s₁ t₁ with ⟨a, b, s₂, t₂, ha, hb, hab⟩ | ⟨cause, s₂, t₂, ha, hb⟩
    · rw [Analysis.bind_of_ok ha, Analysis.bind_of_ok hb]
      exact .inl ⟨some a, some b, _, _, rfl, rfl, .some hab⟩
    · rw [Analysis.bind_of_error ha, Analysis.bind_of_error hb]
      exact .inr ⟨cause, _, _, rfl, rfl⟩
  · rw [Analysis.bind_of_error hF, Analysis.bind_of_error hG]
    exact .inr ⟨cause, _, _, rfl, rfl⟩

/-- Names, constants and registers do not change the structure of a test. When two functions have
the same code and equally many constants and a test is found in one, a test of the same shape is
found in the other at the same places, whatever the registers are. When the analysis of one fails
and its tests do not compute a value, that of the other fails for the same cause. -/
theorem sameShape_of_startingAt (hcode : F.code = G.code)
    (hconstants : F.constants.length = G.constants.length) (inLoop : Bool) (start : Nat)
    (s t : RegisterStack) :
    (∀ c s', startingAt F inLoop start s = .ok (some c) s' → c.isValue = false →
      ∃ d t', startingAt G inLoop start t = .ok (some d) t' ∧ d.isValue = false ∧ c.SameShape d) ∧
    ∀ cause s', startingAt F inLoop start s = .error cause s' →
      computesValue F inLoop start s = false →
      ∃ t', startingAt G inLoop start t = .error cause t' := by
  constructor
  · intro c s' hc htest
    rcases startingAt_agree hcode hconstants (computesValue_eq_false hc htest) t with
      ⟨a, b, s₁, t₁, ha, hb, hab⟩ | ⟨cause, s₁, t₁, ha, -⟩
    · cases hc.symm.trans ha
      cases hab with
      | @some _ d hshape =>
        exact ⟨d, t₁, hb, by rw [isValue, hshape.use]; exact htest, hshape⟩
    · cases hc.symm.trans ha
  · intro cause s' hcause hvalue
    rcases startingAt_agree hcode hconstants hvalue t with
      ⟨a, b, s₁, t₁, ha, -⟩ | ⟨cause', s₁, t₁, ha, hb⟩
    · cases hcause.symm.trans ha
    · cases hcause.symm.trans ha
      exact ⟨t₁, hb⟩

/-- The code of `if mode == k or not ready then f() end`, where `mode` is a global and `ready` is in
register 1. -/
def choice : List Instruction :=
  [.ofABx .getGlobal 0 0, .ofABC .eq 1 0 257, .ofAsBx .jmp 0 2, .ofABC .test 1 0 1,
   .ofAsBx .jmp 0 1, .ofABC .call 1 1 1, .ofABC .ret 0 1 0]

/-- The code with a constant that is a name and with debug names. -/
def named : Prototype where
  code := choice
  constants := [.string [109, 111, 100, 101], .bool true]
  locals := [⟨"mode", 1, 7⟩, ⟨"ready", 1, 7⟩]

/-- The code with constants that are no names and without debug names. -/
def stripped : Prototype where
  code := choice
  constants := [.nil, .string []]

/-- Two tests that jump to different places, of a register with a name. -/
def namedExits : Prototype := { threeExits with locals := [⟨"ready", 0, 7⟩] }

/-- A test without debug names has the shape of the same test with names, and three exits stay three
exits when the registers get names. -/
theorem sameShape_of_startingAt_stripped :
    (∃ c d s' t', startingAt named false 0 .empty = .ok (some c) s' ∧
      c.statement = .join .or (.atom "mode == true" false) (.atom "ready" true) false ∧
      startingAt stripped false 0 (RegisterStack.empty.define 1 ⟨"a or b", Precedence.or⟩) =
        .ok (some d) t' ∧ c.SameShape d) ∧
    ∃ t', startingAt namedExits false 0 .empty =
      .error (.inconclusive 0 (.tooManyExits 3)) t' := by
  constructor
  · have h : (startingAt named false 0).run' .empty =
        some (some ⟨0, 5, .join .or (.atom "mode == true" false) (.atom "ready" true) false,
          .test 5 6⟩) := by decide +kernel
    obtain ⟨s', hs⟩ := Analysis.eq_ok_of_run' h
    obtain ⟨d, t', hd, -, hshape⟩ :=
      (sameShape_of_startingAt (F := named) (G := stripped) rfl rfl false 0 .empty _).1 _ s' hs rfl
    exact ⟨_, d, s', t', hs, rfl, hd, hshape⟩
  · have h : (match startingAt threeExits false 0 .empty with
        | .error cause _ => some cause
        | .ok _ _ => none) = some (.inconclusive 0 (.tooManyExits 3)) := by
      decide +kernel
    split at h
    · next cause s' hs =>
      cases h
      exact (sameShape_of_startingAt (F := threeExits) (G := namedExits) rfl rfl false 0 .empty
        .empty).2 _ s' hs (by decide +kernel)
    · cases h

end Condition

end ShortCircuit
