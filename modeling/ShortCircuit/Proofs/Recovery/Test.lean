import ShortCircuit.Proofs.Recovery.Run

/-!
# Conditions that decide a jump

A condition recovered as a test says where its chain goes: under every assignment of truth values
the chain is left, at the body when the statement holds and at the other exit when it does not.

* `Context.ofChain_eq_test`: body and exit are the two exits of the chain.
* `Condition.testLeaves_of_exits`, `Condition.exits_of_testLeaves`: the places where a test is left
  get values exactly when there are no others than body and exit.
* `Condition.close_of_test`: for a chain that decides a jump there are no others.
* `Condition.closes_of_test`: the closed table of a test has one leaf for each truth value.
* `Condition.run_of_test`: runs of the chain end where the statement says.
-/

namespace ShortCircuit

/-- The context of a chain that decides a jump comes from its exits. -/
theorem Context.ofExits_of_test {c : Chain} {inLoop : Bool} {start body exit : Nat}
    (h : Context.ofChain c inLoop start = .ok (.test body exit)) :
    Context.ofExits (c.table start) inLoop start = .ok (.test body exit) := by
  rcases Context.ofChain_cases c inLoop start with hexits | ⟨consumer, -, hvalue⟩
  · exact hexits.symm.trans h
  · cases h.symm.trans hvalue

/-- A chain that decides a jump has two exits, of which one is the body; outside a loop it is the
smaller one. -/
theorem Context.ofChain_eq_test {c : Chain} {inLoop : Bool} {start body exit : Nat}
    (h : Context.ofChain c inLoop start = .ok (.test body exit)) :
    body ≠ exit ∧ (∀ k, k ∈ (c.table start).exits ↔ k = body ∨ k = exit) ∧
      (inLoop = false → body < exit) := by
  have hexits := Context.ofExits_of_test h
  have hsorted := (c.table start).pairwise_exits
  unfold Context.ofExits at hexits
  split at hexits
  · next first second he =>
    rw [he] at hsorted ⊢
    have hlt : first < second := by simpa using hsorted
    split_ifs at hexits with hback hloop
    · cases hexits
      refine ⟨by omega, fun k => by simp [or_comm], ?_⟩
      rintro rfl
      simp at hloop
    · cases hexits
      exact ⟨by omega, fun k => by simp, fun _ => hlt⟩
  · split_ifs at hexits

namespace Condition

section Test

variable {function : Prototype} {start body exit : Nat} {chain : Chain} {table : Table}
  {target : Option String} {s s' : RegisterStack}

/-- The leaf that says whether a place is the body of a test. -/
def exitLeaf (body key : Nat) : Node := { key, content := .leaf (.bool (key = body)) }

theorem testLeaf_of_exit {key : Nat} (h : key = body ∨ key = exit) :
    testLeaf body exit key = .ok (exitLeaf body key) := by
  unfold testLeaf exitLeaf
  split_ifs with hbody hexit
  · simp [hbody]
  · simp [hbody]
  · exact absurd h (by simp [hbody, hexit])

theorem testLeaf_of_ne {key : Nat} (hbody : key ≠ body) (hexit : key ≠ exit) :
    testLeaf body exit key = .error (.unresolvedPath key) := by
  rw [testLeaf, if_neg hbody, if_neg hexit]

/-- When a test is left at the body and the exit only, each place gets the leaf that says which of
the two it is. -/
theorem testLeaves_of_exits {exits : List Nat} (h : ∀ k ∈ exits, k = body ∨ k = exit) :
    testLeaves body exit exits = .ok (exits.map (exitLeaf body)) := by
  unfold testLeaves
  induction exits with
  | nil => rfl
  | cons k exits ih =>
    rw [List.mapM_cons, testLeaf_of_exit (h k List.mem_cons_self),
      ih fun k' hk' => h k' (List.mem_cons_of_mem k hk')]
    rfl

/-- A test that is left anywhere else has no leaves. -/
theorem exits_of_testLeaves {exits : List Nat} {leaves : List Node}
    (h : testLeaves body exit exits = .ok leaves) : ∀ k ∈ exits, k = body ∨ k = exit := by
  unfold testLeaves at h
  induction exits generalizing leaves with
  | nil => simp
  | cons k exits ih =>
    rw [List.mapM_cons] at h
    by_cases hk : k = body ∨ k = exit
    · rw [testLeaf_of_exit hk] at h
      cases hrest : exits.mapM (testLeaf body exit) with
      | error obstacle =>
        rw [hrest] at h
        cases h
      | ok rest => exact List.forall_mem_cons.2 ⟨hk, ih hrest⟩
    · obtain ⟨hbody, hexit⟩ := not_or.1 hk
      rw [testLeaf_of_ne hbody hexit] at h
      cases h

theorem testLeaves_eq_ok {exits : List Nat} {leaves : List Node}
    (h : testLeaves body exit exits = .ok leaves) : leaves = exits.map (exitLeaf body) :=
  Except.ok.inj (h.symm.trans (testLeaves_of_exits (exits_of_testLeaves h)))

/-- The table of a test with its leaves. -/
def testTable (body : Nat) (t : Table) : Table :=
  ((t.exits.map (exitLeaf body)).foldl Table.insert t).link

/-- The table of a chain that decides a jump is closed without failure: its two exits are the body
and the exit of the context, so that no place is left without a value. -/
theorem close_of_test {inLoop : Bool}
    (hcontext : Context.ofChain chain inLoop start = .ok (.test body exit))
    (function : Prototype) (s : RegisterStack) :
    close function start (.test body exit) (chain.table start) s =
      .ok (testTable body (chain.table start), none) s := by
  obtain ⟨-, hexits, -⟩ := Context.ofChain_eq_test hcontext
  rw [close_test, testLeaves_of_exits fun k hk => (hexits k).1 hk]
  rfl

theorem close_test_eq_ok {t : Table}
    (h : close function start (.test body exit) t s = .ok (table, target) s') :
    table = testTable body t := by
  rw [close_test] at h
  cases hleaves : testLeaves body exit t.exits with
  | error obstacle =>
    rw [hleaves] at h
    cases h
  | ok leaves =>
    rw [hleaves, testLeaves_eq_ok hleaves] at h
    cases h
    rfl

/-- A closed table of a test has the leaf `true` at the body and `false` at the other exits. -/
theorem closes_of_test (hseg : Chain.Segmented function.code start chain.pairs)
    (h : close function start (.test body exit) (chain.table start) s = .ok (table, target) s') :
    chain.Closes start table ∧ ∀ k ∈ (chain.table start).exits,
      table.content? k = some (.leaf (.bool (k = body))) := by
  cases close_test_eq_ok h
  have hkeys : ((chain.table start).exits.map (exitLeaf body)).map (·.key) =
      (chain.table start).exits := by
    simp [exitLeaf, Function.comp_def]
  have hleaf : ∀ n ∈ (chain.table start).exits.map (exitLeaf body), ∃ x, n.content = .leaf x := by
    simp [exitLeaf]
  obtain ⟨hcloses, hcontent⟩ := Chain.closes_of_leaves hseg hkeys hleaf
  exact ⟨hcloses, fun k hk => hcontent (exitLeaf body k) (List.mem_map_of_mem hk)⟩

/-- The closed table of a test reaches both truth values and no other leaf. -/
theorem decides_of_test (hseg : Chain.Segmented function.code start chain.pairs)
    (hcloses : chain.Closes start table) (hne : body ≠ exit)
    (hexits : ∀ k, k ∈ (chain.table start).exits ↔ k = body ∨ k = exit)
    (hleaf : ∀ k ∈ (chain.table start).exits,
      table.content? k = some (.leaf (.bool (k = body)))) :
    table.Decides ∧ table.NoNil := by
  constructor
  · refine .inr fun b => ?_
    have hk : (if b then body else exit) ∈ (chain.table start).exits := by
      rw [hexits]
      cases b <;> simp
    refine ⟨_, hcloses.reachable_exit hseg hk, ?_⟩
    rw [hleaf _ hk]
    cases b <;> simp [hne.symm]
  · intro k hk
    rcases hcloses.cases hk with ⟨p, -, -, hp⟩ | ⟨hexit, -⟩
    · cases hp
    · have := hleaf k hexit
      rw [hk] at this
      cases this

end Test

/-- The tests of a condition that decides a jump, run under any assignment, leave the chain, at one
place only: the body when the statement holds, and the other exit when it does not. -/
theorem run_of_test {function : Prototype} {inLoop : Bool} {start : Nat} {s : RegisterStack}
    {c : Condition} (h : (startingAt function inLoop start).run' s = some (some c))
    (htest : c.isValue = false) :
    ∃ chain s₁ body, Chain.collect function inLoop start s.push = .ok chain s₁ ∧
      Chain.Segmented function.code start chain.pairs ∧ c.body? = some body ∧
      ∀ v o, (∃ p, chain.Run v start o (if c.statement.eval v then body else c.endPc) p) ∧
        ∀ place p, chain.Run v start o place p →
          place = if c.statement.eval v then body else c.endPc := by
  obtain ⟨s', h⟩ := Analysis.eq_ok_of_run' h
  obtain ⟨chain, s₁, s₂, hcollect, -, hchain⟩ := startingAt_eq_ok h
  obtain ⟨context, table, target, s₃, reduced, hcontext, hclose, hreduce, hstatement, -, huse⟩ :=
    ofChain_eq_ok hchain
  have hseg := Chain.segmented_of_collect hcollect
  cases context with
  | value consumer =>
    obtain ⟨target', register, hvalue⟩ := exists_valueUse_eq (s₃.frame function consumer)
      consumer chain.register? target
    rw [isValue, huse.2, hvalue] at htest
    cases htest
  | test body exit =>
    obtain ⟨-, huse⟩ := huse
    have hbody : c.body? = some body := by rw [body?, huse]
    have hend : c.endPc = exit := by rw [endPc, huse]
    obtain ⟨hne, hexits, -⟩ := Context.ofChain_eq_test hcontext
    obtain ⟨hcloses, hleaf⟩ := closes_of_test hseg hclose
    obtain ⟨hdecides, hnil⟩ := decides_of_test hseg hcloses hne hexits hleaf
    refine ⟨chain, s₁, body, hcollect, hseg, hbody, fun v o => ?_⟩
    obtain ⟨k, p, hwalk, hvalue⟩ :=
      Table.walk_of_reduce hcloses.covers hnil hdecides hreduce hstatement v o
    rw [hcloses.root] at hwalk
    obtain ⟨hrun, hk⟩ := hcloses.run hwalk
    -- The leaf at the end says whether the place is the body.
    have hplace : k = if c.statement.eval v then body else c.endPc := by
      simp only [Table.valueAt_leaf (hleaf k hk), Table.reading, hleaf k hk,
        LeafValue.read] at hvalue
      rw [← hvalue, hend]
      rcases (hexits k).1 hk with rfl | rfl
      · simp
      · simp [hne.symm]
    rw [← hplace]
    exact ⟨⟨p, hrun⟩, fun place q hq => (Chain.Run.unique hseg hrun hq).1.symm⟩

/-- The code of a loop that calls `f` until `a == "on" and b == "off"`; both tests jump back. -/
def untilLoop : Prototype where
  code :=
    [.ofABx .getGlobal 0 0, .ofABC .call 0 1 1, .ofABx .getGlobal 0 1, .ofABC .eq 0 0 258,
     .ofAsBx .jmp 0 (-5), .ofABx .getGlobal 0 3, .ofABC .eq 0 0 260, .ofAsBx .jmp 0 (-8),
     .ofABC .ret 0 1 0]
  constants := [.string [102], .string [97], .string [111, 110], .string [98],
    .string [111, 102, 102]]

/-- The loop ends at 8 when both comparisons hold, and else goes back to 0. -/
theorem run_of_test_untilLoop :
    ∃ chain s₁,
      Chain.collect untilLoop true 3 (RegisterStack.empty.define 0 (.atom "a")).push =
        .ok chain s₁ ∧
      ∀ v o, ∃ p, chain.Run v 3 o (if v "a == \"on\"" && v "b == \"off\"" then 8 else 0) p := by
  have h : (startingAt untilLoop true 3).run' (RegisterStack.empty.define 0 (.atom "a")) =
      some (some ⟨3, 8, .join .and (.atom "a == \"on\"" false) (.atom "b == \"off\"" false) false,
        .test 8 0⟩) := by
    decide +kernel
  obtain ⟨chain, s₁, body, hcollect, -, hbody, hrun⟩ := run_of_test h rfl
  cases hbody
  refine ⟨chain, s₁, hcollect, fun v o => ?_⟩
  obtain ⟨p, hp⟩ := (hrun v o).1
  exact ⟨p, by simpa [Formula.eval, Formula.shown, Connective.apply, endPc] using hp⟩

end Condition

end ShortCircuit
