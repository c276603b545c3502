import ShortCircuit.Proofs.Decision.Tail
import ShortCircuit.Proofs.Recovery.Path
import ShortCircuit.Proofs.Recovery.Run

/-!
# Conditions that compute a value

A condition recovered as a value says what its paths produce: under every assignment the tests are
run until they are left, and the path from there produces a truth value. The statement has a truth
value that can be read off the same path. The two differ where the path is misread: written `nil`
counts as if nothing were written, an exit without a value beside the truth value of its own outcome
is read as the opposite of that outcome, truth values after a last test that does not tell its
outcomes apart are not read, and a truth value of the final pair is one only for paths that start
there.

* `Path.truth` is the truth value that a path produces, `Path.reading` the one that is read off it.
* `Path.reading_eq_truth_iff`: they agree exactly when the path is not `Path.Misread`.
* `Chain.Closes.hasTail`: the closed table of a chain has the tail of its last test.
* `Condition.eval_of_value`: the statement has the truth value that is read off the path.
* `Condition.not_tellsTruth_testing`: paths are misread in each of the four ways.
-/

namespace ShortCircuit

/-- The value of a leaf. -/
def Table.leaf? (t : Table) (k : Nat) : Option LeafValue :=
  match t.content? k with
  | some (.leaf x) => some x
  | _ => none

theorem Table.leaf?_eq_some_iff {t : Table} {k : Nat} {x : LeafValue} :
    t.leaf? k = some x ↔ t.content? k = some (.leaf x) := by
  unfold leaf?
  split
  · next y hy => simp [hy]
  · next hne =>
    constructor
    · intro h
      cases h
    · intro h
      exact absurd h (hne x)

/-- A text that is no literal denotes itself. -/
theorem LeafValue.eq_of_ofText_eq_text {text value : String} (h : ofText text = .text value) :
    value = text := by
  unfold ofText at h
  split_ifs at h
  cases h
  rfl

namespace Path

/-- The truth value that a path produces when the last test had an outcome: the loaded truth value
in the final pair of boolean loads, false for `nil`, the truth value of any other text, and the
outcome when nothing is written. -/
def truth (code : List Instruction) (consumer : Nat) (v : String → Bool) (outcome : Bool) :
    Yield → Bool
  | none => outcome
  | some (text, place) =>
    match LeafValue.ofText text with
    | .nil => false
    | .bool b => if isInFinalPair code consumer place then b else v text
    | .text _ => v text

/-- The truth value that the statement gives to the path from `origin`. Written `nil` counts as
nothing, and nothing passes the outcome on, or its opposite at a crossed exit. A truth value counts
as such when the path starts in the final pair, and then only when the last test tells its outcomes
apart. -/
def reading (a : Tail) (code : List Instruction) (consumer origin : Nat) (v : String → Bool)
    (outcome : Bool) : Yield → Bool
  | none => outcome ^^ a.isCrossed origin
  | some (text, _) =>
    match LeafValue.ofText text with
    | .nil => outcome ^^ a.isCrossed origin
    | .bool b =>
      if isInFinalPair code consumer origin then if a.isIndifferent then outcome else b else v text
    | .text _ => v text

/-- When the statement misses the truth value of the path from `origin`. -/
def Misread (a : Tail) (code : List Instruction) (consumer origin : Nat) (v : String → Bool)
    (outcome : Bool) : Yield → Prop
  | none => a.isCrossed origin = true
  | some (text, place) =>
    match LeafValue.ofText text with
    | .nil => outcome ≠ a.isCrossed origin
    | .bool b =>
      -- Where the path starts decides how the literal is read, where it is loaded what it means.
      match isInFinalPair code consumer origin, isInFinalPair code consumer place with
      | true, true => a.isIndifferent = true ∧ outcome ≠ b
      | true, false => (if a.isIndifferent then outcome else b) ≠ v text
      | false, true => v text ≠ b
      | false, false => False
    | .text _ => False

section Reading

variable {a : Tail} {code : List Instruction} {consumer origin : Nat} {y : Yield}

/-- The reading of an exit is that of the path from it. -/
theorem reading_eq (h : a.leaf? origin = some (leafOf code consumer origin y)) (v : String → Bool)
    (outcome : Bool) : a.reading v origin outcome = reading a code consumer origin v outcome y := by
  rw [Tail.reading, h]
  cases y with
  | none => rfl
  | some y =>
    obtain ⟨text, place⟩ := y
    simp only [leafOf, written, reading]
    cases hof : LeafValue.ofText text with
    | nil => rfl
    | text value => rw [LeafValue.eq_of_ofText_eq_text hof]
    | bool b => cases isInFinalPair code consumer origin <;> rfl

/-- What is read is the truth value that the path produces exactly when the path is not misread. -/
theorem reading_eq_truth_iff (v : String → Bool) (outcome : Bool) :
    reading a code consumer origin v outcome y = truth code consumer v outcome y ↔
      ¬Misread a code consumer origin v outcome y := by
  cases y with
  | none => cases hx : a.isCrossed origin <;> simp [reading, truth, Misread, hx]
  | some y =>
    obtain ⟨text, place⟩ := y
    simp only [reading, truth, Misread]
    cases LeafValue.ofText text with
    | nil => cases outcome <;> simp
    | text value => simp
    | bool b =>
      cases isInFinalPair code consumer origin <;> cases isInFinalPair code consumer place <;>
        simp

end Reading

end Path

namespace Chain

/-- A tail belongs to a chain: it has the successors of the last test, and its leaves are those of
the paths from the exits. -/
structure EndsIn (c : Chain) (function : Prototype) (start consumer : Nat) (rs : Registers)
    (a : Tail) : Prop where
  last : ∃ p, c.pairs.getLast? = some p ∧ a.next = p.next
  leaf : ∀ k x, a.leaf? k = some x ↔ k ∈ (c.table start).exits ∧
    ∃ y, Path.Leads function consumer rs k none y ∧ x = Path.leafOf function.code consumer k y

/-- The closed table of a chain has the tail of its last test. -/
theorem Closes.hasTail {code : List Instruction} {start : Nat} {c : Chain} {t : Table} {last : Pair}
    (h : c.Closes start t) (hc : Segmented code start c.pairs)
    (hlast : c.pairs.getLast? = some last) : t.HasTail ⟨last.next, t.leaf?⟩ := by
  have hbranch : ∀ {k b}, t.content? k = some (.branch b) →
      ∃ p ∈ c.pairs, ∀ o, b.next o = p.next o := by
    intro k b hk
    rcases h.cases hk with ⟨p, hp, -, hb⟩ | ⟨-, y, hy⟩
    · cases hb
      exact ⟨p, hp, p.next_branch⟩
    · cases hy
  refine ⟨fun k x hk y => ?_, fun k b hk => ?_, fun k b hk o => ?_, fun k f hk => ?_⟩
  · rw [Table.leaf?_eq_some_iff, hk]
    simp
  · obtain ⟨p, hp, hnext⟩ := hbranch hk
    rcases hc.getLast?_or_next hp with hp | ⟨q, hq, hkey, hlt⟩
    · cases hp.symm.trans hlast
      exact .inl hnext
    · -- A test that is not the last one leads to the next test.
      refine .inr ⟨!p.instruction.polarity, ?_⟩
      rw [hnext, p.next_not_polarity, ← hkey, h.root]
      refine ⟨?_, by omega⟩
      simp only [Table.leaf?, h.branch q hq]
  · obtain ⟨p, hp, hnext⟩ := hbranch hk
    rw [hnext]
    exact h.total hc hp o
  · rcases h.cases hk with ⟨p, -, -, hf⟩ | ⟨-, y, hf⟩
    · cases hf
    · cases hf

end Chain

namespace Condition

/-- The closed table of a value has the leaves of the paths from the exits. -/
theorem closes_of_value {function : Prototype} {start consumer : Nat} {chain : Chain}
    {table : Table} {target : Option String} {s s' : RegisterStack}
    (hseg : Chain.Segmented function.code start chain.pairs)
    (h : close function start (.value consumer) (chain.table start) s = .ok (table, target) s') :
    chain.Closes start table ∧ ∀ k ∈ (chain.table start).exits, ∃ y,
      Path.Leads function consumer s.current k none y ∧
        table.content? k = some (.leaf (Path.leafOf function.code consumer k y)) := by
  obtain ⟨⟨leaves, joined⟩, s₁, hleaves, hrest⟩ := Analysis.bind_eq_ok h
  obtain ⟨he, -⟩ := Analysis.pure_eq_ok hrest
  cases he
  obtain ⟨hkeys, hleaf⟩ := Path.leaves_eq_ok hleaves
  obtain ⟨hcloses, hcontent⟩ := Chain.closes_of_leaves hseg hkeys fun n hn => by
    obtain ⟨y, -, hy⟩ := hleaf n hn
    exact ⟨_, hy⟩
  refine ⟨hcloses, fun k hk => ?_⟩
  rw [← hkeys] at hk
  obtain ⟨n, hn, rfl⟩ := List.mem_map.1 hk
  obtain ⟨y, hy, hny⟩ := hleaf n hn
  exact ⟨y, hy, by rw [hcontent n hn, hny]⟩

theorem endsIn_of_value {function : Prototype} {start consumer : Nat} {chain : Chain}
    {table : Table} {last : Pair} {rs : Registers} (hcloses : chain.Closes start table)
    (hlast : chain.pairs.getLast? = some last)
    (hleaf : ∀ k ∈ (chain.table start).exits, ∃ y, Path.Leads function consumer rs k none y ∧
      table.content? k = some (.leaf (Path.leafOf function.code consumer k y))) :
    chain.EndsIn function start consumer rs ⟨last.next, table.leaf?⟩ := by
  refine ⟨⟨last, hlast, rfl⟩, fun k x => ?_⟩
  rw [Table.leaf?_eq_some_iff]
  constructor
  · intro hk
    rcases hcloses.cases hk with ⟨p, -, -, hp⟩ | ⟨hexit, -⟩
    · cases hp
    · obtain ⟨y, hy, hky⟩ := hleaf k hexit
      cases hk.symm.trans hky
      exact ⟨hexit, y, hy, rfl⟩
  · rintro ⟨hexit, y, hy, rfl⟩
    obtain ⟨y', hy', hky⟩ := hleaf k hexit
    rw [hky, hy.unique hy']

/-- The tests of a condition that computes a value, run under any assignment, are left unless the
last test leads back to the start, and from there one path leads to the consumer or to a store. The
statement has the truth value that is read off this path, which is the one that the path produces
exactly when the path is not misread. -/
theorem eval_of_value {function : Prototype} {inLoop : Bool} {start : Nat} {s : RegisterStack}
    {c : Condition} (h : (startingAt function inLoop start).run' s = some (some c))
    (hvalue : c.isValue = true) :
    ∃ chain s₁ a, Chain.collect function inLoop start s.push = .ok chain s₁ ∧
      Chain.Segmented function.code start chain.pairs ∧
      chain.EndsIn function start c.endPc s₁.current a ∧
      ∀ v o, ((∃ x p, chain.Run v start o x p) ∨ a.next (c.statement.eval v) = start) ∧
        ∀ x p, chain.Run v start o x p →
          ∃ y, (∀ y', Path.Leads function c.endPc s₁.current x none y' ↔ y' = y) ∧
            c.statement.eval v = Path.reading a function.code c.endPc x v p y ∧
            (c.statement.eval v = Path.truth function.code c.endPc v p y ↔
              ¬Path.Misread a function.code c.endPc x v p y) := by
  obtain ⟨s', h⟩ := Analysis.eq_ok_of_run' h
  obtain ⟨chain, s₁, s₂, hcollect, hne, hchain⟩ := startingAt_eq_ok h
  obtain ⟨context, table, target, s₃, reduced, hcontext, hclose, hreduce, hstatement, -, huse⟩ :=
    ofChain_eq_ok hchain
  have hseg := Chain.segmented_of_collect hcollect
  cases context with
  | test body exit =>
    rw [isValue, huse.2] at hvalue
    cases hvalue
  | value consumer =>
    have hend : c.endPc = consumer := by
      obtain ⟨target', register, hv⟩ := exists_valueUse_eq (s₃.frame function consumer)
        consumer chain.register? target
      rw [endPc, huse.2, hv]
    obtain ⟨hcloses, hleaf⟩ := closes_of_value hseg hclose
    obtain ⟨last, hlast⟩ := Option.ne_none_iff_exists'.1 (mt List.getLast?_eq_none_iff.1 hne)
    have htail := hcloses.hasTail hseg hlast
    have hroot : table.content? start ≠ none := by
      obtain ⟨p, hp, hkey⟩ := hseg.exists_key hne
      rw [← hkey, hcloses.branch p hp]
      simp
    rw [hend]
    refine ⟨chain, s₁, _, hcollect, hseg, endsIn_of_value hcloses hlast hleaf, fun v o => ?_⟩
    have heval := Table.eval_statement htail hcloses.covers hreduce hstatement v o
    rw [hcloses.root] at heval
    constructor
    · rcases heval with ⟨k, p, hwalk, -⟩ | ⟨hback, -⟩
      · exact .inl ⟨k, p, (hcloses.run hwalk).1⟩
      · exact .inr hback
    · intro x p hrun
      have hwalk := hcloses.walk hseg hrun hroot
      obtain ⟨y, hy, hky⟩ := hleaf x (hcloses.run hwalk).2
      refine ⟨y, fun y' => ⟨fun hy' => hy'.unique hy, fun he => he ▸ hy⟩, ?_⟩
      rcases heval with ⟨k, q, hwalk', hv⟩ | ⟨-, hno⟩
      · obtain ⟨rfl, rfl⟩ := hwalk.unique hwalk'
        rw [← hv, Table.valueAt_leaf hky, Path.reading_eq (Table.leaf?_eq_some_iff.2 hky)]
        exact ⟨rfl, Path.reading_eq_truth_iff v p⟩
      · exact absurd hwalk (hno x p)

/-- The code of `x = a and b == c`, with a final pair of boolean loads. -/
def conjunction : Prototype where
  code :=
    [.ofABx .getGlobal 0 0, .ofABC .test 0 0 0, .ofAsBx .jmp 0 6, .ofABx .getGlobal 0 1,
     .ofABx .getGlobal 1 2, .ofABC .eq 1 0 1, .ofAsBx .jmp 0 1, .ofABC .loadBool 0 0 1,
     .ofABC .loadBool 0 1 0, .ofABx .setGlobal 0 3]
  constants := [.string [97], .string [98], .string [99], .string [120]]

/-- When only `a` holds, both tests are made and `false` is loaded at 7. -/
theorem eval_of_value_conjunction :
    ∃ chain s₁ y,
      Chain.collect conjunction false 1 (RegisterStack.empty.define 0 (.atom "a")).push =
        .ok chain s₁ ∧
      chain.Run (· = "a") 1 true 7 false ∧ Path.Leads conjunction 9 s₁.current 7 none y ∧
      Formula.eval (· = "a") (.join .and (.atom "a" false) (.atom "b == c" false) false) =
        Path.truth conjunction.code 9 (· = "a") false y := by
  have h : (startingAt conjunction false 1).run' (RegisterStack.empty.define 0 (.atom "a")) =
      some (some ⟨1, 9, .join .and (.atom "a" false) (.atom "b == c" false) false,
        .value 9 (some "x") (some 0)⟩) := by
    decide +kernel
  have hpairs : (Chain.collect conjunction false 1).run'
      (RegisterStack.empty.define 0 (.atom "a")).push =
        some ⟨[⟨1, 1, .ofABC .test 0 0 0, 9, "a"⟩, ⟨3, 5, .ofABC .eq 1 0 1, 8, "b == c"⟩],
          some 9⟩ := by
    decide +kernel
  obtain ⟨chain, s₁, a, hcollect, -, -, hvalue⟩ := eval_of_value h rfl
  obtain ⟨s₂, hpairs⟩ := Analysis.eq_ok_of_run' hpairs
  cases hcollect.symm.trans hpairs
  have hrun : Chain.Run ⟨[⟨1, 1, .ofABC .test 0 0 0, 9, "a"⟩,
      ⟨3, 5, .ofABC .eq 1 0 1, 8, "b == c"⟩], some 9⟩ (· = "a") 1 true 7 false := by
    refine .test (p := ⟨1, 1, .ofABC .test 0 0 0, 9, "a"⟩) (by simp) ?_
    refine .test (p := ⟨3, 5, .ofABC .eq 1 0 1, 8, "b == c"⟩) (by simp) ?_
    exact .leave (by decide)
  obtain ⟨y, hy, -, htruth⟩ := (hvalue (· = "a") true).2 7 false hrun
  have hyield : Path.Leads conjunction 9 s₁.current 7 none (some ("false", 7)) :=
    .of_load (i := .ofABC .loadBool 0 0 1) (e := .atom "false") (by decide) rfl (by decide)
      (by decide) rfl rfl rfl
  refine ⟨_, s₁, y, hcollect, hrun, (hy y).2 rfl, htruth.2 ?_⟩
  rw [← (hy _).1 hyield]
  show ¬(a.isIndifferent = true ∧ false ≠ false)
  simp

/-! ## Misread paths -/

/-- The statement of a value recovered at a place has the truth value that each of its paths
produces. -/
def TellsTruth (function : Prototype) (inLoop : Bool) (start : Nat) (s : RegisterStack) : Prop :=
  ∀ c chain s₁, (startingAt function inLoop start).run' s = some (some c) → c.isValue = true →
    Chain.collect function inLoop start s.push = .ok chain s₁ →
    ∀ v o x p y, chain.Run v start o x p → Path.Leads function c.endPc s₁.current x none y →
      c.statement.eval v = Path.truth function.code c.endPc v p y

theorem not_tellsTruth {function : Prototype} {inLoop : Bool} {start : Nat} {s : RegisterStack}
    (c : Condition) (chain : Chain) (v : String → Bool) (y : Path.Yield) {o p : Bool} {x : Nat}
    (h : (startingAt function inLoop start).run' s = some (some c)) (hvalue : c.isValue = true)
    (hcollect : (Chain.collect function inLoop start).run' s.push = some chain)
    (hrun : chain.Run v start o x p) (hleads : ∀ rs, Path.Leads function c.endPc rs x none y)
    (hne : c.statement.eval v ≠ Path.truth function.code c.endPc v p y) :
    ¬TellsTruth function inLoop start s := by
  intro htells
  obtain ⟨s₁, hcollect⟩ := Analysis.eq_ok_of_run' hcollect
  exact hne (htells c chain s₁ h hvalue hcollect v o x p y hrun (hleads _))

/-- Code that loads `a`, tests it and goes on with other code. -/
def testing (polarity : UInt16) (offset : Int) (rest : List Instruction) : Prototype where
  code := .ofABx .getGlobal 0 0 :: .ofABC .test 0 0 polarity :: .ofAsBx .jmp 0 offset :: rest
  constants := [.string [97], .string [120]]

/-- A run of a chain with one test. -/
theorem run_single {p : Pair} {consumer : Option Nat} {v : String → Bool} {o : Bool}
    (h : p.next (v p.text) ≠ p.key) :
    Chain.Run ⟨[p], consumer⟩ v p.key o (p.next (v p.text)) (v p.text) := by
  refine .test (by simp) (.leave ?_)
  simpa using h.symm

/-- Paths are misread in each of the four ways: `nil` is written after the test, the exit of the
outcome `true` lies beside the truth value `true`, both exits hold `true`, and a path falls into the
final pair from before it. -/
theorem not_tellsTruth_testing :
    ¬TellsTruth (testing 0 1 [.ofABC .loadNil 0 0 0, .ofABx .setGlobal 0 1]) false 1
      (RegisterStack.empty.define 0 (.atom "a")) ∧
    ¬TellsTruth (testing 1 2 [.ofABC .loadBool 0 1 1, .ofABC .loadBool 0 1 0,
      .ofABx .setGlobal 0 1]) false 1 (RegisterStack.empty.define 0 (.atom "a")) ∧
    ¬TellsTruth (testing 1 1 [.ofABC .loadBool 0 1 1, .ofABC .loadBool 0 1 0,
      .ofABx .setGlobal 0 1]) false 1 (RegisterStack.empty.define 0 (.atom "a")) ∧
    ¬TellsTruth (testing 1 3 [.ofABx .getGlobal 0 0, .ofABC .loadBool 0 0 1,
      .ofABC .loadBool 0 1 0, .ofABx .setGlobal 0 1]) false 1
      (RegisterStack.empty.define 0 (.atom "a")) := by
  refine ⟨?_, ?_, ?_, ?_⟩
  · refine not_tellsTruth ⟨1, 4, .atom "a" false, .value 4 (some "x") (some 0)⟩
      ⟨[⟨1, 1, .ofABC .test 0 0 0, 4, "a"⟩], some 4⟩ (fun _ => true) (some ("nil", 3))
      (by decide +kernel) rfl (by decide +kernel) (run_single (o := true) (by decide))
      (fun rs => ?_) (by decide)
    exact .of_load (i := .ofABC .loadNil 0 0 0) (e := .atom "nil") (by decide) rfl (by decide)
      (by decide) rfl rfl rfl
  · refine not_tellsTruth ⟨1, 5, .atom "a" true, .value 5 (some "x") (some 0)⟩
      ⟨[⟨1, 1, .ofABC .test 0 0 1, 5, "a"⟩], some 5⟩ (fun _ => true) none
      (by decide +kernel) rfl (by decide +kernel) (run_single (o := true) (by decide))
      (fun rs => ?_) (by decide)
    exact .consumed
  · refine not_tellsTruth ⟨1, 5, .atom "a" false, .value 5 (some "x") (some 0)⟩
      ⟨[⟨1, 1, .ofABC .test 0 0 1, 4, "a"⟩], some 5⟩ (fun _ => false) (some ("true", 3))
      (by decide +kernel) rfl (by decide +kernel) (run_single (o := true) (by decide))
      (fun rs => ?_) (by decide)
    exact .of_load (i := .ofABC .loadBool 0 1 1) (e := .atom "true") (by decide) rfl (by decide)
      (by decide) rfl rfl rfl
  · refine not_tellsTruth ⟨1, 6, .join .or (.atom "a" false) (.atom "false" false) false,
        .value 6 (some "x") (some 0)⟩
      ⟨[⟨1, 1, .ofABC .test 0 0 1, 6, "a"⟩], some 6⟩ (· = "false") (some ("false", 4))
      (by decide +kernel) rfl (by decide +kernel) (run_single (o := true) (by decide))
      (fun rs => ?_) (by decide)
    refine .compute (by decide) rfl (by decide) (by decide) rfl ?_
    exact .of_load (i := .ofABC .loadBool 0 0 1) (e := .atom "false") (by decide) rfl (by decide)
      (by decide) rfl rfl rfl

end Condition

end ShortCircuit
