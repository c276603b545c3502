import ShortCircuit.Proofs.Recovery.Stage
import ShortCircuit.Proofs.Recovery.Texts
import ShortCircuit.Proofs.Registers.Operands

/-!
# Negation flips the operator of a test

Conditions are negated as text, so a text that is cut at a wrong place would be negated wrongly. The
texts of all tests are cut at their own operator, whatever the registers went through before:
instructions, scopes, and the reuse of recovered conditions as values.

* `Frame.testText_comparison`: the text of a comparison is its operator between two operands.
* `Comparison.Tests`: the texts that tests have, `Formula.closed_render`: formulas over such texts.
* `Condition.tests_of_startingAt`: a recovered condition is such a formula.
* `RegisterStack.Reached`: the stacks that a driver can reach, `RegisterStack.Reached.whole`: all of
  their registers are whole.
* `RegisterStack.Reached.split?_testText`: every test is cut at its own operator.
-/

namespace ShortCircuit

open Comparison

/-! ## Texts of tests -/

/-- The text of a test: an operand, or a comparison of two. -/
inductive Comparison.Tests : String → Prop
  | operand {text : String} (h : IsOperand text) : Tests text
  | comparison {l r : String} (hl : IsOperand l) (op : Comparator) (hr : IsOperand r) :
      Tests (l ++ " " ++ op.symbol ++ " " ++ r)

theorem Comparison.closed_comparison {l r : String} (hl : IsOperand l) (op : Comparator)
    (hr : IsOperand r) : Closed (l ++ " " ++ op.symbol ++ " " ++ r).toList := by
  have hop : Closed op.symbol.toList := closed_of_neutral (by cases op <;> decide)
  simp only [String.toList_append]
  exact ((hl.flat.closed.append flat_space.closed).append hop).append flat_space.closed |>.append
    hr.flat.closed

theorem Comparison.Tests.closed {text : String} (h : Tests text) : Closed text.toList := by
  cases h with
  | operand h => exact h.flat.closed
  | comparison hl op hr => exact closed_comparison hl op hr

theorem Comparison.Tests.closed_negate {text : String} (h : Tests text) :
    Closed (negate text).toList := by
  cases h with
  | operand h =>
    rw [h.negate_eq]
    have hlist : ("not(" ++ text ++ ")").toList =
        ['n', 'o', 't'] ++ '(' :: (text.toList ++ [')']) := by simp
    rw [hlist]
    exact (closed_of_neutral (by decide)).append (h.flat.closed.group rfl rfl).closed
  | comparison hl op hr =>
    rw [negate_comparison hl.flat]
    exact closed_comparison hl op.negate hr

/-- A formula over texts of tests has closed brackets and literals. -/
theorem Formula.closed_render {f : Formula} (h : ∀ text ∈ f.atoms, Tests text) :
    Closed f.render.toList := by
  have hbracket : ∀ {text : String} (on : Bool), Closed text.toList →
      Closed (bracket on text).toList := by
    intro text on ht
    unfold bracket
    split_ifs
    · exact ht.isOperand_group.flat.closed
    · exact ht
  induction f with
  | atom text n =>
    unfold render
    split_ifs
    · exact (h text (by simp [atoms])).closed_negate
    · exact (h text (by simp [atoms])).closed
  | join op l r n ihl ihr =>
    have hl := ihl fun text ht => h text (by simp [atoms, ht])
    have hr := ihr fun text ht => h text (by simp [atoms, ht])
    have hop : Closed (shown op n).symbol.toList :=
      closed_of_neutral (by cases shown op n <;> decide)
    simp only [render, String.toList_append]
    exact ((((hbracket _ hl).append flat_space.closed).append hop).append
      flat_space.closed).append (hbracket _ hr)

namespace Frame

/-- The left side, the operator and the right side of a comparison as they are shown: a constant on
the left of a variable changes sides. -/
def sides (f : Frame) (i : Instruction) (relation : Relation) : String × Comparator × String :=
  if isConstantField i.b && !isConstantField i.c then
    (f.operandText i.c, relation.comparator.swap, f.operandText i.b)
  else (f.operandText i.b, relation.comparator, f.operandText i.c)

variable {f : Frame} (hnames : f.function.WellNamed) (h : f.registers.Whole)

include hnames h

theorem isOperand_sides (i : Instruction) (relation : Relation) :
    IsOperand (f.sides i relation).1 ∧ IsOperand (f.sides i relation).2.2 := by
  have hoperand := isOperand_operandText hnames h
  unfold sides
  split_ifs <;> exact ⟨hoperand _, hoperand _⟩

/-- The text of a comparison is its operator between its sides. -/
theorem testText_comparison {i : Instruction} {relation : Relation}
    (hi : i.role = .comparison relation) :
    f.testText i = (f.sides i relation).1 ++ " " ++ (f.sides i relation).2.1.symbol ++ " " ++
      (f.sides i relation).2.2 := by
  unfold testText sides
  rw [hi]
  dsimp only
  split_ifs
  · exact swap_comparison (isOperand_operandText hnames h i.b).flat _
  · rfl

theorem tests_testText (i : Instruction) : Tests (f.testText i) := by
  cases hi : i.role with
  | comparison relation =>
    obtain ⟨hl, hr⟩ := isOperand_sides hnames h i relation
    rw [testText_comparison hnames h hi]
    exact .comparison hl _ hr
  | _ =>
    unfold testText
    rw [hi]
    exact .operand (isOperand_operandText hnames h _)

end Frame

/-! ## Recovered conditions -/

theorem Registers.Whole.apply {rs : Registers} (h : rs.Whole) {writes : List Write}
    (hw : ∀ w ∈ writes, ∀ slot, w.slot = some slot → slot.toRendered.Whole) :
    (rs.apply writes).Whole := by
  unfold Registers.apply
  induction writes generalizing rs with
  | nil => exact h
  | cons w writes ih =>
    exact ih (h.put w.register (hw w (by simp))) fun v hv => hw v (by simp [hv])

theorem RegisterStack.whole_of_execute {function : Prototype} (hnames : function.WellNamed)
    {s s' : RegisterStack} (h : s.current.Whole) {pc : Nat} {i : Instruction}
    (hi : function.NamesMethod i) (he : execute function pc i s = .ok () s') :
    s'.current.Whole := by
  unfold execute at he
  split at he
  · next writes hwrites =>
    cases he
    exact h.apply fun w hw slot hslot =>
      Frame.whole_of_effect (f := s.frame function pc) hnames h hi hwrites hw hslot
  · cases he

/-- The tests that a collection records have texts of tests. -/
theorem Chain.Scans.tests {function : Prototype} (hnames : function.WellNamed) {inLoop : Bool}
    {a b : Stage} {ps : List Pair} (h : Scans function inLoop a ps b)
    (ha : a.stack.current.Whole) : b.stack.current.Whole ∧ ∀ p ∈ ps, Tests p.text := by
  induction h with
  | here => exact ⟨ha, nofun⟩
  | jump hi hrole rest ih => exact ih ha
  | compute hi hrole ht he rest ih =>
    have hmethod := hnames.methods _ (List.mem_of_getElem? hi)
    exact ih (RegisterStack.whole_of_execute hnames ha hmethod he)
  | @test key pc target s i ps b hi hc hj hforward rest ih =>
    obtain ⟨hb, hps⟩ := ih ha
    refine ⟨hb, fun p hp => ?_⟩
    rcases List.mem_cons.1 hp with rfl | hp
    · exact Frame.tests_testText (f := s.frame function pc) hnames ha i
    · exact hps p hp

/-- A store without a source register stores a constant. -/
theorem Frame.isOperand_of_assignment? {f : Frame} {i : Instruction} {a : Assignment}
    (h : f.assignment? i = some a) (ha : a.source = none) : IsOperand a.value := by
  unfold assignment? at h
  split at h
  · split at h <;> cases h
    cases ha
  · split at h
    · next target value htarget hvalue =>
      cases h
      dsimp only at ha
      split at ha
      · cases ha
      · next index hindex =>
        rw [operand, hindex] at hvalue
        obtain ⟨l, -, rfl⟩ := exists_of_map_eq_ok hvalue
        exact l.isOperand_render
    · cases h
  · cases h

/-- What a path yields is an operand. -/
theorem Path.Leads.isOperand {function : Prototype} (hnames : function.WellNamed)
    {consumer pc : Nat} {rs : Registers} {last : LastWrite} {y : Yield}
    (h : Leads function consumer rs pc last y) (hrs : rs.Whole) {text : String} {place : Nat}
    (hy : y = some (text, place)) : IsOperand text := by
  induction h with
  | @consumed rs last =>
    obtain ⟨p, -, hp⟩ := Option.map_eq_some_iff.1 hy
    cases hp
    exact (hrs.rendered _).wrapOperand
  | @stored rs pc last i a hpc hi hrole ha =>
    obtain ⟨p, -, hp⟩ := Option.map_eq_some_iff.1 hy
    cases hp
    unfold Assignment.storedText
    split
    · exact (hrs.rendered _).wrapOperand
    · next hsource => exact Frame.isOperand_of_assignment? ha hsource
  | jump hpc hi hrole ht hlt rest ih => exact ih hrs hy
  | @compute rs pc last i writes y hpc hi hrole ht he rest ih =>
    refine ih (hrs.apply fun w hw slot hslot => ?_) hy
    exact Frame.whole_of_effect (f := ⟨function, pc, rs⟩) hnames hrs
      (hnames.methods _ (List.mem_of_getElem? hi)) he hw hslot

/-- The text of a leaf is the one that its path yields. -/
theorem Path.leafOf_eq_text {code : List Instruction} {consumer origin : Nat} {y : Yield}
    {text : String} (h : leafOf code consumer origin y = .text text) :
    ∃ place, y = some (text, place) := by
  unfold leafOf at h
  split at h
  · cases h
  · next wrote place =>
    have htext : wrote = text := by
      unfold Path.written LeafValue.ofText at h
      split_ifs at h <;> cases h <;> rfl
    exact ⟨place, by rw [htext]⟩

namespace Condition

/-- The texts of a recovered condition are texts of tests. -/
theorem tests_of_startingAt {function : Prototype} (hnames : function.WellNamed) {inLoop : Bool}
    {start : Nat} {s s' : RegisterStack} {c : Condition} (hs : s.current.Whole)
    (h : startingAt function inLoop start s = .ok (some c) s') :
    ∀ text ∈ c.statement.atoms, Tests text := by
  obtain ⟨chain, s₁, s₂, hcollect, -, hchain⟩ := startingAt_eq_ok h
  obtain ⟨context, table, target, s₃, reduced, -, hclose, hreduce, hstatement, -, -⟩ :=
    ofChain_eq_ok hchain
  have hseg := Chain.segmented_of_collect hcollect
  obtain ⟨b, hscans, rfl⟩ := Chain.scans_of_collect hcollect
  obtain ⟨hwhole, hpairs⟩ := hscans.tests hnames hs
  have htexts : ∀ text ∈ chain.pairs.map (·.text), Tests text := by
    intro text htext
    obtain ⟨p, hp, rfl⟩ := List.mem_map.1 htext
    exact hpairs p hp
  cases context with
  | test body exit =>
    obtain ⟨hcloses, hleaf⟩ := closes_of_test hseg hclose
    have hno : table.NoText := by
      intro k text hk
      rcases hcloses.cases hk with ⟨p, -, -, hp⟩ | ⟨hexit, -⟩
      · cases hp
      · cases hk.symm.trans (hleaf k hexit)
    rw [hcloses.atoms_of_noText hseg hno hreduce hstatement]
    exact htexts
  | value consumer =>
    obtain ⟨leaves, hleaves, rfl⟩ := leaves_of_close hclose
    obtain ⟨hkeys, hleaf⟩ := Path.leaves_eq_ok hleaves
    obtain ⟨hcloses, hcontent⟩ := Chain.closes_of_leaves hseg hkeys fun n hn => by
      obtain ⟨y, -, hy⟩ := hleaf n hn
      exact ⟨_, hy⟩
    intro text htext
    have hmem := (hcloses.perm_atoms hseg hreduce hstatement).subset htext
    rcases List.mem_append.1 hmem with hmem | hmem
    · exact htexts text hmem
    · obtain ⟨k, hk, hmem⟩ := List.mem_flatMap.1 hmem
      rw [← hkeys] at hk
      obtain ⟨n, hn, rfl⟩ := List.mem_map.1 hk
      obtain ⟨y, hy, hvalue⟩ := hleaf n hn
      rw [Table.textsAt_of_content? (hcontent n hn), hvalue] at hmem
      unfold Content.texts at hmem
      split at hmem
      · next heq => cases heq
      · next heq => cases heq
      · next text' heq =>
        obtain ⟨place, hplace⟩ := Path.leafOf_eq_text (Content.leaf.inj heq)
        rw [List.mem_singleton.1 hmem]
        exact .operand (hy.isOperand hnames hwhole hplace)
      · cases hmem

end Condition

/-! ## Reachable stacks -/

namespace RegisterStack

/-- All known registers are whole, also those in the snapshots of open scopes. -/
structure Whole (s : RegisterStack) : Prop where
  current : s.current.Whole
  saved : ∀ rs ∈ s.saved, rs.Whole

/-- The stacks that a driver can reach from the empty one: by executing instructions, whether they
fail or not, by opening and closing scopes, by forgetting registers, and by binding registers to
conditions that were recovered with such a stack. -/
inductive Reached (function : Prototype) : RegisterStack → Prop
  | fresh : Reached function .empty
  | execute {s : RegisterStack} (h : Reached function s) (pc : Nat) {i : Instruction}
      (hi : function.NamesMethod i) : Reached function (s.executed function pc i)
  | push {s : RegisterStack} (h : Reached function s) : Reached function s.push
  | pop {s : RegisterStack} (h : Reached function s) : Reached function s.pop
  | forget {s : RegisterStack} (h : Reached function s) (r : UInt8) : Reached function (s.forget r)
  | define {s before : RegisterStack} (h : Reached function s) (r : UInt8)
      (hbefore : Reached function before) {inLoop : Bool} {start : Nat} {c : Condition}
      (hc : (Condition.startingAt function inLoop start).run' before = some (some c)) :
      Reached function
        (s.define r ⟨c.statement.render, .ofConnective c.statement.connective?⟩)

theorem Whole.put {s : RegisterStack} (h : s.Whole) (r : UInt8) {slot : Option Slot}
    (hslot : ∀ x, slot = some x → x.toRendered.Whole) :
    Whole { s with current := s.current.put r slot } :=
  ⟨h.current.put r hslot, h.saved⟩

theorem Whole.pop {s : RegisterStack} (h : s.Whole) : s.pop.Whole := by
  unfold RegisterStack.pop
  split
  · exact h
  · next rs saved hsaved =>
    have hall := h.saved
    rw [hsaved] at hall
    exact ⟨hall rs (by simp), fun q hq => hall q (by simp [hq])⟩

theorem Whole.executed {function : Prototype} (hnames : function.WellNamed) {s : RegisterStack}
    (h : s.Whole) (pc : Nat) {i : Instruction} (hi : function.NamesMethod i) :
    (s.executed function pc i).Whole := by
  unfold RegisterStack.executed
  split
  · next u s' he =>
    refine ⟨whole_of_execute hnames h.current hi he, ?_⟩
    unfold RegisterStack.execute at he
    split at he <;> cases he
    exact h.saved
  · next cause s' he =>
    unfold RegisterStack.execute at he
    split at he <;> cases he
    exact h

/-- A condition binds no tighter than a comparison. -/
theorem whole_statement {f : Formula} (h : ∀ text ∈ f.atoms, Tests text) :
    Rendered.Whole ⟨f.render, .ofConnective f.connective?⟩ := by
  refine ⟨Formula.closed_render h, fun hlt => absurd hlt ?_⟩
  have htable : ∀ op : Option Connective,
      ¬Precedence.comparison < Precedence.ofConnective op := by
    rintro (_ | _ | _) <;> decide
  exact htable f.connective?

/-- All registers of a reachable stack are whole. -/
theorem Reached.whole {function : Prototype} (hnames : function.WellNamed) {s : RegisterStack}
    (h : Reached function s) : s.Whole := by
  induction h with
  | fresh => exact ⟨fun r slot hslot => by simp [RegisterStack.empty] at hslot, nofun⟩
  | execute h pc hi ih => exact ih.executed hnames pc hi
  | push h ih =>
    refine ⟨ih.current, fun rs hrs => ?_⟩
    rcases List.mem_cons.1 hrs with rfl | hrs
    · exact ih.current
    · exact ih.saved rs hrs
  | pop h ih => exact ih.pop
  | forget h r ih => exact ih.put r nofun
  | define h r hbefore hc ih ihbefore =>
    obtain ⟨s', hc⟩ := Analysis.eq_ok_of_run' hc
    refine ih.put r fun x hx => ?_
    cases hx
    exact whole_statement (Condition.tests_of_startingAt hnames ihbefore.current hc)

/-- With every reachable stack, the text of a comparison is cut at its own operator, between its
sides, and its negation has the opposite operator there. The text of any other test has no operator,
and its negation puts it into brackets. -/
theorem Reached.split?_testText {function : Prototype} (hnames : function.WellNamed)
    {s : RegisterStack} (h : Reached function s) (pc : Nat) (i : Instruction) :
    (∀ relation l op r, i.role = .comparison relation →
      (s.frame function pc).sides i relation = (l, op, r) →
      split? ((s.frame function pc).testText i) = some ⟨l.toList, op, r.toList⟩ ∧
        (Formula.atom ((s.frame function pc).testText i) true).render =
          l ++ " " ++ op.negate.symbol ++ " " ++ r) ∧
    (i.role = .test ∨ i.role = .testSet →
      split? ((s.frame function pc).testText i) = none ∧
        (Formula.atom ((s.frame function pc).testText i) true).render =
          "not(" ++ (s.frame function pc).testText i ++ ")") := by
  have hwhole := (h.whole hnames).current
  refine ⟨fun relation l op r hi hsides => ?_, fun hi => ?_⟩
  · obtain ⟨hl, -⟩ := Frame.isOperand_sides (f := s.frame function pc) hnames hwhole i relation
    have htext := Frame.testText_comparison (f := s.frame function pc) hnames hwhole hi
    rw [hsides] at hl htext
    rw [htext]
    exact ⟨split?_comparison hl.flat op, negate_comparison hl.flat op⟩
  · have htext : IsOperand ((s.frame function pc).testText i) := by
      unfold Frame.testText
      rcases hi with hi | hi <;> rw [hi] <;>
        exact Frame.isOperand_operandText (f := s.frame function pc) hnames hwhole _
    exact ⟨split?_of_flat htext.flat, htext.negate_eq⟩

/-- The code of `x = a and b`, with a method name and a string of a quote, an operator and a bracket
among the constants. -/
def quotedOperator : Prototype where
  code :=
    [.ofABx .getGlobal 0 0, .ofABC .test 0 0 0, .ofAsBx .jmp 0 1, .ofABx .getGlobal 0 1,
     .ofABx .setGlobal 0 2]
  constants := [.string [97], .string [98], .string [120], .string [109],
    .string [34, 32, 61, 61, 32, 40]]

theorem namesMethod_quotedOperator :
    quotedOperator.NamesMethod (.ofABC .self 1 0 259) := by
  intro _ index hindex name hname
  have hthree : Operand.ofField 259 = .constant 3 := by decide
  cases hthree.symm.trans hindex
  have hm : quotedOperator.constantText? 3 = some "m" := by decide +kernel
  cases hm.symm.trans hname
  decide

/-- A constant with an operator in it changes sides with a method call on a recovered condition. -/
theorem Reached.split?_testText_quotedOperator :
    ∃ s, quotedOperator.WellNamed ∧ Reached quotedOperator s ∧
      (s.frame quotedOperator 5).testText (.ofABC .eq 0 260 1) =
        "(a and b):m() == \"\\\" == (\"" ∧
      split? ((s.frame quotedOperator 5).testText (.ofABC .eq 0 260 1)) =
        some ⟨"(a and b):m()".toList, .eq, "\"\\\" == (\"".toList⟩ ∧
      (Formula.atom ((s.frame quotedOperator 5).testText (.ofABC .eq 0 260 1)) true).render =
        "(a and b):m() ~= \"\\\" == (\"" := by
  have hplain : ∀ i ∈ quotedOperator.code, i.op ≠ .self := by decide
  have hnames : quotedOperator.WellNamed :=
    ⟨nofun, nofun, fun i hi hself => absurd hself (hplain i hi)⟩
  have hload : Reached quotedOperator _ :=
    Reached.fresh.execute 0 (i := .ofABx .getGlobal 0 0) nofun
  have hc : (Condition.startingAt quotedOperator false 1).run'
      (RegisterStack.empty.executed quotedOperator 0 (.ofABx .getGlobal 0 0)) =
        some (some ⟨1, 4, .join .and (.atom "a" false) (.atom "b" false) false,
          .value 4 (some "x") (some 0)⟩) := by decide +kernel
  have hcall := ((hload.define 0 hload hc).execute 3 namesMethod_quotedOperator).execute 4
    (i := .ofABC .call 1 2 2) nofun
  obtain ⟨hsplit, hrender⟩ := (hcall.split?_testText hnames 5 (.ofABC .eq 0 260 1)).1 .eq
    "(a and b):m()" .eq "\"\\\" == (\"" rfl (by decide +kernel)
  exact ⟨_, hnames, hcall, by decide +kernel, hsplit, hrender⟩

end RegisterStack

end ShortCircuit
