import ShortCircuit.Recovery.Region
import ShortCircuit.Proofs.Decision.Circuit
import ShortCircuit.Proofs.Recovery.Collection

/-!
# Compiled conditions

The standard compilation of an and/or formula as a test: every text is a global variable that is
loaded, tested and followed by a jump; a test passes its jump to whichever successor comes next and
jumps to the other one. Collecting the tests of compiled code gives the circuit of the formula.

* `Formula.CompiledAt` says that code holds the compilation of a formula at a place.
* `Formula.circuit` is the circuit of a formula compiled at a place.
* `Formula.collectFrom_of_compiledAt`: the collected tests are the branches of the circuit.
* `Formula.jumpsBack_of_compiledAt`: compiled tests do not jump backwards.
-/

namespace ShortCircuit

namespace Formula

/-- The number of instructions of a compiled formula. -/
def span : Formula → Nat
  | .atom _ _ => 3
  | .join _ l r _ => l.span + r.span

/-- The code from `pc` on is the compilation of a formula that goes to `onTrue` when it holds and to
`onFalse` otherwise. A text is loaded as a global variable and tested; the jump is taken on the
outcome `jumpOn`, and the successor for the other outcome comes next. -/
def CompiledAt (function : Prototype) : Formula → Nat → Nat → Nat → Prop
  | .atom text _, pc, onTrue, onFalse =>
    ∃ (register : UInt8) (index : UInt32) (jumpOn : Bool) (jump : Instruction),
      function.code[pc]? = some (.ofABx .getGlobal register index) ∧
      function.constants[index.toNat]?.bind Literal.identifier? = some text ∧
      function.code[pc + 1]? = some (.ofABC .test register 0 (if jumpOn then 1 else 0)) ∧
      function.code[pc + 2]? = some jump ∧ jump.op = .jmp ∧
      jump.jumpTarget? (pc + 2) = some (if jumpOn then onTrue else onFalse) ∧
      (if jumpOn then onFalse else onTrue) = pc + 3
  | .join .and l r _, pc, onTrue, onFalse =>
    l.CompiledAt function pc (pc + l.span) onFalse ∧
      r.CompiledAt function (pc + l.span) onTrue onFalse
  | .join .or l r _, pc, onTrue, onFalse =>
    l.CompiledAt function pc onTrue (pc + l.span) ∧
      r.CompiledAt function (pc + l.span) onTrue onFalse

/-- The circuit of a formula compiled at `pc`, the segment of whose first test starts at `key`. -/
def circuit : Formula → Nat → Nat → Circuit
  | .atom text negated, key, _ => .block key (.atom text negated)
  | .join op l r _, key, pc =>
    .join op (l.circuit key pc) (r.circuit (pc + l.span) (pc + l.span))

theorem three_le_span (e : Formula) : 3 ≤ e.span := by
  induction e with
  | atom => exact Nat.le_refl 3
  | join op l r negated hl hr =>
    rw [span]
    omega

theorem first_circuit (e : Formula) (key pc : Nat) : (e.circuit key pc).first = key := by
  induction e generalizing key pc with
  | atom => rfl
  | join op l r negated hl hr => exact hl key pc

theorem formula_circuit {e : Formula} (h : e.IsPositive) (key pc : Nat) :
    (e.circuit key pc).formula = e := by
  induction e generalizing key pc with
  | atom => rfl
  | join op l r negated hl hr =>
    obtain ⟨rfl, hl', hr'⟩ := h
    rw [circuit, Circuit.formula, hl hl', hr hr', combine]

/-- The keys of a circuit lie before the code that follows it. -/
theorem lt_of_mem_keys_circuit {e : Formula} {key pc k : Nat} (hkey : key < pc + 3)
    (hk : k ∈ (e.circuit key pc).keys) : k < pc + e.span := by
  induction e generalizing key pc with
  | atom =>
    rw [circuit, Circuit.keys, List.mem_singleton] at hk
    rw [hk, span]
    exact hkey
  | join op l r negated hl hr =>
    rw [circuit, Circuit.keys, List.mem_append] at hk
    rw [span]
    rcases hk with hk | hk
    · have := hl hkey hk
      omega
    · have := hr (by omega) hk
      omega

/-- Both connectives compile alike: the left part goes on to the right part or to an exit. -/
theorem compiledAt_join {function : Prototype} {op : Connective} {l r : Formula} {negated : Bool}
    {pc onTrue onFalse : Nat} :
    (join op l r negated).CompiledAt function pc onTrue onFalse ↔
      l.CompiledAt function pc (op.whenTrue (pc + l.span) onTrue)
        (op.whenFalse (pc + l.span) onFalse) ∧
      r.CompiledAt function (pc + l.span) onTrue onFalse := by
  cases op <;> exact Iff.rfl

end Formula

/-! ## Loading and testing a global variable -/

section Atom

variable {function : Prototype} {register : UInt8} {index : UInt32} {text : String}

theorem RegisterStack.execute_getGlobal
    (h : function.constants[index.toNat]?.bind Literal.identifier? = some text) (pc : Nat)
    (s : RegisterStack) :
    execute function pc (.ofABx .getGlobal register index) s =
      .ok () (s.define register (.atom text)) := by
  obtain ⟨l, hl, htext⟩ := Option.bind_eq_some_iff.1 h
  have hname : (s.frame function pc).globalName index.toNat = .ok text := by
    simp only [Frame.globalName, Frame.constant, frame, hl, Except.map, htext]
  have heffect : (s.frame function pc).effect (.ofABx .getGlobal register index) =
      .ok [.store register (.atom text)] := by
    simp only [Frame.effect, Instruction.ofABx, hname, Except.map]
  rw [execute, heffect]
  rfl

theorem isConstantField_toUInt16 (r : UInt8) : isConstantField r.toUInt16 = false := by
  have hlt := r.toNat_lt
  have hdiv : r.toNat / 256 = 0 := Nat.div_eq_of_lt hlt
  simp [isConstantField, hdiv]

theorem Frame.testText_define (hlocals : function.locals = []) (s : RegisterStack) (pc : Nat)
    (c : UInt16) :
    ((s.define register (.atom text)).frame function pc).testText (.ofABC .test register 0 c) =
      text := by
  have hname : function.localName? register pc = none := by
    simp [Prototype.localName?, Prototype.alive, hlocals]
  have hfield : Operand.ofField register.toUInt16 = .register register := by
    simp [Operand.ofField, isConstantField_toUInt16]
  have hregister : ((s.define register (.atom text)).frame function pc).register register =
      .atom text := by
    simp [Frame.register, RegisterStack.frame, hname, Registers.rendered, RegisterStack.define]
  have hoperand : ((s.define register (.atom text)).frame function pc).operandText
      register.toUInt16 = text := by
    rw [Frame.operandText, Frame.operand, hfield]
    simp only [hregister]
    rfl
  exact hoperand

theorem Code.jumpAfter?_of_jump {code : List Instruction} {pc target : Nat} {jump : Instruction}
    (hjump : code[pc + 1]? = some jump) (hop : jump.op = .jmp)
    (htarget : jump.jumpTarget? (pc + 1) = some target) :
    Code.jumpAfter? code pc = some target := by
  simp [Code.jumpAfter?, hjump, hop, htarget]

end Atom

namespace Formula

/-! ## Collecting compiled tests -/

section Collect

variable {function : Prototype} {pc onTrue onFalse : Nat} (start key : Nat)

/-- Loading a global variable is part of the segment of the next test. -/
theorem collectFrom_getGlobal {inLoop : Bool} {register : UInt8} {index : UInt32} {text : String}
    (hcode : function.code[pc]? = some (.ofABx .getGlobal register index))
    (hname : function.constants[index.toNat]?.bind Literal.identifier? = some text)
    (s : RegisterStack) :
    Chain.collectFrom function inLoop start key pc s =
      Chain.collectFrom function inLoop start key (pc + 1) (s.define register (.atom text)) := by
  have hend : Code.isBooleanEnd function.code pc = false := by
    simp [Code.isBooleanEnd, Code.isBooleanLoad, hcode, Instruction.ofABx]
  have hexecute : Analysis.execute function start pc (.ofABx .getGlobal register index) s =
      .ok () (s.define register (.atom text)) := by
    show EStateM.adaptExcept _ _ s = _
    rw [EStateM.adaptExcept, RegisterStack.execute_getGlobal hname]
  have htransparent : (Instruction.ofABx .getGlobal register index).isTransparent = true := rfl
  rw [Chain.collectFrom_other hcode rfl, if_neg (by simp [Instruction.role, Instruction.ofABx]),
    if_neg (by simp [hend]), if_neg (by simp [Instruction.role, Instruction.ofABx]),
    if_pos htransparent]
  exact Analysis.bind_of_ok hexecute

/-- A compiled text is collected as one test with the two successors of the text. -/
theorem collectFrom_of_compiledAt_atom {text : String} {negated : Bool}
    (h : (atom text negated).CompiledAt function pc onTrue onFalse)
    (hlocals : function.locals = []) (htrue : pc + 3 ≤ onTrue) (hfalse : pc + 3 ≤ onFalse)
    (s : RegisterStack) :
    ∃ p s', p.key = key ∧ p.pc = pc + 1 ∧ p.branch = ⟨.ofText text, onTrue, onFalse⟩ ∧
      ∀ c s'', Chain.collectFrom function false start (pc + 3) (pc + 3) s' = .ok c s'' →
        Chain.collectFrom function false start key pc s = .ok (c.cons p) s'' := by
  obtain ⟨register, index, jumpOn, jump, hload, hname, htest, hjump, hop, htarget, hnext⟩ := h
  have hafter := Code.jumpAfter?_of_jump hjump hop htarget
  have hforward :
      (decide ((if jumpOn then onTrue else onFalse) ≤ pc + 1 + 1) && !false) = false := by
    cases jumpOn <;> simp <;> omega
  refine ⟨Pair.ofFrame ((s.define register (.atom text)).frame function (pc + 1)) key
    (.ofABC .test register 0 (if jumpOn then 1 else 0)) (if jumpOn then onTrue else onFalse),
    s.define register (.atom text), rfl, rfl, ?_, ?_⟩
  · have htext : ((s.define register (.atom text)).frame function (pc + 1)).testText
        (.ofABC .test register 0 (if jumpOn then 1 else 0)) = text :=
      Frame.testText_define hlocals s (pc + 1) _
    rw [Pair.branch, Pair.ofFrame, htext]
    cases jumpOn with
    | true =>
      show (⟨.ofText text, onTrue, pc + 1 + 2⟩ : Branch) = _
      rw [show onFalse = pc + 1 + 2 from hnext]
    | false =>
      show (⟨.ofText text, pc + 1 + 2, onFalse⟩ : Branch) = _
      rw [show onTrue = pc + 1 + 2 from hnext]
  · intro c s'' hrest
    rw [collectFrom_getGlobal _ _ hload hname, Chain.collectFrom_conditional htest rfl, hafter]
    simp only [hforward, Bool.false_eq_true, if_false]
    rw [Analysis.bind_of_ok (Analysis.frame_eq _ _ _), Analysis.bind_of_ok hrest]
    rfl

/-- The tests collected from compiled code are the branches of its circuit; the collection goes on
behind the code. -/
theorem collectFrom_of_compiledAt {e : Formula} (hpos : e.IsPositive)
    (h : e.CompiledAt function pc onTrue onFalse) (hlocals : function.locals = [])
    (htrue : pc + e.span ≤ onTrue) (hfalse : pc + e.span ≤ onFalse) (s : RegisterStack) :
    ∃ pairs last s', pairs.map (fun p => (p.key, Content.branch p.branch)) =
        (e.circuit key pc).entries onTrue onFalse ∧
      pairs.getLast? = some last ∧ last.pc + 2 = pc + e.span ∧
      ∀ c s'', Chain.collectFrom function false start (pc + e.span) (pc + e.span) s' = .ok c s'' →
        Chain.collectFrom function false start key pc s =
          .ok ⟨pairs ++ c.pairs, c.consumer⟩ s'' := by
  induction e generalizing key pc onTrue onFalse s with
  | atom text negated =>
    obtain rfl : negated = false := hpos
    obtain ⟨p, s', hkey, hpc, hbranch, hrest⟩ :=
      collectFrom_of_compiledAt_atom start key h hlocals htrue hfalse s
    refine ⟨[p], p, s', ?_, rfl, ?_, hrest⟩
    · simp [hkey, hbranch, circuit, Circuit.entries, ofText]
    · rw [hpc, span]
  | join op l r negated hl hr =>
    obtain ⟨-, hlpos, hrpos⟩ := hpos
    obtain ⟨hlc, hrc⟩ := compiledAt_join.1 h
    rw [span] at htrue hfalse
    have hspan := r.three_le_span
    obtain ⟨ps, p, s₁, hps, -, -, hlrest⟩ := hl key hlpos hlc
      (by cases op <;> simp only [Connective.whenTrue] <;> omega)
      (by cases op <;> simp only [Connective.whenFalse] <;> omega) s
    obtain ⟨qs, q, s₂, hqs, hlast, hqpc, hrrest⟩ := hr (pc + l.span) hrpos hrc
      (by omega) (by omega) s₁
    refine ⟨ps ++ qs, q, s₂, ?_, ?_, ?_, fun c s'' hc => ?_⟩
    · rw [List.map_append, hps, hqs, circuit, Circuit.entries_join, first_circuit]
    · rw [List.getLast?_append, hlast, Option.some_or]
    · rw [hqpc, span, Nat.add_assoc]
    · rw [span, ← Nat.add_assoc] at hc
      rw [hlrest _ _ (hrrest _ _ hc), List.append_assoc]

/-- Compiled code starts with a load and a test. -/
theorem exists_load_of_compiledAt {e : Formula} (h : e.CompiledAt function pc onTrue onFalse) :
    ∃ register index text i, function.code[pc]? = some (.ofABx .getGlobal register index) ∧
      function.constants[index.toNat]?.bind Literal.identifier? = some text ∧
      function.code[pc + 1]? = some i ∧ i.isConditional = true := by
  induction e generalizing onTrue onFalse with
  | atom text negated =>
    obtain ⟨register, index, jumpOn, -, hload, hname, htest, -⟩ := h
    exact ⟨register, index, text, _, hload, hname, htest, rfl⟩
  | join op l r negated hl hr => exact hl (compiledAt_join.1 h).1

theorem jumpsBack_getGlobal {register : UInt8} {index : UInt32}
    (hcode : function.code[pc]? = some (.ofABx .getGlobal register index)) :
    Code.jumpsBack function.code pc = Code.jumpsBack function.code (pc + 1) := by
  rw [Code.jumpsBack]
  split
  · next hnone => cases hcode.symm.trans hnone
  · next i hi =>
    cases hcode.symm.trans hi
    rfl

/-- Compiled tests do not jump backwards. -/
theorem jumpsBack_of_compiledAt {e : Formula} (h : e.CompiledAt function pc onTrue onFalse)
    (htrue : pc + e.span ≤ onTrue) (hfalse : pc + e.span ≤ onFalse) :
    Code.jumpsBack function.code pc = Code.jumpsBack function.code (pc + e.span) := by
  induction e generalizing pc onTrue onFalse with
  | atom text negated =>
    obtain ⟨register, index, jumpOn, jump, hload, -, htest, hjump, hop, htarget, -⟩ := h
    have hafter := Code.jumpAfter?_of_jump hjump hop htarget
    have hforward : ¬(if jumpOn then onTrue else onFalse) ≤ pc + 1 + 1 := by
      rw [span] at htrue hfalse
      cases jumpOn <;> simp <;> omega
    rw [jumpsBack_getGlobal hload, Code.jumpsBack]
    split
    · next hnone => cases htest.symm.trans hnone
    · next i hi =>
      cases htest.symm.trans hi
      have htest : (Instruction.ofABC .test register 0 (if jumpOn then 1 else 0)).isConditional =
          true := rfl
      simp only [if_pos htest, hafter, if_neg hforward]
      rfl
  | join op l r negated hl hr =>
    obtain ⟨hlc, hrc⟩ := compiledAt_join.1 h
    rw [span] at htrue hfalse
    rw [hl hlc (by cases op <;> simp only [Connective.whenTrue] <;> omega)
      (by cases op <;> simp only [Connective.whenFalse] <;> omega),
      hr hrc (by omega) (by omega), span, Nat.add_assoc]

end Collect

end Formula

end ShortCircuit
