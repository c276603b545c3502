import ShortCircuit.Proofs.Expression.Lexer
import ShortCircuit.Registers.Execution
import Mathlib.Data.List.Forall2

/-!
# Arithmetic reads back

Expressions are kept as text with one binding strength, and brackets are set from that alone. This
module keeps beside each register the expression that the instructions compute in it, and shows that
the text of the register reads as that expression.

* `Precedence.eq_level`, `Precedence.level`: the strengths of texts and the levels of the grammar.
* `Prototype.computed?`: the expression that an instruction computes from those in the registers.
* `Rendered.Reads`: a text reads as an expression, and as tightly as its strength says.
* `Rendered.Reads.binary`, `Rendered.Reads.unary`, `Rendered.reads_concat`: brackets stand where
  they are needed.
* `Frame.Tracks.effect_of_computed?`: one instruction; `Computation.reads_rendered`: every sequence.
* `Computation.ofText?_register`: the text of every register reads as what was computed.
-/

namespace ShortCircuit

/-! ## Strengths and levels -/

/-- The operator of an arithmetic instruction with two operands. -/
def Opcode.operator? : Opcode → Option BinaryOperator
  | .add => some .add
  | .sub => some .sub
  | .mul => some .mul
  | .div => some .div
  | .mod => some .mod
  | .pow => some .pow
  | _ => none

namespace Precedence

/-- The strengths of operators are their levels in the grammar, and arithmetic is written with the
symbols of the grammar. -/
theorem eq_level :
    (∀ c, ofConnective (some c) = (BinaryOperator.logic c).level) ∧
      (∀ c, comparison = (BinaryOperator.compare c).level) ∧
      concat = BinaryOperator.concat.level ∧ unary = Level.unary ∧
      ∀ op o, Opcode.operator? op = some o → op.arithmetic? = some (o.symbol, o.level) := by
  refine ⟨fun c => ?_, fun _ => rfl, rfl, rfl, fun op o h => ?_⟩
  · cases c <;> rfl
  · cases op <;> simp only [Opcode.operator?, reduceCtorEq, Option.some.injEq] at h <;> subst h <;>
      rfl

/-- The level that texts of a strength read at. A text that binds no tighter than a comparison may
be any expression. -/
def level (p : Precedence) : Nat :=
  if p ≤ comparison then Level.or
  else if p < suffix then p
  else if p < atom then Level.suffix
  else Level.atom

theorem level_mono {p q : Precedence} (h : p ≤ q) : level p ≤ level q := by
  grind [level, comparison, suffix, atom, Level.or, Level.suffix, Level.atom]

theorem or_le_level (p : Precedence) : Level.or ≤ level p := by
  grind [level, comparison, Level.or, Level.suffix, Level.atom]

theorem level_le_atom (p : Precedence) : level p ≤ Level.atom := by
  grind [level, suffix, Level.or, Level.suffix, Level.atom]

end Precedence

/-- The operands of arithmetic get brackets unless they bind as tightly as the grammar says. -/
theorem Opcode.least_of_operator? {op : Opcode} {o : BinaryOperator} (h : op.operator? = some o) :
    ∃ leftLeast rightLeast : Precedence,
      (if o.level = Precedence.power then (o.level + 1, o.level) else (o.level, o.level + 1)) =
        (leftLeast, rightLeast) ∧
      o.leftLeast ≤ leftLeast.level ∧ o.rightLeast ≤ rightLeast.level ∧
      Precedence.level o.level ≤ o.level := by
  refine ⟨_, _, rfl, ?_⟩
  cases op <;> simp only [operator?, reduceCtorEq, Option.some.injEq] at h <;> subst h <;> decide

/-! ## What instructions compute -/

/-- The expression of a whole number: a negative one is the minus sign before its magnitude. -/
def Expression.ofWhole (x : Binary64) : Expression Atom :=
  if x.isNegative then .unary .minus (.atom (.integer x.whole)) else .atom (.integer x.whole)

/-- Several operands joined by `..`, which nests to the right. -/
def Expression.concatenation? {α : Type} : List (Expression α) → Option (Expression α)
  | [] => none
  | [x] => some x
  | x :: y :: rest => (concatenation? (y :: rest)).map (.binary .concat x)

namespace Prototype

/-- The expression of a constant, if it is a whole number. -/
def wholeConstant? (function : Prototype) (index : Nat) : Option (Expression Atom) :=
  match function.constants[index]? with
  | some (.number x) => if x.IsWhole then some (.ofWhole x) else none
  | _ => none

/-- The expression of an operand field, from the expressions in the registers. -/
def operandValue? (function : Prototype) (values : UInt8 → Expression Atom) (field : UInt16) :
    Option (Expression Atom) :=
  match Operand.ofField field with
  | .register r => some (values r)
  | .constant index => function.wholeConstant? index

/-- The expression that an instruction computes from those in the registers. Instructions other than
moves, whole numbers, global variables and operations compute none. -/
def computed? (function : Prototype) (values : UInt8 → Expression Atom) (i : Instruction) :
    Option (Expression Atom) :=
  match i.op with
  | .move => some (values i.b.toUInt8)
  | .loadK => function.wholeConstant? i.bx.toNat
  | .getGlobal =>
    (function.constants[i.bx.toNat]?.bind Literal.identifier?).map fun name => .atom (.name name)
  | .unm => some (.unary .minus (values i.b.toUInt8))
  | .not => some (.unary .not (values i.b.toUInt8))
  | .len => some (.unary .length (values i.b.toUInt8))
  | .concat =>
    if i.c.toNat < 256 then
      Expression.concatenation? ((Registers.range i.b.toNat i.c.toNat).map values)
    else none
  | op =>
    op.operator?.bind fun sign =>
      (function.operandValue? values i.b).bind fun left =>
        (function.operandValue? values i.c).map fun right => .binary sign left right

end Prototype

/-! ## Texts and what they read as -/

/-- A text reads as an expression whose outermost operator binds at least as tightly as the level
says. -/
def Spells (level : Nat) (text : String) (x : Expression Atom) : Prop :=
  ∃ ts, tokens .blank text.toList = some ts ∧ Expression.Reads level ts x

theorem Spells.weaken {p q : Nat} {text : String} {x : Expression Atom} (h : Spells q text x)
    (hle : p ≤ q) : Spells p text x := by
  obtain ⟨ts, htokens, hreads⟩ := h
  exact ⟨ts, htokens, hreads.weaken hle⟩

theorem spells_iff {text : String} {x : Expression Atom} :
    Spells Level.or text x ↔ Expression.ofText? text = some x := by
  simp only [Spells, Expression.ofText?, Option.bind_eq_some_iff, Expression.parse_eq_some_iff]

theorem Spells.group {text : String} {x : Expression Atom} (h : Spells Level.or text x) :
    Spells Level.atom ("(" ++ text ++ ")") x := by
  obtain ⟨ts, htokens, hreads⟩ := h
  refine ⟨_, ?_, hreads.group⟩
  have hlist : ("(" ++ text ++ ")").toList = '(' :: (text.toList ++ [')']) := by simp
  rw [hlist, tokens_group htokens]

/-- The sign of a unary operator. -/
def UnaryOperator.sign : UnaryOperator → String
  | .minus => "-"
  | .not => "not "
  | .length => "#"

theorem tokens_minus {t : List Char} {ts : List (Token Atom)} (h : tokens .blank t = some ts)
    (hhead : t.head? ≠ some '-') : tokens .blank ('-' :: t) = some (.binary .sub :: ts) := by
  have hstep : Reading.blank.step '-' = some ([], .sign ['-']) := rfl
  have hsign : Reading.sign? ['-'] = some (.binary .sub) := rfl
  rw [tokens_of_silent hstep, tokens_sign hsign, h]
  · rfl
  · rintro c hc
    have hne : c ≠ '-' := by
      rintro rfl
      exact hhead hc
    simp [Reading.extendsSign, Reading.isForeign, hne]

theorem tokens_length {t : List Char} {ts : List (Token Atom)} (h : tokens .blank t = some ts) :
    tokens .blank ('#' :: t) = some (.length :: ts) := by
  have hstep : Reading.blank.step '#' = some ([], .sign ['#']) := rfl
  have hsign : Reading.sign? ['#'] = some .length := rfl
  rw [tokens_of_silent hstep, tokens_sign hsign, h]
  · rfl
  · intro c _
    simp [Reading.extendsSign, Reading.isForeign]

theorem tokens_not {t : List Char} {ts : List (Token Atom)} (h : tokens .blank t = some ts) :
    tokens .blank ('n' :: 'o' :: 't' :: ' ' :: t) = some (.not :: ts) := by
  have hword : tokens .blank ['n', 'o', 't'] = some [.not] := rfl
  have hall := tokens_append hword (.inl rfl) t
  rw [tokens_space, h] at hall
  exact hall

namespace Rendered

/-- The text reads as the expression, as tightly as its strength says. -/
def Reads (e : Rendered) (x : Expression Atom) : Prop := Spells e.precedence.level e.text x

theorem Reads.ofText?_eq {e : Rendered} {x : Expression Atom} (h : e.Reads x) :
    Expression.ofText? e.text = some x :=
  spells_iff.1 (h.weaken e.precedence.or_le_level)

/-- Brackets make a text bind as tightly as an operand has to. -/
theorem Reads.wrap {e : Rendered} {x : Expression Atom} (h : e.Reads x) (least : Precedence) :
    Spells least.level (e.wrap least) x := by
  unfold Rendered.wrap
  split_ifs with hlt
  · exact (Spells.group (h.weaken e.precedence.or_le_level)).weaken least.level_le_atom
  · exact Spells.weaken h (Precedence.level_mono (Nat.le_of_not_lt hlt))

theorem reads_of_spells {text : String} {p : Precedence} {q : Nat} {x : Expression Atom}
    (h : Spells q text x) (hle : p.level ≤ q) : Reads ⟨text, p⟩ x :=
  h.weaken hle

theorem reads_atom {text : String} {a : Atom}
    (h : tokens .blank text.toList = some [.atom a]) : Reads (.atom text) (.atom a) :=
  reads_of_spells ⟨_, h, .atom a⟩ (by decide)

/-- An operation reads as the operator on what its operands read as. -/
theorem Reads.binary {l r : Rendered} {x y : Expression Atom} (hl : l.Reads x) (hr : r.Reads y)
    {op : Opcode} {o : BinaryOperator} (ho : op.operator? = some o) :
    Reads (.binary o.symbol o.level l r) (.binary o x y) := by
  obtain ⟨leftLeast, rightLeast, hleast, hleft, hright, hlevel⟩ := Opcode.least_of_operator? ho
  obtain ⟨ts, hts, hx⟩ := (hl.wrap leftLeast).weaken hleft
  obtain ⟨us, hus, hy⟩ := (hr.wrap rightLeast).weaken hright
  rw [Rendered.binary, hleast]
  refine reads_of_spells ⟨_, ?_, hx.binary o hy⟩ hlevel
  rw [← tokens_binary o hts hus]
  simp

/-- A unary operation reads as the operator on what its operand reads as. -/
theorem Reads.unary {e : Rendered} {x : Expression Atom} (h : e.Reads x) (op : UnaryOperator) :
    Reads (.unary op.sign e) (.unary op x) := by
  have hwrap : Spells Level.unary (e.wrap Precedence.unary) x := (h.wrap _).weaken (by decide)
  obtain ⟨ts, htokens, hreads⟩ := hwrap
  refine reads_of_spells ⟨_, ?_, hreads.unary op⟩ (by decide)
  cases op with
  | minus =>
    by_cases hhead : (e.wrap Precedence.unary).toList.head? = some '-'
    · -- A space keeps the second minus sign apart.
      have hspace : tokens .blank (' ' :: (e.wrap Precedence.unary).toList) = some ts := by
        rw [tokens_space, htokens]
      simpa [UnaryOperator.token, UnaryOperator.sign, hhead] using tokens_minus hspace (by simp)
    · simpa [UnaryOperator.token, UnaryOperator.sign, hhead] using tokens_minus htokens hhead
  | not => simpa [UnaryOperator.token, UnaryOperator.sign] using tokens_not htokens
  | length => simpa [UnaryOperator.token, UnaryOperator.sign] using tokens_length htokens

/-- A concatenation reads as nested to the right. -/
theorem reads_concat {parts : List Rendered} {xs : List (Expression Atom)} {x : Expression Atom}
    (h : List.Forall₂ Reads parts xs) (hx : Expression.concatenation? xs = some x) :
    Reads (.concat parts) x := by
  refine reads_of_spells (q := Level.concat) ?_ (by decide)
  induction h generalizing x with
  | nil => exact nomatch hx
  | @cons e y parts xs he hrest ih =>
    have hwrap : Spells (Level.concat + 1) (e.wrap (Precedence.concat + 1)) y :=
      (he.wrap _).weaken (by decide)
    cases hrest with
    | nil =>
      cases hx
      simpa using hwrap.weaken (Nat.le_succ _)
    | @cons e' y' parts xs he' hrest =>
      obtain ⟨z, hz, rfl⟩ := Option.map_eq_some_iff.1 hx
      obtain ⟨ts, hts, hy⟩ := hwrap
      obtain ⟨us, hus, hrest⟩ := ih hz
      refine ⟨_, ?_, Expression.Reads.binary .concat hy hrest⟩
      rw [← tokens_binary .concat hts hus]
      simp [String.intercalate_cons_cons, BinaryOperator.symbol]

/-- A whole number reads as itself. -/
theorem reads_constant {x : Binary64} (h : x.IsWhole) :
    Reads (.constant x.text) (.ofWhole x) := by
  obtain ⟨n, htext, hn⟩ := Binary64.text_of_isWhole h
  have htokens := tokens_toString n
  rw [hn] at htokens
  have hhead : (toString n).toList.head? ≠ some '-' := by
    intro hminus
    have hmem : '-' ∈ Nat.toDigits 10 n := by
      rw [← Nat.toList_repr]
      exact List.mem_of_head? hminus
    exact absurd (Nat.isDigit_of_mem_toDigits (by decide) (by decide) hmem) (by decide)
  by_cases hneg : x.isNegative = true
  · have hminus := tokens_minus htokens hhead
    have hreads : Expression.Reads Level.unary _ _ :=
      .unary .minus ((Expression.Reads.atom (Atom.integer x.whole)).weaken (by decide))
    rw [if_pos hneg] at htext
    rw [Expression.ofWhole, if_pos hneg, Rendered.constant, htext, if_pos (by simp)]
    exact reads_of_spells ⟨_, by simpa [UnaryOperator.token] using hminus, hreads⟩ (by decide)
  · rw [if_neg hneg, String.empty_append] at htext
    rw [Expression.ofWhole, if_neg hneg, Rendered.constant, htext, if_neg hhead]
    exact reads_atom htokens

/-- An unknown register reads as a name. -/
theorem reads_unknown (r : UInt8) :
    Reads (.atom ("r" ++ toString r.toNat)) (.atom (.name ("r" ++ toString r.toNat))) := by
  have hname : Name.isName ("r" ++ toString r.toNat).toList = true :=
    Name.isName_numbered (by decide) r.toNat
  refine reads_atom ?_
  rw [tokens_name hname, String.ofList_toList]

end Rendered

/-! ## Instructions -/

namespace Frame

theorem exists_constant {f : Frame} {index : Nat} {x : Expression Atom}
    (h : f.function.wholeConstant? index = some x) :
    ∃ l, f.constant index = .ok l ∧ (Rendered.constant l.render).Reads x := by
  unfold Prototype.wholeConstant? at h
  split at h
  · next w hw =>
    split_ifs at h with hwhole
    rw [← Option.some.inj h]
    refine ⟨.number w, ?_, Rendered.reads_constant hwhole⟩
    rw [constant, hw]
  · cases h

/-- Every register reads as the expression kept beside it. -/
def Tracks (f : Frame) (values : UInt8 → Expression Atom) : Prop :=
  ∀ r, (f.register r).Reads (values r)

variable {f : Frame} {values : UInt8 → Expression Atom}

theorem Tracks.exists_operand (h : f.Tracks values) {field : UInt16} {x : Expression Atom}
    (hx : f.function.operandValue? values field = some x) :
    ∃ e, f.operand field = .ok e ∧ e.Reads x := by
  cases hfield : Operand.ofField field with
  | register r =>
    rw [Prototype.operandValue?, hfield] at hx
    cases hx
    exact ⟨_, by rw [operand, hfield], h r⟩
  | constant index =>
    rw [Prototype.operandValue?, hfield] at hx
    obtain ⟨l, hl, hreads⟩ := exists_constant hx
    exact ⟨_, by rw [operand, hfield]; simp only [hl, Except.map], hreads⟩

theorem effect_of_operator? {i : Instruction} {o : BinaryOperator}
    (h : i.op.operator? = some o) {left right : Rendered} (hleft : f.operand i.b = .ok left)
    (hright : f.operand i.c = .ok right) :
    f.effect i = .ok [.store i.a (.binary o.symbol o.level left right)] := by
  obtain ⟨-, -, -, -, hsymbol⟩ := Precedence.eq_level
  have harith := hsymbol i.op o h
  unfold effect
  rw [hleft, hright, harith]
  split <;> first | rfl | simp_all [Opcode.operator?]

/-- An instruction stores a text that reads as the expression it computes. -/
theorem Tracks.effect_of_computed? (h : f.Tracks values) {i : Instruction} {x : Expression Atom}
    (hx : f.function.computed? values i = some x) :
    ∃ e, f.effect i = .ok [.store i.a e] ∧ e.Reads x := by
  unfold Prototype.computed? at hx
  split at hx
  · next hop =>
    cases hx
    exact ⟨_, by simp [effect, hop], h _⟩
  · next hop =>
    obtain ⟨l, hl, hreads⟩ := exists_constant hx
    exact ⟨_, by simp [effect, hop, hl, Except.map], hreads⟩
  · next hop =>
    simp only [Option.map_eq_some_iff, Option.bind_eq_some_iff] at hx
    obtain ⟨name, ⟨l, hl, hname⟩, rfl⟩ := hx
    refine ⟨_, by simp [effect, hop, globalName, constant, hl, hname, Except.map]; rfl, ?_⟩
    refine Rendered.reads_atom ?_
    rw [tokens_name (Literal.isName_of_identifier? hname), String.ofList_toList]
  · next hop =>
    cases hx
    exact ⟨_, by simp only [effect, hop]; rfl, (h _).unary .minus⟩
  · next hop =>
    cases hx
    exact ⟨_, by simp only [effect, hop]; rfl, (h _).unary .not⟩
  · next hop =>
    cases hx
    exact ⟨_, by simp only [effect, hop]; rfl, (h _).unary .length⟩
  · next hop =>
    split_ifs at hx
    refine ⟨_, by simp only [effect, hop]; rfl, Rendered.reads_concat ?_ hx⟩
    rw [List.forall₂_map_left_iff, List.forall₂_map_right_iff, List.forall₂_same]
    exact fun r _ => h r
  · simp only [Option.bind_eq_some_iff, Option.map_eq_some_iff] at hx
    obtain ⟨o, ho, y, hy, z, hz, rfl⟩ := hx
    obtain ⟨left, hleft, hl⟩ := h.exists_operand hy
    obtain ⟨right, hright, hr⟩ := h.exists_operand hz
    exact ⟨_, effect_of_operator? ho hleft hright, hl.binary hr ho⟩

end Frame

/-! ## Sequences of instructions -/

/-- The stacks that instructions lead to from the empty one, with the expressions that they compute.
In between, a register may be given a text that binds no tighter than a comparison. -/
inductive Computation (function : Prototype) :
    RegisterStack → (UInt8 → Expression Atom) → Prop
  | fresh : Computation function .empty fun r => .atom (.name ("r" ++ toString r.toNat))
  | execute {s : RegisterStack} {values : UInt8 → Expression Atom} {i : Instruction}
      {x : Expression Atom} (h : Computation function s values) (pc : Nat)
      (hx : function.computed? values i = some x) :
      Computation function (s.executed function pc i) (Function.update values i.a x)
  | define {s : RegisterStack} {values : UInt8 → Expression Atom} {e : Rendered}
      {x : Expression Atom} (h : Computation function s values) (r : UInt8)
      (hx : Expression.ofText? e.text = some x) (he : e.precedence ≤ Precedence.comparison) :
      Computation function (s.define r e) (Function.update values r x)

/-- Without debug names a register is its contents. -/
theorem RegisterStack.register_frame {function : Prototype} (h : function.locals = [])
    (s : RegisterStack) (pc : Nat) (r : UInt8) :
    (s.frame function pc).register r = s.current.rendered r := by
  simp [RegisterStack.frame, Frame.register, Prototype.localName?, Prototype.alive, h]

theorem Registers.rendered_put (rs : Registers) (r q : UInt8) (e : Rendered) :
    (rs.put r (some { toRendered := e })).rendered q = if q = r then e else rs.rendered q := by
  rw [rendered, get_put]
  split_ifs <;> rfl

/-- A stored text that reads as an expression keeps the registers and the expressions together. -/
theorem Registers.reads_put {rs : Registers} {values : UInt8 → Expression Atom}
    (h : ∀ q, (rs.rendered q).Reads (values q)) {r : UInt8} {e : Rendered} {x : Expression Atom}
    (he : e.Reads x) (q : UInt8) :
    ((rs.put r (some { toRendered := e })).rendered q).Reads (Function.update values r x q) := by
  rw [rendered_put, Function.update_apply]
  split_ifs
  · exact he
  · exact h q

/-- Along a computation every register reads as its expression. -/
theorem Computation.reads_rendered {function : Prototype} (hlocals : function.locals = [])
    {s : RegisterStack} {values : UInt8 → Expression Atom} (h : Computation function s values) :
    ∀ r, (s.current.rendered r).Reads (values r) := by
  induction h with
  | fresh =>
    intro r
    simpa [RegisterStack.empty, Registers.rendered] using Rendered.reads_unknown r
  | @execute s values i x h pc hx ih =>
    have htracks : (s.frame function pc).Tracks values := fun r => by
      rw [RegisterStack.register_frame hlocals]
      exact ih r
    obtain ⟨e, heffect, he⟩ := htracks.effect_of_computed? hx
    rw [RegisterStack.executed, RegisterStack.execute, heffect]
    exact Registers.reads_put ih he
  | @define s values e x h r hx he ih =>
    refine Registers.reads_put ih ?_
    rw [Rendered.Reads, Precedence.level, if_pos he]
    exact spells_iff.2 hx

/-- Along a computation the text of every register reads as the expression that was computed, and
every instruction that computes one succeeds. -/
theorem Computation.ofText?_register {function : Prototype} (hlocals : function.locals = [])
    {s : RegisterStack} {values : UInt8 → Expression Atom} (h : Computation function s values) :
    (∀ r pc, Expression.ofText? ((s.frame function pc).register r).text = some (values r)) ∧
      ∀ pc i x, function.computed? values i = some x →
        ∃ s', RegisterStack.execute function pc i s = .ok () s' := by
  have hreads := h.reads_rendered hlocals
  have htracks : ∀ pc, (s.frame function pc).Tracks values := fun pc r => by
    rw [RegisterStack.register_frame hlocals]
    exact hreads r
  refine ⟨fun r pc => (htracks pc r).ofText?_eq, fun pc i x hx => ?_⟩
  obtain ⟨e, heffect, -⟩ := (htracks pc).effect_of_computed? hx
  rw [RegisterStack.execute, heffect]
  exact ⟨_, rfl⟩

/-- A function with the constants `-3`, `2` and `"x"`. -/
def threeConstants : Prototype where
  constants := [.number ⟨0xC008000000000000⟩, .number ⟨0x4000000000000000⟩, .string [120]]

/-- A negative constant below a power, a comparison above it and minus signs before it. -/
theorem Computation.ofText?_register_nested :
    ∃ s values, Computation threeConstants s values ∧ threeConstants.locals = [] ∧
      ((s.frame threeConstants 4).register 0).text = "2 - -(-3) ^ (x == 2)" ∧
      Expression.ofText? ((s.frame threeConstants 4).register 0).text =
        some (.binary .sub (.atom (.integer 2)) (.unary .minus (.binary .pow
          (.unary .minus (.atom (.integer 3)))
          (.binary (.compare .eq) (.atom (.name "x")) (.atom (.integer 2)))))) := by
  have hfresh : Computation threeConstants _ _ := .fresh
  have hdefine := hfresh.define 1 (e := ⟨"x == 2", Precedence.comparison⟩)
    (x := .binary (.compare .eq) (.atom (.name "x")) (.atom (.integer 2))) (by decide +kernel)
    (by decide)
  have hload := hdefine.execute 0 (i := .ofABx .loadK 0 0)
    (x := .unary .minus (.atom (.integer 3))) (by decide +kernel)
  have hpower := hload.execute 1 (i := .ofABC .pow 0 0 1) rfl
  have hminus := hpower.execute 2 (i := .ofABC .unm 0 0 0) rfl
  have hsub := hminus.execute 3 (i := .ofABC .sub 0 257 0)
    (x := .binary .sub (.atom (.integer 2)) (.unary .minus (.binary .pow
      (.unary .minus (.atom (.integer 3)))
      (.binary (.compare .eq) (.atom (.name "x")) (.atom (.integer 2)))))) (by decide +kernel)
  exact ⟨_, _, hsub, rfl, by decide +kernel, (hsub.ofText?_register rfl).1 0 4⟩

end ShortCircuit
