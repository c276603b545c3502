import ShortCircuit.Proofs.Decision.Circuit
import ShortCircuit.Proofs.Decision.Step

/-!
# Diagrams with negated tests

A condition may test a text for either outcome: a negated test goes to the true exit when the text
does not hold. The branches of such a condition form a diagram, as those of a condition without
negated tests form a circuit. A test at the end of a diagram can be closed: it has taken in all
that followed it.

* `Diagram.entries` are the branches of a diagram between two exits, `Diagram.table` is their table.
* `Formula.diagram` is the diagram of a formula, with a key for every atom.
* `Formula.Foldable`: in a chain of one connective, no operand but the last mixes plain and negated
  atoms, and the last operand has the same property.
* `Formula.isFoldable_rightNest`: this is the same as that no left part of the right-nested diagram
  mixes plain and negated tests.
-/

namespace ShortCircuit

/-! ## Diagrams -/

/-- The exit by which the left part of a join leaves past the right part. -/
def Connective.exit : Connective → Nat → Nat → Nat
  | .and, _, onFalse => onFalse
  | .or, onTrue, _ => onTrue

/-- The side on which a test goes on to the right part of a join. -/
def Connective.side : Connective → Bool → Side
  | .and, false | .or, true => .onTrue
  | .and, true | .or, false => .onFalse

/-- Tests and closed tests, each with its key, joined by connectives. -/
inductive Diagram where
  | test (key : Nat) (statement : Formula) (negated : Bool)
  | closed (key : Nat) (statement : Formula)
  | join (op : Connective) (left right : Diagram)

namespace Diagram

/-- The key of the first test. -/
def first : Diagram → Nat
  | .test key _ _ | .closed key _ => key
  | .join _ l _ => l.first

/-- The keys of all tests, from left to right. -/
def keys : Diagram → List Nat
  | .test key _ _ | .closed key _ => [key]
  | .join _ l r => l.keys ++ r.keys

/-- The truth value of a diagram. -/
def eval (v : String → Bool) : Diagram → Bool
  | .test _ f negated => f.eval v ^^ negated
  | .closed _ f => f.eval v
  | .join op l r => op.apply (l.eval v) (r.eval v)

/-- The branch of a test; a negated test leaves by the other exits. -/
def branch (f : Formula) (negated : Bool) (onTrue onFalse : Nat) : Branch :=
  if negated then ⟨f, onFalse, onTrue⟩ else ⟨f, onTrue, onFalse⟩

/-- The nodes of a diagram that leaves to `onTrue` when it holds and to `onFalse` otherwise. -/
def entries : Diagram → Nat → Nat → List (Nat × Content)
  | .test key f negated, onTrue, onFalse => [(key, .branch (branch f negated onTrue onFalse))]
  | .closed key f, _, _ => [(key, .closed f)]
  | .join op l r, onTrue, onFalse =>
    l.entries (op.whenTrue r.first onTrue) (op.whenFalse r.first onFalse)
      ++ r.entries onTrue onFalse

/-- The linked table of a diagram whose exits are a true and a false leaf. -/
def table (d : Diagram) (onTrue onFalse : Nat) : Table :=
  let leaves := [(onTrue, Content.leaf (.bool true)), (onFalse, Content.leaf (.bool false))]
  let nodes := (d.entries onTrue onFalse ++ leaves).map fun e =>
    ({ key := e.1, content := e.2 } : Node)
  (nodes.foldl Table.insert (.empty d.first)).link

/-- All tests are negated or none is, as `negated` says, and none is closed. -/
def Uniform (negated : Bool) : Diagram → Prop
  | .test _ _ n => n = negated
  | .closed _ _ => False
  | .join _ l r => l.Uniform negated ∧ r.Uniform negated

/-- No left part of a join on the right spine mixes plain and negated tests. -/
def IsFoldable : Diagram → Prop
  | .test _ _ _ | .closed _ _ => True
  | .join _ l r => (∃ negated, l.Uniform negated) ∧ r.IsFoldable

/-- No join has a join with the same connective on its left, and a closed test stands at most at the
end of a diagram that is `final`. -/
def IsNested : Bool → Diagram → Prop
  | _, .test _ _ _ => True
  | final, .closed _ _ => final = true
  | final, .join op l r => (∀ x y, l ≠ .join op x y) ∧ l.IsNested false ∧ r.IsNested final

theorem entries_join (op : Connective) (l r : Diagram) (a b : Nat) :
    (join op l r).entries a b =
      l.entries (op.whenTrue r.first a) (op.whenFalse r.first b) ++ r.entries a b := rfl

@[simp]
theorem next_branch (f : Formula) (negated : Bool) (a b : Nat) (o : Bool) :
    (branch f negated a b).next o = if (o ^^ negated) then a else b := by
  cases negated <;> cases o <;> rfl

@[simp]
theorem statement_branch (f : Formula) (negated : Bool) (a b : Nat) :
    (branch f negated a b).statement = f := by
  cases negated <;> rfl

@[simp]
theorem map_entries (d : Diagram) (a b : Nat) : (d.entries a b).map (·.1) = d.keys := by
  induction d generalizing a b with
  | test key f negated => rfl
  | closed key f => rfl
  | join op l r hl hr => simp [entries, keys, hl, hr]

theorem exists_keys_eq_cons (d : Diagram) : ∃ rest, d.keys = d.first :: rest := by
  induction d with
  | test key f negated => exact ⟨[], rfl⟩
  | closed key f => exact ⟨[], rfl⟩
  | join op l r hl hr =>
    obtain ⟨rest, hrest⟩ := hl
    exact ⟨rest ++ r.keys, by rw [keys, hrest, List.cons_append, first]⟩

theorem first_mem_keys (d : Diagram) : d.first ∈ d.keys := by
  obtain ⟨rest, hrest⟩ := d.exists_keys_eq_cons
  rw [hrest]
  exact List.mem_cons_self

theorem mem_keys_of_mem_entries {d : Diagram} {a b k : Nat} {c : Content}
    (h : (k, c) ∈ d.entries a b) : k ∈ d.keys := by
  rw [← d.map_entries a b]
  exact List.mem_map_of_mem h

theorem exists_mem_entries {d : Diagram} {k : Nat} (h : k ∈ d.keys) (a b : Nat) :
    ∃ c, (k, c) ∈ d.entries a b := by
  rw [← d.map_entries a b, List.mem_map] at h
  obtain ⟨e, he, rfl⟩ := h
  exact ⟨e.2, he⟩

theorem ne_leaf_of_mem_entries {d : Diagram} {a b k : Nat} {c : Content}
    (h : (k, c) ∈ d.entries a b) (x : LeafValue) : c ≠ .leaf x := by
  induction d generalizing a b with
  | test key f negated =>
    obtain ⟨-, rfl⟩ := Prod.mk.inj (List.mem_singleton.1 h)
    simp
  | closed key f =>
    obtain ⟨-, rfl⟩ := Prod.mk.inj (List.mem_singleton.1 h)
    simp
  | join op l r hl hr =>
    rcases List.mem_append.1 h with h | h
    · exact hl h
    · exact hr h

/-- The branches of a diagram lead to later tests or to its exits. -/
theorem exists_keys_eq_of_mem_entries {d : Diagram} {a b k : Nat} {br : Branch}
    (h : (k, .branch br) ∈ d.entries a b) :
    ∃ before after, d.keys = before ++ k :: after ∧
      ∀ o, br.next o ∈ after ∨ br.next o = a ∨ br.next o = b := by
  induction d generalizing a b with
  | test key f negated =>
    obtain ⟨rfl, hbr⟩ := Prod.mk.inj (List.mem_singleton.1 h)
    refine ⟨[], [], rfl, fun o => .inr ?_⟩
    rw [Content.branch.inj hbr, next_branch]
    split_ifs
    · exact .inl rfl
    · exact .inr rfl
  | closed key f =>
    obtain ⟨-, h⟩ := Prod.mk.inj (List.mem_singleton.1 h)
    cases h
  | join op l r hl hr =>
    rcases List.mem_append.1 h with h | h
    · obtain ⟨before, after, hkeys, hnext⟩ := hl h
      refine ⟨before, after ++ r.keys, by rw [keys, hkeys, List.append_assoc]; rfl, fun o => ?_⟩
      have hfirst : r.first ∈ after ++ r.keys := List.mem_append_right _ r.first_mem_keys
      rcases hnext o with hk | hk | hk
      · exact .inl (List.mem_append_left _ hk)
      · cases op with
        | and => exact .inl (hk ▸ hfirst)
        | or => exact .inr (.inl hk)
      · cases op with
        | and => exact .inr (.inr hk)
        | or => exact .inl (hk ▸ hfirst)
    · obtain ⟨before, after, hkeys, hnext⟩ := hr h
      exact ⟨l.keys ++ before, after, by rw [keys, hkeys, List.append_assoc], hnext⟩

theorem next_mem_of_mem_entries {d : Diagram} {a b k : Nat} {br : Branch}
    (h : (k, .branch br) ∈ d.entries a b) (o : Bool) :
    br.next o ∈ d.keys ∨ br.next o = a ∨ br.next o = b := by
  obtain ⟨before, after, hkeys, hnext⟩ := exists_keys_eq_of_mem_entries h
  rcases hnext o with hk | hk
  · rw [hkeys]
    exact .inl (List.mem_append_right _ (List.mem_cons_of_mem _ hk))
  · exact .inr hk

/-- The last test of a diagram without a closed end leads to both exits. -/
theorem exists_last {d : Diagram} (h : d.IsNested false) (a b : Nat) :
    ∃ k f negated, (k, .branch (branch f negated a b)) ∈ d.entries a b := by
  induction d generalizing a b with
  | test key f negated => exact ⟨key, f, negated, List.mem_singleton_self _⟩
  | closed key f => cases h
  | join op l r hl hr =>
    obtain ⟨k, f, negated, hk⟩ := hr h.2.2 a b
    exact ⟨k, f, negated, List.mem_append_right _ hk⟩

/-- The first test of a join has a way on to another test of the join. -/
theorem exists_first (op : Connective) {l : Diagram} (h : l.IsNested false) (r : Diagram)
    (a b : Nat) :
    ∃ br o, ((join op l r).first, .branch br) ∈ (join op l r).entries a b ∧
      br.next o ∈ (join op l r).keys := by
  induction l generalizing op r a b with
  | test key f negated =>
    have hfirst : r.first ∈ (join op (test key f negated) r).keys :=
      List.mem_append_right _ r.first_mem_keys
    refine ⟨_, (op.side negated).outcome, List.mem_append_left _ (List.mem_singleton_self _), ?_⟩
    cases op <;> cases negated <;> exact hfirst
  | closed key f => cases h
  | join op' x y hx hy =>
    obtain ⟨br, o, hbr, hnext⟩ := hx op' h.2.1 y (op.whenTrue r.first a) (op.whenFalse r.first b)
    exact ⟨br, o, List.mem_append_left _ hbr, List.mem_append_left _ hnext⟩

/-- Every test but the first is reached from another one. -/
theorem exists_previous {d : Diagram} {final : Bool} (h : d.IsNested final) {k : Nat}
    (hk : k ∈ d.keys) (hfirst : k ≠ d.first) (a b : Nat) :
    ∃ z br o, (z, .branch br) ∈ d.entries a b ∧ br.next o = k := by
  induction d generalizing final a b with
  | test key f negated => exact absurd (List.mem_singleton.1 hk) hfirst
  | closed key f => exact absurd (List.mem_singleton.1 hk) hfirst
  | join op l r hl hr =>
    rcases List.mem_append.1 hk with hk | hk
    · obtain ⟨z, br, o, hz, hnext⟩ := hl h.2.1 hk hfirst (op.whenTrue r.first a)
        (op.whenFalse r.first b)
      exact ⟨z, br, o, List.mem_append_left _ hz, hnext⟩
    · by_cases heq : k = r.first
      · subst heq
        obtain ⟨z, f, negated, hz⟩ := exists_last h.2.1 (op.whenTrue r.first a)
          (op.whenFalse r.first b)
        refine ⟨z, _, (op.side negated).outcome, List.mem_append_left _ hz, ?_⟩
        cases op <;> cases negated <;> rfl
      · obtain ⟨z, br, o, hz, hnext⟩ := hr h.2.2 hk heq a b
        exact ⟨z, br, o, List.mem_append_right _ hz, hnext⟩

theorem IsNested.mono {d : Diagram} {final : Bool} (h : d.IsNested false) : d.IsNested final := by
  induction d with
  | test key f negated => trivial
  | closed key f => cases h
  | join op l r hl hr => exact ⟨h.1, h.2.1, hr h.2.2⟩

/-! ## Right nesting -/

/-- Joins a diagram to the left of another; the joins on its right spine with the same connective
are opened. -/
def prepend (op : Connective) : Diagram → Diagram → Diagram
  | .test key f negated, r => .join op (.test key f negated) r
  | .closed key f, r => .join op (.closed key f) r
  | .join op' x y, r =>
    if op' = op then .join op x (prepend op y r) else .join op (.join op' x y) r

/-- Moves joins with the same connective from the left to the right. -/
def rightNest : Diagram → Diagram
  | .test key f negated => .test key f negated
  | .closed key f => .closed key f
  | .join op l r => prepend op l.rightNest r.rightNest

theorem prepend_join_same (op : Connective) (x y r : Diagram) :
    prepend op (join op x y) r = join op x (prepend op y r) := by
  rw [prepend, if_pos rfl]

theorem prepend_join_ne {op op' : Connective} (h : op' ≠ op) (x y r : Diagram) :
    prepend op (join op' x y) r = join op (join op' x y) r := by
  rw [prepend, if_neg h]

theorem exists_prepend_eq_join (op : Connective) (l r : Diagram) :
    ∃ x y, prepend op l r = join op x y := by
  cases l with
  | test key f negated => exact ⟨_, _, rfl⟩
  | closed key f => exact ⟨_, _, rfl⟩
  | join op' x y =>
    by_cases h : op' = op
    · subst h
      exact ⟨_, _, prepend_join_same op' x y r⟩
    · exact ⟨_, _, prepend_join_ne h x y r⟩

theorem prepend_assoc (op : Connective) (l m r : Diagram) :
    prepend op (prepend op l m) r = prepend op l (prepend op m r) := by
  induction l with
  | test key f negated => exact prepend_join_same ..
  | closed key f => exact prepend_join_same ..
  | join op' x y hx hy =>
    by_cases h : op' = op
    · subst h
      rw [prepend_join_same, prepend_join_same, prepend_join_same, hy]
    · rw [prepend_join_ne h, prepend_join_ne h, prepend_join_same]

theorem first_prepend (op : Connective) (l r : Diagram) : (prepend op l r).first = l.first := by
  cases l with
  | test key f negated => rfl
  | closed key f => rfl
  | join op' x y =>
    unfold prepend
    split_ifs <;> rfl

/-- Moving a join does not change the nodes. -/
theorem entries_prepend (op : Connective) (l r : Diagram) (a b : Nat) :
    (prepend op l r).entries a b = (join op l r).entries a b := by
  induction l with
  | test key f negated => rfl
  | closed key f => rfl
  | join op' x y hx hy =>
    unfold prepend
    split_ifs with h
    · subst h
      cases op' <;> simp [entries, hy, first_prepend, Connective.whenTrue, Connective.whenFalse]
    · rfl

theorem eval_prepend (v : String → Bool) (op : Connective) (l r : Diagram) :
    (prepend op l r).eval v = op.apply (l.eval v) (r.eval v) := by
  induction l with
  | test key f negated => rfl
  | closed key f => rfl
  | join op' x y hx hy =>
    unfold prepend
    split_ifs with h
    · subst h
      rw [eval, hy, eval]
      cases op' <;> simp [Connective.apply, Bool.and_assoc, Bool.or_assoc]
    · rfl

theorem uniform_prepend (negated : Bool) (op : Connective) (l r : Diagram) :
    (prepend op l r).Uniform negated ↔ l.Uniform negated ∧ r.Uniform negated := by
  induction l with
  | test key f n => rfl
  | closed key f => rfl
  | join op' x y hx hy =>
    unfold prepend
    split_ifs with h
    · rw [Uniform, hy, Uniform, and_assoc]
    · rfl

theorem isNested_prepend {final : Bool} {op : Connective} {l r : Diagram} (hl : l.IsNested false)
    (hr : r.IsNested final) : (prepend op l r).IsNested final := by
  induction l with
  | test key f negated => exact ⟨by simp, trivial, hr⟩
  | closed key f => cases hl
  | join op' x y hx hy =>
    unfold prepend
    split_ifs with h
    · subst h
      exact ⟨hl.1, hl.2.1, hy hl.2.2⟩
    · refine ⟨?_, hl, hr⟩
      rintro u w ⟨⟩
      exact h rfl

theorem first_rightNest (d : Diagram) : d.rightNest.first = d.first := by
  induction d with
  | test key f negated => rfl
  | closed key f => rfl
  | join op l r hl hr => rw [rightNest, first_prepend, hl, first]

theorem entries_rightNest (d : Diagram) (a b : Nat) : d.rightNest.entries a b = d.entries a b := by
  induction d generalizing a b with
  | test key f negated => rfl
  | closed key f => rfl
  | join op l r hl hr => rw [rightNest, entries_prepend, entries, entries, hl, hr, first_rightNest]

theorem keys_rightNest (d : Diagram) : d.rightNest.keys = d.keys := by
  rw [← d.rightNest.map_entries 0 0, entries_rightNest, map_entries]

theorem eval_rightNest (v : String → Bool) (d : Diagram) : d.rightNest.eval v = d.eval v := by
  induction d with
  | test key f negated => rfl
  | closed key f => rfl
  | join op l r hl hr => rw [rightNest, eval_prepend, hl, hr, eval]

end Diagram

/-! ## Diagrams of formulas -/

namespace Formula

/-- The diagram of a formula; the keys of its atoms, numbered from `i` on, are given by `key`. A
join counts with the connective that it shows. -/
def diagram (key : Nat → Nat) : Formula → Nat → Diagram
  | .atom text negated, i => .test (key i) (.ofText text) negated
  | .join op l r n, i =>
    .join (shown op n) (l.diagram key i) (r.diagram key (i + l.atoms.length))

/-- All atoms are negated or none is, as `negated` says. -/
def Uniform (negated : Bool) : Formula → Prop
  | .atom _ n => n = negated
  | .join _ l r _ => l.Uniform negated ∧ r.Uniform negated

/-- As a chain of operands joined by `op`, the formula has no operand with plain and negated
atoms. -/
def UniformOperands (op : Connective) : Formula → Prop
  | .atom _ _ => True
  | .join op' l r n =>
    if shown op' n = op then l.UniformOperands op ∧ r.UniformOperands op
    else ∃ negated, l.Uniform negated ∧ r.Uniform negated

/-- Of the operands of every chain on the right spine, only the last one may have plain and negated
atoms. -/
def Foldable : Formula → Prop
  | .atom _ _ => True
  | .join op l r n => l.UniformOperands (shown op n) ∧ r.Foldable

instance decidableUniform (negated : Bool) : (e : Formula) → Decidable (e.Uniform negated)
  | .atom _ n => inferInstanceAs (Decidable (n = negated))
  | .join _ l r _ =>
    have := decidableUniform negated l
    have := decidableUniform negated r
    inferInstanceAs (Decidable (_ ∧ _))

instance decidableUniformOperands (op : Connective) :
    (e : Formula) → Decidable (e.UniformOperands op)
  | .atom _ _ => .isTrue trivial
  | .join _ l r _ =>
    have := decidableUniformOperands op l
    have := decidableUniformOperands op r
    inferInstanceAs (Decidable (ite _ _ _))

instance decidableFoldable : (e : Formula) → Decidable e.Foldable
  | .atom _ _ => .isTrue trivial
  | .join _ _ r _ =>
    have := decidableFoldable r
    inferInstanceAs (Decidable (_ ∧ _))

variable (key : Nat → Nat)

theorem eval_diagram (v : String → Bool) (e : Formula) (i : Nat) :
    (e.diagram key i).eval v = e.eval v := by
  induction e generalizing i with
  | atom text negated => simp [diagram, Diagram.eval, eval, ofText]
  | join op l r n hl hr => rw [diagram, Diagram.eval, hl, hr, eval]

/-- The tests of a formula have the keys of its atoms, in their order. -/
theorem keys_diagram (e : Formula) (i : Nat) :
    (e.diagram key i).keys = (List.range' i e.atoms.length).map key := by
  induction e generalizing i with
  | atom text negated => rfl
  | join op l r n hl hr =>
    rw [diagram, Diagram.keys, hl, hr, atoms, List.length_append, ← List.map_append,
      List.range'_append_1]

theorem isNested_rightNest (e : Formula) (i : Nat) :
    (e.diagram key i).rightNest.IsNested false := by
  induction e generalizing i with
  | atom text negated => trivial
  | join op l r n hl hr => exact Diagram.isNested_prepend (hl i) (hr _)

theorem uniform_rightNest (negated : Bool) (e : Formula) (i : Nat) :
    (e.diagram key i).rightNest.Uniform negated ↔ e.Uniform negated := by
  induction e generalizing i with
  | atom text n => rfl
  | join op l r n hl hr =>
    rw [diagram, Diagram.rightNest, Diagram.uniform_prepend, hl, hr, Uniform]

/-- In front of a diagram, the operands of a chain become left parts. -/
theorem isFoldable_prepend (op : Connective) (e : Formula) (i : Nat) (d : Diagram) :
    (Diagram.prepend op (e.diagram key i).rightNest d).IsFoldable ↔
      e.UniformOperands op ∧ d.IsFoldable := by
  induction e generalizing i d with
  | atom text negated =>
    have huniform : ∃ n, (Diagram.test (key i) (ofText text) negated).Uniform n := ⟨negated, rfl⟩
    exact and_congr_left' (iff_true_intro huniform)
  | join op' l r n hl hr =>
    rw [diagram, Diagram.rightNest, UniformOperands]
    split_ifs with h
    · rw [h, Diagram.prepend_assoc, hl, hr, and_assoc]
    · obtain ⟨x, y, hxy⟩ := Diagram.exists_prepend_eq_join (shown op' n)
        (l.diagram key i).rightNest (r.diagram key (i + l.atoms.length)).rightNest
      rw [hxy, Diagram.prepend_join_ne h, ← hxy, Diagram.IsFoldable]
      simp only [Diagram.uniform_prepend, uniform_rightNest]

/-- A formula is foldable when the left parts of its right-nested diagram are uniform. -/
theorem isFoldable_rightNest (e : Formula) (i : Nat) :
    (e.diagram key i).rightNest.IsFoldable ↔ e.Foldable := by
  induction e generalizing i with
  | atom text negated => rfl
  | join op l r n hl hr => rw [diagram, Diagram.rightNest, isFoldable_prepend, hr, Foldable]

end Formula

end ShortCircuit
