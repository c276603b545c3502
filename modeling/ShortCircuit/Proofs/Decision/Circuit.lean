import ShortCircuit.Proofs.Decision.Graph
import ShortCircuit.Proofs.Formula

/-!
# Circuits

The branches of a compiled condition form a circuit: blocks in the order of their keys, joined so
that the left part of an `and` goes on to the right part when it holds, and the left part of an `or`
when it does not.

* `Circuit.entries` are the branches of a circuit between two exits.
* `Circuit.rightNest` rearranges a circuit so that no join has a join with the same connective on
  its left. `Circuit.entries_rightNest`, `Circuit.render_formula_rightNest`: neither the branches
  nor the rendered formula change.
* `Circuit.contract` merges two neighbouring blocks; `Circuit.formula_contract`: the formula stays.
-/

namespace ShortCircuit

/-! ## Circuits -/

/-- The place that the left part of a join goes to when it holds: the right part of an `and`, the
exit of an `or`. -/
def Connective.whenTrue : Connective → Nat → Nat → Nat
  | .and, next, _ => next
  | .or, _, exit => exit

/-- The place that the left part of a join goes to when it does not hold. -/
def Connective.whenFalse : Connective → Nat → Nat → Nat
  | .and, _, exit => exit
  | .or, next, _ => next

/-- Blocks of tests, each with its key, joined by connectives. -/
inductive Circuit where
  | block (key : Nat) (statement : Formula)
  | join (op : Connective) (left right : Circuit)

namespace Circuit

/-- The key of the first block. -/
def first : Circuit → Nat
  | .block key _ => key
  | .join _ l _ => l.first

/-- The keys of all blocks, from left to right. -/
def keys : Circuit → List Nat
  | .block key _ => [key]
  | .join _ l r => l.keys ++ r.keys

/-- The formula that a circuit computes. -/
def formula : Circuit → Formula
  | .block _ f => f
  | .join op l r => l.formula.combine op r.formula

/-- The branches of a circuit that leaves to `onTrue` when it holds and to `onFalse` otherwise. -/
def entries : Circuit → Nat → Nat → List (Nat × Content)
  | .block key f, onTrue, onFalse => [(key, .branch ⟨f, onTrue, onFalse⟩)]
  | .join op l r, onTrue, onFalse =>
    l.entries (op.whenTrue r.first onTrue) (op.whenFalse r.first onFalse)
      ++ r.entries onTrue onFalse

/-- No join has a join with the same connective on its left. -/
def IsRightNested : Circuit → Prop
  | .block _ _ => True
  | .join op l r => (∀ x y, l ≠ .join op x y) ∧ l.IsRightNested ∧ r.IsRightNested

theorem entries_join (op : Connective) (l r : Circuit) (a b : Nat) :
    (join op l r).entries a b =
      l.entries (op.whenTrue r.first a) (op.whenFalse r.first b) ++ r.entries a b := rfl

@[simp]
theorem map_entries (d : Circuit) (a b : Nat) : (d.entries a b).map (·.1) = d.keys := by
  induction d generalizing a b with
  | block key f => rfl
  | join op l r hl hr => simp [entries, keys, hl, hr]

theorem first_mem_keys (d : Circuit) : d.first ∈ d.keys := by
  induction d with
  | block key f => simp [first, keys]
  | join op l r hl hr => simp [first, keys, hl]

theorem mem_keys_of_mem_entries {d : Circuit} {a b k : Nat} {c : Content}
    (h : (k, c) ∈ d.entries a b) : k ∈ d.keys := by
  rw [← d.map_entries a b]
  exact List.mem_map_of_mem h

/-- The entries of a circuit are branches that lead to its blocks or to its exits. -/
theorem branch_of_mem_entries {d : Circuit} {a b k : Nat} {c : Content}
    (h : (k, c) ∈ d.entries a b) :
    ∃ br, c = .branch br ∧ ∀ o, br.next o ∈ d.keys ∨ br.next o = a ∨ br.next o = b := by
  induction d generalizing a b with
  | block key f =>
    obtain ⟨-, rfl⟩ := Prod.mk.inj (List.mem_singleton.1 h)
    refine ⟨_, rfl, fun o => ?_⟩
    cases o <;> simp
  | join op l r hl hr =>
    rcases List.mem_append.1 h with h | h
    · obtain ⟨br, rfl, hbr⟩ := hl h
      refine ⟨br, rfl, fun o => ?_⟩
      have hfirst : r.first ∈ (join op l r).keys := List.mem_append_right _ r.first_mem_keys
      rcases hbr o with h | h | h
      · exact .inl (List.mem_append_left _ h)
      · cases op with
        | and => exact .inl (h ▸ hfirst)
        | or => exact .inr (.inl h)
      · cases op with
        | and => exact .inr (.inr h)
        | or => exact .inl (h ▸ hfirst)
    · obtain ⟨br, rfl, hbr⟩ := hr h
      refine ⟨br, rfl, fun o => ?_⟩
      rcases hbr o with h | h | h
      · exact .inl (by simp [keys, h])
      · exact .inr (.inl h)
      · exact .inr (.inr h)

/-- The last block of a circuit leads to both exits. -/
theorem exists_last (d : Circuit) (a b : Nat) :
    ∃ k f, (k, .branch ⟨f, a, b⟩) ∈ d.entries a b := by
  induction d generalizing a b with
  | block key f => exact ⟨key, f, by simp [entries]⟩
  | join op l r hl hr =>
    obtain ⟨k, f, h⟩ := hr a b
    exact ⟨k, f, List.mem_append_right _ h⟩

/-! ## Right nesting -/

/-- Joins a circuit to the left of another; the joins on its right spine with the same connective
are opened. -/
def prepend (op : Connective) : Circuit → Circuit → Circuit
  | .block key f, r => .join op (.block key f) r
  | .join op' x y, r =>
    if op' = op then .join op x (prepend op y r) else .join op (.join op' x y) r

/-- Moves joins with the same connective from the left to the right. -/
def rightNest : Circuit → Circuit
  | .block key f => .block key f
  | .join op l r => prepend op l.rightNest r.rightNest

theorem first_prepend (op : Connective) (l r : Circuit) : (prepend op l r).first = l.first := by
  cases l with
  | block key f => rfl
  | join op' x y =>
    unfold prepend
    split_ifs <;> rfl

theorem isRightNested_prepend {op : Connective} {l r : Circuit} (hl : l.IsRightNested)
    (hr : r.IsRightNested) : (prepend op l r).IsRightNested := by
  induction l with
  | block key f => exact ⟨by simp, trivial, hr⟩
  | join op' x y hx hy =>
    unfold prepend
    split_ifs with h
    · subst h
      exact ⟨hl.1, hl.2.1, hy hl.2.2⟩
    · refine ⟨?_, hl, hr⟩
      rintro u w ⟨⟩
      exact h rfl

theorem isRightNested_rightNest (d : Circuit) : d.rightNest.IsRightNested := by
  induction d with
  | block key f => trivial
  | join op l r hl hr => exact isRightNested_prepend hl hr

/-- Moving a join does not change the branches. -/
theorem entries_prepend (op : Connective) (l r : Circuit) (a b : Nat) :
    (prepend op l r).entries a b = (join op l r).entries a b := by
  induction l with
  | block key f => rfl
  | join op' x y hx hy =>
    unfold prepend
    split_ifs with h
    · subst h
      cases op' <;> simp [entries, hy, first_prepend, Connective.whenTrue, Connective.whenFalse]
    · rfl

theorem first_rightNest (d : Circuit) : d.rightNest.first = d.first := by
  induction d with
  | block key f => rfl
  | join op l r hl hr => rw [rightNest, first_prepend, hl, first]

theorem entries_rightNest (d : Circuit) (a b : Nat) : d.rightNest.entries a b = d.entries a b := by
  induction d generalizing a b with
  | block key f => rfl
  | join op l r hl hr => rw [rightNest, entries_prepend, entries, entries, hl, hr, first_rightNest]

/-- A run of equal connectives renders the same however it is nested. -/
theorem render_formula_prepend (op : Connective) (l r : Circuit) :
    (prepend op l r).formula.render = (join op l r).formula.render ∧
      (prepend op l r).formula.connective? = some op := by
  induction l with
  | block key f => exact ⟨rfl, rfl⟩
  | join op' x y hx hy =>
    unfold prepend
    split_ifs with h
    · subst h
      refine ⟨?_, rfl⟩
      have hright := Formula.needsBrackets_of_connective? hy.2
      have hleft : (x.formula.combine op' y.formula).needsBrackets op' = false :=
        Formula.needsBrackets_of_connective? rfl
      show (x.formula.combine op' (prepend op' y r).formula).render =
        ((x.formula.combine op' y.formula).combine op' r.formula).render
      rw [Formula.render_combine, hright, Formula.bracket_false, hy.1, formula,
        Formula.render_combine, Formula.render_combine _ _ r.formula, hleft,
        Formula.bracket_false, Formula.render_combine]
      simp only [String.append_assoc]
    · exact ⟨rfl, rfl⟩

theorem render_formula_rightNest (d : Circuit) :
    d.rightNest.formula.render = d.formula.render ∧
      d.rightNest.formula.connective? = d.formula.connective? := by
  induction d with
  | block key f => exact ⟨rfl, rfl⟩
  | join op l r hl hr =>
    obtain ⟨hrender, hconnective⟩ := render_formula_prepend op l.rightNest r.rightNest
    refine ⟨?_, hconnective⟩
    rw [rightNest, hrender, formula, formula, Formula.render_combine, Formula.render_combine]
    simp only [Formula.needsBrackets, hl, hr]

/-! ## Contraction -/

/-- Merges the last two blocks that can be merged. -/
def contract : Circuit → Circuit
  | .block key f => .block key f
  | .join op l (.join op' x y) => .join op l (contract (.join op' x y))
  | .join op (.block key f) (.block _ g) => .block key (f.combine op g)
  | .join op (.join op' x y) (.block key g) => .join op (contract (.join op' x y)) (.block key g)

theorem formula_contract (d : Circuit) : d.contract.formula = d.formula := by
  fun_induction contract d with
  | case1 => rfl
  | case2 op l op' x y ih =>
    rw [formula, ih]
    rfl
  | case3 => rfl
  | case4 op op' x y key g ih =>
    rw [formula, ih]
    rfl

theorem first_contract (d : Circuit) : d.contract.first = d.first := by
  fun_induction contract d with
  | case1 => rfl
  | case2 => rfl
  | case3 => rfl
  | case4 op op' x y key g ih => exact ih

theorem length_contract (op : Connective) (l r : Circuit) :
    (join op l r).contract.keys.length + 1 = (join op l r).keys.length := by
  generalize hd : join op l r = d
  fun_induction contract d generalizing op l r with
  | case1 => cases hd
  | case2 op₁ l₁ op' x y ih =>
    have := ih _ _ _ rfl
    simp only [keys, List.length_append] at this ⊢
    omega
  | case3 => simp [keys]
  | case4 op₁ op' x y key g ih =>
    have := ih _ _ _ rfl
    simp only [keys, List.length_append, List.length_singleton] at this ⊢
    omega

/-- A join contracts to a block or to a join with the same connective. -/
theorem contract_join_ne {op op' : Connective} (h : op' ≠ op) (x y u w : Circuit) :
    (join op' x y).contract ≠ .join op u w := by
  rcases x with _ | _ <;> rcases y with _ | _ <;> simp [contract, h]

theorem isRightNested_contract {d : Circuit} (h : d.IsRightNested) :
    d.contract.IsRightNested := by
  fun_induction contract d with
  | case1 => trivial
  | case2 op l op' x y ih => exact ⟨h.1, h.2.1, ih h.2.2⟩
  | case3 => trivial
  | case4 op op' x y key g ih =>
    have hne : op' ≠ op := by
      rintro rfl
      exact h.1 x y rfl
    exact ⟨fun u w => contract_join_ne hne x y u w, ih h.2.1, trivial⟩

end Circuit

end ShortCircuit
