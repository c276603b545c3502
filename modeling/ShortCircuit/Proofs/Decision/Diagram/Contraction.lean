import ShortCircuit.Proofs.Decision.Diagram.Basic
import ShortCircuit.Proofs.Decision.Folding

/-!
# Contraction of diagrams

Two tests are merged when they share a successor on the same side, so a plain test is not merged
with a negated one. Beside this, a test at the end of a diagram is absorbed by the one before it,
whatever their signs. Both make a smaller diagram out of a diagram.

* `Diagram.Within`: a diagram stands in a table, between two exits.
* `Diagram.Contracts`: one diagram becomes another when a key is folded into another key. It has the
  same value, and its left parts are uniform if those of the first diagram are.
* `Diagram.Place.IsIn`: a test and what follows it, somewhere in a diagram.
  `Diagram.Within.exists_place`: a key with a single parent stands right after it.
* `Diagram.contracts_of_merge`, `Diagram.contracts_of_absorb`: what is folded there is contracted.
-/

namespace ShortCircuit

/-! ## Tests before a join -/

namespace Diagram

/-- The test before a join goes on to it on the side of the connective. -/
theorem sideOf?_branch (op : Connective) (f : Formula) (negated : Bool) {n x y : Nat}
    (h : op.exit x y ≠ n) :
    (branch f negated (op.whenTrue n x) (op.whenFalse n y)).sideOf? n =
      some (op.side negated) := by
  cases op <;> cases negated <;>
    simp_all [branch, Branch.sideOf?, Connective.whenTrue, Connective.whenFalse, Connective.exit,
      Connective.side]

/-- On the other side it leaves by the exit. -/
theorem other_branch (op : Connective) (f : Formula) (negated : Bool) (n x y : Nat) :
    (branch f negated (op.whenTrue n x) (op.whenFalse n y)).other (op.side negated) =
      op.exit x y := by
  cases op <;> cases negated <;> rfl

theorem connective_side (op : Connective) (negated : Bool) :
    (op.side negated).connective = Formula.shown op negated := by
  cases op <;> cases negated <;> rfl

/-- On that other side it is the connective's own exit, so tests of the same sign agree there. -/
theorem next_not_side (op : Connective) (f : Formula) (negated negated' : Bool) (x y : Nat) :
    (branch f negated' x y).next (!(op.side negated).outcome) =
      if negated' = negated then op.exit x y else op.dual.exit x y := by
  cases op <;> cases negated <;> cases negated' <;> rfl

theorem mk_branch (f g : Formula) (negated : Bool) (x y : Nat) :
    (⟨g, (branch f negated x y).onTrue, (branch f negated x y).onFalse⟩ : Branch) =
      branch g negated x y := by
  cases negated <;> rfl

theorem exit_dual_ne (op : Connective) {x y : Nat} (h : x ≠ y) :
    op.dual.exit x y ≠ op.exit x y := by
  cases op with
  | and => exact h
  | or => exact h.symm

/-- Inside joins with different connectives, the true exit is the first test of one of the right
parts. -/
theorem whenTrue_of_ne {op op' : Connective} (h : op ≠ op') (n n' x : Nat) :
    op.whenTrue n (op'.whenTrue n' x) = n ∨ op.whenTrue n (op'.whenTrue n' x) = n' := by
  cases op with
  | and => exact .inl rfl
  | or =>
    cases op' with
    | and => exact .inr rfl
    | or => exact absurd rfl h

theorem whenFalse_of_ne {op op' : Connective} (h : op ≠ op') (n n' y : Nat) :
    op.whenFalse n (op'.whenFalse n' y) = n ∨ op.whenFalse n (op'.whenFalse n' y) = n' := by
  cases op with
  | or => exact .inl rfl
  | and =>
    cases op' with
    | or => exact .inr rfl
    | and => exact absurd rfl h

/-- A test before a join leaves by the exit of another connective only if the two are equal. -/
theorem eq_of_exit_eq {op op' : Connective} {negated negated' : Bool} {n x y : Nat} (h : x ≠ y)
    (hn : op.exit x y ≠ n)
    (hexit : (if negated' = negated then op.exit (op'.whenTrue n x) (op'.whenFalse n y)
      else op.dual.exit (op'.whenTrue n x) (op'.whenFalse n y)) = op.exit x y) :
    op' = op ∧ negated' = negated := by
  split_ifs at hexit with hsign
  · cases op <;> cases op' <;>
      simp_all [Connective.exit, Connective.whenTrue, Connective.whenFalse]
  · cases op <;> cases op' <;>
      simp_all [Connective.exit, Connective.dual, Connective.whenTrue, Connective.whenFalse]

/-- A test is merged with a test of the same sign after it. -/
theorem merge?_branch (op : Connective) (f g : Formula) (negated : Bool) (n x y : Nat) :
    (branch f negated (op.whenTrue n x) (op.whenFalse n y)).merge? (branch g negated x y)
      (op.side negated) = some (branch (f.combine (Formula.shown op negated) g) negated x y) := by
  rw [Branch.merge?_eq_some_iff, other_branch, next_not_side, if_pos rfl, statement_branch,
    statement_branch, connective_side, mk_branch]
  exact ⟨rfl, rfl⟩

/-- A test between two exits leads to both. -/
theorem edge_onTrue {t : Table} {k : Nat} {f : Formula} {negated : Bool} {x y : Nat}
    (h : t.content? k = some (.branch (branch f negated x y))) : t.Edge k x :=
  ⟨_, !negated, h, by rw [next_branch, Bool.not_xor_self, if_pos rfl]⟩

theorem edge_onFalse {t : Table} {k : Nat} {f : Formula} {negated : Bool} {x y : Nat}
    (h : t.content? k = some (.branch (branch f negated x y))) : t.Edge k y :=
  ⟨_, negated, h, by rw [next_branch, Bool.xor_self, if_neg Bool.false_ne_true]⟩

theorem merge?_branch_of_ne {op : Connective} {f g : Formula} {negated negated' : Bool}
    {n x y : Nat} (h : x ≠ y) (hne : negated' ≠ negated) :
    (branch f negated (op.whenTrue n x) (op.whenFalse n y)).merge? (branch g negated' x y)
      (op.side negated) = none := by
  refine Option.eq_none_iff_forall_ne_some.2 fun m hm => ?_
  obtain ⟨hshared, -⟩ := Branch.merge?_eq_some_iff.1 hm
  rw [other_branch, next_not_side, if_neg hne] at hshared
  exact exit_dual_ne op h hshared

/-! ## Diagrams inside a table -/

/-- A diagram stands in a table: its exits are none of its tests, and edges from outside enter at
its first test. -/
structure Within (d : Diagram) (t : Table) (x y : Nat) : Prop where
  content : ∀ {k : Nat} {c : Content}, (k, c) ∈ d.entries x y → t.content? k = some c
  nodup : d.keys.Nodup
  onTrue : x ∉ d.keys
  onFalse : y ∉ d.keys
  exits : x ≠ y
  enter : ∀ {z k : Nat}, t.Edge z k → z ∉ d.keys → k ∈ d.keys → k = d.first

section Within

variable {d l r : Diagram} {op : Connective} {t : Table} {x y : Nat}

/-- An edge from a test is one of its branch in the diagram. -/
theorem Within.exists_of_edge (h : d.Within t x y) {z k : Nat} (he : t.Edge z k)
    (hz : z ∈ d.keys) : ∃ br o, (z, .branch br) ∈ d.entries x y ∧ br.next o = k := by
  obtain ⟨c, hc⟩ := exists_mem_entries hz x y
  obtain ⟨br, o, hbr, rfl⟩ := he
  cases (h.content hc).symm.trans hbr
  exact ⟨br, o, hc, rfl⟩

/-- The edges of a test lead to tests of the diagram or to its exits. -/
theorem Within.mem_of_edge (h : d.Within t x y) {z k : Nat} (he : t.Edge z k) (hz : z ∈ d.keys) :
    k ∈ d.keys ∨ k = x ∨ k = y := by
  obtain ⟨br, o, hbr, rfl⟩ := h.exists_of_edge he hz
  exact next_mem_of_mem_entries hbr o

theorem Within.isTest (h : d.Within t x y) {k : Nat} (hk : k ∈ d.keys) : t.IsTest k := by
  obtain ⟨c, hc⟩ := exists_mem_entries hk x y
  exact ⟨c, h.content hc, ne_leaf_of_mem_entries hc⟩

/-- No edge inside a diagram leads back, neither to its own source nor to the first test. -/
theorem Within.ne_of_edge (h : d.Within t x y) {z k : Nat} (he : t.Edge z k) (hz : z ∈ d.keys) :
    k ≠ z ∧ k ≠ d.first := by
  obtain ⟨br, o, hbr, rfl⟩ := h.exists_of_edge he hz
  obtain ⟨before, after, hkeys, hnext⟩ := exists_keys_eq_of_mem_entries hbr
  obtain ⟨rest, hrest⟩ := d.exists_keys_eq_cons
  have hnodup := h.nodup
  have hlater : br.next o ∈ after → br.next o ≠ z ∧ br.next o ≠ d.first := by
    intro hmem
    refine ⟨?_, ?_⟩
    · rintro heq
      rw [hkeys] at hnodup
      exact (List.nodup_cons.1 hnodup.of_append_right).1 (heq ▸ hmem)
    · rintro heq
      have hafter : br.next o ∈ rest := by
        rw [hrest] at hkeys
        cases before with
        | nil => exact (List.cons.inj hkeys).2 ▸ hmem
        | cons k before =>
          rw [(List.cons.inj hkeys).2]
          exact List.mem_append_right _ (List.mem_cons_of_mem z hmem)
      rw [hrest] at hnodup
      exact (List.nodup_cons.1 hnodup).1 (heq ▸ hafter)
  rcases hnext o with hk | hk | hk
  · exact hlater hk
  · exact hk ▸ ⟨fun heq => h.onTrue (heq ▸ hz), fun heq => h.onTrue (heq ▸ d.first_mem_keys)⟩
  · exact hk ▸ ⟨fun heq => h.onFalse (heq ▸ hz), fun heq => h.onFalse (heq ▸ d.first_mem_keys)⟩

theorem Within.disjoint (h : (join op l r).Within t x y) {k : Nat} (hl : k ∈ l.keys)
    (hr : k ∈ r.keys) : False :=
  (List.disjoint_of_nodup_append h.nodup) hl hr

theorem Within.exit_notMem (h : d.Within t x y) (op : Connective) : op.exit x y ∉ d.keys := by
  cases op with
  | and => exact h.onFalse
  | or => exact h.onTrue

/-- The left part of a join stands in the table, with the first test of the right part as an
exit. -/
theorem Within.left (h : (join op l r).Within t x y) :
    l.Within t (op.whenTrue r.first x) (op.whenFalse r.first y) := by
  have hfirst : r.first ∉ l.keys := fun hl => h.disjoint hl r.first_mem_keys
  have hx : x ∉ l.keys := fun hl => h.onTrue (List.mem_append_left _ hl)
  have hy : y ∉ l.keys := fun hl => h.onFalse (List.mem_append_left _ hl)
  have hxr : x ≠ r.first := fun he => h.onTrue (List.mem_append_right _ (he ▸ r.first_mem_keys))
  have hyr : y ≠ r.first := fun he => h.onFalse (List.mem_append_right _ (he ▸ r.first_mem_keys))
  refine ⟨fun hk => h.content (List.mem_append_left _ hk), h.nodup.of_append_left, ?_, ?_, ?_, ?_⟩
  · cases op
    · exact hfirst
    · exact hx
  · cases op
    · exact hy
    · exact hfirst
  · cases op
    · exact hyr.symm
    · exact hxr
  · intro z k he hz hk
    have hkd : k ∈ (join op l r).keys := List.mem_append_left _ hk
    by_cases hzd : z ∈ (join op l r).keys
    · -- The edges of the right part stay in it or leave by the exits.
      have hzr : z ∈ r.keys := (List.mem_append.1 hzd).resolve_left hz
      obtain ⟨br, o, hbr, rfl⟩ := h.exists_of_edge he hzd
      have hbr : (z, .branch br) ∈ r.entries x y :=
        (List.mem_append.1 hbr).resolve_left fun hl => hz (mem_keys_of_mem_entries hl)
      rcases next_mem_of_mem_entries hbr o with hkr | hk' | hk'
      · exact absurd hkr fun hkr => h.disjoint hk hkr
      · exact absurd (hk' ▸ hkd) h.onTrue
      · exact absurd (hk' ▸ hkd) h.onFalse
    · exact h.enter he hzd hkd

/-- The right part of a join stands in the table with the same exits. -/
theorem Within.right (h : (join op l r).Within t x y) : r.Within t x y := by
  refine ⟨fun hk => h.content (List.mem_append_right _ hk), h.nodup.of_append_right,
    fun hr => h.onTrue (List.mem_append_right _ hr),
    fun hr => h.onFalse (List.mem_append_right _ hr), h.exits, ?_⟩
  intro z k he hz hk
  have hkd : k ∈ (join op l r).keys := List.mem_append_right _ hk
  by_cases hzl : z ∈ l.keys
  · -- The left part leads to the right part only as one of its exits.
    rcases h.left.mem_of_edge he hzl with hkl | hk' | hk'
    · exact absurd hk fun hk => h.disjoint hkl hk
    · cases op with
      | and => exact hk'
      | or =>
        have hk' : k = x := hk'
        exact absurd (hk' ▸ hkd) h.onTrue
    · cases op with
      | and =>
        have hk' : k = y := hk'
        exact absurd (hk' ▸ hkd) h.onFalse
      | or => exact hk'
  · have hfirst := h.enter he (by simp [keys, hzl, hz]) hkd
    exact absurd hk fun hk => h.disjoint (hfirst ▸ l.first_mem_keys) hk

end Within

/-! ## Contraction -/

/-- Between the exits, the second diagram has the nodes of the first but for one key that is gone
and another that has a new content. It has the same value, and the same left parts are uniform. -/
structure Contracts (final : Bool) (p n : Nat) (c : Content) (x y : Nat) (d d' : Diagram) :
    Prop where
  entries : ∀ {k : Nat} {e : Content}, (k, e) ∈ d'.entries x y ↔
    (k = p ∧ e = c) ∨ k ≠ p ∧ k ≠ n ∧ (k, e) ∈ d.entries x y
  sublist : d'.keys.Sublist d.keys
  first : d'.first = d.first
  nested : d'.IsNested final
  join : ∀ {op : Connective} {u w : Diagram}, d' = .join op u w → ∃ u' w', d = .join op u' w'
  uniform : ∀ negated, d'.Uniform negated ↔ d.Uniform negated
  foldable : d'.IsFoldable ↔ d.IsFoldable
  eval : ∀ v, d'.eval v = d.eval v

section Contracts

variable {final : Bool} {p n : Nat} {c : Content} {x y : Nat} {op : Connective}
  {l l' r r' : Diagram}

/-- A part of a join that a contraction does not touch keeps its nodes. -/
theorem mem_entries_iff_of_notMem {d : Diagram} (hp : p ∉ d.keys) (hn : n ∉ d.keys) {k : Nat}
    {e : Content} : (k, e) ∈ d.entries x y ↔ k ≠ p ∧ k ≠ n ∧ (k, e) ∈ d.entries x y := by
  refine ⟨fun h => ?_, fun h => h.2.2⟩
  have hk := mem_keys_of_mem_entries h
  exact ⟨fun heq => hp (heq ▸ hk), fun heq => hn (heq ▸ hk), h⟩

/-- Contraction inside the left part of a join. -/
theorem Contracts.left
    (h : Contracts false p n c (op.whenTrue r.first x) (op.whenFalse r.first y) l l')
    (hnested : (Diagram.join op l r).IsNested final) (hp : p ∉ r.keys) (hn : n ∉ r.keys) :
    Contracts final p n c x y (.join op l r) (.join op l' r) := by
  refine ⟨?_, h.sublist.append_right _, h.first, ?_, ?_, ?_, ?_, ?_⟩
  · intro k e
    rw [entries_join, List.mem_append, h.entries, mem_entries_iff_of_notMem hp hn, entries_join,
      List.mem_append]
    tauto
  · refine ⟨fun u w hl' => ?_, h.nested, hnested.2.2⟩
    obtain ⟨u', w', hl⟩ := h.join hl'
    exact hnested.1 u' w' hl
  · rintro op' u w ⟨⟩
    exact ⟨_, _, rfl⟩
  · exact fun negated => and_congr_left' (h.uniform negated)
  · exact and_congr_left' (exists_congr h.uniform)
  · exact fun v => congrArg (op.apply · (r.eval v)) (h.eval v)

/-- Contraction inside the right part of a join. -/
theorem Contracts.right (h : Contracts final p n c x y r r')
    (hnested : (Diagram.join op l r).IsNested final) (hp : p ∉ l.keys) (hn : n ∉ l.keys) :
    Contracts final p n c x y (.join op l r) (.join op l r') := by
  refine ⟨?_, h.sublist.append_left _, rfl, ⟨hnested.1, hnested.2.1, h.nested⟩, ?_, ?_, ?_, ?_⟩
  · intro k e
    rw [entries_join, List.mem_append, h.entries, h.first, mem_entries_iff_of_notMem hp hn,
      entries_join, List.mem_append]
    tauto
  · rintro op' u w ⟨⟩
    exact ⟨_, _, rfl⟩
  · exact fun negated => and_congr_right' (h.uniform negated)
  · exact and_congr_right' h.foldable
  · exact fun v => congrArg (op.apply (l.eval v)) (h.eval v)

end Contracts

/-! ## The place of a fold -/

/-- The first test of a right part after a join with the other connective has two parents. -/
theorem Within.exists_edges {op op' : Connective} {u w r : Diagram} {t : Table} {x y : Nat}
    (h : (join op (join op' u w) r).Within t x y) (hu : u.IsNested false) (hw : w.IsNested false)
    (hne : op' ≠ op) : ∃ k k', k ≠ k' ∧ t.Edge k r.first ∧ t.Edge k' r.first := by
  obtain ⟨k, f, negated, hk⟩ := exists_last hu
    (op'.whenTrue w.first (op.whenTrue r.first x)) (op'.whenFalse w.first (op.whenFalse r.first y))
  obtain ⟨k', f', negated', hk'⟩ := exists_last hw (op.whenTrue r.first x) (op.whenFalse r.first y)
  have hdistinct : k ≠ k' := by
    rintro rfl
    exact h.left.disjoint (mem_keys_of_mem_entries hk) (mem_keys_of_mem_entries hk')
  refine ⟨k, k', hdistinct, ⟨_, (op.side negated).outcome, h.left.left.content hk, ?_⟩,
    ⟨_, (op.side negated').outcome, h.left.right.content hk', ?_⟩⟩
  · cases op with
    | and =>
      cases op' with
      | and => exact absurd rfl hne
      | or => cases negated <;> rfl
    | or =>
      cases op' with
      | and => cases negated <;> rfl
      | or => exact absurd rfl hne
  · cases op <;> cases negated' <;> rfl

/-- A test and what follows it, in a join that stands between two exits. -/
structure Place where
  op : Connective
  statement : Formula
  negated : Bool
  rest : Diagram
  final : Bool
  onTrue : Nat
  onFalse : Nat

/-- The join at a place, with the key of its test. -/
def Place.diagram (s : Place) (p : Nat) : Diagram :=
  join s.op (test p s.statement s.negated) s.rest

/-- In a diagram between `x` and `y`, the place has its test at `p` and goes on at `n`. What is
contracted there is contracted in the whole diagram, and its exits are those of the whole diagram or
tests. -/
structure Place.IsIn (s : Place) (final : Bool) (d : Diagram) (t : Table) (x y p n : Nat) :
    Prop where
  first : s.rest.first = n
  within : (s.diagram p).Within t s.onTrue s.onFalse
  nested : (s.diagram p).IsNested s.final
  inner : s.final = false → t.IsTest s.onTrue ∨ t.IsTest s.onFalse
  onTrue : s.onTrue = x ∨ t.IsTest s.onTrue
  onFalse : s.onFalse = y ∨ t.IsTest s.onFalse
  contracts : ∀ {c : Content} {e : Diagram},
    Contracts s.final p n c s.onTrue s.onFalse (s.diagram p) e →
      ∃ d', Contracts final p n c x y d d'

section Place

variable {final : Bool} {op : Connective} {l r : Diagram} {t : Table} {x y p n : Nat} {s : Place}

/-- A place in the left part of a join, where one exit is the first test of the right part. -/
theorem Place.IsIn.left
    (hs : s.IsIn false l t (op.whenTrue r.first x) (op.whenFalse r.first y) p n)
    (h : (join op l r).Within t x y) (hd : (join op l r).IsNested final) (hp : p ∈ l.keys)
    (hn : n ∈ l.keys) : s.IsIn final (join op l r) t x y p n := by
  have htest : t.IsTest r.first := h.right.isTest r.first_mem_keys
  refine ⟨hs.first, hs.within, hs.nested, hs.inner, ?_, ?_, fun hc => ?_⟩
  · rcases hs.onTrue with hx | hx
    · cases op with
      | and => exact .inr (hx ▸ htest)
      | or => exact .inl hx
    · exact .inr hx
  · rcases hs.onFalse with hy | hy
    · cases op with
      | and => exact .inl hy
      | or => exact .inr (hy ▸ htest)
    · exact .inr hy
  · obtain ⟨l', hl'⟩ := hs.contracts hc
    exact ⟨_, hl'.left hd (fun hpr => h.disjoint hp hpr) fun hnr => h.disjoint hn hnr⟩

/-- A place in the right part of a join. -/
theorem Place.IsIn.right (hs : s.IsIn final r t x y p n) (h : (join op l r).Within t x y)
    (hd : (join op l r).IsNested final) (hp : p ∈ r.keys) (hn : n ∉ l.keys) :
    s.IsIn final (join op l r) t x y p n := by
  refine ⟨hs.first, hs.within, hs.nested, hs.inner, hs.onTrue, hs.onFalse, fun hc => ?_⟩
  obtain ⟨r', hr'⟩ := hs.contracts hc
  exact ⟨_, hr'.right hd (fun hpl => h.disjoint hpl hp) hn⟩

/-- What stands before a right part that starts at a key with a single parent is this parent, for
two tests of a join lead to the right part. -/
theorem Within.exists_left_eq (h : (join op l r).Within t x y)
    (hd : (join op l r).IsNested final) (honly : ∀ a, t.Edge a r.first → a = p) :
    ∃ f negated, l = test p f negated := by
  cases l with
  | closed key f => cases hd.2.1
  | join op' u w =>
    have hne : op' ≠ op := by
      rintro rfl
      exact hd.1 u w rfl
    obtain ⟨k, k', hkk', hk, hk'⟩ := h.exists_edges hd.2.1.2.1 hd.2.1.2.2 hne
    exact absurd ((honly k hk).trans (honly k' hk').symm) hkk'
  | test key f negated =>
    have hedge : t.Edge key r.first :=
      ⟨_, (op.side negated).outcome, h.left.content (List.mem_singleton_self _), by
        cases op <;> cases negated <;> rfl⟩
    exact ⟨f, negated, by rw [honly key hedge]⟩

end Place

/-- A key with a single parent is the first test of a right part, and its parent is the test before
it. -/
theorem Within.exists_place {final : Bool} {d : Diagram} {t : Table} {x y p n : Nat}
    (h : d.Within t x y) (hd : d.IsNested final) (hexits : final = false → t.IsTest x ∨ t.IsTest y)
    (hn : n ∈ d.keys) (hfirst : n ≠ d.first) (hedge : t.Edge p n)
    (honly : ∀ a, t.Edge a n → a = p) :
    ∃ s : Place, s.IsIn final d t x y p n := by
  induction d generalizing final x y with
  | test key f negated => exact absurd (List.mem_singleton.1 hn) hfirst
  | closed key f => exact absurd (List.mem_singleton.1 hn) hfirst
  | join op l r hl hr =>
    by_cases hnl : n ∈ l.keys
    · have hp : p ∈ l.keys := by
        by_contra hp
        exact hfirst (h.left.enter hedge hp hnl)
      have htest : t.IsTest r.first := h.right.isTest r.first_mem_keys
      have hleft : t.IsTest (op.whenTrue r.first x) ∨ t.IsTest (op.whenFalse r.first y) := by
        cases op with
        | and => exact .inl htest
        | or => exact .inr htest
      obtain ⟨s, hs⟩ := hl h.left hd.2.1 (fun _ => hleft) hnl hfirst
      exact ⟨s, hs.left h hd hp hnl⟩
    · have hnr : n ∈ r.keys := (List.mem_append.1 hn).resolve_left hnl
      by_cases heq : n = r.first
      · subst heq
        obtain ⟨f, negated, rfl⟩ := h.exists_left_eq hd honly
        exact ⟨⟨op, f, negated, r, final, x, y⟩, rfl, h, hd, hexits, .inl rfl, .inl rfl,
          fun hc => ⟨_, hc⟩⟩
      · have hp : p ∈ r.keys := by
          by_contra hp
          exact heq (h.right.enter hedge hp hnr)
        obtain ⟨s, hs⟩ := hr h.right hd.2.2 hexits hnr heq
        exact ⟨s, hs.right h hd hp hnl⟩

/-! ## Contraction of two tests -/

theorem adds_of_decided? {t : Table} {b : Branch} {e : Formula} (h : t.decided? b = some e) :
    t.adds (.branch b) = .formula e := by
  simp only [Table.adds, Table.contribution, h]

theorem exists_decided {t : Table} {f g : Formula} {negated : Bool} {op : Connective} {b : Branch}
    (h : Table.joined f negated op (t.adds (.branch b)) = some g) :
    ∃ e, t.decided? b = some e ∧ t.adds (.branch b) = .formula e := by
  cases hdecided : t.decided? b with
  | none =>
    simp only [Table.adds, Table.contribution, hdecided] at h
    cases h
  | some e => exact ⟨e, rfl, adds_of_decided? hdecided⟩

theorem not_isTest_of_leaf {t : Table} {k : Nat} {x : LeafValue}
    (h : t.content? k = some (.leaf x)) : ¬t.IsTest k := by
  rintro ⟨c, hc, hleaf⟩
  exact hleaf x (Option.some.inj (hc.symm.trans h))

section Pair

variable {final : Bool} {op : Connective} {p : Nat} {f : Formula} {negated : Bool} {r : Diagram}
  {t : Table} {x y : Nat}

/-- A test between the leaves stands for its statement. -/
theorem decided?_branch (hx : t.content? x = some (.leaf (.bool true)))
    (hy : t.content? y = some (.leaf (.bool false))) :
    t.decided? (branch f negated x y) = some (if negated then f.negate else f) := by
  cases negated <;>
    simp [Table.decided?, branch, Table.bool?_of_content? hx, Table.bool?_of_content? hy]

/-- A decided test stands between leaves. -/
theorem leaves_of_decided? (htrue : ∀ {v}, t.content? x = some (.leaf v) → v = .bool true)
    (hfalse : ∀ {v}, t.content? y = some (.leaf v) → v = .bool false) {g : Formula}
    (h : t.decided? (branch f negated x y) = some g) :
    t.content? x = some (.leaf (.bool true)) ∧ t.content? y = some (.leaf (.bool false)) := by
  obtain ⟨b, hb, -⟩ := Table.decided?_spec h (fun _ => true) (!negated)
  obtain ⟨b', hb', -⟩ := Table.decided?_spec h (fun _ => true) negated
  rw [next_branch, Bool.not_xor_self, if_pos rfl] at hb
  rw [next_branch, Bool.xor_self, if_neg Bool.false_ne_true] at hb'
  have hx := Table.content?_of_bool? hb
  have hy := Table.content?_of_bool? hb'
  exact ⟨htrue hx ▸ hx, hfalse hy ▸ hy⟩

/-- Two tests of one sign as one test. -/
theorem eval_combine_shown (v : String → Bool) (op : Connective) (f g : Formula)
    (negated : Bool) : ((f.combine (Formula.shown op negated) g).eval v ^^ negated) =
      op.apply (f.eval v ^^ negated) (g.eval v ^^ negated) := by
  cases negated <;> cases op <;>
    simp [Formula.combine, Formula.eval, Formula.shown, Connective.dual, Connective.apply]

/-- Two tests of one sign at the end of a diagram become one test. -/
theorem contracts_pair {n : Nat} (g : Formula) :
    Contracts final p n
      (.branch (branch (f.combine (Formula.shown op negated) g) negated x y)) x y
      (join op (test p f negated) (test n g negated))
      (test p (f.combine (Formula.shown op negated) g) negated) := by
  refine ⟨?_, ?_, rfl, trivial, ?_, ?_, ?_, ?_⟩
  · intro k e
    simp only [entries, List.mem_append, List.mem_singleton, Prod.mk.injEq]
    tauto
  · exact List.sublist_append_left [p] [n]
  · rintro op' u w ⟨⟩
  · exact fun s => (and_self_iff (a := negated = s)).symm
  · exact iff_of_true trivial ⟨⟨negated, rfl⟩, trivial⟩
  · exact fun v => eval_combine_shown v op f g negated

/-- Two neighbouring tests of one sign in a chain of one connective become one test. -/
theorem contracts_chain {n : Nat} (g : Formula) (hr : r.IsNested final) (hp : p ∉ r.keys)
    (hn : n ∉ r.keys) :
    Contracts final p n
      (.branch (branch (f.combine (Formula.shown op negated) g) negated
        (op.whenTrue r.first x) (op.whenFalse r.first y))) x y
      (join op (test p f negated) (join op (test n g negated) r))
      (join op (test p (f.combine (Formula.shown op negated) g) negated) r) := by
  refine ⟨?_, ?_, rfl, ⟨by simp, trivial, hr⟩, ?_, ?_, ?_, ?_⟩
  · intro k e
    have hrest := mem_entries_iff_of_notMem hp hn (x := x) (y := y) (k := k) (e := e)
    simp only [entries, List.mem_append, List.mem_singleton, Prod.mk.injEq]
    tauto
  · exact (List.sublist_cons_self n r.keys).cons_cons p
  · rintro op' u w ⟨⟩
    exact ⟨_, _, rfl⟩
  · intro s
    simp only [Uniform]
    tauto
  · have huniform : ∀ k g, ∃ s, (test k g negated).Uniform s := fun k g => ⟨negated, rfl⟩
    simp only [IsFoldable, huniform, true_and]
  · intro v
    simp only [eval, eval_combine_shown]
    cases op <;> simp [Connective.apply, Bool.and_assoc, Bool.or_assoc]

/-- A test that takes in a single test of another sign, or a closed one, is closed. -/
theorem contracts_closed {g : Formula} (hr : r.keys = [r.first]) (hfold : r.IsFoldable)
    (hmixed : ¬r.Uniform negated)
    (heval : ∀ v, g.eval v = op.apply (f.eval v ^^ negated) (r.eval v)) :
    Contracts true p r.first (.closed g) x y (join op (test p f negated) r) (closed p g) := by
  refine ⟨?_, ?_, rfl, rfl, ?_, ?_, ?_, heval⟩
  · intro k e
    have hkey : (k, e) ∈ r.entries x y → k = r.first := by
      intro he
      have hk := mem_keys_of_mem_entries he
      rw [hr] at hk
      exact List.mem_singleton.1 hk
    simp only [entries, List.mem_append, List.mem_singleton, Prod.mk.injEq]
    tauto
  · exact List.sublist_append_left [p] r.keys
  · rintro op' u w ⟨⟩
  · intro s
    refine iff_of_false id ?_
    rintro ⟨rfl, hs⟩
    exact hmixed hs
  · exact iff_of_true trivial ⟨⟨negated, rfl⟩, hfold⟩

section Folds

variable (h : (join op (test p f negated) r).Within t x y)
  (hd : (join op (test p f negated) r).IsNested final)

include h hd

/-- A merge contracts two tests of one sign in a chain of one connective. -/
theorem contracts_of_merge {b m : Branch} (hb : t.content? r.first = some (.branch b))
    (hm : (branch f negated (op.whenTrue r.first x) (op.whenFalse r.first y)).merge? b
      (op.side negated) = some m) :
    ∃ e, Contracts final p r.first (.branch m) x y (join op (test p f negated) r) e := by
  obtain ⟨hshared, rfl⟩ := Branch.merge?_eq_some_iff.1 hm
  rw [other_branch] at hshared
  rw [statement_branch, connective_side]
  have hexit := h.right.exit_notMem op
  cases r with
  | closed n g => cases (h.right.content (List.mem_singleton_self _)).symm.trans hb
  | test n g negated' =>
    cases (h.right.content (List.mem_singleton_self _)).symm.trans hb
    obtain rfl : negated' = negated := by
      by_contra hne
      cases (merge?_branch_of_ne h.exits hne).symm.trans hm
    rw [statement_branch, mk_branch]
    exact ⟨_, contracts_pair g⟩
  | join op' u w =>
    have hwr : w.first ∈ (join op' u w).keys := List.mem_append_right _ w.first_mem_keys
    have hw : op.exit x y ≠ w.first := fun heq => hexit (heq ▸ hwr)
    cases u with
    | closed n g => cases hd.2.2.2.1
    | test n g negated' =>
      cases (h.right.left.content (List.mem_singleton_self _)).symm.trans hb
      obtain ⟨rfl, rfl⟩ : op' = op ∧ negated' = negated := by
        rw [next_not_side] at hshared
        exact eq_of_exit_eq h.exits hw hshared
      rw [statement_branch, mk_branch]
      refine ⟨_, contracts_chain g hd.2.2.2.2 (fun hp => ?_) fun hn => ?_⟩
      · exact h.disjoint (List.mem_singleton_self p) (List.mem_append_right _ hp)
      · exact h.right.disjoint (List.mem_singleton_self n) hn
    | join op'' u' w' =>
      -- The first test of two nested joins leads to their parts only, not to the exit.
      have hne : op'' ≠ op' := by
        rintro rfl
        exact hd.2.2.1 u' w' rfl
      have hedge : t.Edge u'.first (op.exit x y) := ⟨b, !(op.side negated).outcome, hb, hshared⟩
      have hu' : op.exit x y ∉ u'.keys := fun hk => hexit (by simp [keys, hk])
      have hw' : op.exit x y ≠ w'.first := fun heq => hexit (by simp [keys, heq, first_mem_keys])
      rcases h.right.left.left.mem_of_edge hedge u'.first_mem_keys with hk | hk | hk
      · exact absurd hk hu'
      · rcases whenTrue_of_ne hne w'.first w.first x with hx | hx
        · exact absurd (hk.trans hx) hw'
        · exact absurd (hk.trans hx) hw
      · rcases whenFalse_of_ne hne w'.first w.first y with hy | hy
        · exact absurd (hk.trans hy) hw'
        · exact absurd (hk.trans hy) hw

/-- An absorption closes a test that takes in a single test at the end of the whole diagram. -/
theorem contracts_of_absorb (hinner : final = false → t.IsTest x ∨ t.IsTest y)
    (htrue : ∀ {v}, t.content? x = some (.leaf v) → v = .bool true)
    (hfalse : ∀ {v}, t.content? y = some (.leaf v) → v = .bool false)
    {c : Content} {value : LeafValue} {negated' : Bool} {op' : Connective} {g : Formula}
    (hc : t.content? r.first = some c)
    (hmerge : ∀ e, c = .branch e → (branch f negated (op.whenTrue r.first x)
      (op.whenFalse r.first y)).merge? e (op.side negated) = none)
    (hother : t.content? (op.exit x y) = some (.leaf value))
    (hab : value.absorption? (op.side negated) = some (negated', op'))
    (hg : Table.joined f negated' op' (t.adds c) = some g) :
    ∃ e, Contracts final p r.first (.closed g) x y (join op (test p f negated) r) e := by
  -- The leaf beyond the test says which negation and which connective are needed.
  obtain ⟨rfl, rfl⟩ : negated' = negated ∧ op' = op := by
    cases op with
    | and =>
      rw [hfalse hother] at hab
      cases negated <;> cases hab <;> exact ⟨rfl, rfl⟩
    | or =>
      rw [htrue hother] at hab
      cases negated <;> cases hab <;> exact ⟨rfl, rfl⟩
  cases r with
  | closed n e =>
    cases (h.right.content (List.mem_singleton_self _)).symm.trans hc
    obtain rfl : final = true := hd.2.2
    exact ⟨_, contracts_closed rfl trivial id fun v => Table.eval_joined_formula hg v⟩
  | test n e sign =>
    cases (h.right.content (List.mem_singleton_self _)).symm.trans hc
    obtain ⟨e', hdecided, hadds⟩ := exists_decided hg
    rw [hadds] at hg
    -- Both exits are leaves, so they are those of the whole diagram.
    obtain ⟨hx, hy⟩ := leaves_of_decided? htrue hfalse hdecided
    obtain rfl : final = true := by
      by_contra hfinal
      rcases hinner (Bool.eq_false_iff.mpr hfinal) with htest | htest
      · exact not_isTest_of_leaf hx htest
      · exact not_isTest_of_leaf hy htest
    have hmixed : ¬(test n e sign).Uniform negated' := by
      rintro rfl
      cases (merge?_branch op' f e sign n x y).symm.trans (hmerge _ rfl)
    refine ⟨_, contracts_closed rfl trivial hmixed fun v => ?_⟩
    obtain rfl := Option.some.inj (hdecided.symm.trans (decided?_branch hx hy))
    rw [Table.eval_joined_formula hg v, eval]
    cases sign <;> simp
  | join op'' u w =>
    obtain ⟨br, o, hbr, hnext⟩ := exists_first op'' hd.2.2.2.1 w x y
    cases (h.right.content hbr).symm.trans hc
    obtain ⟨e', hdecided, -⟩ := exists_decided hg
    obtain ⟨b, hb, -⟩ := Table.decided?_spec hdecided (fun _ => true) o
    exact absurd (h.right.isTest hnext) (not_isTest_of_leaf (Table.content?_of_bool? hb))

end Folds

end Pair

end Diagram

end ShortCircuit
