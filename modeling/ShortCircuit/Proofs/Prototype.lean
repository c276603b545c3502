import ShortCircuit.Prototype
import Mathlib.Tactic.Common
import Mathlib.Data.List.Basic

/-!
# The order of prototypes

A place in a tree of prototypes is the list of child indices on the way down. Places are ordered
as lists: a place comes before those below it, and those below one child before those below the
next. This is the depth-first order in which each tree precedes its parts.

* `PrototypeTree.IsPreorder t ps`: `ps` are the prototypes of `t`, one for each place, in the order
  of the places.
* `PrototypeTree.isPreorder_functions`: the listed functions of a tree are in this order.
-/

namespace ShortCircuit.PrototypeTree

/-- The tree at a place. -/
def at? (t : PrototypeTree) : List Nat → Option PrototypeTree
  | [] => some t
  | i :: place => t.children[i]?.bind fun child => child.at? place

/-- The list has the prototype at every place of the tree once, in the order of the places. -/
def IsPreorder (t : PrototypeTree) (ps : List Prototype) : Prop :=
  ∃ places : List (List Nat), places.Pairwise (· < ·) ∧
    (∀ place, place ∈ places ↔ (t.at? place).isSome) ∧
    ps.map some = places.map fun place => (t.at? place).map body

mutual

/-- All places of a tree in order. -/
def places : PrototypeTree → List (List Nat)
  | .node _ cs => [] :: placesFrom 0 cs

/-- The places below children that are numbered from `i` on. -/
def placesFrom (i : Nat) : List PrototypeTree → List (List Nat)
  | [] => []
  | t :: ts => t.places.map (i :: ·) ++ placesFrom (i + 1) ts

end

/-- A property of trees holds if it passes from the children to the whole. -/
theorem induction_children {motive : PrototypeTree → Prop}
    (node : ∀ p cs, (∀ c ∈ cs, motive c) → motive (.node p cs)) : ∀ t, motive t
  | .node p cs => node p cs fun c _ => induction_children node c

theorem mem_placesFrom {cs : List PrototypeTree}
    (h : ∀ c ∈ cs, ∀ place, place ∈ c.places ↔ (c.at? place).isSome) (i : Nat)
    (place : List Nat) :
    place ∈ placesFrom i cs ↔
      ∃ j rest c, place = (i + j) :: rest ∧ cs[j]? = some c ∧ (c.at? rest).isSome := by
  induction cs generalizing i with
  | nil => simp [placesFrom]
  | cons t ts ih =>
    have hts := ih (fun c hc => h c (List.mem_cons_of_mem t hc)) (i + 1)
    simp only [placesFrom, List.mem_append, List.mem_map, h t List.mem_cons_self, hts]
    constructor
    · rintro (⟨rest, hrest, rfl⟩ | ⟨j, rest, c, rfl, hc, hrest⟩)
      · exact ⟨0, rest, t, rfl, rfl, hrest⟩
      · exact ⟨j + 1, rest, c, by rw [Nat.add_right_comm, Nat.add_assoc], hc, hrest⟩
    · rintro ⟨j, rest, c, rfl, hc, hrest⟩
      cases j with
      | zero =>
        cases hc
        exact .inl ⟨rest, hrest, rfl⟩
      | succ j =>
        exact .inr ⟨j, rest, c, by rw [Nat.add_right_comm, Nat.add_assoc], hc, hrest⟩

/-- The listed places are those at which there is a tree. -/
theorem mem_places (t : PrototypeTree) : ∀ place, place ∈ t.places ↔ (t.at? place).isSome := by
  induction t using induction_children with
  | node p cs ih =>
    intro place
    rw [places, List.mem_cons, mem_placesFrom ih]
    cases place with
    | nil => simp [at?]
    | cons i rest =>
      simp only [reduceCtorEq, false_or, Nat.zero_add, List.cons.injEq, at?, children,
        Option.isSome_bind, Option.any_eq_true]
      constructor
      · rintro ⟨j, rest, c, ⟨rfl, rfl⟩, hc, hrest⟩
        exact ⟨c, hc, hrest⟩
      · rintro ⟨c, hc, hrest⟩
        exact ⟨i, rest, c, ⟨rfl, rfl⟩, hc, hrest⟩

theorem pairwise_placesFrom {cs : List PrototypeTree}
    (h : ∀ c ∈ cs, c.places.Pairwise (· < ·)) (i : Nat) :
    (placesFrom i cs).Pairwise (· < ·) := by
  induction cs generalizing i with
  | nil => exact List.Pairwise.nil
  | cons t ts ih =>
    have hts := ih (fun c hc => h c (List.mem_cons_of_mem t hc)) (i + 1)
    rw [placesFrom, List.pairwise_append]
    refine ⟨?_, hts, ?_⟩
    · refine List.Pairwise.map _ (fun a b hab => ?_) (h t List.mem_cons_self)
      exact List.cons_lt_cons_iff.2 (.inr ⟨rfl, hab⟩)
    · intro a ha b hb
      obtain ⟨rest, -, rfl⟩ := List.mem_map.1 ha
      obtain ⟨j, rest', -, rfl, -, -⟩ := (mem_placesFrom (fun c _ => mem_places c) (i + 1) b).1 hb
      exact List.cons_lt_cons_iff.2 (.inl (by omega))

theorem pairwise_places (t : PrototypeTree) : t.places.Pairwise (· < ·) := by
  induction t using induction_children with
  | node p cs ih =>
    rw [places, List.pairwise_cons]
    refine ⟨fun place hplace => ?_, pairwise_placesFrom ih 0⟩
    obtain ⟨j, rest, -, rfl, -, -⟩ := (mem_placesFrom (fun c _ => mem_places c) 0 place).1 hplace
    exact List.nil_lt_cons _ _

/-- The trees below the last children of a node, in the order of their places. -/
theorem map_some_subtreesOf (p : Prototype) {cs : List PrototypeTree}
    (h : ∀ c ∈ cs, c.subtrees.map some = c.places.map c.at?) (before : List PrototypeTree) :
    (subtreesOf cs).map some =
      (placesFrom before.length cs).map (PrototypeTree.node p (before ++ cs)).at? := by
  induction cs generalizing before with
  | nil => rfl
  | cons t ts ih =>
    have hts := ih (fun c hc => h c (List.mem_cons_of_mem t hc)) (before ++ [t])
    rw [List.length_append, List.length_singleton, List.append_assoc, List.singleton_append] at hts
    have hhere : ∀ place, (PrototypeTree.node p (before ++ t :: ts)).at? (before.length :: place) =
        t.at? place := by
      intro place
      rw [at?, children, List.getElem?_append_right (Nat.le_refl _), Nat.sub_self]
      rfl
    rw [subtreesOf, placesFrom, List.map_append, List.map_append, hts, h t List.mem_cons_self,
      List.map_map]
    congr 1
    exact List.map_congr_left fun place _ => (hhere place).symm

theorem map_some_subtrees (t : PrototypeTree) : t.subtrees.map some = t.places.map t.at? := by
  induction t using induction_children with
  | node p cs ih =>
    have hcs := map_some_subtreesOf p ih []
    rw [List.length_nil, List.nil_append] at hcs
    rw [subtrees, places, List.map_cons, List.map_cons, hcs]
    rfl

/-- The functions of a tree are listed in depth-first order, each before those inside it. -/
theorem isPreorder_functions (t : PrototypeTree) : t.IsPreorder t.functions := by
  refine ⟨t.places, pairwise_places t, mem_places t, ?_⟩
  have h := congrArg (List.map (Option.map body)) (map_some_subtrees t)
  rw [List.map_map, List.map_map] at h
  rw [functions, List.map_map]
  exact h

end ShortCircuit.PrototypeTree
