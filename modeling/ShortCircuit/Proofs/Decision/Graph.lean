import ShortCircuit.Decision.Fold
import Mathlib.Data.List.Nodup
import Mathlib.Logic.Relation
import Mathlib.Tactic.Common

/-!
# Decision tables as graphs

A table is read as a graph: `Table.content?` gives what stands at a key, `Table.Edge` relates a
branch to its two successors. The operations on tables are described through this view, so that
later proofs do not look at lists of nodes.

* `Table.get?_insert`, `Table.get?_erase`, `Table.get?_update`, `Table.get?_link` say what each
  operation does to the look-up.
* `Table.mem_parentsOf`: the parents that linking stores are the sources of edges.
* `Table.Covers`: no edge is missing from the stored parents. Linked tables have this property, and
  every operation of the reduction keeps it.
* `Table.content?_prune_of_supported`: pruning keeps every set of nodes in which each node other
  than the root has a predecessor in the set.
-/

namespace ShortCircuit

/-- The outcome of the test that leads along an edge. -/
def Side.outcome : Side → Bool
  | .onTrue => true
  | .onFalse => false

/-- The successor for an outcome of the test. -/
def Branch.next (b : Branch) (outcome : Bool) : Nat := if outcome then b.onTrue else b.onFalse

@[simp]
theorem Branch.next_true (b : Branch) : b.next true = b.onTrue := rfl

@[simp]
theorem Branch.next_false (b : Branch) : b.next false = b.onFalse := rfl

namespace Table

/-! ## Look-up -/

theorem eq_of_key_eq {t : Table} {m n : Node} (hm : m ∈ t.nodes) (hn : n ∈ t.nodes)
    (h : m.key = n.key) : m = n := by
  have hnodup : (t.nodes.map (·.key)).Nodup :=
    List.pairwise_map.2 (t.sorted.imp fun hlt => Nat.ne_of_lt hlt)
  exact List.inj_on_of_nodup_map hnodup hm hn h

theorem get?_eq_some_iff {t : Table} {key : Nat} {n : Node} :
    t.get? key = some n ↔ n ∈ t.nodes ∧ n.key = key := by
  constructor
  · exact mem_of_get?
  · rintro ⟨hn, rfl⟩
    cases hg : t.get? n.key with
    | none =>
      have := List.find?_eq_none.1 hg n hn
      simp at this
    | some m =>
      obtain ⟨hm, hk⟩ := mem_of_get? hg
      rw [eq_of_key_eq hm hn hk]

/-- What stands at a key. -/
def content? (t : Table) (key : Nat) : Option Content := (t.get? key).map (·.content)

theorem content?_of_mem {t : Table} {n : Node} (hn : n ∈ t.nodes) :
    t.content? n.key = some n.content := by
  simp [content?, get?_eq_some_iff.2 ⟨hn, rfl⟩]

theorem content?_eq_some_iff {t : Table} {key : Nat} {c : Content} :
    t.content? key = some c ↔ ∃ n ∈ t.nodes, n.key = key ∧ n.content = c := by
  simp only [content?, Option.map_eq_some_iff, get?_eq_some_iff, and_assoc]

theorem contains_iff {t : Table} {key : Nat} : t.contains key = true ↔ t.content? key ≠ none := by
  simp [contains, content?, Option.isSome_iff_ne_none]

theorem get?_filter (t : Table) (keep : Node → Bool) (key : Nat) :
    (t.filter keep).get? key = (t.get? key).filter keep := by
  ext n
  rw [Option.filter_eq_some_iff, get?_eq_some_iff, get?_eq_some_iff]
  simp only [filter, List.mem_filter]
  tauto

theorem get?_mapNodes (t : Table) (f : Node → Node) (h : ∀ n, (f n).key = n.key) (key : Nat) :
    (t.mapNodes f h).get? key = (t.get? key).map f := by
  simp only [get?, mapNodes, List.find?_map]
  congr 2
  funext n
  simp [h]

theorem get?_erase (t : Table) (key k : Nat) :
    (t.erase key).get? k = if k = key then none else t.get? k := by
  rw [erase, get?_filter]
  cases hg : t.get? k with
  | none => simp
  | some n =>
    have hk := (mem_of_get? hg).2
    by_cases h : k = key <;> simp [Option.filter, hk, h]

theorem get?_update (t : Table) (key : Nat) (content : Content) (assigns : Option UInt8) (k : Nat) :
    (t.update key content assigns).get? k =
      (t.get? k).map fun n => if n.key = key then { n with content, assigns } else n :=
  get?_mapNodes _ _ _ _

theorem get?_link (t : Table) (k : Nat) :
    t.link.get? k = (t.get? k).map fun n => { n with parents := t.parentsOf n.key } :=
  get?_mapNodes _ _ _ _

theorem get?_insert (t : Table) (node : Node) (k : Nat) :
    (t.insert node).get? k = if k = node.key then some node else t.get? k := by
  ext n
  rw [get?_eq_some_iff]
  have hmem : n ∈ (t.insert node).nodes ↔
      (n ∈ t.nodes ∧ n.key < node.key) ∨ n = node ∨ n ∈ t.nodes ∧ node.key < n.key := by
    simp [insert]
  rw [hmem]
  split_ifs with h
  · constructor
    · rintro ⟨⟨-, hlt⟩ | rfl | ⟨-, hlt⟩, hk⟩
      · omega
      · rfl
      · omega
    · rintro ⟨⟩
      exact ⟨.inr (.inl rfl), h.symm⟩
  · rw [get?_eq_some_iff]
    constructor
    · rintro ⟨⟨hn, -⟩ | rfl | ⟨hn, -⟩, hk⟩
      · exact ⟨hn, hk⟩
      · exact absurd hk.symm h
      · exact ⟨hn, hk⟩
    · rintro ⟨hn, hk⟩
      refine ⟨?_, hk⟩
      rcases Nat.lt_trichotomy n.key node.key with hlt | heq | hlt
      · exact .inl ⟨hn, hlt⟩
      · exact absurd (hk.symm.trans heq) h
      · exact .inr (.inr ⟨hn, hlt⟩)

@[simp]
theorem content?_link (t : Table) (k : Nat) : t.link.content? k = t.content? k := by
  simp [content?, get?_link, Function.comp_def]

theorem content?_erase (t : Table) (key k : Nat) :
    (t.erase key).content? k = if k = key then none else t.content? k := by
  rw [content?, get?_erase]
  split_ifs <;> rfl

theorem content?_update (t : Table) (key : Nat) (content : Content) (assigns : Option UInt8)
    (k : Nat) : (t.update key content assigns).content? k =
      if k = key then (t.content? k).map fun _ => content else t.content? k := by
  rw [content?, content?, get?_update]
  cases hg : t.get? k with
  | none => simp
  | some n =>
    have hk := (mem_of_get? hg).2
    by_cases h : k = key <;> simp [hk, h]

theorem content?_insert (t : Table) (node : Node) (k : Nat) :
    (t.insert node).content? k = if k = node.key then some node.content else t.content? k := by
  rw [content?, get?_insert]
  split_ifs <;> rfl

@[simp]
theorem root_erase (t : Table) (key : Nat) : (t.erase key).root = t.root := rfl

@[simp]
theorem root_update (t : Table) (key : Nat) (content : Content) (assigns : Option UInt8) :
    (t.update key content assigns).root = t.root := rfl

@[simp]
theorem root_link (t : Table) : t.link.root = t.root := rfl

@[simp]
theorem root_insert (t : Table) (node : Node) : (t.insert node).root = t.root := rfl

/-! ## Edges -/

/-- The branch at the first key leads to the second. -/
def Edge (t : Table) (a b : Nat) : Prop :=
  ∃ branch outcome, t.content? a = some (.branch branch) ∧ branch.next outcome = b

/-- The root leads to a key along edges. -/
def Reachable (t : Table) (key : Nat) : Prop := Relation.ReflTransGen t.Edge t.root key

theorem Edge.of_content {t u : Table} {a b : Nat} (h : t.Edge a b)
    (hc : u.content? a = t.content? a) : u.Edge a b := by
  obtain ⟨branch, outcome, ha, hb⟩ := h
  exact ⟨branch, outcome, hc.trans ha, hb⟩

theorem edge_iff_of_branch {t : Table} {a : Nat} {branch : Branch}
    (h : t.content? a = some (.branch branch)) {b : Nat} :
    t.Edge a b ↔ ∃ outcome, branch.next outcome = b := by
  constructor
  · rintro ⟨branch', outcome, ha, hb⟩
    cases h.symm.trans ha
    exact ⟨outcome, hb⟩
  · rintro ⟨outcome, hb⟩
    exact ⟨branch, outcome, h, hb⟩

theorem mem_successors_iff {n : Node} {k : Nat} :
    k ∈ n.successors ↔ ∃ branch outcome, n.content = .branch branch ∧ branch.next outcome = k := by
  unfold Node.successors
  split
  · next b hb =>
    constructor
    · intro h
      rcases (by simpa using h : k = b.onTrue ∨ k = b.onFalse) with rfl | rfl
      · exact ⟨b, true, hb, rfl⟩
      · exact ⟨b, false, hb, rfl⟩
    · rintro ⟨b', o, hb', rfl⟩
      cases hb.symm.trans hb'
      cases o <;> simp
  · next hb =>
    constructor
    · intro h
      cases h
    · rintro ⟨b', -, hb', -⟩
      exact absurd hb' (hb b')

theorem edge_iff_exists_node {t : Table} {a b : Nat} :
    t.Edge a b ↔ ∃ n ∈ t.nodes, n.key = a ∧ b ∈ n.successors := by
  constructor
  · rintro ⟨branch, outcome, ha, hb⟩
    obtain ⟨n, hn, hk, hc⟩ := content?_eq_some_iff.1 ha
    exact ⟨n, hn, hk, mem_successors_iff.2 ⟨branch, outcome, hc, hb⟩⟩
  · rintro ⟨n, hn, rfl, hb⟩
    obtain ⟨branch, outcome, hc, hb⟩ := mem_successors_iff.1 hb
    exact ⟨branch, outcome, by rw [content?_of_mem hn, hc], hb⟩

theorem mem_parentsOf {t : Table} {a k : Nat} : a ∈ t.parentsOf k ↔ t.Edge a k := by
  rw [edge_iff_exists_node]
  simp only [parentsOf, List.mem_map, List.mem_filter, Node.leadsTo, List.contains_iff_mem]
  constructor
  · rintro ⟨n, ⟨hn, hk⟩, rfl⟩
    exact ⟨n, hn, rfl, hk⟩
  · rintro ⟨n, hn, rfl, hk⟩
    exact ⟨n, ⟨hn, hk⟩, rfl⟩

/-- Every edge is recorded among the parents of the node it leads to. -/
def Covers (t : Table) : Prop :=
  ∀ ⦃k : Nat⦄ ⦃n : Node⦄, t.get? k = some n → ∀ ⦃a : Nat⦄, t.Edge a k → a ∈ n.parents

theorem covers_link (t : Table) : t.link.Covers := by
  intro k n hn a ha
  rw [get?_link, Option.map_eq_some_iff] at hn
  obtain ⟨m, hm, rfl⟩ := hn
  rw [(mem_of_get? hm).2]
  exact mem_parentsOf.2 (ha.of_content (content?_link t a).symm)

theorem covers_of_linked {t : Table} (h : t.link = t) : t.Covers := by
  rw [← h]
  exact covers_link t

/-! ## Pruning -/

theorem content?_dropOrphans_of_not_orphan {t : Table} {k : Nat}
    (h : ∀ n, t.get? k = some n → t.isOrphan n = false) :
    t.dropOrphans.content? k = t.content? k := by
  rw [content?, content?, dropOrphans, get?_filter]
  cases hg : t.get? k with
  | none => rfl
  | some n => simp [Option.filter, h n hg]

theorem content?_of_dropOrphans {t : Table} {k : Nat} {c : Content}
    (h : t.dropOrphans.content? k = some c) : t.content? k = some c := by
  rw [content?, dropOrphans, get?_filter, Option.map_eq_some_iff] at h
  obtain ⟨n, hn, rfl⟩ := h
  rw [content?, (Option.filter_eq_some_iff.1 hn).1, Option.map_some]

/-- A node that an edge leads to is no orphan. -/
theorem Covers.not_orphan {t : Table} (hc : t.Covers) {a k : Nat} (h : t.Edge a k) {n : Node}
    (hn : t.get? k = some n) : t.isOrphan n = false := by
  have ha := hc hn h
  have : n.parents.isEmpty = false := by
    rw [List.isEmpty_eq_false_iff]
    exact List.ne_nil_of_mem ha
  simp [isOrphan, this]

theorem root_not_orphan {t : Table} {n : Node} (hn : t.get? t.root = some n) :
    t.isOrphan n = false := by
  simp [isOrphan, (mem_of_get? hn).2]

@[simp]
theorem root_prune (t : Table) : t.prune.root = t.root := by
  induction t using prune.induct with
  | case1 t h ih =>
    rw [prune, dif_pos h]
    exact ih
  | case2 t h => rw [prune, dif_neg h]

theorem content?_of_prune {t : Table} {k : Nat} {c : Content} (h : t.prune.content? k = some c) :
    t.content? k = some c := by
  induction t using prune.induct with
  | case1 t ho ih =>
    rw [prune, dif_pos ho] at h
    have hd := ih h
    rw [content?_link] at hd
    exact content?_of_dropOrphans hd
  | case2 t ho =>
    rwa [prune, dif_neg ho] at h

theorem Covers.prune {t : Table} (hc : t.Covers) : t.prune.Covers := by
  induction t using prune.induct with
  | case1 t ho ih =>
    rw [Table.prune, dif_pos ho]
    exact ih (covers_link _)
  | case2 t ho =>
    rwa [Table.prune, dif_neg ho]

/-- Pruning keeps a set of nodes in which each node is the root or has a predecessor. -/
theorem content?_prune_of_supported {t : Table} (hc : t.Covers) {S : Nat → Prop}
    (hS : ∀ k, S k → k = t.root ∨ ∃ a, S a ∧ t.Edge a k) {k : Nat} (hk : S k) :
    t.prune.content? k = t.content? k := by
  induction t using prune.induct generalizing k with
  | case1 t ho ih =>
    -- No node of the set is an orphan, so one round changes nothing that the set can see.
    have hkept : ∀ j, S j → t.dropOrphans.content? j = t.content? j := by
      intro j hj
      refine content?_dropOrphans_of_not_orphan fun n hn => ?_
      rcases hS j hj with rfl | ⟨a, -, ha⟩
      · exact root_not_orphan hn
      · exact hc.not_orphan ha hn
    rw [prune, dif_pos ho, ih (covers_link _) (fun j hj => ?_) hk, content?_link, hkept k hk]
    rcases hS j hj with rfl | ⟨a, ha, he⟩
    · exact .inl rfl
    · refine .inr ⟨a, ha, he.of_content ?_⟩
      rw [content?_link, hkept a ha]
  | case2 t ho =>
    rw [prune, dif_neg ho]

/-- Pruning removes only nodes that no edge leads to. -/
theorem content?_prune_of_edge {t : Table} (hc : t.Covers) {a k : Nat} (h : t.prune.Edge a k) :
    t.prune.content? k = t.content? k := by
  induction t using prune.induct with
  | case1 t ho ih =>
    rw [prune, dif_pos ho] at h ⊢
    rw [ih (covers_link _) h, content?_link]
    refine content?_dropOrphans_of_not_orphan fun n hn => ?_
    obtain ⟨branch, outcome, ha, hb⟩ := h
    have ha := content?_of_prune ha
    rw [content?_link] at ha
    exact hc.not_orphan ⟨branch, outcome, content?_of_dropOrphans ha, hb⟩ hn
  | case2 t ho =>
    rw [prune, dif_neg ho]

end Table

end ShortCircuit
