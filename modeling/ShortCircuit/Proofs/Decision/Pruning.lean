import ShortCircuit.Proofs.Decision.Integrity
import Mathlib.Data.Set.Finite.Basic

/-!
# What pruning leaves

Pruning works in rounds: each drops the nodes without parents and links the rest anew, which may
leave other nodes without parents. A node outlives all rounds when following parents backwards from
it never has to stop, and that is so in two cases: the way back meets the root, or it goes around a
cycle. Where there are no cycles, the nodes left are those that the root leads to.

* `Table.Rounds`: the rounds of a pruning. `Table.rounds_prune`: they end, as each removes a node.
* `Table.Sustained`: the root or a key on a cycle leads to a key. `Table.content?_prune`: pruning a
  linked table leaves the nodes at these keys.
* `Table.prune_leaves_rootedPart`: a table without cycles is pruned to the part that its root leads
  to.
-/

namespace ShortCircuit.Table

/-! ## Rounds -/

/-- Pruning from the first table to the second takes a number of rounds: some node is an orphan
before each of them, and none is after the last. -/
inductive Rounds : Nat → Table → Table → Prop
  | done {t : Table} (hnone : t.nodes.any t.isOrphan = false) : Rounds 0 t t
  | more {n : Nat} {t u : Table} (hsome : t.nodes.any t.isOrphan = true)
      (hrest : Rounds n t.dropOrphans.link u) : Rounds (n + 1) t u

/-- Pruning ends after some rounds, and each of them removes a node. -/
theorem rounds_prune (t : Table) : ∃ n, Rounds n t t.prune ∧ n + t.prune.size ≤ t.size := by
  induction t using prune.induct with
  | case1 t ho ih =>
    obtain ⟨n, hrounds, hsize⟩ := ih
    have hlt := size_dropOrphans_lt ho
    rw [size_link] at hsize
    rw [prune, dif_pos ho]
    exact ⟨n + 1, .more ho hrounds, by omega⟩
  | case2 t ho =>
    have hself : t.prune = t := by rw [prune, dif_neg ho]
    rw [hself]
    exact ⟨0, .done (Bool.eq_false_iff.2 ho), by omega⟩

/-- A node that is left had its content and register before; only its parents may have changed. -/
theorem exists_mem_of_mem_prune {t : Table} {m : Node} (hm : m ∈ t.prune.nodes) :
    ∃ n ∈ t.nodes, n.key = m.key ∧ n.content = m.content ∧ n.assigns = m.assigns := by
  induction t using prune.induct with
  | case1 t ho ih =>
    rw [prune, dif_pos ho] at hm
    obtain ⟨n, hn, hsame⟩ := ih hm
    obtain ⟨d, hd, rfl⟩ := List.mem_map.1 hn
    exact ⟨d, List.mem_of_mem_filter hd, hsame⟩
  | case2 t ho =>
    rw [prune, dif_neg ho] at hm
    exact ⟨m, hm, rfl, rfl, rfl⟩

/-! ## Sustained keys -/

/-- The root leads to a key, or a key on a cycle does. -/
def Sustained (t : Table) (k : Nat) : Prop :=
  t.Reachable k ∨ ∃ c, Relation.TransGen t.Edge c c ∧ Relation.ReflTransGen t.Edge c k

theorem Sustained.tail {t : Table} {a k : Nat} (h : t.Sustained a) (he : t.Edge a k) :
    t.Sustained k := by
  rcases h with ha | ⟨c, hcycle, ha⟩
  · exact .inl (ha.tail he)
  · exact .inr ⟨c, hcycle, ha.tail he⟩

/-- A way back from a sustained key can be continued unless it has met the root. -/
theorem Sustained.root_or_edge {t : Table} {k : Nat} (h : t.Sustained k) :
    k = t.root ∨ ∃ a, t.Sustained a ∧ t.Edge a k := by
  rcases h with hk | ⟨c, hcycle, hk⟩
  · rcases Relation.ReflTransGen.cases_tail hk with hroot | ⟨a, ha, he⟩
    · exact .inl hroot
    · exact .inr ⟨a, .inl ha, he⟩
  · rcases Relation.ReflTransGen.cases_tail hk with rfl | ⟨a, ha, he⟩
    · obtain ⟨a, ha, he⟩ := Relation.TransGen.tail'_iff.1 hcycle
      exact .inr ⟨a, .inr ⟨k, hcycle, ha⟩, he⟩
    · exact .inr ⟨a, .inr ⟨c, hcycle, ha⟩, he⟩

/-! ## Stray nodes -/

/-- A node stands at a key that is not sustained. -/
def Stray (t : Table) (k : Nat) : Prop := t.content? k ≠ none ∧ ¬t.Sustained k

theorem Stray.of_edge {t : Table} {a k : Nat} (h : t.Stray k) (he : t.Edge a k) : t.Stray a :=
  ⟨he.content?_ne_none, fun ha => h.2 (ha.tail he)⟩

/-- A way back from a stray node ends, since it never meets a node twice. -/
theorem wellFounded_edge_stray (t : Table) :
    WellFounded fun a k : { k // t.Stray k } => t.Edge a k := by
  have hfinite : Finite { k // t.Stray k } := by
    refine (List.finite_toSet t.keys).subset ?_
    rintro k ⟨hk, -⟩
    obtain ⟨c, hc⟩ := Option.ne_none_iff_exists'.1 hk
    obtain ⟨n, hn, rfl, -⟩ := content?_eq_some_iff.1 hc
    exact List.mem_map.2 ⟨n, hn, rfl⟩
  -- The edges alone need not be transitive; what leads to a key over several of them is.
  let before : { k // t.Stray k } → { k // t.Stray k } → Prop :=
    fun a k => Relation.TransGen t.Edge a k
  have htrans : IsTrans _ before := ⟨fun _ _ _ => Relation.TransGen.trans⟩
  have hirrefl : Std.Irrefl before := ⟨fun k hcycle => k.2.2 (.inr ⟨k, hcycle, .refl⟩)⟩
  exact Subrelation.wf Relation.TransGen.single (Finite.wellFounded_of_trans_of_irrefl before)

/-- No stray node is left: a first one would have no parent. -/
theorem Stray.content?_prune {t : Table} (hlinked : t.link = t) {k : Nat} (hk : t.Stray k) :
    t.prune.content? k = none := by
  suffices h : ∀ j : { k // t.Stray k }, t.prune.content? j = none from h ⟨k, hk⟩
  intro j
  induction j using t.wellFounded_edge_stray.induction with
  | _ j ih =>
    by_contra hne
    rcases (tidy_prune hlinked).supported j hne with hroot | ⟨a, b, o, hb, ho⟩
    · rw [root_prune] at hroot
      exact j.2.2 (.inl (hroot ▸ .refl))
    · have he : t.Edge a j := ⟨b, o, content?_of_prune hb, ho⟩
      have ha := ih ⟨a, j.2.of_edge he⟩ he
      cases hb.symm.trans ha

open Classical in
/-- Pruning leaves the nodes at sustained keys and no others. -/
theorem content?_prune {t : Table} (hlinked : t.link = t) (k : Nat) :
    t.prune.content? k = if t.Sustained k then t.content? k else none := by
  split_ifs with hk
  · exact content?_prune_of_supported (covers_of_linked hlinked) (fun _ hj => hj.root_or_edge) hk
  · by_cases hcontent : t.content? k = none
    · by_contra hne
      obtain ⟨c, hc⟩ := Option.ne_none_iff_exists'.1 hne
      cases hcontent.symm.trans (content?_of_prune hc)
    · exact Stray.content?_prune hlinked ⟨hcontent, hk⟩

/-! ## Tables without cycles -/

/-- No edge lies on a cycle. -/
def Acyclic (t : Table) : Prop := ∀ a b, t.Edge a b → ¬Relation.ReflTransGen t.Edge b a

/-- A table has no cycle when every edge leads to a higher rank. -/
theorem acyclic_of_rank {t : Table} (rank : Nat → Nat)
    (h : ∀ n ∈ t.nodes, ∀ k ∈ n.successors, rank n.key < rank k) : t.Acyclic := by
  have hlt : ∀ {a b}, t.Edge a b → rank a < rank b := by
    intro a b he
    obtain ⟨n, hn, rfl, hb⟩ := edge_iff_exists_node.1 he
    exact h n hn b hb
  intro a b he hback
  have hle : rank b ≤ rank a := by
    clear he
    induction hback with
    | refl => exact Nat.le_refl _
    | tail _ he ih => exact ih.trans (hlt he).le
  have := hlt he
  omega

theorem Acyclic.sustained_iff {t : Table} (h : t.Acyclic) {k : Nat} :
    t.Sustained k ↔ t.Reachable k := by
  refine ⟨?_, .inl⟩
  rintro (hk | ⟨c, hcycle, -⟩)
  · exact hk
  · obtain ⟨b, he, hback⟩ := Relation.TransGen.head'_iff.1 hcycle
    exact absurd hback (h c b he)

/-- The second table is the part of the first that its root leads to: it has the nodes at reachable
keys, with their contents and registers, and the parents of a node are the branches of this part
that lead to it. -/
structure IsRootedPart (t u : Table) : Prop where
  root : u.root = t.root
  contains : ∀ k, u.contains k = true ↔ t.contains k = true ∧ t.Reachable k
  nodes : ∀ m ∈ u.nodes, ∃ n ∈ t.nodes,
    n.key = m.key ∧ n.content = m.content ∧ n.assigns = m.assigns
  linked : u.link = u
  parents : ∀ m ∈ u.nodes, ∀ a, a ∈ m.parents ↔ u.Edge a m.key

theorem Acyclic.isRootedPart_prune {t : Table} (hlinked : t.link = t) (h : t.Acyclic) :
    t.IsRootedPart t.prune where
  root := root_prune t
  contains k := by
    rw [contains_iff, contains_iff, content?_prune hlinked, ← h.sustained_iff]
    split_ifs with hk <;> simp [hk]
  nodes _ := exists_mem_of_mem_prune
  linked := (tidy_prune hlinked).linked
  parents _ hm _ := mem_parents_iff (tidy_prune hlinked).linked hm

theorem prune_prune {t : Table} (hlinked : t.link = t) : t.prune.prune = t.prune :=
  prune_eq_self (covers_of_linked hlinked).prune (tidy_prune hlinked).supported

/-- Pruning ends. In a linked table without cycles it leaves the part that the root leads to, and
pruning once more changes nothing. -/
theorem prune_leaves_rootedPart (t : Table) (hlinked : t.link = t) (hacyclic : t.Acyclic) :
    (∃ n, Rounds n t t.prune ∧ n + t.prune.size ≤ t.size) ∧ t.IsRootedPart t.prune ∧
      t.prune.prune = t.prune :=
  ⟨rounds_prune t, hacyclic.isRootedPart_prune hlinked, prune_prune hlinked⟩

/-- Nothing leads to the first test, and only it leads to the second, which leads to the root. One
edge goes to a smaller key, and two successors are missing. -/
def cascade : Table :=
  let nodes : List Node :=
    [{ key := 0, content := .branch ⟨.ofText "a", 5, 40⟩ },
     { key := 5, content := .branch ⟨.ofText "b", 10, 7⟩ },
     { key := 7, content := .leaf .nil },
     { key := 10, content := .branch ⟨.ofText "c", 40, 99⟩, assigns := some 3 },
     { key := 20, content := .leaf (.bool true) },
     { key := 40, content := .branch ⟨.ofText "d", 20, 50⟩ }]
  (nodes.foldl insert (empty 10)).link

/-- The first test goes, then the second and then its leaf. -/
theorem prune_leaves_rootedPart_cascade :
    cascade.IsRootedPart cascade.prune ∧ cascade.keys = [0, 5, 7, 10, 20, 40] ∧
      cascade.prune.keys = [10, 20, 40] ∧ cascade.prune.prune = cascade.prune := by
  have hacyclic : cascade.Acyclic := acyclic_of_rank (fun k => if k = 20 then 60 else k) (by decide)
  obtain ⟨-, hpart, hstable⟩ := prune_leaves_rootedPart cascade (by decide) hacyclic
  exact ⟨hpart, by decide, by decide +kernel, hstable⟩

end ShortCircuit.Table
