import ShortCircuit.Proofs.Decision.Confluence

/-!
# Folds keep tables consistent

A fold counts the stored parents of a node, so it is only right where these are the branches that
lead to the node. In a consistent table this is so, and every successor is a node. Folds keep tables
consistent, also when the root is folded, when an edge leads back to the parent, and when leaves are
shared.

* `Table.Consistent` are the tables, `Table.FoldKeeps` is what a successful fold guarantees.
* `Table.IsRewrite.contains_of_reachable`: of the nodes that the root leads to, a fold drops the
  folded one and leaves that have lost their last parent.
* `Table.exists_passes`: the reduction of any table ends, after at most one pass for each node that
  goes.
* `Table.fold_keeps_consistent`: the guarantees of folds, and of a reduction that stalls.
-/

namespace ShortCircuit.Table

/-! ## Consistent tables -/

/-- Every successor is a node, and the stored parents are the linked ones. -/
structure Consistent (t : Table) : Prop where
  closed : ∀ n ∈ t.nodes, ∀ k ∈ n.successors, t.contains k = true
  linked : t.link = t

theorem consistent_iff {t : Table} :
    t.Consistent ↔ t.link = t ∧ ∀ {a k : Nat}, t.Edge a k → t.content? k ≠ none := by
  constructor
  · rintro ⟨hclosed, hlinked⟩
    refine ⟨hlinked, fun he => ?_⟩
    obtain ⟨n, hn, -, hk⟩ := edge_iff_exists_node.1 he
    exact contains_iff.1 (hclosed n hn _ hk)
  · rintro ⟨hlinked, htotal⟩
    refine ⟨fun n hn k hk => ?_, hlinked⟩
    exact contains_iff.2 (htotal (edge_iff_exists_node.2 ⟨n, hn, rfl, hk⟩))

theorem mem_parents_iff {t : Table} (h : t.link = t) {n : Node} (hn : n ∈ t.nodes) {a : Nat} :
    a ∈ n.parents ↔ t.Edge a n.key := by
  rw [parents_eq_of_linked h (get?_eq_some_iff.2 ⟨hn, rfl⟩), mem_parentsOf]

/-- The node at a key has a single parent, which is the node itself. -/
def IsOwnParent (t : Table) (key : Nat) : Prop := (t.get? key).map (·.parents) = some [key]

instance (t : Table) (key : Nat) : Decidable (t.IsOwnParent key) :=
  inferInstanceAs (Decidable (_ = _))

theorem IsSite.parent_ne_of_not_isOwnParent {t : Table} {s : Site} (hs : t.IsSite s)
    (h : ¬t.IsOwnParent s.node.key) : s.parent.key ≠ s.node.key := by
  intro heq
  apply h
  rw [IsOwnParent, hs.node, Option.map_some, hs.parents, heq]

/-- A node that is its own only parent is dropped, but this does not count as a fold. -/
theorem IsSite.parent_ne_of_fold {t u : Table} {s : Site} (hs : t.IsSite s)
    (h : t.fold s.node.key = (true, u)) : s.parent.key ≠ s.node.key := by
  intro heq
  rw [fold, site?_of_isSite hs] at h
  simp only [if_pos heq] at h
  cases h

/-- In a linked table, every fold gives the parent of its node a new content. -/
theorem exists_rewrite_of_fold {t u : Table} (hlinked : t.link = t) {key : Nat}
    (h : t.fold key = (true, u)) :
    ∃ s c assigns, t.IsSite s ∧ s.node.key = key ∧ s.parent.key ≠ s.node.key ∧
      t.IsRewrite s c ∧ u = t.replace s c assigns := by
  obtain ⟨s, c, assigns, hs, rfl, hfolds, rfl⟩ :=
    exists_folds_of_fold (covers_of_linked hlinked) h
  have hne := hs.parent_ne_of_fold h
  exact ⟨s, c, assigns, hs, rfl, hne, hfolds.isRewrite hs hne, rfl⟩

/-! ## What a fold keeps -/

/-- A leaf had a parent in the first table and has none in the second. -/
def LosesLeaf (t u : Table) (k : Nat) : Prop :=
  (∃ x, t.content? k = some (.leaf x)) ∧ (∃ a, t.Edge a k) ∧ ∀ a, ¬u.Edge a k

section Rewrite

variable {t : Table} {s : Site} {c : Content} (hr : t.IsRewrite s c) (hs : t.IsSite s)
  (hne : s.parent.key ≠ s.node.key) (hc : t.Covers) (hroot : t.root ≠ s.node.key)

include hr hs hne hc hroot

/-- The root still leads to the tests and texts that it led to, with the parent for the node. -/
theorem IsRewrite.reachable_rewritten (assigns : Option UInt8) {k : Nat} (hk : t.Reachable k)
    (htexts : k = t.root ∨ t.textsAt k ≠ []) :
    (t.rewritten s c assigns).Reachable (if k = s.node.key then s.parent.key else k) := by
  -- Induction along the path. All keys before its end carry tests.
  induction hk with
  | refl =>
    rw [if_neg hroot]
    exact .refl
  | @tail a b ha he ih =>
    have ih := ih (.inr he.isTest.textsAt_ne_nil)
    by_cases hb : b = s.node.key
    · subst hb
      rw [hs.eq_of_edge hc he, if_neg hne] at ih
      rwa [if_pos rfl]
    · rw [if_neg hb]
      by_cases hbroot : b = t.root
      · rw [hbroot]
        exact .refl
      · exact Relation.ReflTransGen.tail ih (hr.edge assigns he hb (htexts.resolve_left hbroot))

/-- Of the nodes that the root leads to, only the folded node and leaves can go. -/
theorem IsRewrite.contains_of_reachable (assigns : Option UInt8) {k : Nat} (hk : t.Reachable k)
    (hcontains : t.contains k = true) (hkn : k ≠ s.node.key) :
    (t.replace s c assigns).contains k = true ∨ t.LosesLeaf (t.replace s c assigns) k := by
  have hcov := covers_rewritten t s c assigns
  have hkept : (t.rewritten s c assigns).content? k ≠ none := by
    rw [content?_rewritten hs hne, if_neg hkn]
    split_ifs
    · simp
    · exact contains_iff.1 hcontains
  rw [contains_iff, replace_eq_prune]
  by_cases htexts : k = t.root ∨ t.textsAt k ≠ []
  · have hreach := hr.reachable_rewritten hs hne hc hroot assigns hk htexts
    rw [if_neg hkn] at hreach
    left
    rwa [(hreach.prune hcov).1]
  · obtain ⟨hkroot, hnil⟩ := not_or.1 htexts
    by_cases hedge : ∃ a, (t.rewritten s c assigns).prune.Edge a k
    · obtain ⟨a, ha⟩ := hedge
      left
      rwa [content?_prune_of_edge hcov ha]
    · right
      refine ⟨?_, ?_, not_exists.1 hedge⟩
      · -- A node without texts is no test.
        obtain ⟨d, hd⟩ := Option.ne_none_iff_exists'.1 (contains_iff.1 hcontains)
        by_contra hleaf
        refine hnil (IsTest.textsAt_ne_nil ⟨d, hd, ?_⟩)
        rintro x rfl
        exact hleaf ⟨x, hd⟩
      · rcases Relation.ReflTransGen.cases_tail hk with hhead | ⟨a, -, ha⟩
        · exact absurd hhead hkroot
        · exact ⟨a, ha⟩

end Rewrite

/-- What is certain of the table after a fold: nodes are gone, the table is consistent, the parents
of a node are the branches that lead to it, every node but the root has one, and nodes that the root
led to are still there unless they are the folded one or leaves that have lost their last parent. -/
structure FoldKeeps (t : Table) (key : Nat) (u : Table) : Prop where
  root : u.root = t.root
  size : u.size < t.size
  consistent : u.Consistent
  parents : ∀ n ∈ u.nodes, ∀ a, a ∈ n.parents ↔ u.Edge a n.key
  supported : ∀ n ∈ u.nodes, n.key ≠ u.root → n.parents ≠ []
  present : key ≠ t.root → ∀ k, t.Reachable k → t.contains k = true → k ≠ key →
    u.contains k = true ∨ t.LosesLeaf u k

section Fold

variable {t u : Table} (ht : t.Consistent) {key : Nat} (h : t.fold key = (true, u))

include ht h

theorem Consistent.fold : u.Consistent := by
  obtain ⟨s, c, assigns, hs, -, hne, hr, rfl⟩ := exists_rewrite_of_fold ht.linked h
  obtain ⟨hlinked, htotal⟩ := consistent_iff.1 ht
  refine consistent_iff.2 ⟨(tidy_replace t s c assigns).linked, fun he => ?_⟩
  exact hr.total_replace hs hne (covers_of_linked hlinked) htotal he

/-- Edges that lead to larger keys are replaced by such edges. -/
theorem Consistent.increasing_fold (hincreasing : ∀ a k, t.Edge a k → a < k) (a k : Nat)
    (he : u.Edge a k) : a < k := by
  obtain ⟨s, c, assigns, hs, -, hne, hr, rfl⟩ := exists_rewrite_of_fold ht.linked h
  rcases hr.edge_of_replace hs hne he with ⟨rfl, hnk⟩ | ⟨-, hak⟩
  · exact Nat.lt_trans (hincreasing _ _ hs.edge) (hincreasing _ _ hnk)
  · exact hincreasing a k hak

theorem Consistent.foldKeeps : t.FoldKeeps key u := by
  have hu := ht.fold h
  have hsize := FoldStep.size_lt ⟨key, h⟩
  obtain ⟨s, c, assigns, hs, rfl, hne, hr, rfl⟩ := exists_rewrite_of_fold ht.linked h
  refine ⟨?_, hsize, hu, fun n hn a => mem_parents_iff hu.linked hn, ?_, ?_⟩
  · rw [replace_eq_prune, root_prune, root_rewritten]
  · intro n hn hkey
    have hcontent : (t.replace s c assigns).content? n.key ≠ none := by simp [content?_of_mem hn]
    rcases (tidy_replace t s c assigns).supported n.key hcontent with hroot | ⟨a, ha⟩
    · exact absurd hroot hkey
    · exact List.ne_nil_of_mem ((mem_parents_iff hu.linked hn).2 ha)
  · intro hroot k hk hcontains hkn
    exact hr.contains_of_reachable hs hne (covers_of_linked ht.linked) hroot.symm assigns hk
      hcontains hkn

end Fold

/-! ## Passes of the reduction -/

/-- Several nodes are open, and a sweep over all keys folds one. -/
def Pass (t u : Table) : Prop := 1 < t.openCount ∧ t.sweep t.keys.reverse = (true, u)

/-- A number of passes makes one table into another. -/
inductive Passes : Nat → Table → Table → Prop
  | none (t : Table) : Passes 0 t t
  | more {n : Nat} {t u w : Table} (hpass : t.Pass u) (hrest : Passes n u w) : Passes (n + 1) t w

/-- How the reduction ends at a table: at most one node is open, or a sweep folds nothing. -/
inductive Concludes (t : Table) : Except Obstacle Unit × Table → Prop
  | done (hopen : t.openCount ≤ 1) : Concludes t (.ok (), t)
  | stalled {u : Table} (hopen : 1 < t.openCount) (hu : t.sweep t.keys.reverse = (false, u)) :
    Concludes t (.error (.stalled u.openCount), u)

/-- The reduction makes passes until it ends, and every pass removes a node. -/
theorem exists_passes (t : Table) :
    ∃ n u, Passes n t u ∧ n + u.size ≤ t.size ∧ u.Concludes t.reduce := by
  induction t using reduce.induct with
  | case1 t hle =>
    rw [reduce_of_openCount_le hle]
    exact ⟨0, t, .none t, by omega, .done hle⟩
  | case2 t hle u hu ih =>
    obtain ⟨n, w, hpasses, hsize, hends⟩ := ih
    have hlt := size_sweep_lt hu
    rw [reduce_of_sweep hle hu]
    exact ⟨n + 1, w, .more ⟨by omega, hu⟩ hpasses, by omega, hends⟩
  | case3 t hle u hu =>
    rw [reduce_of_stuck hle hu]
    exact ⟨0, t, .none t, by omega, .stalled (by omega) hu⟩

theorem not_edge_self_of_increasing {t : Table} (hincreasing : ∀ a k, t.Edge a k → a < k) (k : Nat) :
    ¬t.Edge k k :=
  fun he => Nat.lt_irrefl k (hincreasing k k he)

/-- Consistent tables with increasing edges are kept by passes. -/
theorem Consistent.passes {n : Nat} {t u : Table} (h : Passes n t u) (ht : t.Consistent)
    (hincreasing : ∀ a k, t.Edge a k → a < k) :
    u.Consistent ∧ ∀ a k, u.Edge a k → a < k := by
  induction h with
  | none t => exact ⟨ht, hincreasing⟩
  | more hpass _ ih =>
    obtain ⟨key, hkey⟩ := foldStep_of_sweep (not_edge_self_of_increasing hincreasing) hpass.2
    exact ih (ht.fold hkey) (ht.increasing_fold hkey hincreasing)

/-- A reduction that stalls has tried every key of the table that it leaves. -/
theorem Concludes.stuck {t u : Table} {remaining : Nat} (hself : ∀ k, ¬t.Edge k k)
    (h : t.Concludes (.error (.stalled remaining), u)) :
    2 ≤ remaining ∧ remaining = u.openCount ∧ u.Stuck := by
  cases h with
  | stalled hopen hu =>
    obtain ⟨rfl, hstuck⟩ := stuck_of_sweep hself hu
    exact ⟨hopen, rfl, hstuck⟩

/-! ## Integrity -/

/-- The reduction of any table ends. In a consistent table, a fold of a key whose node is not its
own only parent changes nothing when it fails, and keeps the table consistent when it succeeds. If
moreover edges lead to larger keys, a reduction stalls only when several nodes are open, counts
them, and leaves a table in which no key can be folded. -/
theorem fold_keeps_consistent (t : Table) :
    (∃ n u, Passes n t u ∧ n + u.size ≤ t.size ∧ u.Concludes t.reduce) ∧
    (t.Consistent →
      (∀ key, ¬t.IsOwnParent key →
        ((t.fold key).1 = false → (t.fold key).2 = t) ∧
        ((t.fold key).1 = true → t.FoldKeeps key (t.fold key).2)) ∧
      ((∀ a k, t.Edge a k → a < k) →
        ∀ remaining, t.reduce.1 = .error (.stalled remaining) →
          2 ≤ remaining ∧ remaining = t.reduce.2.openCount ∧ t.reduce.2.Stuck)) := by
  obtain ⟨n, u, hpasses, hsize, hends⟩ := t.exists_passes
  refine ⟨⟨n, u, hpasses, hsize, hends⟩, fun ht => ⟨fun key hkey => ⟨?_, ?_⟩, ?_⟩⟩
  · apply fold_eq_self
    rintro s hs rfl
    exact hs.parent_ne_of_not_isOwnParent hkey
  · intro htrue
    apply ht.foldKeeps
    rw [← htrue]
  · intro hincreasing remaining hstalled
    obtain ⟨-, hu⟩ := Consistent.passes hpasses ht hincreasing
    apply Concludes.stuck (not_edge_self_of_increasing hu)
    rw [← hstalled]
    exact hends

/-- Two tests that lead to the same third one, which a fourth one follows. -/
def converging : Table :=
  let nodes : List Node :=
    [{ key := 0, content := .branch ⟨.ofText "a", 10, 20⟩ },
     { key := 10, content := .branch ⟨.ofText "b", 30, 99⟩ },
     { key := 20, content := .branch ⟨.ofText "c", 30, 99⟩ },
     { key := 30, content := .branch ⟨.ofText "d", 40, 99⟩ },
     { key := 40, content := .branch ⟨.ofText "e", 98, 99⟩ },
     { key := 98, content := .leaf (.bool true) },
     { key := 99, content := .leaf (.bool false) }]
  (nodes.foldl insert (empty 0)).link

/-- The fourth test is folded into the third one, and nothing else can be folded. -/
theorem fold_keeps_consistent_converging :
    converging.FoldKeeps 40 (converging.fold 40).2 ∧ (converging.fold 30).2 = converging ∧
      converging.reduce.1 = .error (.stalled 4) ∧ converging.reduce.2.openCount = 4 ∧
      converging.reduce.2.Stuck := by
  obtain ⟨-, hconsistent⟩ := fold_keeps_consistent converging
  obtain ⟨hfold, hreduce⟩ := hconsistent ⟨by decide, by decide⟩
  have hstalled : converging.reduce.1 = .error (.stalled 4) := by decide +kernel
  obtain ⟨-, hcount, hstuck⟩ := hreduce (increasing_of_nodes (by decide)) 4 hstalled
  refine ⟨(hfold 40 ?_).2 ?_, (hfold 30 ?_).1 ?_, hstalled, hcount.symm, hstuck⟩
  all_goals decide +kernel

end ShortCircuit.Table
