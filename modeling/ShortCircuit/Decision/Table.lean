import ShortCircuit.Decision.Node

/-!
# Decision tables

The nodes of one condition, in increasing order of their keys, with the key of the first test.

* `Table.get?`, `Table.insert`, `Table.erase`, `Table.update` are those of a finite map.
* `Table.link` recomputes all parents: they are the branches that lead to a node.
* `Table.prune` drops nodes that nothing leads to, as long as there are any.
-/

namespace ShortCircuit

/-- A finite map from keys to nodes with a root key. -/
structure Table where
  root : Nat
  nodes : List Node
  sorted : nodes.Pairwise fun m n => m.key < n.key
deriving DecidableEq, Repr

namespace Table

/-- The table without nodes. -/
def empty (root : Nat) : Table := ⟨root, [], .nil⟩

/-- The number of nodes. -/
def size (t : Table) : Nat := t.nodes.length

/-- The keys in increasing order. -/
def keys (t : Table) : List Nat := t.nodes.map (·.key)

/-- The node with a key. -/
def get? (t : Table) (key : Nat) : Option Node := t.nodes.find? fun n => n.key == key

/-- Whether there is a node with a key. -/
def contains (t : Table) (key : Nat) : Bool := (t.get? key).isSome

/-- Keeps the nodes that satisfy a condition. -/
def filter (t : Table) (keep : Node → Bool) : Table :=
  ⟨t.root, t.nodes.filter keep, t.sorted.filter keep⟩

/-- Changes nodes without changing their keys. -/
def mapNodes (t : Table) (f : Node → Node) (h : ∀ n, (f n).key = n.key) : Table :=
  ⟨t.root, t.nodes.map f, by
    refine List.pairwise_map.2 (t.sorted.imp ?_)
    intro m n hmn
    rw [h, h]
    exact hmn⟩

/-- Adds a node, in place of one with the same key. -/
def insert (t : Table) (node : Node) : Table where
  root := t.root
  nodes := t.nodes.filter (·.key < node.key) ++ node :: t.nodes.filter (node.key < ·.key)
  sorted := by
    refine List.pairwise_append.2 ⟨t.sorted.filter _, ?_, ?_⟩
    · refine List.pairwise_cons.2 ⟨?_, t.sorted.filter _⟩
      intro n hn
      simpa using (List.mem_filter.1 hn).2
    · intro m hm n hn
      have hm : m.key < node.key := by simpa using (List.mem_filter.1 hm).2
      rcases List.mem_cons.1 hn with rfl | hn
      · exact hm
      · have hn : node.key < n.key := by simpa using (List.mem_filter.1 hn).2
        exact Nat.lt_trans hm hn

/-- Removes the node with a key. -/
def erase (t : Table) (key : Nat) : Table := t.filter fun n => n.key != key

/-- Replaces content and assigned register of the node with a key. -/
def update (t : Table) (key : Nat) (content : Content) (assigns : Option UInt8) : Table :=
  t.mapNodes (fun n => if n.key = key then { n with content, assigns } else n) (by
    intro n
    split <;> rfl)

/-- Adds a number to a strictly increasing list that may hold it already. -/
def insertTarget (n : Nat) : List Nat → List Nat
  | [] => [n]
  | m :: rest =>
    if n < m then n :: m :: rest
    else if n = m then m :: rest
    else m :: insertTarget n rest

/-- All keys that branches lead to, in increasing order and each once. -/
def targets (t : Table) : List Nat := (t.nodes.flatMap Node.successors).foldr insertTarget []

/-- The keys of the branches that lead to `key`. -/
def parentsOf (t : Table) (key : Nat) : List Nat := (t.nodes.filter (·.leadsTo key)).map (·.key)

/-- Recomputes the parents of every node. -/
def link (t : Table) : Table :=
  t.mapNodes (fun n => { n with parents := t.parentsOf n.key }) fun _ => rfl

/-- Whether nothing leads to a node other than the root. -/
def isOrphan (t : Table) (n : Node) : Bool := n.key != t.root && n.parents.isEmpty

/-- Removes all orphans. -/
def dropOrphans (t : Table) : Table := t.filter fun n => !t.isOrphan n

/-- The number of nodes that are not boolean leaves. -/
def openCount (t : Table) : Nat := t.nodes.countP fun n => !n.isBool

/-! ## Sizes -/

@[simp]
theorem size_mapNodes (t : Table) (f : Node → Node) (h : ∀ n, (f n).key = n.key) :
    (t.mapNodes f h).size = t.size := by
  simp [mapNodes, size]

theorem size_filter_le (t : Table) (keep : Node → Bool) : (t.filter keep).size ≤ t.size :=
  List.length_filter_le _ _

theorem size_filter_lt (t : Table) {keep : Node → Bool} {n : Node} (hn : n ∈ t.nodes)
    (h : keep n = false) : (t.filter keep).size < t.size := by
  refine List.length_filter_lt_length_iff_exists.2 ⟨n, hn, ?_⟩
  simp [h]

@[simp]
theorem size_link (t : Table) : t.link.size = t.size := size_mapNodes _ _ _

@[simp]
theorem size_update (t : Table) (key : Nat) (content : Content) (assigns : Option UInt8) :
    (t.update key content assigns).size = t.size := size_mapNodes _ _ _

theorem size_dropOrphans_lt {t : Table} (h : t.nodes.any t.isOrphan = true) :
    t.dropOrphans.size < t.size := by
  obtain ⟨n, hn, ho⟩ := List.any_eq_true.1 h
  exact size_filter_lt t hn (by simp [ho])

theorem mem_of_get? {t : Table} {key : Nat} {n : Node} (h : t.get? key = some n) :
    n ∈ t.nodes ∧ n.key = key := by
  refine ⟨List.mem_of_find?_eq_some h, ?_⟩
  simpa using List.find?_some h

theorem size_erase_lt {t : Table} {key : Nat} {n : Node} (h : t.get? key = some n) :
    (t.erase key).size < t.size := by
  obtain ⟨hn, hk⟩ := mem_of_get? h
  exact size_filter_lt t hn (by simp [hk])

theorem size_erase_le (t : Table) (key : Nat) : (t.erase key).size ≤ t.size :=
  size_filter_le _ _

/-! ## Pruning -/

/-- Removes orphans and relinks the rest until every node other than the root has a parent. -/
def prune (t : Table) : Table :=
  if _h : t.nodes.any t.isOrphan = true then t.dropOrphans.link.prune else t
termination_by t.size
decreasing_by simpa using size_dropOrphans_lt _h

theorem size_prune_le (t : Table) : t.prune.size ≤ t.size := by
  induction t using prune.induct with
  | case1 t h ih =>
    rw [prune, dif_pos h]
    have hlt := size_dropOrphans_lt h
    rw [size_link] at ih
    omega
  | case2 t h =>
    have hp : t.prune = t := by rw [prune, dif_neg h]
    exact Nat.le_of_eq (congrArg size hp)

end Table

end ShortCircuit
