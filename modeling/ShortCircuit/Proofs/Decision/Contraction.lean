import ShortCircuit.Proofs.Decision.Circuit
import ShortCircuit.Proofs.Decision.Walk

/-!
# Contraction of circuits

The reduction folds nodes in decreasing order of their keys, across the borders of subformulas, and
only nodes with a single parent. On a right-nested circuit this merges two neighbouring blocks at
each sweep, until one block is left.

* `Table.Tidy.fold_of_merge`, `Table.Tidy.fold_of_edges`: when a branch is merged into the one
  before it, and when it is not.
* `Circuit.sweep_contract`: a sweep contracts a right-nested circuit, wherever it stands in a table.
* `Circuit.reduce_entries`: a table that holds a circuit and its two exits is reduced to a formula
  that renders as that of the circuit.
-/

namespace ShortCircuit

/-! ## Tables as lists of entries -/

namespace Table

/-- The keys of a table with what stands at them, in increasing order. -/
def entries (t : Table) : List (Nat × Content) := t.nodes.map fun n => (n.key, n.content)

theorem mem_entries {t : Table} {k : Nat} {c : Content} :
    (k, c) ∈ t.entries ↔ t.content? k = some c := by
  rw [content?_eq_some_iff, entries, List.mem_map]
  simp only [Prod.mk.injEq]

theorem keys_eq_map_entries (t : Table) : t.keys = t.entries.map (·.1) := by
  simp [keys, entries, Function.comp_def]

theorem pairwise_entries (t : Table) : t.entries.Pairwise fun d e => d.1 < e.1 :=
  List.pairwise_map.2 t.sorted

theorem openCount_eq_countP_entries (t : Table) :
    t.openCount = t.entries.countP fun e => !({ key := e.1, content := e.2 } : Node).isBool := by
  rw [openCount, entries, List.countP_map]
  rfl

theorem nodup_parentsOf (t : Table) (k : Nat) : (t.parentsOf k).Nodup := by
  have hnodup : (t.nodes.map (·.key)).Nodup :=
    List.pairwise_map.2 (t.sorted.imp fun hlt => Nat.ne_of_lt hlt)
  exact hnodup.sublist (List.filter_sublist.map _)

theorem parents_eq_of_linked {t : Table} (h : t.link = t) {k : Nat} {n : Node}
    (hn : t.get? k = some n) : n.parents = t.parentsOf k := by
  have hlink := t.get?_link k
  rw [h, hn, Option.map_some] at hlink
  have hk := (mem_of_get? hn).2
  calc
    n.parents = { n with parents := t.parentsOf n.key }.parents := by rw [← Option.some.inj hlink]
    _ = t.parentsOf k := by rw [hk]

/-- The stored parents are the linked ones, and every node but the root has one. -/
structure Tidy (t : Table) : Prop where
  linked : t.link = t
  supported : ∀ k, t.content? k ≠ none → k = t.root ∨ ∃ a, t.Edge a k

theorem Tidy.parents_eq {t : Table} (h : t.Tidy) {k : Nat} {n : Node} (hn : t.get? k = some n) :
    n.parents = t.parentsOf k :=
  parents_eq_of_linked h.linked hn

/-- A table without orphans is not changed by pruning. -/
theorem prune_eq_self {t : Table} (hc : t.Covers)
    (h : ∀ k, t.content? k ≠ none → k = t.root ∨ ∃ a, t.Edge a k) : t.prune = t := by
  rw [prune, dif_neg]
  rw [List.any_eq_true]
  rintro ⟨n, hn, ho⟩
  have hget := get?_eq_some_iff.2 ⟨hn, rfl⟩
  rcases h n.key (by simp [content?_of_mem hn]) with hroot | ⟨a, ha⟩
  · rw [hroot] at hget
    rw [root_not_orphan hget] at ho
    cases ho
  · rw [hc.not_orphan ha hget] at ho
    cases ho

theorem link_link (t : Table) : t.link.link = t.link := by
  have hparents : ∀ k, t.link.parentsOf k = t.parentsOf k := by
    intro k
    simp only [parentsOf, link, mapNodes, List.filter_map, List.map_map]
    rfl
  unfold link
  simp only [mapNodes, List.map_map]
  congr 1
  refine List.map_congr_left fun n _ => ?_
  exact congrArg (fun ps => { n with parents := ps }) (hparents n.key)

/-! ## Folds of tidy tables -/

/-- A node with two parents is not folded. -/
theorem Tidy.fold_of_edges {t : Table} (ht : t.Tidy) {p q n : Nat} (hpq : p ≠ q)
    (hp : t.Edge p n) (hq : t.Edge q n) : t.fold n = (false, t) := by
  have hsite : t.site? n = none := by
    cases h : t.site? n with
    | none => rfl
    | some s =>
      obtain ⟨rfl, hs⟩ := isSite_of_site? h
      have hparents := hs.parents
      rw [ht.parents_eq hs.node] at hparents
      have hp := mem_parentsOf.2 hp
      have hq := mem_parentsOf.2 hq
      rw [hparents, List.mem_singleton] at hp hq
      exact absurd (hp.trans hq.symm) hpq
  rw [fold, hsite]

theorem fold_of_bool {t : Table} {k : Nat} {b : Bool} (h : t.content? k = some (.leaf (.bool b))) :
    t.fold k = (false, t) := by
  have hsite : t.site? k = none := by
    cases hsite : t.site? k with
    | none => rfl
    | some s =>
      obtain ⟨rfl, hs⟩ := isSite_of_site? hsite
      have hc := hs.content?_node
      rw [h] at hc
      exact absurd (Option.some.inj hc).symm (isBool_eq_false_iff.1 hs.isOpen b)
  rw [fold, hsite]

/-- The site of a node that a single edge of a branch leads to. -/
theorem Tidy.isSite {t : Table} (ht : t.Tidy) {p n : Nat} {b : Branch} {c : Content} {side : Side}
    (hp : t.content? p = some (.branch b)) (hn : t.content? n = some c)
    (hopen : ∀ x, c ≠ .leaf (.bool x)) (hside : b.sideOf? n = some side)
    (honly : ∀ a, t.Edge a n → a = p) :
    ∃ s, t.IsSite s ∧ s.node.key = n ∧ s.parent.key = p ∧ s.node.content = c ∧ s.branch = b ∧
      s.side = side := by
  obtain ⟨parent, hparent, hpc⟩ := Option.map_eq_some_iff.1 hp
  obtain ⟨node, hnode, hnc⟩ := Option.map_eq_some_iff.1 hn
  obtain ⟨-, rfl⟩ := mem_of_get? hparent
  obtain ⟨-, rfl⟩ := mem_of_get? hnode
  have hedge : t.Edge parent.key node.key :=
    ⟨b, side.outcome, hp, (Branch.sideOf?_spec hside).1⟩
  have hparents : node.parents = [parent.key] := by
    rw [ht.parents_eq hnode]
    have hnodup := t.nodup_parentsOf node.key
    have hmem := mem_parentsOf.2 hedge
    have hall : ∀ a ∈ t.parentsOf node.key, a = parent.key := fun a ha =>
      honly a (mem_parentsOf.1 ha)
    rw [List.eq_replicate_of_mem hall] at hmem hnodup ⊢
    have hlen := List.nodup_replicate.1 hnodup
    have hpos : (t.parentsOf node.key).length ≠ 0 := by
      intro h0
      rw [h0] at hmem
      cases hmem
    have hone : (t.parentsOf node.key).length = 1 := by omega
    rw [hone]
    rfl
  refine ⟨⟨node, parent, b, side⟩, ⟨hnode, ?_, hparents, hparent, hpc, hside⟩, rfl, rfl, hnc,
    rfl, rfl⟩
  exact isBool_eq_false_iff.2 fun x hx => hopen x (hnc.symm.trans hx)

/-- A branch that only its neighbour leads to is merged into it when the two share a successor; all
other entries stay. -/
theorem Tidy.fold_of_merge {t : Table} (ht : t.Tidy) {p n : Nat} {b c m : Branch} {side : Side}
    (hp : t.content? p = some (.branch b)) (hn : t.content? n = some (.branch c)) (hpn : p ≠ n)
    (hside : b.sideOf? n = some side) (honly : ∀ a, t.Edge a n → a = p)
    (hm : b.merge? c side = some m) :
    ∃ u, t.fold n = (true, u) ∧ u.Tidy ∧ u.root = t.root ∧
      u.entries = (t.entries.filter fun e => e.1 != n).map
        fun e => if e.1 = p then (e.1, .branch m) else e := by
  obtain ⟨s, hs, rfl, rfl, hnode, rfl, rfl⟩ := ht.isSite hp hn (by simp) hside honly
  have hcovers := covers_rewritten t s (.branch m) (s.parent.assigns <|> s.node.assigns)
  -- A merge leaves no orphans, because the parent takes over the edges of the node.
  have hsupported : ∀ k,
      (t.rewritten s (.branch m) (s.parent.assigns <|> s.node.assigns)).content? k ≠ none →
      k = t.root ∨
        ∃ a, (t.rewritten s (.branch m) (s.parent.assigns <|> s.node.assigns)).Edge a k := by
    intro k hk
    have hkept : k ≠ s.node.key ∧ t.content? k ≠ none := by
      rw [content?_rewritten hs hpn] at hk
      split_ifs at hk with h1 h2
      · exact absurd rfl hk
      · exact ⟨h1, by simp [h2, hs.content?_parent]⟩
      · exact ⟨h1, hk⟩
    rcases ht.supported k hkept.2 with hroot | ⟨a, ha⟩
    · exact .inl hroot
    · exact .inr ⟨_, edge_merged hs hpn hnode hm _ ha hkept.1⟩
  have hreplace : t.replace s (.branch m) (s.parent.assigns <|> s.node.assigns) =
      t.rewritten s (.branch m) (s.parent.assigns <|> s.node.assigns) :=
    prune_eq_self hcovers hsupported
  refine ⟨t.rewritten s (.branch m) (s.parent.assigns <|> s.node.assigns), ?_, ?_, rfl, ?_⟩
  · have hmerged : t.merged? s =
        some (t.replace s (.branch m) (s.parent.assigns <|> s.node.assigns)) := by
      simp only [merged?, hnode, hm]
    rw [fold, site?_of_isSite hs]
    simp only [if_neg hpn, hmerged, hreplace]
  · exact ⟨link_link _, hsupported⟩
  · simp only [entries, rewritten, link, update, erase, filter, mapNodes, List.map_map,
      List.filter_map]
    refine List.map_congr_left fun x hx => ?_
    simp only [Function.comp_apply]
    split_ifs <;> rfl

end Table

namespace Circuit

/-! ## Circuits inside a table -/

/-- A circuit stands in a table, between other entries: its exits are no blocks of it, and edges
from outside enter at its first block. -/
structure Within (d : Circuit) (t : Table) (a b : Nat) (pre post : List (Nat × Content)) :
    Prop where
  entries : t.entries = pre ++ d.entries a b ++ post
  onTrue : a ∉ d.keys
  onFalse : b ∉ d.keys
  exits : a ≠ b
  enter : ∀ x k, t.Edge x k → x ∉ d.keys → k ∈ d.keys → k = d.first

section Within

variable {d l r : Circuit} {op : Connective} {t : Table} {a b : Nat}
  {pre post : List (Nat × Content)}

theorem Within.subset (h : d.Within t a b pre post) : d.entries a b ⊆ t.entries := by
  intro e he
  rw [h.entries]
  exact List.mem_append_left _ (List.mem_append_right _ he)

theorem Within.subset_right (h : (join op l r).Within t a b pre post) :
    r.entries a b ⊆ t.entries :=
  List.Subset.trans (List.subset_append_right _ _) h.subset

/-- The edges of a block lead to blocks of the circuit or to its exits. -/
theorem mem_of_edge (h : d.entries a b ⊆ t.entries) {x k : Nat} (he : t.Edge x k)
    (hx : x ∈ d.keys) : k ∈ d.keys ∨ k = a ∨ k = b := by
  rw [← d.map_entries a b, List.mem_map] at hx
  obtain ⟨⟨x, c⟩, hx, rfl⟩ := hx
  obtain ⟨br, rfl, hbr⟩ := branch_of_mem_entries hx
  obtain ⟨o, rfl⟩ := (Table.edge_iff_of_branch (Table.mem_entries.1 (h hx))).1 he
  exact hbr o

theorem Within.nodup_keys (h : d.Within t a b pre post) : d.keys.Nodup := by
  have hsorted := t.pairwise_entries
  rw [h.entries, List.append_assoc, List.pairwise_append, List.pairwise_append] at hsorted
  rw [← d.map_entries a b]
  exact List.pairwise_map.2 (hsorted.2.1.1.imp fun hlt => Nat.ne_of_lt hlt)

theorem Within.disjoint (h : (join op l r).Within t a b pre post) {k : Nat} (hl : k ∈ l.keys)
    (hr : k ∈ r.keys) : False :=
  (List.disjoint_of_nodup_append h.nodup_keys) hl hr

/-- The left part of a join stands in the table, with the right part behind it. -/
theorem Within.left (h : (join op l r).Within t a b pre post) :
    l.Within t (op.whenTrue r.first a) (op.whenFalse r.first b) pre (r.entries a b ++ post) := by
  have hfirst : r.first ∉ l.keys := fun hl => h.disjoint hl r.first_mem_keys
  have ha : a ∉ l.keys := fun hl => h.onTrue (List.mem_append_left _ hl)
  have hb : b ∉ l.keys := fun hl => h.onFalse (List.mem_append_left _ hl)
  have har : a ≠ r.first := fun he => h.onTrue (List.mem_append_right _ (he ▸ r.first_mem_keys))
  have hbr : b ≠ r.first := fun he => h.onFalse (List.mem_append_right _ (he ▸ r.first_mem_keys))
  refine ⟨?_, ?_, ?_, ?_, ?_⟩
  · rw [h.entries, Circuit.entries]
    simp only [List.append_assoc]
  · cases op
    · exact hfirst
    · exact ha
  · cases op
    · exact hb
    · exact hfirst
  · cases op
    · exact hbr.symm
    · exact har
  · intro x k he hx hk
    have hkd : k ∈ (join op l r).keys := List.mem_append_left _ hk
    by_cases hxr : x ∈ r.keys
    · rcases mem_of_edge h.subset_right he hxr with hkr | rfl | rfl
      · exact absurd hkr fun hkr => h.disjoint hk hkr
      · exact absurd hkd h.onTrue
      · exact absurd hkd h.onFalse
    · refine h.enter x k he ?_ hkd
      simp [keys, hx, hxr]

/-- The right part of a join stands in the table, with the left part before it. -/
theorem Within.right (h : (join op l r).Within t a b pre post) :
    r.Within t a b
      (pre ++ l.entries (op.whenTrue r.first a) (op.whenFalse r.first b)) post := by
  refine ⟨?_, ?_, ?_, h.exits, ?_⟩
  · rw [h.entries, Circuit.entries]
    simp only [List.append_assoc]
  · exact fun hr => h.onTrue (List.mem_append_right _ hr)
  · exact fun hr => h.onFalse (List.mem_append_right _ hr)
  · intro x k he hx hk
    have hkd : k ∈ (join op l r).keys := List.mem_append_right _ hk
    by_cases hxl : x ∈ l.keys
    · -- The left part leads to the right part only as one of its exits.
      rcases mem_of_edge h.left.subset he hxl with hkl | hk' | hk'
      · exact absurd hk fun hk => h.disjoint hkl hk
      · cases op with
        | and => exact hk'
        | or =>
          rw [hk'] at hkd
          exact absurd hkd h.onTrue
      · cases op with
        | and =>
          rw [hk'] at hkd
          exact absurd hkd h.onFalse
        | or => exact hk'
    · have hfirst := h.enter x k he (by simp [keys, hx, hxl]) hkd
      exact absurd hk fun hk => h.disjoint (hfirst ▸ l.first_mem_keys) hk

/-- The last block of a join with the other connective on the left has a companion that leads to the
right part too, so the right part has two parents. -/
theorem Within.fold_right {op' : Connective} {x y : Circuit} {key : Nat} {g : Formula}
    (h : (join op (join op' x y) (block key g)).Within t a b pre post) (ht : t.Tidy)
    (hne : op' ≠ op) : t.fold key = (false, t) := by
  obtain ⟨k₁, f₁, h₁⟩ := x.exists_last
    (op'.whenTrue y.first (op.whenTrue key a)) (op'.whenFalse y.first (op.whenFalse key b))
  obtain ⟨k₂, f₂, h₂⟩ := y.exists_last (op.whenTrue key a) (op.whenFalse key b)
  have hc₁ := Table.mem_entries.1 (h.left.left.subset h₁)
  have hc₂ := Table.mem_entries.1 (h.left.right.subset h₂)
  have hk : k₁ ≠ k₂ := by
    rintro rfl
    exact h.left.disjoint (mem_keys_of_mem_entries h₁) (mem_keys_of_mem_entries h₂)
  cases op with
  | and =>
    cases op' with
    | and => exact absurd rfl hne
    | or => exact ht.fold_of_edges hk ⟨_, true, hc₁, rfl⟩ ⟨_, true, hc₂, rfl⟩
  | or =>
    cases op' with
    | and => exact ht.fold_of_edges hk ⟨_, false, hc₁, rfl⟩ ⟨_, false, hc₂, rfl⟩
    | or => exact absurd rfl hne

theorem map_filter_eq_self {es : List (Nat × Content)} {p n : Nat} {c : Content}
    (h : ∀ e ∈ es, e.1 ≠ p ∧ e.1 ≠ n) :
    ((es.filter fun e => e.1 != n).map fun e => if e.1 = p then (e.1, c) else e) = es := by
  rw [List.filter_eq_self.2 fun e he => by simp [(h e he).2]]
  rw [List.map_congr_left fun e he => if_neg (h e he).1, List.map_id']

/-- Two neighbouring blocks are merged. -/
theorem Within.fold_blocks {p n : Nat} {f g : Formula}
    (h : (join op (block p f) (block n g)).Within t a b pre post) (ht : t.Tidy) :
    ∃ u, t.fold n = (true, u) ∧ u.Tidy ∧ u.root = t.root ∧
      u.entries = pre ++ (block p (f.combine op g)).entries a b ++ post := by
  have hpn : p ≠ n := by
    rintro rfl
    exact h.disjoint (List.mem_singleton.2 rfl) (List.mem_singleton.2 rfl)
  have han : a ≠ n := fun he => h.onTrue (by simp [keys, he])
  have hbn : b ≠ n := fun he => h.onFalse (by simp [keys, he])
  have hp : t.content? p = some (.branch ⟨f, op.whenTrue n a, op.whenFalse n b⟩) :=
    Table.mem_entries.1 (h.left.subset (List.mem_singleton.2 rfl))
  have hn : t.content? n = some (.branch ⟨g, a, b⟩) :=
    Table.mem_entries.1 (h.right.subset (List.mem_singleton.2 rfl))
  have honly : ∀ x, t.Edge x n → x = p := by
    intro x hx
    by_contra hxp
    by_cases hxn : x = n
    · subst hxn
      obtain ⟨o, ho⟩ := (Table.edge_iff_of_branch hn).1 hx
      cases o
      · exact hbn ho
      · exact han ho
    · exact hpn (h.enter x n hx (by simp [keys, hxp, hxn]) (by simp [keys])).symm
  -- The entries are those of the table without the second block and with a new first block.
  have hentries : (t.entries.filter fun e => e.1 != n).map
      (fun e => if e.1 = p then (e.1, .branch ⟨f.combine op g, a, b⟩) else e) =
      pre ++ (block p (f.combine op g)).entries a b ++ post := by
    have hother : ∀ e ∈ pre ++ post, e.1 ≠ p ∧ e.1 ≠ n := by
      intro e he
      have hsorted := t.pairwise_entries
      rw [h.entries, entries_join, List.append_assoc, List.pairwise_append,
        List.pairwise_append] at hsorted
      obtain ⟨-, ⟨-, -, hpost⟩, hpre⟩ := hsorted
      have hfirst : (p, Content.branch ⟨f, op.whenTrue n a, op.whenFalse n b⟩) ∈
          (block p f).entries (op.whenTrue n a) (op.whenFalse n b) ++ (block n g).entries a b :=
        List.mem_append_left _ (List.mem_singleton.2 rfl)
      have hsecond : (n, Content.branch ⟨g, a, b⟩) ∈
          (block p f).entries (op.whenTrue n a) (op.whenFalse n b) ++ (block n g).entries a b :=
        List.mem_append_right _ (List.mem_singleton.2 rfl)
      rcases List.mem_append.1 he with he | he
      · have h₁ := hpre e he _ (List.mem_append_left _ hfirst)
        have h₂ := hpre e he _ (List.mem_append_left _ hsecond)
        exact ⟨Nat.ne_of_lt h₁, Nat.ne_of_lt h₂⟩
      · have h₁ := hpost _ hfirst e he
        have h₂ := hpost _ hsecond e he
        exact ⟨Nat.ne_of_gt h₁, Nat.ne_of_gt h₂⟩
    rw [h.entries, entries_join, List.filter_append, List.filter_append, List.map_append,
      List.map_append,
      map_filter_eq_self fun e he => hother e (List.mem_append_left _ he),
      map_filter_eq_self fun e he => hother e (List.mem_append_right _ he)]
    simp [Circuit.entries, hpn]
  cases op with
  | and =>
    have hside : (⟨f, n, b⟩ : Branch).sideOf? n = some .onTrue := by simp [Branch.sideOf?, hbn]
    have hm : (⟨f, n, b⟩ : Branch).merge? ⟨g, a, b⟩ .onTrue =
        some ⟨f.combine .and g, a, b⟩ := by simp [Branch.merge?]
    rw [← hentries]
    exact ht.fold_of_merge hp hn hpn hside honly hm
  | or =>
    have hside : (⟨f, a, n⟩ : Branch).sideOf? n = some .onFalse := by
      simp [Branch.sideOf?, han]
    have hm : (⟨f, a, n⟩ : Branch).merge? ⟨g, a, b⟩ .onFalse =
        some ⟨f.combine .or g, a, b⟩ := by simp [Branch.merge?]
    rw [← hentries]
    exact ht.fold_of_merge hp hn hpn hside honly hm

/-- A sweep over the keys of a right-nested join contracts it, and changes nothing else. -/
theorem sweep_contract (hd : d.IsRightNested) (hjoin : ∀ key f, d ≠ .block key f)
    (h : d.Within t a b pre post) (ht : t.Tidy) (rest : List Nat) :
    ∃ u, t.sweep (d.keys.reverse ++ rest) = (true, u) ∧ u.Tidy ∧ u.root = t.root ∧
      u.entries = pre ++ d.contract.entries a b ++ post := by
  -- The recursion is that of the contraction: right part first, then two blocks, then left part.
  fun_induction contract d generalizing pre post a b rest with
  | case1 key f => exact absurd rfl (hjoin key f)
  | case2 op l op' x y ih =>
    obtain ⟨u, hu, htidy, hroot, hentries⟩ := ih hd.2.2 (by simp) h.right (l.keys.reverse ++ rest)
    refine ⟨u, ?_, htidy, hroot, ?_⟩
    · rw [keys, List.reverse_append, List.append_assoc, hu]
    · rw [hentries, entries_join, first_contract]
      simp only [List.append_assoc]
  | case3 op key f n g =>
    obtain ⟨u, hu, htidy, hroot, hentries⟩ := h.fold_blocks ht
    refine ⟨u, ?_, htidy, hroot, hentries⟩
    simp [keys, Table.sweep, hu]
  | case4 op op' x y key g ih =>
    have hne : op' ≠ op := by
      rintro rfl
      exact hd.1 x y rfl
    obtain ⟨u, hu, htidy, hroot, hentries⟩ := ih hd.2.1 (by simp) h.left rest
    refine ⟨u, ?_, htidy, hroot, ?_⟩
    · rw [keys, List.reverse_append, List.append_assoc]
      simp only [keys, List.reverse_singleton, List.singleton_append, Table.sweep,
        h.fold_right ht hne] at hu ⊢
      exact hu
    · rw [hentries, entries_join]
      simp only [List.append_assoc]

end Within

/-! ## Reduction of a circuit -/

section Reduce

variable {d : Circuit} {t : Table} {a b : Nat}
  (h : t.entries = d.entries a b ++ [(a, .leaf (.bool true)), (b, .leaf (.bool false))])

include h

theorem content?_exits :
    t.content? a = some (.leaf (.bool true)) ∧ t.content? b = some (.leaf (.bool false)) := by
  constructor <;> rw [← Table.mem_entries, h] <;> simp

/-- A circuit with its exits as leaves stands in their table. -/
theorem within_of_entries :
    d.Within t a b [] [(a, .leaf (.bool true)), (b, .leaf (.bool false))] := by
  have hsorted := t.pairwise_entries
  rw [h, List.pairwise_append] at hsorted
  obtain ⟨-, hab, hlt⟩ := hsorted
  have hkeys : ∀ k ∈ d.keys, k < a ∧ k < b := by
    intro k hk
    rw [← d.map_entries a b, List.mem_map] at hk
    obtain ⟨e, he, rfl⟩ := hk
    exact ⟨hlt e he _ List.mem_cons_self, hlt e he _ (List.mem_cons_of_mem _ List.mem_cons_self)⟩
  have hne : a < b := by simpa using hab
  obtain ⟨ha, hb⟩ := content?_exits h
  refine ⟨h, fun hk => ?_, fun hk => ?_, Nat.ne_of_lt hne, fun x k he hx hk => ?_⟩
  · exact Nat.lt_irrefl a (hkeys a hk).1
  · exact Nat.lt_irrefl b (hkeys b hk).2
  · -- Outside the circuit there are only leaves.
    obtain ⟨br, o, hc, -⟩ := he
    have hmem := Table.mem_entries.2 hc
    rw [h, List.mem_append] at hmem
    rcases hmem with hmem | hmem
    · exact absurd (mem_keys_of_mem_entries hmem) hx
    · simp at hmem

theorem openCount_of_entries : t.openCount = d.keys.length := by
  have hcount : ∀ (d : Circuit) (a b : Nat), (d.entries a b).countP
      (fun e => !({ key := e.1, content := e.2 } : Node).isBool) = d.keys.length := by
    intro d
    induction d with
    | block key f => intro a b; rfl
    | join op l r hl hr =>
      intro a b
      rw [entries_join, List.countP_append, hl, hr, keys, List.length_append]
  rw [Table.openCount_eq_countP_entries, h, List.countP_append, hcount]
  rfl

/-- The exits of a circuit are passed by a sweep. -/
theorem sweep_of_entries :
    t.sweep t.keys.reverse = t.sweep d.keys.reverse := by
  obtain ⟨ha, hb⟩ := content?_exits h
  rw [Table.keys_eq_map_entries, h, List.map_append, map_entries, List.reverse_append]
  simp [Table.sweep, Table.fold_of_bool ha, Table.fold_of_bool hb]

end Reduce

/-- A table that holds a right-nested circuit and its exits is reduced to the formula of the
circuit. -/
theorem reduce_of_isRightNested {d : Circuit} (hd : d.IsRightNested) {t : Table} (ht : t.Tidy)
    {a b : Nat} (hroot : t.root = d.first)
    (h : t.entries = d.entries a b ++ [(a, .leaf (.bool true)), (b, .leaf (.bool false))]) :
    ∃ u, t.reduce = (.ok (), u) ∧ u.statement = .ok d.formula := by
  -- Every sweep leaves one block less.
  induction hsize : d.keys.length generalizing d t with
  | zero =>
    have hpos := List.length_pos_of_mem d.first_mem_keys
    omega
  | succ size ih =>
    cases d with
    | block key f =>
      refine ⟨t, Table.reduce_of_openCount_le (by simp [openCount_of_entries h, keys]), ?_⟩
      obtain ⟨ha, hb⟩ := content?_exits h
      have hkey : t.content? key = some (.branch ⟨f, a, b⟩) := by
        rw [← Table.mem_entries, h]
        simp [entries]
      obtain ⟨n, hn, hc⟩ := Option.map_eq_some_iff.1 hkey
      have hroot : t.root = key := hroot
      simp [Table.statement, hroot, hn, hc, Table.decided?, Table.bool?_of_content? ha,
        Table.bool?_of_content? hb, formula]
    | join op l r =>
      obtain ⟨w, hw, htidy, hwroot, hentries⟩ :=
        sweep_contract hd (by simp) (within_of_entries h) ht []
      rw [List.append_nil] at hw
      have hlen := length_contract op l r
      have hopen : ¬t.openCount ≤ 1 := by
        rw [openCount_of_entries h]
        have hpos := List.length_pos_of_mem (join op l r).contract.first_mem_keys
        omega
      rw [Table.reduce_of_sweep hopen ((sweep_of_entries h).trans hw), ← formula_contract]
      refine ih (isRightNested_contract hd) htidy ?_ (by simpa using hentries) (by omega)
      rw [hwroot, hroot, first_contract]

/-- A table that holds a circuit and its exits is reduced to a formula that renders as that of the
circuit. -/
theorem reduce_entries {d : Circuit} {t : Table} (ht : t.Tidy) {a b : Nat}
    (hroot : t.root = d.first)
    (h : t.entries = d.entries a b ++ [(a, .leaf (.bool true)), (b, .leaf (.bool false))]) :
    ∃ u f, t.reduce = (.ok (), u) ∧ u.statement = .ok f ∧ f.render = d.formula.render := by
  rw [← entries_rightNest] at h
  rw [← first_rightNest] at hroot
  obtain ⟨u, hu, hf⟩ := reduce_of_isRightNested d.isRightNested_rightNest ht hroot h
  exact ⟨u, _, hu, hf, (render_formula_rightNest d).1⟩

end Circuit

end ShortCircuit
