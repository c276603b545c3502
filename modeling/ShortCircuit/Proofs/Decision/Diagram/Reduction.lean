import ShortCircuit.Proofs.Decision.Confluence
import ShortCircuit.Proofs.Decision.Diagram.Contraction
import ShortCircuit.Proofs.Recovery.Run

/-!
# Which diagrams are reduced

Folds contract a diagram until it is a single test or no test can be folded. A left part of a join
does not stand at the end of the diagram, so it becomes a single test only if all of its tests have
the same sign; contraction changes nothing about that.

* `Diagram.Holds`: a table holds a diagram from its root on. `Diagram.Holds.contract`: a fold leaves
  a table that holds the contracted diagram.
* `Diagram.Within.exists_folds`: where the left parts are uniform, some test can be folded.
* `Diagram.Holds.reduce`: the reduction succeeds exactly if the left parts are uniform.
* `Formula.reduce_diagram`: the table of a foldable formula is reduced to an equivalent statement,
  and that of any other formula is not reduced.
-/

namespace ShortCircuit

namespace Diagram

/-! ## Folds of foldable diagrams -/

section Exists

variable {op : Connective} {p : Nat} {f : Formula} {negated : Bool} {l r : Diagram} {t : Table}
  {x y : Nat}

/-- Only the test before a part leads to its first test. -/
theorem Within.eq_of_edge_first (h : (join op (test p f negated) r).Within t x y) {z : Nat}
    (he : t.Edge z r.first) : z = p := by
  by_contra hz
  by_cases hzr : z ∈ r.keys
  · exact (h.right.ne_of_edge he hzr).2 rfl
  · have hp : r.first = p := h.enter he (by simp [keys, hz, hzr])
      (List.mem_append_right _ r.first_mem_keys)
    exact h.disjoint (List.mem_singleton.2 hp) r.first_mem_keys

theorem Within.sideOf?_first (h : (join op (test p f negated) r).Within t x y) :
    (branch f negated (op.whenTrue r.first x) (op.whenFalse r.first y)).sideOf? r.first =
      some (op.side negated) :=
  sideOf?_branch op f negated fun heq => h.right.exit_notMem op (heq ▸ r.first_mem_keys)

/-- Two tests of one sign are merged. -/
theorem Within.folds_pair {n : Nat} {g : Formula}
    (h : (join op (test p f negated) (test n g negated)).Within t x y) :
    t.Folds p n (.branch (branch (f.combine (Formula.shown op negated) g) negated x y)) :=
  .merge (h.left.content (List.mem_singleton_self _)) (h.right.content (List.mem_singleton_self _))
    h.sideOf?_first (fun _ => h.eq_of_edge_first) (merge?_branch op f g negated n x y)

/-- In a uniform diagram with several tests, two can be merged. -/
theorem Within.exists_folds_of_uniform {d : Diagram} (h : d.Within t x y)
    (hd : d.Uniform negated) :
    (∃ k g, d = test k g negated) ∨ ∃ p n c, t.Folds p n c := by
  induction d generalizing x y with
  | test key g n =>
    obtain rfl : n = negated := hd
    exact .inl ⟨key, g, rfl⟩
  | closed key g => exact absurd hd id
  | join op l r hl hr =>
    rcases hl h.left hd.1 with ⟨p, f, rfl⟩ | hfolds
    · rcases hr h.right hd.2 with ⟨n, g, rfl⟩ | hfolds
      · exact .inr ⟨p, n, _, h.folds_pair⟩
      · exact .inr hfolds
    · exact .inr hfolds

/-- A test before a single test that cannot be merged, or before a closed one, is closed when the
exits are leaves. -/
theorem Within.folds_closed (h : (join op (test p f negated) r).Within t x y)
    (hx : ∀ {z}, t.Edge z x → t.content? x = some (.leaf (.bool true)))
    (hy : ∀ {z}, t.Edge z y → t.content? y = some (.leaf (.bool false)))
    {c : Content} (hc : t.content? r.first = some c) {e : Formula} (hadds : t.adds c = .formula e)
    (hmerge : ∀ b, c = .branch b → (branch f negated (op.whenTrue r.first x)
      (op.whenFalse r.first y)).merge? b (op.side negated) = none) :
    ∃ p n c, t.Folds p n c := by
  have hp := h.left.content (List.mem_singleton_self _)
  have hexit : t.Edge p (op.exit x y) :=
    ⟨_, !(op.side negated).outcome, hp, by cases op <;> cases negated <;> rfl⟩
  obtain ⟨value, hvalue, hab⟩ : ∃ value, t.content? (op.exit x y) = some (.leaf value) ∧
      value.absorption? (op.side negated) = some (negated, op) := by
    cases op with
    | and => exact ⟨_, hy hexit, by cases negated <;> rfl⟩
    | or => exact ⟨_, hx hexit, by cases negated <;> rfl⟩
  have hopen : ∀ b, c ≠ .leaf (.bool b) := by
    rintro b rfl
    exact not_isTest_of_leaf hc (h.right.isTest r.first_mem_keys)
  obtain ⟨g, hg⟩ : ∃ g, Table.joined (branch f negated (op.whenTrue r.first x)
      (op.whenFalse r.first y)).statement negated op (t.adds c) = some g := by
    rw [hadds]
    exact ⟨_, rfl⟩
  rw [← other_branch op f negated r.first] at hvalue
  exact ⟨p, r.first, _, .absorb hp hc hopen h.sideOf?_first (fun _ => h.eq_of_edge_first) hmerge
    hvalue hab hg⟩

/-- Where no left part mixes plain and negated tests, some test of a join can be folded. -/
theorem Within.exists_folds (h : (join op l r).Within t x y) (hd : (join op l r).IsNested true)
    (hfold : (join op l r).IsFoldable)
    (hx : ∀ {z}, t.Edge z x → t.content? x = some (.leaf (.bool true)))
    (hy : ∀ {z}, t.Edge z y → t.content? y = some (.leaf (.bool false))) :
    ∃ p n c, t.Folds p n c := by
  induction r generalizing op l with
  | join op' u w hu hw => exact hw h.right hd.2.2 hfold.2
  | closed n g =>
    obtain ⟨negated, hl⟩ := hfold.1
    rcases h.left.exists_folds_of_uniform hl with ⟨p, f, rfl⟩ | hfolds
    · exact h.folds_closed hx hy (h.right.content (List.mem_singleton_self _)) rfl (by simp)
    · exact hfolds
  | test n g sign =>
    obtain ⟨negated, hl⟩ := hfold.1
    rcases h.left.exists_folds_of_uniform hl with ⟨p, f, rfl⟩ | hfolds
    · by_cases hsign : sign = negated
      · subst hsign
        exact ⟨p, n, _, h.folds_pair⟩
      · have hn := h.right.content (List.mem_singleton_self _)
        have hdecided : t.decided? (branch g sign x y) = some (if sign then g.negate else g) :=
          decided?_branch (hx (edge_onTrue hn)) (hy (edge_onFalse hn))
        refine h.folds_closed hx hy hn (adds_of_decided? hdecided) ?_
        rintro b ⟨⟩
        exact merge?_branch_of_ne h.exits hsign
    · exact hfolds

end Exists

/-! ## Tables that hold a diagram -/

/-- A table holds a nested diagram from its root on, and beside it only the leaves at the exits. -/
structure Holds (d : Diagram) (t : Table) (a b : Nat) : Prop where
  tidy : t.Tidy
  total : ∀ {z k : Nat}, t.Edge z k → t.content? k ≠ none
  root : t.root = d.first
  nested : d.IsNested true
  within : d.Within t a b
  leaves : ∀ {k : Nat} {c : Content}, t.content? k = some c → k ∉ d.keys →
    k = a ∧ c = .leaf (.bool true) ∨ k = b ∧ c = .leaf (.bool false)

section Holds

variable {d : Diagram} {t : Table} {a b : Nat} (h : d.Holds t a b)

include h

theorem Holds.onTrue {c : Content} (hc : t.content? a = some c) : c = .leaf (.bool true) := by
  rcases h.leaves hc h.within.onTrue with ⟨-, hc⟩ | ⟨heq, -⟩
  · exact hc
  · exact absurd heq h.within.exits

theorem Holds.onFalse {c : Content} (hc : t.content? b = some c) : c = .leaf (.bool false) := by
  rcases h.leaves hc h.within.onFalse with ⟨heq, -⟩ | ⟨-, hc⟩
  · exact absurd heq.symm h.within.exits
  · exact hc

/-- All edges start at tests of the diagram. -/
theorem Holds.mem_keys_of_edge {z k : Nat} (he : t.Edge z k) : z ∈ d.keys := by
  obtain ⟨br, o, hbr, -⟩ := he
  by_contra hz
  rcases h.leaves hbr hz with ⟨-, hc⟩ | ⟨-, hc⟩
  · cases hc
  · cases hc

theorem Holds.not_edge_self (k : Nat) : ¬t.Edge k k := fun he =>
  (h.within.ne_of_edge he (h.mem_keys_of_edge he)).1 rfl

/-- Only tests are folded. -/
theorem Holds.mem_keys_of_folds {p n : Nat} {c : Content} (hf : t.Folds p n c) : n ∈ d.keys := by
  obtain ⟨e, he⟩ := Option.ne_none_iff_exists'.1 (h.total hf.edge)
  by_contra hn
  rcases h.leaves he hn with ⟨-, rfl⟩ | ⟨-, rfl⟩
  · exact hf.content?_ne_bool true he
  · exact hf.content?_ne_bool false he

/-- Every fold contracts the diagram. -/
theorem Holds.exists_contracts {p n : Nat} {c : Content} (hf : t.Folds p n c) :
    ∃ d', Contracts true p n c a b d d' := by
  have hp := h.mem_keys_of_edge hf.edge
  have hn := h.mem_keys_of_folds hf
  obtain ⟨s, hs⟩ := h.within.exists_place h.nested (by simp) hn (h.within.ne_of_edge hf.edge hp).2
    hf.edge fun z => hf.only
  obtain rfl := hs.first
  have hcontent := hs.within.left.content (List.mem_singleton_self _)
  have hside := hs.within.sideOf?_first
  have htrue : ∀ {v}, t.content? s.onTrue = some (.leaf v) → v = .bool true := by
    intro v hv
    rcases hs.onTrue with hx | hx
    · cases h.onTrue (hx ▸ hv)
      rfl
    · exact absurd hx (not_isTest_of_leaf hv)
  have hfalse : ∀ {v}, t.content? s.onFalse = some (.leaf v) → v = .bool false := by
    intro v hv
    rcases hs.onFalse with hy | hy
    · cases h.onFalse (hy ▸ hv)
      rfl
    · exact absurd hy (not_isTest_of_leaf hv)
  cases hf with
  | merge hp hn hside' honly hm =>
    cases hcontent.symm.trans hp
    cases hside.symm.trans hside'
    obtain ⟨e, he⟩ := contracts_of_merge hs.within hs.nested hn hm
    exact hs.contracts he
  | absorb hp hn hopen hside' honly hmerge hother hab hg =>
    cases hcontent.symm.trans hp
    cases hside.symm.trans hside'
    rw [other_branch] at hother
    rw [statement_branch] at hg
    obtain ⟨e, he⟩ :=
      contracts_of_absorb hs.within hs.nested hs.inner htrue hfalse hn hmerge hother hab hg
    exact hs.contracts he

theorem Holds.parent_ne_node {s : Site} (hs : t.IsSite s) : s.parent.key ≠ s.node.key := fun heq =>
  h.not_edge_self _ (heq ▸ hs.edge)

section Contract

variable {s : Site} (hs : t.IsSite s) {c : Content} {d' : Diagram}
  (hd' : Contracts true s.parent.key s.node.key c a b d d') (assigns : Option UInt8)

include hs hd'

theorem Holds.ne_node {k : Nat} (hk : k ∈ d'.keys) : k ≠ s.node.key := by
  rintro rfl
  obtain ⟨e, he⟩ := exists_mem_entries hk a b
  rcases hd'.entries.1 he with ⟨heq, -⟩ | ⟨-, hn, -⟩
  · exact h.parent_ne_node hs heq.symm
  · exact hn rfl

theorem Holds.content_rewritten {k : Nat} {e : Content} (he : (k, e) ∈ d'.entries a b) :
    (t.rewritten s c assigns).content? k = some e := by
  rw [Table.content?_rewritten hs (h.parent_ne_node hs),
    if_neg (h.ne_node hs hd' (mem_keys_of_mem_entries he))]
  rcases hd'.entries.1 he with ⟨rfl, rfl⟩ | ⟨hkp, -, he⟩
  · rw [if_pos rfl]
  · rw [if_neg hkp, h.within.content he]

omit hs in
theorem Holds.root_rewritten : (t.rewritten s c assigns).root = d'.first := by
  rw [Table.root_rewritten, h.root, hd'.first]

/-- Every test of the contracted diagram but the first has a parent in it, so pruning keeps all of
them. -/
theorem Holds.content_replace {k : Nat} {e : Content} (he : (k, e) ∈ d'.entries a b) :
    (t.replace s c assigns).content? k = some e := by
  rw [Table.replace_eq_prune, Table.content?_prune_of_supported (Table.covers_rewritten _ _ _ _)
    (S := (· ∈ d'.keys)) (fun j hj => ?_) (mem_keys_of_mem_entries he),
    h.content_rewritten hs hd' assigns he]
  by_cases hfirst : j = d'.first
  · exact .inl (hfirst.trans (h.root_rewritten hd' assigns).symm)
  · obtain ⟨z, br, o, hz, hnext⟩ := exists_previous hd'.nested hj hfirst a b
    exact .inr ⟨z, mem_keys_of_mem_entries hz, br, o, h.content_rewritten hs hd' assigns hz, hnext⟩

theorem Holds.leaves_replace {k : Nat} {e : Content}
    (he : (t.replace s c assigns).content? k = some e) (hk : k ∉ d'.keys) :
    k = a ∧ e = .leaf (.bool true) ∨ k = b ∧ e = .leaf (.bool false) := by
  obtain ⟨hkn, ⟨hkp, rfl⟩ | ⟨hkp, hkt⟩⟩ :=
    Table.content?_of_replace hs (h.parent_ne_node hs) he
  · exact absurd (mem_keys_of_mem_entries (hd'.entries.2 (.inl ⟨hkp, rfl⟩))) hk
  · refine h.leaves hkt fun hkd => hk ?_
    obtain ⟨e', he'⟩ := exists_mem_entries hkd a b
    exact mem_keys_of_mem_entries (hd'.entries.2 (.inr ⟨hkp, hkn, he'⟩))

/-- The branches after the fold are those of the contracted diagram. -/
theorem Holds.mem_entries_of_replace {z : Nat} {br : Branch}
    (hz : (t.replace s c assigns).content? z = some (.branch br)) :
    (z, .branch br) ∈ d'.entries a b := by
  by_cases hzd : z ∈ d'.keys
  · obtain ⟨e, he⟩ := exists_mem_entries hzd a b
    cases (h.content_replace hs hd' assigns he).symm.trans hz
    exact he
  · rcases h.leaves_replace hs hd' assigns hz hzd with ⟨-, hc⟩ | ⟨-, hc⟩
    · cases hc
    · cases hc

/-- No successor is missing after the fold. -/
theorem Holds.total_replace (hf : t.Folds s.parent.key s.node.key c) {z k : Nat}
    (he : (t.replace s c assigns).Edge z k) : (t.replace s c assigns).content? k ≠ none := by
  have hne := h.parent_ne_node hs
  have hkept : (t.replace s c assigns).content? k = (t.rewritten s c assigns).content? k :=
    Table.content?_prune_of_edge (Table.covers_rewritten _ _ _ _) he
  obtain ⟨br, o, hz, rfl⟩ := he
  have hentry := h.mem_entries_of_replace hs hd' assigns hz
  obtain ⟨z', hz'⟩ : ∃ z', t.Edge z' (br.next o) := by
    rcases hd'.entries.1 hentry with ⟨-, hc⟩ | ⟨-, -, hzt⟩
    · exact ⟨_, (hf.isRewrite hs hne).next br o hc.symm⟩
    · exact ⟨z, br, o, h.within.content hzt, rfl⟩
  have hnode : br.next o ≠ s.node.key := by
    have hn := h.mem_keys_of_folds hf
    rcases next_mem_of_mem_entries hentry o with hk | hk | hk
    · exact h.ne_node hs hd' hk
    · exact hk ▸ fun heq => h.within.onTrue (heq ▸ hn)
    · exact hk ▸ fun heq => h.within.onFalse (heq ▸ hn)
  rw [hkept, Table.content?_rewritten hs hne, if_neg hnode]
  split_ifs
  · simp
  · exact h.total hz'

/-- After a fold the table holds the contracted diagram. -/
theorem Holds.contract (hf : t.Folds s.parent.key s.node.key c) :
    d'.Holds (t.replace s c assigns) a b := by
  refine ⟨Table.tidy_prune (Table.link_link _), h.total_replace hs hd' assigns hf, ?_, hd'.nested,
    ⟨h.content_replace hs hd' assigns, ?_, ?_, ?_, h.within.exits, ?_⟩,
    h.leaves_replace hs hd' assigns⟩
  · rw [Table.replace_eq_prune, Table.root_prune, h.root_rewritten hd' assigns]
  · exact h.within.nodup.sublist hd'.sublist
  · exact fun hk => h.within.onTrue (hd'.sublist.subset hk)
  · exact fun hk => h.within.onFalse (hd'.sublist.subset hk)
  · rintro z k ⟨br, o, hz, rfl⟩ hzd
    exact absurd (mem_keys_of_mem_entries (h.mem_entries_of_replace hs hd' assigns hz)) hzd

end Contract

/-! ## Reduction of a diagram -/

theorem Holds.content_onTrue {z : Nat} (he : t.Edge z a) :
    t.content? a = some (.leaf (.bool true)) := by
  obtain ⟨c, hc⟩ := Option.ne_none_iff_exists'.1 (h.total he)
  rw [hc, h.onTrue hc]

theorem Holds.content_onFalse {z : Nat} (he : t.Edge z b) :
    t.content? b = some (.leaf (.bool false)) := by
  obtain ⟨c, hc⟩ := Option.ne_none_iff_exists'.1 (h.total he)
  rw [hc, h.onFalse hc]

/-- Only tests are open. -/
theorem Holds.openCount_le : t.openCount ≤ d.keys.length := by
  have hnodup : ((t.nodes.filter fun n => !n.isBool).map (·.key)).Nodup :=
    List.pairwise_map.2 ((t.sorted.filter _).imp Nat.ne_of_lt)
  have hsubset : (t.nodes.filter fun n => !n.isBool).map (·.key) ⊆ d.keys := by
    intro k hk
    obtain ⟨n, hn, rfl⟩ := List.mem_map.1 hk
    obtain ⟨hmem, hopen⟩ := List.mem_filter.1 hn
    have hleaf := Table.isBool_eq_false_iff.1 (Bool.not_eq_true' _ ▸ hopen)
    by_contra hkd
    rcases h.leaves (Table.content?_of_mem hmem) hkd with ⟨-, hc⟩ | ⟨-, hc⟩
    · exact hleaf true hc
    · exact hleaf false hc
  have hle := (List.subperm_of_subset hnodup hsubset).length_le
  rwa [List.length_map, ← List.countP_eq_length_filter] at hle

/-- When at most one node is open, the diagram is a single test and the table states its value. -/
theorem Holds.statement_of_openCount_le (hle : t.openCount ≤ 1) :
    d.IsFoldable ∧ ∃ f, t.statement = .ok f ∧ ∀ v, f.eval v = d.eval v := by
  have hroot := h.root
  cases d with
  | join op l r =>
    have hfirst : l.first ≠ r.first := fun heq =>
      h.within.disjoint l.first_mem_keys (heq ▸ r.first_mem_keys)
    obtain ⟨c, hc, hleaf⟩ := h.within.left.isTest l.first_mem_keys
    obtain ⟨c', hc', hleaf'⟩ := h.within.right.isTest r.first_mem_keys
    obtain ⟨x, rfl⟩ := Table.bool_of_openCount_le hle hc hc' hfirst fun x => hleaf _
    exact absurd rfl (hleaf' _)
  | closed key f =>
    have hkey := h.within.content (List.mem_singleton_self _)
    refine ⟨trivial, f, ?_, fun v => rfl⟩
    rw [Table.statement_eq, hroot, first, hkey]
  | test key f negated =>
    have hkey := h.within.content (List.mem_singleton_self _)
    have hx := h.content_onTrue (edge_onTrue hkey)
    have hy := h.content_onFalse (edge_onFalse hkey)
    refine ⟨trivial, if negated then f.negate else f, ?_, fun v => ?_⟩
    · rw [Table.statement_eq, hroot, first, hkey]
      simp only [decided?_branch hx hy, Option.getD_some]
    · cases negated <;> simp [eval]

omit h in
/-- The reduction of a table that holds a diagram succeeds exactly if no left part of the diagram
mixes plain and negated tests. -/
theorem Holds.reduce (h : d.Holds t a b) :
    (d.IsFoldable → ∃ u f, t.reduce = (.ok (), u) ∧ u.statement = .ok f ∧
      ∀ v, f.eval v = d.eval v) ∧
    (¬d.IsFoldable → ∃ n u, t.reduce = (.error (.stalled n), u)) := by
  induction t using Table.reduce.induct generalizing d with
  | case1 t hle =>
    obtain ⟨hfold, f, hf, heval⟩ := h.statement_of_openCount_le hle
    exact ⟨fun _ => ⟨t, f, Table.reduce_of_openCount_le hle, hf, heval⟩,
      fun hno => absurd hfold hno⟩
  | case2 t hle u hu ih =>
    obtain ⟨key, hkey⟩ : t.FoldStep u := by
      rcases Table.sweep_cases h.not_edge_self t.keys.reverse with ⟨-, hstep⟩ | ⟨hstuck, -⟩
      · rwa [hu] at hstep
      · cases hu.symm.trans hstuck
    obtain ⟨s, c, assigns, hs, -, hfolds, rfl⟩ :=
      Table.exists_folds_of_fold (Table.covers_of_linked h.tidy.linked) hkey
    obtain ⟨d', hd'⟩ := h.exists_contracts hfolds
    have hih := ih (h.contract hs hd' assigns hfolds)
    rw [hd'.foldable] at hih
    simp only [hd'.eval] at hih
    rwa [Table.reduce_of_sweep hle hu]
  | case3 t hle u hu =>
    refine ⟨fun hfold => ?_, fun _ => ⟨_, u, Table.reduce_of_stuck hle hu⟩⟩
    -- Some test can be folded, so the sweep would have folded one.
    exfalso
    obtain ⟨p, n, c, hfolds⟩ : ∃ p n c, t.Folds p n c := by
      cases d with
      | test key f negated => exact absurd h.openCount_le hle
      | closed key f => exact absurd h.openCount_le hle
      | join op l r =>
        exact h.within.exists_folds h.nested hfold h.content_onTrue h.content_onFalse
    have hpn : p ≠ n := fun heq => h.not_edge_self p (heq ▸ hfolds.edge)
    obtain ⟨s, assigns, -, -, -, hfold⟩ := Table.exists_fold_of_folds h.tidy hpn hfolds
    rcases Table.sweep_cases h.not_edge_self t.keys.reverse with ⟨htrue, -⟩ | ⟨-, hkeys⟩
    · rw [hu] at htrue
      cases htrue
    · have hstuck := Table.stuck_of_keys fun key hkey => hkeys key (List.mem_reverse.2 hkey)
      have := hstuck n
      rw [hfold] at this
      cases this

end Holds

/-! ## Tables of diagrams -/

/-- Inserting entries with different keys into an empty table gives these entries. -/
theorem content?_foldl_insert {es : List (Nat × Content)} (h : (es.map (·.1)).Nodup) {root k : Nat}
    {c : Content} :
    ((es.map fun e => ({ key := e.1, content := e.2 } : Node)).foldl Table.insert
      (.empty root)).content? k = some c ↔ (k, c) ∈ es := by
  have hkeys : (es.map fun e => ({ key := e.1, content := e.2 } : Node)).Pairwise
      fun m n => m.key ≠ n.key := List.pairwise_map.2 (List.pairwise_map.1 h)
  have hmem : ∀ {e}, e ∈ es → ((es.map fun e => ({ key := e.1, content := e.2 } : Node)).foldl
      Table.insert (.empty root)).content? e.1 = some e.2 := fun he =>
    Table.content?_foldl_insert_of_mem hkeys (List.mem_map_of_mem he)
  refine ⟨fun hc => ?_, fun he => hmem he⟩
  by_cases hk : ∃ e ∈ es, e.1 = k
  · obtain ⟨e, he, rfl⟩ := hk
    cases (hmem he).symm.trans hc
    exact he
  · rw [Table.content?_foldl_insert_of_ne fun n hn heq => ?_] at hc
    · cases hc
    · obtain ⟨e, he, rfl⟩ := List.mem_map.1 hn
      exact hk ⟨e, he, heq⟩

theorem table_rightNest (d : Diagram) (a b : Nat) : d.rightNest.table a b = d.table a b := by
  rw [table, table, entries_rightNest, first_rightNest]

section Table

variable {d : Diagram} {a b : Nat} (hkeys : d.keys.Nodup) (ha : a ∉ d.keys) (hb : b ∉ d.keys)
  (hab : a ≠ b)

include hkeys ha hb hab

/-- The table of a diagram has its nodes and the two leaves. -/
theorem content?_table {k : Nat} {c : Content} :
    (d.table a b).content? k = some c ↔ (k, c) ∈ d.entries a b ∨
      k = a ∧ c = .leaf (.bool true) ∨ k = b ∧ c = .leaf (.bool false) := by
  have hnodup : ((d.entries a b ++
      [(a, Content.leaf (.bool true)), (b, Content.leaf (.bool false))]).map (·.1)).Nodup := by
    rw [List.map_append, map_entries, List.nodup_append]
    refine ⟨hkeys, by simpa using hab, fun k hk j hj => ?_⟩
    rcases (by simpa using hj : j = a ∨ j = b) with rfl | rfl
    · exact fun heq => ha (heq ▸ hk)
    · exact fun heq => hb (heq ▸ hk)
  rw [table, Table.content?_link, content?_foldl_insert hnodup]
  simp only [List.mem_append, List.mem_cons, Prod.mk.injEq, List.not_mem_nil, or_false]

/-- A nested diagram without closed tests is held by its table. -/
theorem holds_table (hd : d.IsNested false) : d.Holds (d.table a b) a b := by
  have hcontent := fun {k c} => content?_table hkeys ha hb hab (k := k) (c := c)
  have hbranch : ∀ {z br}, (d.table a b).content? z = some (.branch br) →
      (z, .branch br) ∈ d.entries a b := by
    intro z br hz
    rcases hcontent.1 hz with hz | ⟨-, hc⟩ | ⟨-, hc⟩
    · exact hz
    · cases hc
    · cases hc
  have hroot : (d.table a b).root = d.first := Table.root_foldl_insert ..
  obtain ⟨last, f, negated, hlast⟩ := exists_last hd a b
  have hlast := hcontent.2 (.inl hlast)
  refine ⟨⟨Table.link_link _, fun k hk => ?_⟩, ?_, hroot, hd.mono, ⟨fun hk => hcontent.2 (.inl hk),
    hkeys, ha, hb, hab, ?_⟩, ?_⟩
  · obtain ⟨c, hc⟩ := Option.ne_none_iff_exists'.1 hk
    rcases hcontent.1 hc with hk | ⟨rfl, -⟩ | ⟨rfl, -⟩
    · by_cases hfirst : k = d.first
      · exact .inl (hfirst.trans hroot.symm)
      · obtain ⟨z, br, o, hz, hnext⟩ :=
          exists_previous hd (mem_keys_of_mem_entries hk) hfirst a b
        exact .inr ⟨z, br, o, hcontent.2 (.inl hz), hnext⟩
    · exact .inr ⟨last, edge_onTrue hlast⟩
    · exact .inr ⟨last, edge_onFalse hlast⟩
  · rintro z k ⟨br, o, hz, rfl⟩
    rcases next_mem_of_mem_entries (hbranch hz) o with hk | hk | hk
    · obtain ⟨c, hc⟩ := exists_mem_entries hk a b
      simp [hcontent.2 (.inl hc)]
    · simp [hk, hcontent.2 (.inr (.inl ⟨rfl, rfl⟩))]
    · simp [hk, hcontent.2 (.inr (.inr ⟨rfl, rfl⟩))]
  · rintro z k ⟨br, o, hz, rfl⟩ hzd
    exact absurd (mem_keys_of_mem_entries (hbranch hz)) hzd
  · intro k c hc hk
    exact (hcontent.1 hc).resolve_left fun hentry => hk (mem_keys_of_mem_entries hentry)

end Table

end Diagram

/-! ## Formulas -/

/-- The table of a foldable formula is reduced to an equivalent statement, and the reduction of any
other formula stalls. -/
theorem Formula.reduce_diagram (e : Formula) {key : Nat → Nat} (hkey : StrictMono key)
    {onTrue onFalse : Nat} (hexits : onTrue ≠ onFalse)
    (hfree : ∀ i < e.atoms.length, key i ≠ onTrue ∧ key i ≠ onFalse) :
    (e.Foldable → ∃ u f, ((e.diagram key 0).table onTrue onFalse).reduce = (.ok (), u) ∧
      u.statement = .ok f ∧ ∀ v, f.eval v = e.eval v) ∧
    (¬e.Foldable → ∃ n u, ((e.diagram key 0).table onTrue onFalse).reduce =
      (.error (.stalled n), u)) := by
  have hkeys : (e.diagram key 0).rightNest.keys = (List.range' 0 e.atoms.length).map key := by
    rw [Diagram.keys_rightNest, keys_diagram]
  have hfree' : ∀ k ∈ (e.diagram key 0).rightNest.keys, k ≠ onTrue ∧ k ≠ onFalse := by
    intro k hk
    rw [hkeys, List.mem_map] at hk
    obtain ⟨i, hi, rfl⟩ := hk
    exact hfree i (by simpa using hi)
  have hnodup : (e.diagram key 0).rightNest.keys.Nodup := by
    have hrange : (List.range' 0 e.atoms.length).Nodup := List.nodup_range'
    rw [hkeys]
    exact hrange.map hkey.injective
  have hholds := Diagram.holds_table hnodup (fun hk => (hfree' _ hk).1 rfl)
    (fun hk => (hfree' _ hk).2 rfl) hexits (isNested_rightNest key e 0)
  have hreduce := hholds.reduce
  rw [Diagram.table_rightNest, isFoldable_rightNest] at hreduce
  simpa only [Diagram.eval_rightNest, eval_diagram] using hreduce

namespace Formula

/-- The condition `(not a or not b) and (c or not d)`, in which only the last operand mixes plain
and negated atoms. -/
def mixedLast : Formula :=
  .join .and (.join .or (.atom "a" true) (.atom "b" true) false)
    (.join .or (.atom "c" false) (.atom "d" true) false) false

/-- The condition `(a and not b) or c`, in which the first operand mixes them. -/
def mixedFirst : Formula :=
  .join .or (.join .and (.atom "a" false) (.atom "b" true) false) (.atom "c" false) false

theorem reduce_diagram_mixed :
    (∃ u f, ((mixedLast.diagram (2 * · + 2) 0).table 1 0).reduce = (.ok (), u) ∧
      u.statement = .ok f ∧ ∀ v, f.eval v = mixedLast.eval v) ∧
    ∃ n u, ((mixedFirst.diagram (2 * · + 2) 0).table 1 0).reduce = (.error (.stalled n), u) := by
  have hkey : StrictMono fun i : Nat => 2 * i + 2 := fun i j hij => by
    show 2 * i + 2 < 2 * j + 2
    omega
  have hfree : ∀ i : Nat, 2 * i + 2 ≠ 1 ∧ 2 * i + 2 ≠ 0 := fun i => by omega
  exact ⟨(reduce_diagram mixedLast hkey (by decide) fun i _ => hfree i).1 (by decide),
    (reduce_diagram mixedFirst hkey (by decide) fun i _ => hfree i).2 (by decide)⟩

/-- The first two tests of `(a and not b) or c` both lead to the third, on opposite sides, and none
of the three can be folded. -/
theorem stalled_mixedFirst :
    ((mixedFirst.diagram id 0).table 3 4).reduce.1 = .error (.stalled 3) := by
  rw [Table.reduce_of_stuck (by decide) rfl]
  rfl

end Formula

end ShortCircuit
