import ShortCircuit.Proofs.Decision.Contraction
import ShortCircuit.Proofs.Decision.Texts

/-!
# Folds of tables with increasing edges

In a table whose edges lead to larger keys, with linked parents and no node missing, a fold is
determined by the contents of a few keys, and its result by the tests that are left: the leaves are
those of the table that a test leads to.

* `Table.Proper` are the tables that folds are studied on; folds keep them.
* `Table.Folds`: by their contents, one key can be folded into another, which gets a new content.
* `Table.exists_folds_of_fold`, `Table.exists_fold_of_folds`: this is what `Table.fold` does.
* `Table.Folded`: the table after a fold, described by its tests.
-/

namespace ShortCircuit.Table

/-! ## Proper tables -/

/-- Parents are linked, every node but the root has one, every successor is a node, and edges lead
to larger keys. -/
structure Proper (t : Table) : Prop extends Tidy t where
  total : ∀ {a k : Nat}, t.Edge a k → t.content? k ≠ none
  increasing : ∀ {a k : Nat}, t.Edge a k → a < k

theorem Edge.content?_ne_none {t : Table} {a k : Nat} (h : t.Edge a k) : t.content? a ≠ none := by
  obtain ⟨b, o, hb, -⟩ := h
  simp [hb]

section Proper

variable {t : Table} (ht : t.Proper)

include ht

theorem Proper.covers : t.Covers := covers_of_linked ht.linked

theorem Proper.not_edge_self (k : Nat) : ¬t.Edge k k :=
  fun h => Nat.lt_irrefl k (ht.increasing h)

/-- The root has the smallest key. -/
theorem Proper.root_le {k : Nat} (hk : t.content? k ≠ none) : t.root ≤ k := by
  induction k using Nat.strongRecOn with
  | ind k ih =>
    rcases ht.supported k hk with hroot | ⟨a, ha⟩
    · exact Nat.le_of_eq hroot.symm
    · have hlt := ht.increasing ha
      have hle := ih a hlt ha.content?_ne_none
      omega

theorem Proper.lt_of_isSite {s : Site} (hs : t.IsSite s) :
    s.parent.key < s.node.key ∧ t.root ≠ s.node.key := by
  have hlt := ht.increasing hs.edge
  have hle := ht.root_le hs.edge.content?_ne_none
  exact ⟨hlt, by omega⟩

theorem Proper.supported_texts (k : Nat) (hk : t.textsAt k ≠ []) :
    k = t.root ∨ ∃ a, t.Edge a k :=
  ht.supported k fun hnone => hk (textsAt_of_none hnone)

end Proper

/-- Pruning leaves no orphans. -/
theorem tidy_prune {t : Table} (h : t.link = t) : t.prune.Tidy := by
  induction t using prune.induct with
  | case1 t ho ih =>
    rw [prune, dif_pos ho]
    exact ih (link_link _)
  | case2 t ho =>
    rw [prune, dif_neg ho]
    refine ⟨h, fun k hk => ?_⟩
    obtain ⟨c, hc⟩ := Option.ne_none_iff_exists'.1 hk
    obtain ⟨n, hn, rfl, -⟩ := content?_eq_some_iff.1 hc
    have hlinked := parents_eq_of_linked h (get?_eq_some_iff.2 ⟨hn, rfl⟩)
    have hno : ¬t.isOrphan n = true := fun h => ho (List.any_eq_true.2 ⟨n, hn, h⟩)
    rw [isOrphan, Bool.and_eq_true, bne_iff_ne, not_and_or, not_not, List.isEmpty_iff,
      hlinked] at hno
    rcases hno with hroot | hparents
    · exact .inl hroot
    · obtain ⟨a, ha⟩ := List.exists_mem_of_ne_nil _ hparents
      exact .inr ⟨a, mem_parentsOf.1 ha⟩

theorem tidy_replace (t : Table) (s : Site) (c : Content) (assigns : Option UInt8) :
    (t.replace s c assigns).Tidy :=
  tidy_prune (link_link _)

/-! ## Tests and descendants -/

/-- The test at a key, folded or not. -/
def test? (t : Table) (k : Nat) : Option Content :=
  match t.content? k with
  | some (.leaf _) => none
  | c => c

theorem test?_eq_some_iff {t : Table} {k : Nat} {c : Content} :
    t.test? k = some c ↔ t.content? k = some c ∧ ∀ x, c ≠ .leaf x := by
  unfold test?
  split
  · next x hx =>
    rw [hx]
    constructor
    · intro h
      cases h
    · rintro ⟨h, hleaf⟩
      cases h
      exact absurd rfl (hleaf x)
  · next hne =>
    constructor
    · intro h
      refine ⟨h, ?_⟩
      rintro x rfl
      exact hne x h
    · exact fun h => h.1

theorem test?_ne_none_iff {t : Table} {k : Nat} : t.test? k ≠ none ↔ t.IsTest k := by
  rw [Option.ne_none_iff_exists']
  exact exists_congr fun c => test?_eq_some_iff

theorem edge_iff_test? {t : Table} {a k : Nat} :
    t.Edge a k ↔ ∃ b o, t.test? a = some (.branch b) ∧ b.next o = k := by
  simp only [Edge, test?_eq_some_iff]
  simp

/-- What folds keep: the second table is proper, its leaves are leaves of the first and its tests
stand at tests of the first. -/
structure Descends (t u : Table) : Prop where
  proper : u.Proper
  root : u.root = t.root
  content?_root : t.content? t.root ≠ none → u.content? t.root ≠ none
  leaf : ∀ {k : Nat} {x : LeafValue}, u.content? k = some (.leaf x) →
    t.content? k = some (.leaf x)
  test : ∀ {k : Nat}, u.IsTest k → t.IsTest k

theorem Descends.trans {t u w : Table} (h : t.Descends u) (h' : u.Descends w) : t.Descends w where
  proper := h'.proper
  root := h'.root.trans h.root
  content?_root := by
    intro hroot
    have hu := h.content?_root hroot
    rw [← h.root] at hu ⊢
    exact h'.content?_root hu
  leaf := fun hw => h.leaf (h'.leaf hw)
  test := fun hw => h.test (h'.test hw)

/-! ## Foldable keys -/

/-- What a content adds to its parent. -/
def adds (t : Table) (c : Content) : Contribution := t.contribution { key := 0, content := c }

/-- By their contents, the second key can be folded into the first, which then has a new content:
two branches are merged when they share a successor, and else a value is absorbed. -/
inductive Folds (t : Table) (p n : Nat) : Content → Prop
  | merge {b d m : Branch} {side : Side} (hp : t.content? p = some (.branch b))
      (hn : t.content? n = some (.branch d)) (hside : b.sideOf? n = some side)
      (honly : ∀ a, t.Edge a n → a = p) (hm : b.merge? d side = some m) : Folds t p n (.branch m)
  | absorb {b : Branch} {d : Content} {side : Side} {value : LeafValue} {negated : Bool}
      {op : Connective} {f : Formula} (hp : t.content? p = some (.branch b))
      (hn : t.content? n = some d) (hopen : ∀ x, d ≠ .leaf (.bool x))
      (hside : b.sideOf? n = some side) (honly : ∀ a, t.Edge a n → a = p)
      (hmerge : ∀ e, d = .branch e → b.merge? e side = none)
      (hother : t.content? (b.other side) = some (.leaf value))
      (hab : value.absorption? side = some (negated, op))
      (hf : joined b.statement negated op (t.adds d) = some f) : Folds t p n (.closed f)

theorem Folds.exists_side {t : Table} {p n : Nat} {c : Content} (h : t.Folds p n c) :
    ∃ b side, t.content? p = some (.branch b) ∧ b.sideOf? n = some side := by
  cases h with
  | merge hp hn hside => exact ⟨_, _, hp, hside⟩
  | absorb hp hn hopen hside => exact ⟨_, _, hp, hside⟩

theorem Folds.edge {t : Table} {p n : Nat} {c : Content} (h : t.Folds p n c) : t.Edge p n := by
  obtain ⟨b, side, hp, hside⟩ := h.exists_side
  exact ⟨b, side.outcome, hp, (Branch.sideOf?_spec hside).1⟩

theorem Folds.only {t : Table} {p n : Nat} {c : Content} (h : t.Folds p n c) {a : Nat}
    (ha : t.Edge a n) : a = p := by
  cases h with
  | merge hp hn hside honly => exact honly a ha
  | absorb hp hn hopen hside honly => exact honly a ha

theorem Folds.isRewrite {t : Table} {s : Site} {c : Content} (hs : t.IsSite s)
    (hne : s.parent.key ≠ s.node.key) (h : t.Folds s.parent.key s.node.key c) :
    t.IsRewrite s c := by
  cases h with
  | merge hp hn hside honly hm =>
    cases hp.symm.trans hs.content?_parent
    cases hside.symm.trans hs.side
    exact isRewrite_of_merge hs hne (Option.some.inj (hs.content?_node.symm.trans hn)) hm
  | absorb hp hn hopen hside honly hmerge hother hab hf =>
    cases hp.symm.trans hs.content?_parent
    cases hside.symm.trans hs.side
    cases hn.symm.trans hs.content?_node
    exact isRewrite_of_absorb hs hne hother hab hf

/-- A successful fold folds a key by its content. -/
theorem exists_folds_of_fold {t u : Table} (hc : t.Covers) {n : Nat} (h : t.fold n = (true, u)) :
    ∃ s c assigns, t.IsSite s ∧ s.node.key = n ∧ t.Folds s.parent.key s.node.key c ∧
      u = t.replace s c assigns := by
  unfold fold at h
  split at h
  · cases h
  · next s hsite =>
    obtain ⟨rfl, hs⟩ := isSite_of_site? hsite
    have honly : ∀ a, t.Edge a s.node.key → a = s.parent.key := fun a => hs.eq_of_edge hc
    split at h
    · cases h
    · split at h
      · next w hw =>
        cases h
        obtain ⟨d, m, hd, hm, rfl⟩ := merged?_eq_some hw
        refine ⟨s, _, _, hs, rfl, .merge hs.content?_parent ?_ hs.side honly hm, rfl⟩
        rw [hs.content?_node, hd]
      · next hmerge =>
        split at h
        · next w hw =>
          cases h
          obtain ⟨value, negated, op, f, hother, hab, hf, rfl⟩ := absorbed?_eq_some hw
          refine ⟨s, _, _, hs, rfl, .absorb hs.content?_parent hs.content?_node
            (isBool_eq_false_iff.1 hs.isOpen) hs.side honly ?_ hother hab hf, rfl⟩
          intro e he
          simp only [merged?, he] at hmerge
          split at hmerge
          · cases hmerge
          · next hnone => exact hnone
        · cases h

/-- A key that can be folded by its content is folded. -/
theorem exists_fold_of_folds {t : Table} (ht : t.Tidy) {p n : Nat} (hpn : p ≠ n) {c : Content}
    (h : t.Folds p n c) :
    ∃ s assigns, t.IsSite s ∧ s.node.key = n ∧ s.parent.key = p ∧
      t.fold n = (true, t.replace s c assigns) := by
  cases h with
  | merge hp hn hside honly hm =>
    obtain ⟨s, hs, rfl, rfl, hnode, rfl, rfl⟩ := ht.isSite hp hn (by simp) hside honly
    refine ⟨s, s.parent.assigns <|> s.node.assigns, hs, rfl, rfl, ?_⟩
    rw [fold, site?_of_isSite hs]
    simp only [if_neg hpn, merged?, hnode, hm]
  | @absorb b d side value negated op f hp hn hopen hside honly hmerge hother hab hf =>
    obtain ⟨s, hs, rfl, rfl, rfl, rfl, rfl⟩ := ht.isSite hp hn hopen hside honly
    have hmerged : t.merged? s = none := by
      unfold merged?
      split
      · next e he => rw [hmerge e he]
      · rfl
    refine ⟨s, s.parent.assigns, hs, rfl, rfl, ?_⟩
    rw [fold, site?_of_isSite hs]
    simp only [if_neg hpn, hmerged, absorbed?_of_leaf hother hab hf]

/-! ## The table after a fold -/

/-- The second table is the first after the second key was folded into the first key. -/
structure Folded (t : Table) (p n : Nat) (c : Content) (u : Table) : Prop where
  descends : t.Descends u
  test? : ∀ k, u.test? k = if k = n then none else if k = p then some c else t.test? k
  content? : ∀ {k : Nat}, k ≠ n → k ≠ p → u.content? k ≠ none → u.content? k = t.content? k

section Folded

variable {t u : Table} {p n : Nat} {c : Content} (h : t.Folded p n c u)

include h

theorem Folded.content?_parent (hpn : p ≠ n) : u.content? p = some c := by
  have hp := h.test? p
  rw [if_neg hpn, if_pos rfl] at hp
  exact (test?_eq_some_iff.1 hp).1

/-- A test beside the two keys stays as it is. -/
theorem Folded.content?_branch {k : Nat} (hkn : k ≠ n) (hkp : k ≠ p) {b : Branch}
    (hb : t.content? k = some (.branch b)) : u.content? k = some (.branch b) := by
  have hk := h.test? k
  rw [if_neg hkn, if_neg hkp, test?_eq_some_iff.2 ⟨hb, by simp⟩] at hk
  exact (test?_eq_some_iff.1 hk).1

theorem Folded.edge_of_ne {a k : Nat} (han : a ≠ n) (hap : a ≠ p) (he : t.Edge a k) :
    u.Edge a k := by
  obtain ⟨b, o, hb, rfl⟩ := he
  exact ⟨b, o, h.content?_branch han hap hb, rfl⟩

/-- What an edge leads to stays as it is. -/
theorem Folded.content?_of_edge {a k : Nat} (hkn : k ≠ n) (hkp : k ≠ p) (he : u.Edge a k) :
    u.content? k = t.content? k :=
  h.content? hkn hkp (h.descends.proper.total he)

/-- An edge after a fold was an edge before it, or the key that was folded had it. -/
theorem Folded.edge_cases (hf : t.Folds p n c) {a k : Nat} (he : u.Edge a k) :
    a = p ∧ t.Edge n k ∨ a ≠ n ∧ a ≠ p ∧ t.Edge a k := by
  obtain ⟨b, o, hb, rfl⟩ := edge_iff_test?.1 he
  rw [h.test?] at hb
  split_ifs at hb with han hap
  · refine .inl ⟨hap, ?_⟩
    cases hb
    cases hf with
    | merge hp hn hside honly hm => exact ⟨_, o, hn, ((Branch.merge?_spec hm).1 o).symm⟩
  · exact .inr ⟨han, hap, edge_iff_test?.2 ⟨b, o, hb, rfl⟩⟩

end Folded

section Rewrite

variable {t : Table} {s : Site} {c : Content} (hr : t.IsRewrite s c) (hs : t.IsSite s)
  (hne : s.parent.key ≠ s.node.key)

include hr hs hne

/-- An edge after a fold was an edge before it, or one of the node. -/
theorem IsRewrite.edge_of_replace {assigns : Option UInt8} {a k : Nat}
    (he : (t.replace s c assigns).Edge a k) :
    a = s.parent.key ∧ t.Edge s.node.key k ∨ a ≠ s.parent.key ∧ t.Edge a k := by
  obtain ⟨b, o, hb, rfl⟩ := he
  obtain ⟨-, ⟨hp, hbc⟩ | ⟨hp, hb⟩⟩ := content?_of_replace hs hne hb
  · exact .inl ⟨hp, hr.next b o hbc.symm⟩
  · exact .inr ⟨hp, b, o, hb, rfl⟩

/-- Where every successor is a node, this is so after a fold. -/
theorem IsRewrite.total_replace (hc : t.Covers)
    (htotal : ∀ {a k : Nat}, t.Edge a k → t.content? k ≠ none) {assigns : Option UInt8} {a k : Nat}
    (he : (t.replace s c assigns).Edge a k) : (t.replace s c assigns).content? k ≠ none := by
  have hkept : (t.replace s c assigns).content? k = (t.rewritten s c assigns).content? k :=
    content?_prune_of_edge (covers_rewritten _ _ _ _) he
  rw [hkept, content?_rewritten hs hne]
  -- No edge leads to the node any more, and other successors stay.
  obtain ⟨hkn, hk⟩ : k ≠ s.node.key ∧ t.content? k ≠ none := by
    rcases hr.edge_of_replace hs hne he with ⟨-, hnk⟩ | ⟨hap, hak⟩
    · refine ⟨?_, htotal hnk⟩
      rintro rfl
      exact hne (hs.eq_of_edge hc hnk).symm
    · refine ⟨?_, htotal hak⟩
      rintro rfl
      exact hap (hs.eq_of_edge hc hak)
  rw [if_neg hkn]
  split_ifs
  · simp
  · exact hk

end Rewrite

section Replace

variable {t : Table} (ht : t.Proper) {s : Site} (hs : t.IsSite s) {c : Content}
  (hr : t.IsRewrite s c)

include ht hs hr

theorem IsRewrite.proper_replace (assigns : Option UInt8) :
    (t.replace s c assigns).Proper := by
  obtain ⟨hlt, -⟩ := ht.lt_of_isSite hs
  have hne := Nat.ne_of_lt hlt
  refine { tidy_replace t s c assigns with total := ?_, increasing := ?_ }
  · exact hr.total_replace hs hne ht.covers ht.total
  · intro a k he
    rcases hr.edge_of_replace hs hne he with ⟨rfl, hnk⟩ | ⟨-, hak⟩
    · exact Nat.lt_trans hlt (ht.increasing hnk)
    · exact ht.increasing hak

omit hr in
theorem Proper.content?_root_replace (assigns : Option UInt8)
    (hroot : t.content? t.root ≠ none) : (t.replace s c assigns).content? t.root ≠ none := by
  obtain ⟨hlt, hrootne⟩ := ht.lt_of_isSite hs
  have hkept : (t.replace s c assigns).content? t.root =
      (t.rewritten s c assigns).content? t.root :=
    content?_prune_of_supported (covers_rewritten _ _ _ _) (S := (· = t.root))
      (fun _ h => .inl h) rfl
  rw [hkept, content?_rewritten hs (Nat.ne_of_lt hlt), if_neg hrootne]
  split_ifs
  · simp
  · exact hroot

theorem IsRewrite.folded (assigns : Option UInt8) :
    t.Folded s.parent.key s.node.key c (t.replace s c assigns) := by
  have hne := Nat.ne_of_lt (ht.lt_of_isSite hs).1
  have htest := fun {k} => hr.isTest_replace hs hne ht.supported_texts assigns (k := k)
  refine ⟨⟨hr.proper_replace ht hs assigns, ?_, ht.content?_root_replace hs assigns, ?_, ?_⟩,
    fun k => ?_, fun {k} hkn hkp hk => ?_⟩
  · rw [replace_eq_prune, root_prune, root_rewritten]
  · intro k x hk
    obtain ⟨-, ⟨-, hc⟩ | ⟨-, hk⟩⟩ := content?_of_replace hs hne hk
    · exact absurd hc.symm (hr.isTest x)
    · exact hk
  · exact fun hk => (htest.1 hk).2
  · by_cases hk : (t.replace s c assigns).IsTest k
    · obtain ⟨d, hd, hleaf⟩ := hk
      rw [test?_eq_some_iff.2 ⟨hd, hleaf⟩]
      obtain ⟨hkn, ⟨hkp, hdc⟩ | ⟨hkp, hkt⟩⟩ := content?_of_replace hs hne hd
      · rw [if_neg hkn, if_pos hkp, hdc]
      · rw [if_neg hkn, if_neg hkp, test?_eq_some_iff.2 ⟨hkt, hleaf⟩]
    · -- A test that is gone is the node, because tests are not pruned.
      have hnone : (t.replace s c assigns).test? k = none :=
        Classical.not_not.1 (mt test?_ne_none_iff.1 hk)
      rw [hnone]
      split_ifs with hkn hkp
      · rfl
      · exact absurd (htest.2 ⟨hkn, hkp ▸ isTest_of_branch hs.content?_parent⟩) hk
      · by_contra hne'
        exact hk (htest.2 ⟨hkn, test?_ne_none_iff.1 (Ne.symm hne')⟩)
  · obtain ⟨d, hd⟩ := Option.ne_none_iff_exists'.1 hk
    obtain ⟨-, ⟨hp, -⟩ | ⟨-, hkt⟩⟩ := content?_of_replace hs hne hd
    · exact absurd hp hkp
    · rw [hd, hkt]

end Replace

/-- What a successful fold does to a proper table. -/
theorem Proper.folded_of_fold {t u : Table} (ht : t.Proper) {n : Nat}
    (h : t.fold n = (true, u)) : ∃ p c, t.Folds p n c ∧ t.Folded p n c u := by
  obtain ⟨s, c, assigns, hs, rfl, hfolds, rfl⟩ := exists_folds_of_fold ht.covers h
  have hne := Nat.ne_of_lt (ht.lt_of_isSite hs).1
  exact ⟨_, c, hfolds, (hfolds.isRewrite hs hne).folded ht hs assigns⟩

/-- A key of a proper table that can be folded by its content is folded. -/
theorem Proper.fold_of_folds {t : Table} (ht : t.Proper) {p n : Nat} {c : Content}
    (h : t.Folds p n c) : ∃ u, t.fold n = (true, u) ∧ t.Folded p n c u := by
  have hpn := Nat.ne_of_lt (ht.increasing h.edge)
  obtain ⟨s, assigns, hs, rfl, rfl, hfold⟩ := exists_fold_of_folds ht.toTidy hpn h
  exact ⟨_, hfold, (h.isRewrite hs hpn).folded ht hs assigns⟩

/-- A fold that fails changes nothing, unless the node is its own parent. -/
theorem fold_eq_self {t : Table} {n : Nat}
    (hself : ∀ s, t.IsSite s → s.node.key = n → s.parent.key ≠ s.node.key)
    (h : (t.fold n).1 = false) : (t.fold n).2 = t := by
  unfold fold at h ⊢
  split at h
  · rfl
  · next s hsite =>
    obtain ⟨rfl, hs⟩ := isSite_of_site? hsite
    simp only [if_neg (hself s hs rfl)] at h ⊢
    split at h
    · cases h
    · split at h
      · cases h
      · rfl

theorem IsSite.parent_ne_of_not_edge_self {t : Table} (hself : ∀ k, ¬t.Edge k k) {s : Site}
    (hs : t.IsSite s) : s.parent.key ≠ s.node.key :=
  fun heq => hself _ (heq ▸ hs.edge)

theorem Proper.fold_eq_self {t : Table} (ht : t.Proper) {n : Nat} (h : (t.fold n).1 = false) :
    (t.fold n).2 = t :=
  Table.fold_eq_self (fun _ hs _ => hs.parent_ne_of_not_edge_self ht.not_edge_self) h

end ShortCircuit.Table
