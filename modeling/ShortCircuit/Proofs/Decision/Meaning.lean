import ShortCircuit.Proofs.Decision.Walk

/-!
# Reduction keeps the meaning of a table

When a table can be reduced and its root states a condition, that condition has the truth value of
the walk through the table as it was before, under every assignment.

Two invariants carry the argument. `Table.Covers` makes the single-parent rule of the fold a fact
about the graph. `Table.Decisive` says that the root, while it is there, leads to both truth values
or to a folded test; it rules out that the last branch of a reduced table leads to itself or to one
truth value only, where its statement would say something else than the walk.

* `Table.Step.kept`: what a step keeps of the leaves and folded tests that the root leads to.
* `Table.Step.decisive`: every step keeps the second invariant.
* `Table.walk_of_reduce`: the value of the statement is the value of the walk.
* `Table.reduce_keeps_meaning`: the same for tables with one leaf for each truth value.
-/

namespace ShortCircuit.Table

/-! ## Reachability and folds -/

theorem Reachable.head {t : Table} : t.Reachable t.root := .refl

/-- What is reachable is not pruned and stays reachable. -/
theorem Reachable.prune {t : Table} (hc : t.Covers) {k : Nat} (h : t.Reachable k) :
    t.prune.content? k = t.content? k ∧ t.prune.Reachable k := by
  have hkept : ∀ j, t.Reachable j → t.prune.content? j = t.content? j := by
    intro j hj
    refine content?_prune_of_supported hc (S := t.Reachable) (fun i hi => ?_) hj
    rcases Relation.ReflTransGen.cases_tail hi with h | ⟨a, ha, he⟩
    · exact .inl h
    · exact .inr ⟨a, ha, he⟩
  refine ⟨hkept k h, ?_⟩
  induction h with
  | refl =>
    rw [Reachable, root_prune]
  | tail ha he ih => exact Relation.ReflTransGen.tail ih (he.of_content (hkept _ ha))

section Fold

variable {t : Table} {s : Site} (hs : t.IsSite s) (hc : t.Covers)

include hs hc

/-- A branch that only leads to itself is not reachable unless it is the root. -/
theorem reachable_erase (hself : s.parent.key = s.node.key) (hroot : t.root ≠ s.node.key) {k : Nat}
    (h : t.Reachable k) :
    (t.erase s.node.key).content? k = t.content? k ∧ (t.erase s.node.key).Reachable k := by
  have hkept : ∀ {j}, j ≠ s.node.key → (t.erase s.node.key).content? j = t.content? j := by
    intro j hj
    rw [content?_erase, if_neg hj]
  have key : k ≠ s.node.key ∧ (t.erase s.node.key).Reachable k := by
    induction h with
    | refl => exact ⟨hroot, .refl⟩
    | @tail a b ha he ih =>
      refine ⟨?_, Relation.ReflTransGen.tail ih.2 (he.of_content (hkept ih.1))⟩
      rintro rfl
      exact ih.1 ((hs.eq_of_edge hc he).trans hself)
  exact ⟨hkept key.1, key.2⟩

/-- After a merge the parent stands where the node was, and all else that was reachable still is. -/
theorem reachable_merged (hne : s.parent.key ≠ s.node.key) (hroot : t.root ≠ s.node.key)
    {n m : Branch} (hn : s.node.content = .branch n) (hm : s.branch.merge? n s.side = some m)
    (assigns : Option UInt8) {k : Nat} (h : t.Reachable k) :
    (t.rewritten s (.branch m) assigns).Reachable (if k = s.node.key then s.parent.key else k) := by
  induction h with
  | refl =>
    rw [if_neg hroot]
    exact .refl
  | @tail a b ha he ih =>
    by_cases hb : b = s.node.key
    · -- Only the parent leads to the node.
      subst hb
      rw [hs.eq_of_edge hc he, if_neg hne] at ih
      rwa [if_pos rfl]
    · rw [if_neg hb]
      exact Relation.ReflTransGen.tail ih (edge_merged hs hne hn hm assigns he hb)

/-- After an absorption whatever was reachable still is, or was only reachable through the
parent. -/
theorem reachable_absorbed (hne : s.parent.key ≠ s.node.key) (hroot : t.root ≠ s.node.key)
    (content : Content) (assigns : Option UInt8) {k : Nat} (h : t.Reachable k) :
    (t.rewritten s content assigns).Reachable s.parent.key ∨
      k ≠ s.node.key ∧ (t.rewritten s content assigns).Reachable k := by
  induction h with
  | refl => exact .inr ⟨hroot, .refl⟩
  | @tail a b ha he ih =>
    rcases ih with hp | ⟨ha', hr⟩
    · exact .inl hp
    · by_cases hp : a = s.parent.key
      · exact .inl (hp ▸ hr)
      · refine .inr ⟨?_, Relation.ReflTransGen.tail hr (he.of_content ?_)⟩
        · rintro rfl
          exact hp (hs.eq_of_edge hc he)
        · rw [content?_rewritten hs hne, if_neg ha', if_neg hp]

end Fold

/-! ## The root decides -/

/-- The root leads to a folded test or to both truth values. -/
def Decides (t : Table) : Prop :=
  (∃ k f, t.Reachable k ∧ t.content? k = some (.closed f)) ∨
    ∀ b, ∃ k, t.Reachable k ∧ t.content? k = some (.leaf (.bool b))

/-- The root decides as long as it is there. -/
def Decisive (t : Table) : Prop := t.content? t.root ≠ none → t.Decides

theorem Decides.of_kept {t u : Table} (h : t.Decides)
    (hkept : ∀ {k c}, t.Reachable k → t.content? k = some c → (∀ b, c ≠ .branch b) →
      u.content? k = some c ∧ u.Reachable k) : u.Decides := by
  rcases h with ⟨k, f, hk, hf⟩ | hb
  · obtain ⟨hf, hk⟩ := hkept hk hf (by simp)
    exact .inl ⟨k, f, hk, hf⟩
  · refine .inr fun b => ?_
    obtain ⟨k, hk, hl⟩ := hb b
    obtain ⟨hl, hk⟩ := hkept hk hl (by simp)
    exact ⟨k, hk, hl⟩

/-- The root is gone when it was the folded node. -/
theorem root_ne_of_replace {t : Table} {s : Site} (hs : t.IsSite s)
    (hne : s.parent.key ≠ s.node.key) {content : Content} {assigns : Option UInt8}
    (h : (t.replace s content assigns).content? t.root ≠ none) : t.root ≠ s.node.key := by
  obtain ⟨c, hc⟩ := Option.ne_none_iff_exists'.1 h
  exact (content?_of_replace hs hne hc).1

theorem kept_merged {t : Table} {s : Site} (hs : t.IsSite s) (hc : t.Covers)
    (hne : s.parent.key ≠ s.node.key) (hroot : t.root ≠ s.node.key) {n m : Branch}
    (hn : s.node.content = .branch n) (hm : s.branch.merge? n s.side = some m)
    (assigns : Option UInt8) {k : Nat} {c : Content} (hk : t.Reachable k)
    (hkc : t.content? k = some c) (hcb : ∀ b, c ≠ .branch b) :
    (t.replace s (.branch m) assigns).content? k = some c ∧
      (t.replace s (.branch m) assigns).Reachable k := by
  have hkn : k ≠ s.node.key := by
    rintro rfl
    rw [hs.content?_node, hn] at hkc
    exact hcb n (Option.some.inj hkc).symm
  have hkp : k ≠ s.parent.key := by
    rintro rfl
    rw [hs.content?_parent] at hkc
    exact hcb _ (Option.some.inj hkc).symm
  have hr := reachable_merged hs hc hne hroot hn hm assigns hk
  rw [if_neg hkn] at hr
  obtain ⟨hsame, hr⟩ := hr.prune (covers_rewritten _ _ _ _)
  rw [content?_rewritten hs hne, if_neg hkn, if_neg hkp] at hsame
  exact ⟨hsame.trans hkc, hr⟩

/-- While the root is there, a step keeps all reachable leaves and folded tests, or it leaves a
folded test that is reachable. -/
theorem Step.kept {t u : Table} (h : t.Step u) (hc : t.Covers)
    (hroot : u.content? u.root ≠ none) :
    (∃ k f, u.Reachable k ∧ u.content? k = some (.closed f)) ∨
      ∀ {k c}, t.Reachable k → t.content? k = some c → (∀ b, c ≠ .branch b) →
        u.content? k = some c ∧ u.Reachable k := by
  rw [h.root_eq] at hroot
  cases h with
  | @drop s hs hself =>
    have hne : t.root ≠ s.node.key := by
      rintro he
      rw [content?_erase, if_pos he] at hroot
      exact hroot rfl
    refine .inr fun hk hkc _ => ?_
    obtain ⟨hsame, hr⟩ := reachable_erase hs hc hself hne hk
    exact ⟨hsame.trans hkc, hr⟩
  | merge hs hne hn hm assigns =>
    refine .inr fun hk hkc hcb => ?_
    exact kept_merged hs hc hne (root_ne_of_replace hs hne hroot) hn hm assigns hk hkc hcb
  | @absorb s value negated op f hs hne hother hab hf assigns =>
    have hcov := covers_rewritten t s (.closed f) assigns
    by_cases hp : (t.rewritten s (.closed f) assigns).Reachable s.parent.key
    · obtain ⟨hsame, hr⟩ := hp.prune hcov
      rw [content?_rewritten hs hne, if_neg hne, if_pos rfl] at hsame
      exact .inl ⟨s.parent.key, f, hr, hsame⟩
    · -- The parent is not reachable, so the fold is invisible from the root.
      refine .inr fun {k c} hk hkc _ => ?_
      rcases reachable_absorbed hs hc hne (root_ne_of_replace hs hne hroot) (.closed f) assigns hk
        with h | ⟨hkn, hr⟩
      · exact absurd h hp
      · have hkp : k ≠ s.parent.key := fun h => hp (h ▸ hr)
        obtain ⟨hsame, hr⟩ := hr.prune hcov
        rw [content?_rewritten hs hne, if_neg hkn, if_neg hkp] at hsame
        exact ⟨hsame.trans hkc, hr⟩

theorem Step.decisive {t u : Table} (h : t.Step u) (hc : t.Covers) (hd : t.Decisive) :
    u.Decisive := by
  intro hroot
  rcases h.kept hc hroot with hclosed | hkept
  · exact .inl hclosed
  · rw [h.root_eq] at hroot
    exact (hd (h.content?_ne_none hroot)).of_kept hkept

/-! ## The reduced table -/

theorem statement_eq_ok {t : Table} {f : Formula} (h : t.statement = .ok f) :
    t.content? t.root = some (.closed f) ∨
      ∃ b, t.content? t.root = some (.branch b) ∧ f = (t.decided? b).getD b.statement := by
  unfold statement at h
  split at h
  · cases h
  · next n hn =>
    rw [content?, hn, Option.map_some]
    split at h
    · next b hb =>
      cases h
      exact .inr ⟨b, by rw [hb], rfl⟩
    · next g hg =>
      cases h
      exact .inl (by rw [hg])
    · cases h

/-- The last branch of a reduced table leads to both truth values. -/
theorem decided_of_openCount_le {t : Table} (hle : t.openCount ≤ 1) (hd : t.Decides) {b : Branch}
    (hb : t.content? t.root = some (.branch b)) : ∃ f, t.decided? b = some f := by
  have hbool : ∀ {k c}, t.content? k = some c → k ≠ t.root → ∃ x, c = .leaf (.bool x) :=
    fun hk hne => bool_of_openCount_le hle hb hk hne.symm (by simp)
  -- Every other node is a boolean leaf, so what is reachable is the root or one edge away.
  have hedge : ∀ x, ∃ o, t.content? (b.next o) = some (.leaf (.bool x)) := by
    intro x
    rcases hd with ⟨k, f, -, hf⟩ | hx
    · obtain ⟨y, hy⟩ := hbool hf (by rintro rfl; rw [hb] at hf; cases hf)
      cases hy
    · obtain ⟨k, hk, hl⟩ := hx x
      rcases Relation.ReflTransGen.cases_tail hk with rfl | ⟨a, -, he⟩
      · rw [hb] at hl
        cases hl
      · have ha : a = t.root := by
          by_contra hne
          obtain ⟨b', o, ha, -⟩ := he
          obtain ⟨y, hy⟩ := hbool ha hne
          cases hy
        subst ha
        obtain ⟨o, rfl⟩ := (edge_iff_of_branch hb).1 he
        exact ⟨o, hl⟩
  obtain ⟨o, ho⟩ := hedge true
  obtain ⟨o', ho'⟩ := hedge false
  have ho := bool?_of_content? ho
  have ho' := bool?_of_content? ho'
  cases o <;> cases o' <;> simp only [Branch.next_true, Branch.next_false] at ho ho'
  · exact absurd (ho.symm.trans ho') (by simp)
  · exact ⟨b.statement.negate, by simp [decided?, ho, ho']⟩
  · exact ⟨b.statement, by simp [decided?, ho, ho']⟩
  · exact absurd (ho.symm.trans ho') (by simp)

/-- The statement of a reduced table has the value of its walk. -/
theorem walk_of_statement {t : Table} (hle : t.openCount ≤ 1) (hd : t.Decisive) {f : Formula}
    (hf : t.statement = .ok f) {v : String → Bool} {reading : Nat → Bool → Bool}
    (hr : t.Reads v reading) (o : Bool) :
    ∃ k p, t.Walk v t.root o k p ∧ t.valueAt v reading k p = f.eval v := by
  rcases statement_eq_ok hf with hclosed | ⟨b, hb, rfl⟩
  · exact ⟨_, _, .stop hclosed (by simp), valueAt_closed hclosed v reading o⟩
  · obtain ⟨g, hg⟩ := decided_of_openCount_le hle (hd (by simp [hb])) hb
    obtain ⟨x, hx, hv⟩ := decided?_spec hg v (b.statement.eval v)
    obtain ⟨hw, hval⟩ := walk_of_bool? hx (v := v) (b.statement.eval v) reading
    refine ⟨_, _, .step hb hw, ?_⟩
    rw [hval, hr (content?_of_bool? hx), hg, Option.getD_some, hv rfl, LeafValue.read]

/-! ## Whole reductions -/

/-- The leaves after several steps are leaves before them. -/
theorem content?_leaf_of_steps {t u : Table} (h : Relation.ReflTransGen Step t u) {k : Nat}
    {x : LeafValue} (hk : u.content? k = some (.leaf x)) : t.content? k = some (.leaf x) := by
  induction h with
  | refl => exact hk
  | tail _ hstep ih => exact ih (hstep.content?_leaf hk)

theorem covers_of_steps {t u : Table} (h : Relation.ReflTransGen Step t u) (hc : t.Covers) :
    u.Covers := by
  induction h with
  | refl => exact hc
  | tail _ hstep ih => exact hstep.covers ih

/-- What every step keeps in tables with recorded edges, several steps keep. -/
theorem invariant_of_steps {P : Table → Prop}
    (hstep : ∀ {w w' : Table}, w.Covers → w.Step w' → P w → P w') {t u : Table}
    (h : Relation.ReflTransGen Step t u) (hc : t.Covers) (ht : P t) : P u := by
  induction h with
  | refl => exact ht
  | tail hsteps hs ih => exact hstep (covers_of_steps hsteps hc) hs ih

theorem root_of_steps {t u : Table} (h : Relation.ReflTransGen Step t u) : u.root = t.root := by
  induction h with
  | refl => rfl
  | tail _ hstep ih => exact hstep.root_eq.trans ih

/-- Walks after several steps have counterparts before them when the reading is apt throughout. -/
theorem walk_of_steps {t u : Table} (h : Relation.ReflTransGen Step t u) {v : String → Bool}
    {reading : Nat → Bool → Bool}
    (hapt : ∀ w, Relation.ReflTransGen Step t w → w.Apt v reading) {k m : Nat} {o p : Bool}
    (hw : u.Walk v k o m p) :
    ∃ m' p', t.Walk v k o m' p' ∧ t.valueAt v reading m' p' = u.valueAt v reading m p := by
  induction h generalizing m p with
  | refl => exact ⟨m, p, hw, rfl⟩
  | tail hsteps hstep ih =>
    obtain ⟨m', p', hw', hv'⟩ := (hstep.refines (hapt _ hsteps)).walk hw
    obtain ⟨m'', p'', hw'', hv''⟩ := ih hw'
    exact ⟨m'', p'', hw'', hv''.trans hv'⟩

/-- So have moves. -/
theorem moves_of_steps {t u : Table} (h : Relation.ReflTransGen Step t u) {v : String → Bool}
    {reading : Nat → Bool → Bool}
    (hapt : ∀ w, Relation.ReflTransGen Step t w → w.Apt v reading) {a b : Nat × Bool}
    (hm : Relation.TransGen (u.Move v) a b) : Relation.TransGen (t.Move v) a b := by
  induction h with
  | refl => exact hm
  | tail hsteps hstep ih => exact ih ((hstep.refines (hapt _ hsteps)).moves hm)

/-- How the leaves of a table are read. -/
def reading (t : Table) (v : String → Bool) (k : Nat) (o : Bool) : Bool :=
  match t.content? k with
  | some (.leaf x) => x.read v o
  | _ => o

theorem reads_of_steps {t u : Table} (h : Relation.ReflTransGen Step t u) (v : String → Bool) :
    u.Reads v (t.reading v) := by
  intro k x hk o
  simp [reading, content?_leaf_of_steps h hk]

/-- When a reduction succeeds, the statement of the root has the value of the walk from the root of
the table as it was. -/
theorem walk_of_reduce {t u : Table} {f : Formula} (hc : t.Covers) (hnil : t.NoNil)
    (hd : t.Decides) (hr : t.reduce = (.ok (), u)) (hf : u.statement = .ok f) (v : String → Bool)
    (o : Bool) :
    ∃ k p, t.Walk v t.root o k p ∧ t.valueAt v (t.reading v) k p = f.eval v := by
  obtain ⟨hsteps, hle⟩ := steps_of_reduce hr
  have hdecisive : u.Decisive :=
    invariant_of_steps (fun hw hstep => hstep.decisive hw) hsteps hc fun _ => hd
  have hapt : ∀ w, Relation.ReflTransGen Step t w → w.Apt v (t.reading v) := fun w hw =>
    .of_reads (reads_of_steps hw v) fun k hk => hnil k (content?_leaf_of_steps hw hk)
  obtain ⟨k, p, hw, hv⟩ := walk_of_statement (hle rfl) hdecisive hf (reads_of_steps hsteps v) o
  obtain ⟨k', p', hw', hv'⟩ := walk_of_steps hsteps hapt hw
  rw [root_of_steps hsteps] at hw'
  exact ⟨k', p', hw', hv'.trans hv⟩

/-! ## Tables that decide between two truth values -/

/-- Every successor is a node, every node is reachable, and the stored parents are the linked
ones. -/
structure WellFormed (t : Table) : Prop where
  closed : ∀ n ∈ t.nodes, ∀ k ∈ n.successors, t.contains k = true
  reachable : ∀ n ∈ t.nodes, t.Reachable n.key
  linked : t.link = t

/-- The leaves are one for each truth value and texts. -/
structure IsPredicate (t : Table) : Prop where
  unique : ∀ b, ∃! n, n ∈ t.nodes ∧ n.content = .leaf (.bool b)
  others : ∀ n ∈ t.nodes, (∃ b, n.content = .branch b) ∨ (∃ b, n.content = .leaf (.bool b)) ∨
    ∃ text, n.content = .leaf (.text text)

theorem WellFormed.covers {t : Table} (h : t.WellFormed) : t.Covers := covers_of_linked h.linked

theorem WellFormed.decides {t : Table} (h : t.WellFormed) (hp : t.IsPredicate) : t.Decides := by
  refine .inr fun b => ?_
  obtain ⟨n, ⟨hn, hc⟩, -⟩ := hp.unique b
  exact ⟨n.key, h.reachable n hn, by rw [content?_of_mem hn, hc]⟩

/-- When a table with one leaf for each truth value is reduced and its root states a condition, the
walk from the root ends under every assignment, and it ends in a leaf with the value of that
condition. Tables may have cycles. -/
theorem reduce_keeps_meaning {t u : Table} {f : Formula} (ht : t.WellFormed) (hp : t.IsPredicate)
    (hr : t.reduce = (.ok (), u)) (hf : u.statement = .ok f) (v : String → Bool) (o : Bool) :
    ∃ k p x, t.Walk v t.root o k p ∧ t.content? k = some (.leaf x) ∧ x.read v p = f.eval v := by
  have hnil : t.NoNil := by
    intro k hk
    obtain ⟨n, hn, -, hc⟩ := content?_eq_some_iff.1 hk
    rcases hp.others n hn with ⟨b, h⟩ | ⟨b, h⟩ | ⟨text, h⟩ <;> simp [hc] at h
  obtain ⟨k, p, hw, hv⟩ := walk_of_reduce ht.covers hnil (ht.decides hp) hr hf v o
  obtain ⟨c, hk, hstop⟩ := hw.content?_end
  obtain ⟨n, hn, rfl, rfl⟩ := content?_eq_some_iff.1 hk
  obtain ⟨x, hx⟩ : ∃ x, n.content = .leaf x := by
    rcases hp.others n hn with ⟨b, h⟩ | ⟨b, h⟩ | ⟨text, h⟩
    · exact absurd h (hstop b)
    · exact ⟨_, h⟩
    · exact ⟨_, h⟩
  rw [hx] at hk
  refine ⟨n.key, p, x, hw, hk, ?_⟩
  rw [← hv, valueAt_leaf hk, reading, hk]

/-- The table of `(a or b) and (not c or y)`, in which the last test has two parents and leads to a
text on one side and to true on the other. -/
def guarded : Table :=
  let nodes : List Node :=
    [{ key := 0, content := .branch ⟨.ofText "a", 6, 3⟩ },
     { key := 3, content := .branch ⟨.ofText "b", 6, 9⟩ },
     { key := 6, content := .branch ⟨.ofText "c", 12, 10⟩ },
     { key := 9, content := .leaf (.bool false) },
     { key := 10, content := .leaf (.bool true) },
     { key := 12, content := .leaf (.text "y") }]
  (nodes.foldl insert (empty 0)).link

theorem guarded_wellFormed : guarded.WellFormed where
  closed := by decide
  reachable := by
    have h6 : guarded.Reachable 6 := .single ⟨⟨.ofText "a", 6, 3⟩, true, rfl, rfl⟩
    have h3 : guarded.Reachable 3 := .single ⟨⟨.ofText "a", 6, 3⟩, false, rfl, rfl⟩
    have h9 : guarded.Reachable 9 := .tail h3 ⟨⟨.ofText "b", 6, 9⟩, false, rfl, rfl⟩
    have h12 : guarded.Reachable 12 := .tail h6 ⟨⟨.ofText "c", 12, 10⟩, true, rfl, rfl⟩
    have h10 : guarded.Reachable 10 := .tail h6 ⟨⟨.ofText "c", 12, 10⟩, false, rfl, rfl⟩
    have hkeys : ∀ n ∈ guarded.nodes, n.key ∈ [0, 3, 6, 9, 10, 12] := by decide
    intro n hn
    have hk := hkeys n hn
    generalize n.key = k at hk
    simp only [List.mem_cons, List.not_mem_nil, or_false] at hk
    rcases hk with rfl | rfl | rfl | rfl | rfl | rfl
    exacts [.head, h3, h6, h9, h10, h12]
  linked := by decide

theorem guarded_isPredicate : guarded.IsPredicate where
  unique := by
    have hall : ∀ b, ∀ n ∈ guarded.nodes, n.content = .leaf (.bool b) →
        n.key = if b then 10 else 9 := by decide
    intro b
    obtain ⟨n, hn, hc⟩ : ∃ n ∈ guarded.nodes, n.content = .leaf (.bool b) := by
      revert b
      decide
    refine ⟨n, ⟨hn, hc⟩, fun m hm => eq_of_key_eq hm.1 hn ?_⟩
    rw [hall b m hm.1 hm.2, hall b n hn hc]
  others := by
    intro n hn
    have hkind : ∀ n ∈ guarded.nodes, n.isBranch = true ∨ n.isBool = true ∨
        n.value? = some (.text "y") := by decide
    have hn := hkind n hn
    cases hc : n.content with
    | branch b => exact .inl ⟨b, rfl⟩
    | closed f => simp [Node.isBranch, Node.branch?, Node.isBool, Node.bool?, Node.value?, hc] at hn
    | leaf x =>
      cases x with
      | bool b => exact .inr (.inl ⟨b, rfl⟩)
      | text text => exact .inr (.inr ⟨text, rfl⟩)
      | nil =>
        simp [Node.isBranch, Node.branch?, Node.isBool, Node.bool?, Node.value?, hc,
          LeafValue.bool?] at hn

theorem reduce_keeps_meaning_guarded :
    ∃ k p x, guarded.Walk (· = "a") 0 true k p ∧ guarded.content? k = some (.leaf x) ∧
      x.read (· = "a") p = true := by
  have hr : guarded.reduce = (.ok (), guarded.reduce.2) := by decide +kernel
  have hf : guarded.reduce.2.statement = .ok (.join .and
      (.join .or (.atom "a" false) (.atom "b" false) false)
      (.join .or (.atom "c" true) (.atom "y" false) false) false) := by decide +kernel
  exact reduce_keeps_meaning guarded_wellFormed guarded_isPredicate hr hf (· = "a") true

end ShortCircuit.Table
