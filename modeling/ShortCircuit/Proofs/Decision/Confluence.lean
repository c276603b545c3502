import ShortCircuit.Proofs.Decision.Diamond
import Mathlib.Data.List.Sort

/-!
# The order of folds does not matter

All maximal sequences of folds of a table with increasing edges end in tables that are alike. The
argument is that of Newman for relations that terminate, up to alike tables: every fold removes a
node, alike tables can be folded alike, and two folds can be brought together.

* `Table.FoldStep`, `Table.Stuck`: one successful fold, and tables that admit none.
* `Table.alike_of_stuck`: tables without further folds that come from the same table are alike.
* `Table.Proper.foldSteps_of_reduce`: the reduction is a maximal sequence of folds.
* `Table.outline`: the keys of a table with the kinds of their nodes and the edges between them.
* `Table.folds_confluent`: all maximal sequences of folds end with the same outline, and with
  statements that have the same text.
-/

namespace ShortCircuit

namespace Table

/-! ## Sequences of folds -/

/-- A successful fold makes one table into another. -/
def FoldStep (t u : Table) : Prop := ∃ key, t.fold key = (true, u)

/-- No node can be folded. -/
def Stuck (t : Table) : Prop := ∀ key, (t.fold key).1 = false

theorem Stuck.not_foldStep {t u : Table} (h : t.Stuck) : ¬t.FoldStep u := by
  rintro ⟨key, hkey⟩
  have := h key
  rw [hkey] at this
  cases this

theorem exists_foldStep {t : Table} (h : ¬t.Stuck) : ∃ u, t.FoldStep u := by
  obtain ⟨key, hkey⟩ := not_forall.1 h
  refine ⟨(t.fold key).2, key, ?_⟩
  rw [← Bool.eq_true_of_not_eq_false hkey]

theorem FoldStep.size_lt {t u : Table} (h : t.FoldStep u) : u.size < t.size := by
  obtain ⟨key, hkey⟩ := h
  have := (size_fold t key).1
  rw [hkey] at this
  exact this rfl

theorem FoldStep.proper {t u : Table} (h : t.FoldStep u) (ht : t.Proper) : u.Proper := by
  obtain ⟨key, hkey⟩ := h
  obtain ⟨p, c, -, hfolded⟩ := ht.folded_of_fold hkey
  exact hfolded.descends.proper

theorem proper_of_foldSteps {t u : Table} (h : Relation.ReflTransGen FoldStep t u)
    (ht : t.Proper) : u.Proper := by
  induction h with
  | refl => exact ht
  | tail _ hstep ih => exact hstep.proper ih

/-- Every sequence of folds can be continued to a maximal one. -/
theorem exists_stuck (t : Table) : ∃ u, Relation.ReflTransGen FoldStep t u ∧ u.Stuck := by
  induction hsize : t.size using Nat.strongRecOn generalizing t with
  | ind size ih =>
    by_cases h : t.Stuck
    · exact ⟨t, .refl, h⟩
    · obtain ⟨u, hu⟩ := exists_foldStep h
      obtain ⟨w, hw, hstuck⟩ := ih u.size (hsize ▸ hu.size_lt) u rfl
      exact ⟨w, .head hu hw, hstuck⟩

/-! ## Sequences of folds of alike tables -/

section Alike

variable {t u t' : Table} (h : t.Alike u) (ht : t.Proper) (hu : u.Proper)

include h ht hu

theorem Alike.stuck (hstuck : t.Stuck) : u.Stuck := by
  by_contra hno
  obtain ⟨u', key, hu'⟩ := exists_foldStep hno
  obtain ⟨t', ht', -⟩ := h.symm.fold hu ht hu'
  exact hstuck.not_foldStep ⟨key, ht'⟩

theorem Alike.foldSteps (hsteps : Relation.ReflTransGen FoldStep t t') :
    ∃ u', Relation.ReflTransGen FoldStep u u' ∧ t'.Alike u' := by
  induction hsteps with
  | refl => exact ⟨u, .refl, h⟩
  | tail hsteps hstep ih =>
    obtain ⟨u', hu', halike⟩ := ih
    obtain ⟨key, hkey⟩ := hstep
    obtain ⟨u'', hfold, halike'⟩ :=
      halike.fold (proper_of_foldSteps hsteps ht) (proper_of_foldSteps hu' hu) hkey
    exact ⟨u'', .tail hu' ⟨key, hfold⟩, halike'⟩

/-- A maximal sequence of folds has a counterpart in an alike table. -/
theorem Alike.stuck_of_foldSteps (hsteps : Relation.ReflTransGen FoldStep t t')
    (hstuck : t'.Stuck) :
    ∃ u', Relation.ReflTransGen FoldStep u u' ∧ u'.Stuck ∧ t'.Alike u' := by
  obtain ⟨u', hu', halike⟩ := h.foldSteps ht hu hsteps
  exact ⟨u', hu', halike.stuck (proper_of_foldSteps hsteps ht) (proper_of_foldSteps hu' hu) hstuck,
    halike⟩

end Alike

/-- Maximal sequences of folds of the same table end in alike tables. -/
theorem alike_of_stuck {t u w : Table} (ht : t.Proper) (hu : Relation.ReflTransGen FoldStep t u)
    (hw : Relation.ReflTransGen FoldStep t w) (hustuck : u.Stuck) (hwstuck : w.Stuck) :
    u.Alike w := by
  induction hsize : t.size using Nat.strongRecOn generalizing t u w with
  | ind size ih =>
    rcases Relation.ReflTransGen.cases_head hu with rfl | ⟨a, hta, hau⟩
    · rcases Relation.ReflTransGen.cases_head hw with rfl | ⟨b, htb, -⟩
      · exact .refl _
      · exact absurd htb hustuck.not_foldStep
    rcases Relation.ReflTransGen.cases_head hw with rfl | ⟨b, htb, hbw⟩
    · exact absurd hta hwstuck.not_foldStep
    have ha := hta.proper ht
    have hb := htb.proper ht
    have iha := fun {x y} => ih a.size (hsize ▸ hta.size_lt) (t := a) (u := x) (w := y) ha
    have ihb := fun {x y} => ih b.size (hsize ▸ htb.size_lt) (t := b) (u := x) (w := y) hb
    obtain ⟨key, hkey⟩ := hta
    obtain ⟨key', hkey'⟩ := htb
    rcases ht.diamond hkey hkey' with hab | ⟨k, k', a', b', ha', hb', hab⟩
    · obtain ⟨z, haz, hz, hwz⟩ := hab.symm.stuck_of_foldSteps hb ha hbw hwstuck
      exact (iha hau haz hustuck hz rfl).trans hwz.symm
    · -- Both results are compared with what the joined tables end in.
      obtain ⟨z, haz, hz⟩ := exists_stuck a'
      have ha'' : a'.Proper := FoldStep.proper ⟨k, ha'⟩ ha
      have hb'' : b'.Proper := FoldStep.proper ⟨k', hb'⟩ hb
      obtain ⟨z', hbz, hz', hzz⟩ := hab.stuck_of_foldSteps ha'' hb'' haz hz
      have huz := iha hau (.head ⟨k, ha'⟩ haz) hustuck hz rfl
      have hwz := ihb hbw (.head ⟨k', hb'⟩ hbz) hwstuck hz' rfl
      exact huz.trans (hzz.trans hwz.symm)

/-! ## The reduction -/

/-- A table with at most one open node admits no fold. -/
theorem Proper.stuck_of_openCount_le {t : Table} (ht : t.Proper) (h : t.openCount ≤ 1) :
    t.Stuck := by
  by_contra hno
  obtain ⟨u, key, hkey⟩ := exists_foldStep hno
  obtain ⟨p, c, hfolds, -⟩ := ht.folded_of_fold hkey
  have hlt := ht.increasing hfolds.edge
  obtain ⟨b, side, hp, -⟩ := hfolds.exists_side
  obtain ⟨d, hd⟩ := Option.ne_none_iff_exists'.1 (ht.total hfolds.edge)
  obtain ⟨x, rfl⟩ := bool_of_openCount_le h hp hd (Nat.ne_of_lt hlt) (by simp)
  exact hfolds.content?_ne_bool x hd

theorem stuck_of_keys {t : Table} (h : ∀ key ∈ t.keys, (t.fold key).1 = false) : t.Stuck := by
  intro key
  by_cases hkey : key ∈ t.keys
  · exact h key hkey
  · have hnone : t.get? key = none := by
      refine Option.eq_none_iff_forall_ne_some.2 fun n hn => hkey ?_
      obtain ⟨hmem, rfl⟩ := mem_of_get? hn
      exact List.mem_map_of_mem hmem
    simp only [fold, site?, hnone]

/-- A sweep makes one fold, or finds that none of its keys can be folded. -/
theorem sweep_cases {t : Table} (hself : ∀ k, ¬t.Edge k k) (keys : List Nat) :
    ((t.sweep keys).1 = true ∧ t.FoldStep (t.sweep keys).2) ∨
      (t.sweep keys = (false, t) ∧ ∀ key ∈ keys, (t.fold key).1 = false) := by
  induction keys with
  | nil => exact .inr ⟨rfl, by simp⟩
  | cons key keys ih =>
    unfold sweep
    split
    · next u hu => exact .inl ⟨rfl, key, hu⟩
    · next u hu =>
      have hfalse : (t.fold key).1 = false := by rw [hu]
      have hu' : u = t := by
        have h := fold_eq_self (fun _ hs _ => hs.parent_ne_of_not_edge_self hself) hfalse
        rwa [hu] at h
      rw [hu']
      rcases ih with h | ⟨h, hkeys⟩
      · exact .inl h
      · exact .inr ⟨h, List.forall_mem_cons.2 ⟨hfalse, hkeys⟩⟩

theorem foldStep_of_sweep {t u : Table} (hself : ∀ k, ¬t.Edge k k) {keys : List Nat}
    (h : t.sweep keys = (true, u)) : t.FoldStep u := by
  rcases sweep_cases hself keys with ⟨-, hstep⟩ | ⟨hfalse, -⟩
  · rwa [h] at hstep
  · cases h.symm.trans hfalse

theorem stuck_of_sweep {t u : Table} (hself : ∀ k, ¬t.Edge k k)
    (h : t.sweep t.keys.reverse = (false, u)) : u = t ∧ t.Stuck := by
  rcases sweep_cases hself t.keys.reverse with ⟨htrue, -⟩ | ⟨hsame, hkeys⟩
  · rw [h] at htrue
    cases htrue
  · cases h.symm.trans hsame
    exact ⟨rfl, stuck_of_keys fun key hkey => hkeys key (List.mem_reverse.2 hkey)⟩

/-- The reduction is a maximal sequence of folds. -/
theorem Proper.foldSteps_of_reduce {t : Table} (ht : t.Proper) :
    Relation.ReflTransGen FoldStep t t.reduce.2 ∧ t.reduce.2.Stuck := by
  induction t using reduce.induct with
  | case1 t hle =>
    rw [reduce_of_openCount_le hle]
    exact ⟨.refl, ht.stuck_of_openCount_le hle⟩
  | case2 t hle u hu ih =>
    rw [reduce_of_sweep hle hu]
    have hstep := foldStep_of_sweep ht.not_edge_self hu
    obtain ⟨hsteps, hstuck⟩ := ih (hstep.proper ht)
    exact ⟨.head hstep hsteps, hstuck⟩
  | case3 t hle u hu =>
    rw [reduce_of_stuck hle hu]
    obtain ⟨rfl, hstuck⟩ := stuck_of_sweep ht.not_edge_self hu
    exact ⟨.refl, hstuck⟩

/-! ## Outlines -/

end Table

/-- What kind of node a content is and where it leads, without its statement. -/
inductive Kind where
  | branch (onTrue onFalse : Nat)
  | leaf (value : LeafValue)
  | closed
deriving DecidableEq, Repr

/-- Whether a node of the kind is a boolean leaf. -/
def Kind.isBool : Kind → Bool
  | .leaf (.bool _) => true
  | _ => false

/-- The kind of a content. -/
def Content.kind : Content → Kind
  | .branch b => .branch b.onTrue b.onFalse
  | .leaf x => .leaf x
  | .closed _ => .closed

theorem Content.Alike.kind_eq {c d : Content} (h : c.Alike d) : c.kind = d.kind := by
  cases h <;> rfl

theorem Node.isBool_eq_kind (n : Node) : n.isBool = n.content.kind.isBool := by
  unfold isBool bool? value?
  cases n.content with
  | branch b => rfl
  | closed f => rfl
  | leaf x => cases x <;> rfl

namespace Table

/-- The keys of a table in increasing order, each with its kind and its parents. -/
def outline (t : Table) : List (Nat × Kind × List Nat) :=
  t.nodes.map fun n => (n.key, n.content.kind, n.parents)

theorem openCount_eq_countP_outline (t : Table) :
    t.openCount = t.outline.countP fun e => !e.2.1.isBool := by
  rw [openCount, outline, List.countP_map]
  exact List.countP_congr fun n _ => by simp [Node.isBool_eq_kind]

theorem pairwise_outline (t : Table) : t.outline.Pairwise fun d e => d.1 < e.1 :=
  List.pairwise_map.2 t.sorted

theorem Tidy.mem_outline {t : Table} (ht : t.Tidy) {k : Nat} {kind : Kind} {parents : List Nat} :
    (k, kind, parents) ∈ t.outline ↔
      (∃ c, t.content? k = some c ∧ c.kind = kind) ∧ t.parentsOf k = parents := by
  simp only [outline, List.mem_map, Prod.mk.injEq, content?_eq_some_iff]
  constructor
  · rintro ⟨n, hn, rfl, rfl, rfl⟩
    exact ⟨⟨_, ⟨n, hn, rfl, rfl⟩, rfl⟩, (ht.parents_eq (get?_eq_some_iff.2 ⟨hn, rfl⟩)).symm⟩
  · rintro ⟨⟨_, ⟨n, hn, rfl, rfl⟩, rfl⟩, rfl⟩
    exact ⟨n, hn, rfl, rfl, ht.parents_eq (get?_eq_some_iff.2 ⟨hn, rfl⟩)⟩

theorem Alike.parentsOf_eq {t u : Table} (h : t.Alike u) (k : Nat) :
    t.parentsOf k = u.parentsOf k := by
  have hsorted : ∀ t : Table, (t.parentsOf k).Pairwise (· < ·) := fun t =>
    List.pairwise_map.2 (t.sorted.filter _)
  refine (hsorted t).eq_of_mem_iff (hsorted u) fun a => ?_
  rw [mem_parentsOf, mem_parentsOf]
  exact ⟨h.edge, h.symm.edge⟩

/-- Alike tables have the same keys, kinds and edges. -/
theorem Alike.outline_eq {t u : Table} (h : t.Alike u) (ht : t.Tidy) (hu : u.Tidy) :
    t.outline = u.outline := by
  have : Std.Irrefl fun d e : Nat × Kind × List Nat => d.1 < e.1 := ⟨fun _ => Nat.lt_irrefl _⟩
  have : Std.Antisymm fun d e : Nat × Kind × List Nat => d.1 < e.1 :=
    ⟨fun _ _ h h' => absurd h' (Nat.lt_asymm h)⟩
  have hkind : ∀ {t u : Table} {k : Nat} {kind : Kind}, t.Alike u →
      (∃ c, t.content? k = some c ∧ c.kind = kind) →
      ∃ c, u.content? k = some c ∧ c.kind = kind := by
    rintro t u k _ h ⟨c, hc, rfl⟩
    obtain ⟨d, hd, halike⟩ := (h.alikeAt k).exists_content? hc
    exact ⟨d, hd, halike.kind_eq.symm⟩
  refine t.pairwise_outline.eq_of_mem_iff u.pairwise_outline ?_
  rintro ⟨k, kind, parents⟩
  rw [ht.mem_outline, hu.mem_outline, h.parentsOf_eq]
  exact and_congr_left' ⟨hkind h, hkind h.symm⟩

theorem statement_eq (t : Table) :
    t.statement = match t.content? t.root with
      | some (.branch b) => .ok ((t.decided? b).getD b.statement)
      | some (.closed f) => .ok f
      | _ => .error (.unresolvedPath t.root) := by
  unfold statement content?
  cases t.get? t.root with
  | none => rfl
  | some n =>
    simp only [Option.map_some]
    cases n.content <;> rfl

/-- Alike tables state conditions with the same text, or fail alike. -/
theorem Alike.render_statement {t u : Table} (h : t.Alike u) :
    t.statement.map Formula.render = u.statement.map Formula.render := by
  rw [statement_eq, statement_eq, ← h.root]
  have hroot := h.alikeAt t.root
  unfold AlikeAt at hroot
  generalize t.content? t.root = x at hroot
  generalize u.content? t.root = y at hroot
  cases hroot with
  | none => rfl
  | some hroot =>
    cases hroot with
    | leaf x => rfl
    | closed hf => exact congrArg Except.ok hf.render
    | @branch f g a b hf =>
      have hdecided := decided?_alike hf (h.alikeAt a).bool? (h.alikeAt b).bool?
      refine congrArg Except.ok ?_
      dsimp only
      generalize t.decided? ⟨f, a, b⟩ = d at hdecided
      generalize u.decided? ⟨g, a, b⟩ = e at hdecided
      cases hdecided with
      | none => exact hf.render
      | some hd => exact hd.render

/-! ## Confluence -/

theorem WellFormed.proper {t : Table} (h : t.WellFormed)
    (hincreasing : ∀ a k, t.Edge a k → a < k) : t.Proper where
  linked := h.linked
  supported := by
    intro k hk
    obtain ⟨c, hc⟩ := Option.ne_none_iff_exists'.1 hk
    obtain ⟨n, hn, rfl, -⟩ := content?_eq_some_iff.1 hc
    rcases Relation.ReflTransGen.cases_tail (h.reachable n hn) with hroot | ⟨a, -, ha⟩
    · exact .inl hroot
    · exact .inr ⟨a, ha⟩
  total := by
    intro a k he
    obtain ⟨n, hn, -, hk⟩ := edge_iff_exists_node.1 he
    exact contains_iff.1 (h.closed n hn k hk)
  increasing := fun he => hincreasing _ _ he

/-- In a well-formed table whose edges lead to larger keys, folds can be made in any order. The
reduction makes a maximal sequence of folds; a fold that fails changes nothing, and none succeeds
when at most one node is open. Any two maximal sequences of folds end in tables with the same keys,
kinds and edges, the same number of open nodes, and statements that have the same text or fail with
the same error. -/
theorem folds_confluent {t : Table} (ht : t.WellFormed)
    (hincreasing : ∀ a k, t.Edge a k → a < k) :
    (Relation.ReflTransGen FoldStep t t.reduce.2 ∧ t.reduce.2.Stuck) ∧
    (∀ u, Relation.ReflTransGen FoldStep t u →
      (∀ key, (u.fold key).1 = false → (u.fold key).2 = u) ∧ (u.openCount ≤ 1 → u.Stuck)) ∧
    ∀ u w, Relation.ReflTransGen FoldStep t u → Relation.ReflTransGen FoldStep t w →
      u.Stuck → w.Stuck →
      u.outline = w.outline ∧ u.openCount = w.openCount ∧
        u.statement.map Formula.render = w.statement.map Formula.render := by
  have hproper := ht.proper hincreasing
  refine ⟨hproper.foldSteps_of_reduce, fun u hu => ?_, fun u w hu hw hustuck hwstuck => ?_⟩
  · have hup := proper_of_foldSteps hu hproper
    exact ⟨fun key => hup.fold_eq_self, hup.stuck_of_openCount_le⟩
  · have halike := alike_of_stuck hproper hu hw hustuck hwstuck
    have houtline := halike.outline_eq (proper_of_foldSteps hu hproper).toTidy
      (proper_of_foldSteps hw hproper).toTidy
    refine ⟨houtline, ?_, halike.render_statement⟩
    rw [openCount_eq_countP_outline, openCount_eq_countP_outline, houtline]

theorem increasing_of_nodes {t : Table} (h : ∀ n ∈ t.nodes, ∀ k ∈ n.successors, n.key < k)
    (a k : Nat) (he : t.Edge a k) : a < k := by
  obtain ⟨n, hn, rfl, hk⟩ := edge_iff_exists_node.1 he
  exact h n hn k hk

/-- The table of `a and b and c`. -/
def threefold : Table :=
  let nodes : List Node :=
    [{ key := 0, content := .branch ⟨.ofText "a", 3, 9⟩ },
     { key := 3, content := .branch ⟨.ofText "b", 6, 9⟩ },
     { key := 6, content := .branch ⟨.ofText "c", 8, 9⟩ },
     { key := 8, content := .leaf (.bool true) },
     { key := 9, content := .leaf (.bool false) }]
  (nodes.foldl insert (empty 0)).link

theorem threefold_wellFormed : threefold.WellFormed where
  closed := by decide
  reachable := by
    have h3 : threefold.Reachable 3 := .single ⟨⟨.ofText "a", 3, 9⟩, true, rfl, rfl⟩
    have h9 : threefold.Reachable 9 := .single ⟨⟨.ofText "a", 3, 9⟩, false, rfl, rfl⟩
    have h6 : threefold.Reachable 6 := .tail h3 ⟨⟨.ofText "b", 6, 9⟩, true, rfl, rfl⟩
    have h8 : threefold.Reachable 8 := .tail h6 ⟨⟨.ofText "c", 8, 9⟩, true, rfl, rfl⟩
    have hkeys : ∀ n ∈ threefold.nodes, n.key ∈ [0, 3, 6, 8, 9] := by decide
    intro n hn
    have hk := hkeys n hn
    generalize n.key = k at hk
    simp only [List.mem_cons, List.not_mem_nil, or_false] at hk
    rcases hk with rfl | rfl | rfl | rfl | rfl
    exacts [.head, h3, h6, h8, h9]
  linked := by decide

theorem threefold_increasing (a k : Nat) (h : threefold.Edge a k) : a < k :=
  increasing_of_nodes (by decide) a k h

/-- Folding the middle test first nests to the left and the reduction to the right; the text is the
same. -/
theorem folds_confluent_threefold :
    ((threefold.fold 3).2.fold 6).2.statement ≠ threefold.reduce.2.statement ∧
      ((threefold.fold 3).2.fold 6).2.outline = threefold.reduce.2.outline ∧
      ((threefold.fold 3).2.fold 6).2.statement.map Formula.render =
        threefold.reduce.2.statement.map Formula.render := by
  obtain ⟨⟨hreduce, hstuck⟩, -, hsame⟩ := folds_confluent threefold_wellFormed threefold_increasing
  have hfirst : threefold.FoldStep (threefold.fold 3).2 := ⟨3, by decide +kernel⟩
  have hsecond : (threefold.fold 3).2.FoldStep ((threefold.fold 3).2.fold 6).2 :=
    ⟨6, by decide +kernel⟩
  have hmaximal : ((threefold.fold 3).2.fold 6).2.Stuck := stuck_of_keys (by decide +kernel)
  obtain ⟨houtline, -, hrender⟩ := hsame _ _ (.tail (.single hfirst) hsecond) hreduce hmaximal
    hstuck
  exact ⟨by decide +kernel, houtline, hrender⟩

end Table

end ShortCircuit
