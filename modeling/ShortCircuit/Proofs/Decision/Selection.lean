import ShortCircuit.Proofs.Decision.Meaning
import ShortCircuit.Proofs.Formula

/-!
# Values selected by a decision table

A table whose leaves are texts and one leaf that passes on the value tested last selects a value,
not only a truth value: every test looks at the value of its statement, and the walk yields the
value of the text it ends in, or the value that led it to the passing leaf. Reducing such a table
never negates a statement, and the connectives of the statement select the same value.

* `Table.Yields` is the walk through a table with the value that it selects.
* `Table.Selects` is the invariant: no truth values, at most one passing leaf, and no negation.
* `Table.Step.selects`, `Table.Step.yields`: a step keeps the invariant and the selected values.
* `Table.reduce_keeps_value`: the statement of a reduced table has the value that the table selects.
-/

namespace ShortCircuit.Table

section Yields

variable {α : Type*} {truthy : α → Bool} {v : String → α}

/-- From a key that is entered after a test of the value `last`, the walk yields a value. Every test
selects its successor by the truth of its own value; a text yields its value, and a leaf without a
value yields the one tested last. -/
inductive Yields (t : Table) (truthy : α → Bool) (v : String → α) : Nat → Option α → α → Prop
  | text {k : Nat} {last : Option α} {s : String} (hc : t.content? k = some (.leaf (.text s))) :
      Yields t truthy v k last (v s)
  | passed {k : Nat} {x : α} (hc : t.content? k = some (.leaf .nil)) :
      Yields t truthy v k (some x) x
  | folded {k : Nat} {last : Option α} {f : Formula} (hc : t.content? k = some (.closed f)) :
      Yields t truthy v k last (f.value truthy v)
  | test {k : Nat} {last : Option α} {b : Branch} {y : α} (hb : t.content? k = some (.branch b))
      (rest : Yields t truthy v (b.next (truthy (b.statement.value truthy v)))
        (some (b.statement.value truthy v)) y) : Yields t truthy v k last y

/-- A walk yields one value. -/
theorem Yields.unique {t : Table} {k : Nat} {last : Option α} {y y' : α}
    (h : t.Yields truthy v k last y) (h' : t.Yields truthy v k last y') : y = y' := by
  induction h with
  | text hc =>
    cases h' with
    | text hc' =>
      cases hc.symm.trans hc'
      rfl
    | passed hc' => cases hc.symm.trans hc'
    | folded hc' => cases hc.symm.trans hc'
    | test hb' => cases hc.symm.trans hb'
  | passed hc =>
    cases h' with
    | text hc' => cases hc.symm.trans hc'
    | passed => rfl
    | folded hc' => cases hc.symm.trans hc'
    | test hb' => cases hc.symm.trans hb'
  | folded hc =>
    cases h' with
    | text hc' => cases hc.symm.trans hc'
    | passed hc' => cases hc.symm.trans hc'
    | folded hc' =>
      cases hc.symm.trans hc'
      rfl
    | test hb' => cases hc.symm.trans hb'
  | test hb rest ih =>
    cases h' with
    | text hc' => cases hb.symm.trans hc'
    | passed hc' => cases hb.symm.trans hc'
    | folded hc' => cases hb.symm.trans hc'
    | test hb' rest' =>
      cases hb.symm.trans hb'
      exact ih rest'

end Yields

/-! ## The invariant -/

/-- No leaf is a truth value, at most one leaf has no value, and no statement is negated. -/
structure Selects (t : Table) : Prop where
  leaf : ∀ ⦃k b⦄, t.content? k ≠ some (.leaf (.bool b))
  passing : ∀ ⦃k k'⦄, t.content? k = some (.leaf .nil) → t.content? k' = some (.leaf .nil) → k = k'
  branch : ∀ ⦃k b⦄, t.content? k = some (.branch b) → b.statement.IsPositive
  folded : ∀ ⦃k f⦄, t.content? k = some (.closed f) → f.IsPositive

/-- An absorption joins a text or a folded test to its parent, beside the passing leaf. -/
theorem Selects.absorbed {t : Table} (h : t.Selects) {s : Site} (hs : t.IsSite s)
    {value : LeafValue} {negated : Bool} {op : Connective} {f : Formula}
    (hother : t.content? (s.branch.other s.side) = some (.leaf value))
    (hab : value.absorption? s.side = some (negated, op))
    (hf : joined s.branch.statement negated op (t.contribution s.node) = some f) :
    value = .nil ∧ ∃ g, f = s.branch.statement.combine s.side.connective g ∧
      ((∃ text, s.node.content = .leaf (.text text) ∧ g = .ofText text) ∨
        s.node.content = .closed g) := by
  obtain ⟨-, -, hne⟩ := Branch.sideOf?_spec hs.side
  have hnode := hs.content?_node
  cases value with
  | bool b => exact (h.leaf hother).elim
  | text text => simp [LeafValue.absorption?_text] at hab
  | nil =>
    refine ⟨rfl, ?_⟩
    obtain rfl := LeafValue.absorption?_nil hab
    obtain rfl : op = s.side.connective := LeafValue.absorption?_op hab
    unfold contribution at hf
    split at hf
    · next text hc =>
      cases hf
      exact ⟨_, rfl, .inl ⟨text, hc, rfl⟩⟩
    · next x hx hc =>
      -- A second leaf without a value is excluded.
      rw [hc] at hnode
      cases x with
      | text text => exact absurd rfl (hx text)
      | bool b => exact (h.leaf hnode).elim
      | nil => exact absurd (h.passing hother hnode) hne
    · next g hc =>
      cases hf
      exact ⟨_, rfl, .inr hc⟩
    · next n hc =>
      split at hf
      · next g hd =>
        obtain ⟨x, hx, -⟩ := decided?_spec hd (fun _ => true) true
        exact (h.leaf (content?_of_bool? hx)).elim
      · cases hf

theorem Step.selects {t u : Table} (hstep : t.Step u) (h : t.Selects) : u.Selects := by
  refine ⟨fun k b hk => h.leaf (hstep.content?_leaf hk),
    fun k k' hk hk' => h.passing (hstep.content?_leaf hk) (hstep.content?_leaf hk'),
    fun k b hk => ?_, fun k f hk => ?_⟩
  · cases hstep with
    | drop hs hself =>
      rw [content?_erase] at hk
      split_ifs at hk
      exact h.branch hk
    | merge hs hne hn hm =>
      rcases (content?_of_replace hs hne hk).2 with ⟨-, hb⟩ | ⟨-, hk⟩
      · cases hb
        have hnode := hs.content?_node
        rw [hn] at hnode
        rw [Branch.statement_of_merge? hm]
        exact Formula.isPositive_combine (h.branch hs.content?_parent) (h.branch hnode)
      · exact h.branch hk
    | absorb hs hne =>
      rcases (content?_of_replace hs hne hk).2 with ⟨-, hb⟩ | ⟨-, hk⟩
      · cases hb
      · exact h.branch hk
  · cases hstep with
    | drop hs hself =>
      rw [content?_erase] at hk
      split_ifs at hk
      exact h.folded hk
    | merge hs hne =>
      rcases (content?_of_replace hs hne hk).2 with ⟨-, hb⟩ | ⟨-, hk⟩
      · cases hb
      · exact h.folded hk
    | absorb hs hne hother hab hf =>
      rcases (content?_of_replace hs hne hk).2 with ⟨-, hb⟩ | ⟨-, hk⟩
      · cases hb
        obtain ⟨-, g, rfl, hg⟩ := h.absorbed hs hother hab hf
        refine Formula.isPositive_combine (h.branch hs.content?_parent) ?_
        rcases hg with ⟨text, -, rfl⟩ | hclosed
        · rfl
        · have hnode := hs.content?_node
          rw [hclosed] at hnode
          exact h.folded hnode
      · exact h.folded hk

/-! ## Steps keep the selected values -/

section Values

variable {α : Type*} {truthy : α → Bool} {v : String → α}

/-- A connective that continues a test selects the value on its side, and on the other side the
value tested. -/
theorem value_combine (l r : Formula) (side : Side) :
    (l.combine side.connective r).value truthy v =
      if truthy (l.value truthy v) = side.outcome then r.value truthy v
      else l.value truthy v := by
  cases side with
  | onTrue =>
    cases hl : truthy (l.value truthy v) <;>
      simp [Formula.combine, Formula.value, Side.connective, Connective.select, Side.outcome, hl]
  | onFalse =>
    cases hl : truthy (l.value truthy v) <;>
      simp [Formula.combine, Formula.value, Side.connective, Connective.select, Side.outcome, hl]

/-- A merged branch leads where its two tests lead, after the same value. -/
theorem yields_merged {t : Table} {s : Site} (hs : t.IsSite s) {n m : Branch}
    (hn : s.node.content = .branch n) (hm : s.branch.merge? n s.side = some m) {last : Option α}
    {y : α} (h : t.Yields truthy v (m.next (truthy (m.statement.value truthy v)))
      (some (m.statement.value truthy v)) y) : t.Yields truthy v s.parent.key last y := by
  obtain ⟨hkey, hnext, -⟩ := Branch.sideOf?_spec hs.side
  obtain ⟨hsucc, hshared, -⟩ := Branch.merge?_spec hm
  have hnode := hs.content?_node
  rw [hn] at hnode
  rw [hsucc, Branch.statement_of_merge? hm, value_combine] at h
  refine .test hs.content?_parent ?_
  split_ifs at h with hx
  · rw [hx, hkey]
    exact .test hnode h
  · have hx' := Bool.eq_not_of_ne hx
    rw [hx'] at h ⊢
    rw [hnext, hshared]
    exact h

/-- A folded test has the value that its walk yielded before. -/
theorem Selects.yields_absorbed {t : Table} (h : t.Selects) {s : Site} (hs : t.IsSite s)
    {value : LeafValue} {negated : Bool} {op : Connective} {f : Formula}
    (hother : t.content? (s.branch.other s.side) = some (.leaf value))
    (hab : value.absorption? s.side = some (negated, op))
    (hf : joined s.branch.statement negated op (t.contribution s.node) = some f)
    (last : Option α) : t.Yields truthy v s.parent.key last (f.value truthy v) := by
  obtain ⟨hkey, hnext, -⟩ := Branch.sideOf?_spec hs.side
  obtain ⟨rfl, g, rfl, hg⟩ := h.absorbed hs hother hab hf
  have hnode := hs.content?_node
  refine .test hs.content?_parent ?_
  rw [value_combine]
  split_ifs with hx
  · rw [hx, hkey]
    rcases hg with ⟨text, hc, rfl⟩ | hc
    · rw [hc] at hnode
      exact .text hnode
    · rw [hc] at hnode
      exact .folded hnode
  · rw [Bool.eq_not_of_ne hx, hnext]
    exact .passed hother

theorem Step.yields {t u : Table} (hstep : t.Step u) (h : t.Selects) {k : Nat} {last : Option α}
    {y : α} (hy : u.Yields truthy v k last y) : t.Yields truthy v k last y := by
  induction hy with
  | text hc => exact .text (hstep.content?_leaf hc)
  | passed hc => exact .passed (hstep.content?_leaf hc)
  | folded hc =>
    cases hstep with
    | drop hs hself =>
      rw [content?_erase] at hc
      split_ifs at hc
      exact .folded hc
    | merge hs hne =>
      rcases (content?_of_replace hs hne hc).2 with ⟨-, hb⟩ | ⟨-, hc⟩
      · cases hb
      · exact .folded hc
    | absorb hs hne hother hab hf =>
      rcases (content?_of_replace hs hne hc).2 with ⟨rfl, hb⟩ | ⟨-, hc⟩
      · cases hb
        exact h.yields_absorbed hs hother hab hf _
      · exact .folded hc
  | test hb rest ih =>
    cases hstep with
    | drop hs hself =>
      rw [content?_erase] at hb
      split_ifs at hb
      exact .test hb ih
    | merge hs hne hn hm =>
      rcases (content?_of_replace hs hne hb).2 with ⟨rfl, hc⟩ | ⟨-, hb⟩
      · cases hc
        exact yields_merged hs hn hm ih
      · exact .test hb ih
    | absorb hs hne =>
      rcases (content?_of_replace hs hne hb).2 with ⟨-, hc⟩ | ⟨-, hb⟩
      · cases hc
      · exact .test hb ih

end Values

/-! ## Whole reductions -/

/-- The root leads to a leaf or to a folded test. -/
def Ends (t : Table) : Prop :=
  ∃ k c, t.Reachable k ∧ t.content? k = some c ∧ ∀ b, c ≠ .branch b

theorem Step.ends {t u : Table} (h : t.Step u) (hc : t.Covers)
    (ht : t.content? t.root ≠ none → t.Ends) : u.content? u.root ≠ none → u.Ends := by
  intro hroot
  rcases h.kept hc hroot with ⟨k, f, hk, hf⟩ | hkept
  · exact ⟨k, .closed f, hk, hf, by simp⟩
  · rw [h.root_eq] at hroot
    obtain ⟨k, c, hk, hkc, hcb⟩ := ht (h.content?_ne_none hroot)
    obtain ⟨hkc, hk⟩ := hkept hk hkc hcb
    exact ⟨k, c, hk, hkc, hcb⟩

/-- The last node of a reduced table is a folded test. -/
theorem Selects.closed_of_statement {t : Table} (h : t.Selects) (hle : t.openCount ≤ 1)
    (hends : t.content? t.root ≠ none → t.Ends) {f : Formula} (hf : t.statement = .ok f) :
    t.content? t.root = some (.closed f) := by
  rcases statement_eq_ok hf with hclosed | ⟨b, hb, -⟩
  · exact hclosed
  · obtain ⟨k, c, -, hk, hcb⟩ := hends (by simp [hb])
    have hne : t.root ≠ k := by
      rintro rfl
      exact hcb b (Option.some.inj (hk.symm.trans hb))
    obtain ⟨x, rfl⟩ := bool_of_openCount_le hle hb hk hne (by simp)
    exact (h.leaf hk).elim

/-- The tests of a table carry no negation, one leaf passes on the value tested last, and all other
leaves are texts. -/
structure IsSelection (t : Table) : Prop where
  passing : ∃! n, n ∈ t.nodes ∧ n.content = .leaf .nil
  others : ∀ n ∈ t.nodes, (∃ b, n.content = .branch b ∧ b.statement.IsPositive) ∨
    n.content = .leaf .nil ∨ ∃ text, n.content = .leaf (.text text)

theorem IsSelection.selects {t : Table} (h : t.IsSelection) : t.Selects := by
  refine ⟨fun k b hk => ?_, fun k k' hk hk' => ?_, fun k b hk => ?_, fun k f hk => ?_⟩
  · obtain ⟨n, hn, -, hc⟩ := content?_eq_some_iff.1 hk
    have := h.others n hn
    simp [hc] at this
  · obtain ⟨n, hn, rfl, hc⟩ := content?_eq_some_iff.1 hk
    obtain ⟨n', hn', rfl, hc'⟩ := content?_eq_some_iff.1 hk'
    rw [h.passing.unique ⟨hn, hc⟩ ⟨hn', hc'⟩]
  · obtain ⟨n, hn, -, hc⟩ := content?_eq_some_iff.1 hk
    rcases h.others n hn with ⟨b', hb, hpos⟩ | hb | ⟨text, hb⟩
    · cases hc.symm.trans hb
      exact hpos
    · cases hc.symm.trans hb
    · cases hc.symm.trans hb
  · obtain ⟨n, hn, -, hc⟩ := content?_eq_some_iff.1 hk
    have := h.others n hn
    simp [hc] at this

/-- When a table that selects a value is reduced and its root states a condition, the condition has
no negation, and under every assignment of values the walk from the root yields the value of the
condition and no other. Tables may have cycles. -/
theorem reduce_keeps_value {t u : Table} {f : Formula} (ht : t.WellFormed) (hs : t.IsSelection)
    (hr : t.reduce = (.ok (), u)) (hf : u.statement = .ok f) :
    f.IsPositive ∧ ∀ (α : Type*) (truthy : α → Bool) (v : String → α) (y : α),
      t.Yields truthy v t.root none y ↔ y = f.value truthy v := by
  obtain ⟨hsteps, hle⟩ := steps_of_reduce hr
  have hselects : u.Selects :=
    invariant_of_steps (fun _ hstep => hstep.selects) hsteps ht.covers hs.selects
  have hends : u.content? u.root ≠ none → u.Ends := by
    refine invariant_of_steps (fun hw hstep => hstep.ends hw) hsteps ht.covers fun _ => ?_
    obtain ⟨n, ⟨hn, hc⟩, -⟩ := hs.passing
    exact ⟨n.key, _, ht.reachable n hn, content?_of_mem hn, by simp [hc]⟩
  have hclosed := hselects.closed_of_statement (hle rfl) hends hf
  refine ⟨hselects.folded hclosed, fun α truthy v y => ?_⟩
  have hyields : t.Yields truthy v t.root none (f.value truthy v) := by
    have hu : u.Yields truthy v t.root none (f.value truthy v) := by
      rw [← root_of_steps hsteps]
      exact .folded hclosed
    clear hr hf hends hselects hle hclosed
    induction hsteps with
    | refl => exact hu
    | tail hsteps hstep ih =>
      have hw := invariant_of_steps (fun _ hstep => hstep.selects) hsteps ht.covers hs.selects
      exact ih (hstep.yields hw hu)
  constructor
  · intro hy
    exact hy.unique hyields
  · rintro rfl
    exact hyields

/-- The table of `a or b and c`: the value of `a` is passed on when it holds, that of `b` when it
does not. -/
def fallThrough : Table :=
  let nodes : List Node :=
    [{ key := 0, content := .branch ⟨.ofText "a", 9, 3⟩ },
     { key := 3, content := .branch ⟨.ofText "b", 6, 9⟩ },
     { key := 6, content := .leaf (.text "c") },
     { key := 9, content := .leaf .nil }]
  (nodes.foldl insert (empty 0)).link

theorem fallThrough_wellFormed : fallThrough.WellFormed where
  closed := by decide
  reachable := by
    have h3 : fallThrough.Reachable 3 := .single ⟨⟨.ofText "a", 9, 3⟩, false, rfl, rfl⟩
    have h6 : fallThrough.Reachable 6 := .tail h3 ⟨⟨.ofText "b", 6, 9⟩, true, rfl, rfl⟩
    have h9 : fallThrough.Reachable 9 := .tail h3 ⟨⟨.ofText "b", 6, 9⟩, false, rfl, rfl⟩
    have hkeys : ∀ n ∈ fallThrough.nodes, n.key ∈ [0, 3, 6, 9] := by decide
    intro n hn
    have hk := hkeys n hn
    generalize n.key = k at hk
    simp only [List.mem_cons, List.not_mem_nil, or_false] at hk
    rcases hk with rfl | rfl | rfl | rfl
    exacts [.head, h3, h6, h9]
  linked := by decide

theorem fallThrough_isSelection : fallThrough.IsSelection where
  passing := by
    have hkey : ∀ n ∈ fallThrough.nodes, n.content = .leaf .nil → n.key = 9 := by decide
    obtain ⟨n, hn, hc⟩ : ∃ n ∈ fallThrough.nodes, n.content = .leaf .nil := by decide
    refine ⟨n, ⟨hn, hc⟩, fun m hm => eq_of_key_eq hm.1 hn ?_⟩
    rw [hkey m hm.1 hm.2, hkey n hn hc]
  others := by
    have hkind : ∀ n ∈ fallThrough.nodes, n.content ∈
        [.branch ⟨.ofText "a", 9, 3⟩, .branch ⟨.ofText "b", 6, 9⟩, .leaf (.text "c"),
          .leaf .nil] := by decide
    intro n hn
    have hc := hkind n hn
    simp only [List.mem_cons, List.not_mem_nil, or_false] at hc
    rcases hc with hc | hc | hc | hc
    · exact .inl ⟨_, hc, rfl⟩
    · exact .inl ⟨_, hc, rfl⟩
    · exact .inr (.inr ⟨_, hc⟩)
    · exact .inr (.inl hc)

/-- When `a` does not hold and `b` does, `c` is selected; when neither holds, `b` is. -/
theorem reduce_keeps_value_fallThrough :
    (∀ y, fallThrough.Yields (fun n => 2 ≤ n) (fun s => if s = "a" then 1 else 5) 0 none y ↔
      y = 5) ∧
    ∀ y, fallThrough.Yields (fun n => 2 ≤ n) (fun s => if s = "a" then 1 else 0) 0 none y ↔
      y = 0 := by
  have hr : fallThrough.reduce = (.ok (), fallThrough.reduce.2) := by decide +kernel
  have hf : fallThrough.reduce.2.statement = .ok (.join .or (.atom "a" false)
      (.join .and (.atom "b" false) (.atom "c" false) false) false) := by decide +kernel
  have h := (reduce_keeps_value fallThrough_wellFormed fallThrough_isSelection hr hf).2
  exact ⟨h Nat (fun n => 2 ≤ n) fun s => if s = "a" then 1 else 5,
    h Nat (fun n => 2 ≤ n) fun s => if s = "a" then 1 else 0⟩

end ShortCircuit.Table
