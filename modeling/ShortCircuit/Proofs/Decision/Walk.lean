import ShortCircuit.Proofs.Decision.Step

/-!
# Walks through a decision table

Under an assignment of truth values to texts a table is walked from test to test until a node is
reached that is no test. A fold is judged by what it does to walks: every walk of the folded table
must have a counterpart in the table before it that ends in the same truth value.

How a leaf is read may depend on the outcome with which it is entered, so readings are functions of
a place and an outcome. Merging is sound for every reading; absorbing is sound for readings that fit
the value absorbed and the one beside it.

* `Table.Walk.unique`: walks are deterministic.
* `Table.Refines.walk`: a matched table has the walks of the table it matches.
* `Table.Step.refines`: a step matches when the reading is apt for the absorptions of the table.
* `Table.Apt.of_reads`: the usual reading is apt when no leaf is nil.
-/

namespace ShortCircuit

/-- The truth value of a leaf entered with an outcome; `nil` passes the outcome on. -/
def LeafValue.read (v : String → Bool) (outcome : Bool) : LeafValue → Bool
  | .bool b => b
  | .nil => outcome
  | .text s => v s

namespace Table

/-- From a key entered with an outcome, the walk under `v` stops at a key entered with an outcome:
at a test it goes on along the edge of the test's truth value. -/
inductive Walk (t : Table) (v : String → Bool) : Nat → Bool → Nat → Bool → Prop
  | stop {k : Nat} {o : Bool} {c : Content} (hc : t.content? k = some c)
      (hstop : ∀ b, c ≠ .branch b) : Walk t v k o k o
  | step {k : Nat} {o : Bool} {b : Branch} {k' : Nat} {o' : Bool}
      (hb : t.content? k = some (.branch b))
      (rest : Walk t v (b.next (b.statement.eval v)) (b.statement.eval v) k' o') :
      Walk t v k o k' o'

theorem Walk.unique {t : Table} {v : String → Bool} {k m m' : Nat} {o p p' : Bool}
    (h : t.Walk v k o m p) (h' : t.Walk v k o m' p') : m = m' ∧ p = p' := by
  induction h with
  | stop hc hstop =>
    cases h' with
    | stop => exact ⟨rfl, rfl⟩
    | step hb => exact absurd (Option.some.inj (hc.symm.trans hb)) (hstop _)
  | step hb rest ih =>
    cases h' with
    | stop hc hstop => exact absurd (Option.some.inj (hc.symm.trans hb)) (hstop _)
    | step hb' rest' =>
      cases hb.symm.trans hb'
      exact ih rest'

/-- A walk ends at a node that is no test. -/
theorem Walk.content?_end {t : Table} {v : String → Bool} {k m : Nat} {o p : Bool}
    (h : t.Walk v k o m p) : ∃ c, t.content? m = some c ∧ ∀ b, c ≠ .branch b := by
  induction h with
  | stop hc hstop => exact ⟨_, hc, hstop⟩
  | step _ _ ih => exact ih

/-- The walk from a test does not depend on the outcome with which the test is entered. -/
theorem Walk.of_branch {t : Table} {v : String → Bool} {k m : Nat} {o p : Bool} {b : Branch}
    (h : t.Walk v k o m p) (hb : t.content? k = some (.branch b)) {o' : Bool} :
    t.Walk v k o' m p := by
  cases h with
  | stop hc hstop => exact absurd (Option.some.inj (hc.symm.trans hb)) (hstop _)
  | step hb' rest => exact .step hb' rest

/-- One test is made: from a key entered with an outcome, control goes to the successor that the
test selects. -/
def Move (t : Table) (v : String → Bool) (a b : Nat × Bool) : Prop :=
  ∃ branch, t.content? a.1 = some (.branch branch) ∧
    b = (branch.next (branch.statement.eval v), branch.statement.eval v)

theorem Walk.of_moves {t : Table} {v : String → Bool} {a b : Nat × Bool} {m : Nat} {p : Bool}
    (h : Relation.TransGen (t.Move v) a b) (hw : t.Walk v b.1 b.2 m p) : t.Walk v a.1 a.2 m p := by
  induction h with
  | single hmove =>
    obtain ⟨branch, hb, rfl⟩ := hmove
    exact .step hb hw
  | tail _ hmove ih =>
    obtain ⟨branch, hb, rfl⟩ := hmove
    exact ih (.step hb hw)

/-- A walk that ends makes no cycle. -/
theorem Walk.not_moves {t : Table} {v : String → Bool} {k m : Nat} {o p : Bool}
    (h : t.Walk v k o m p) : ¬Relation.TransGen (t.Move v) (k, o) (k, o) := by
  intro hcycle
  induction h with
  | stop hc hstop =>
    obtain ⟨-, ⟨branch, hb, -⟩, -⟩ := Relation.TransGen.head'_iff.1 hcycle
    exact hstop branch (Option.some.inj (hc.symm.trans hb))
  | step hb rest ih =>
    obtain ⟨-, ⟨branch, hb', rfl⟩, hback⟩ := Relation.TransGen.head'_iff.1 hcycle
    cases hb.symm.trans hb'
    exact ih (.tail' hback ⟨_, hb, rfl⟩)

/-- The truth value at the end of a walk: that of a folded test, or what a reading of the leaves
says. -/
def valueAt (t : Table) (v : String → Bool) (reading : Nat → Bool → Bool) (k : Nat) (o : Bool) :
    Bool :=
  match t.content? k with
  | some (.closed f) => f.eval v
  | _ => reading k o

theorem valueAt_closed {t : Table} {k : Nat} {f : Formula} (h : t.content? k = some (.closed f))
    (v : String → Bool) (reading : Nat → Bool → Bool) (o : Bool) :
    t.valueAt v reading k o = f.eval v := by
  simp [valueAt, h]

theorem valueAt_leaf {t : Table} {k : Nat} {x : LeafValue} (h : t.content? k = some (.leaf x))
    (v : String → Bool) (reading : Nat → Bool → Bool) (o : Bool) :
    t.valueAt v reading k o = reading k o := by
  simp [valueAt, h]

/-! ## Refinement -/

/-- A table can follow what another one has at a key: it moves to the successor that a test selects,
and a folded test has the value of a walk. -/
def Matches (t : Table) (v : String → Bool) (reading : Nat → Bool → Bool) (k : Nat) :
    Content → Prop
  | .branch b => ∀ o, Relation.TransGen (t.Move v) (k, o)
      (b.next (b.statement.eval v), b.statement.eval v)
  | .closed f => ∀ o, ∃ m p, t.Walk v k o m p ∧ t.valueAt v reading m p = f.eval v
  | .leaf x => t.content? k = some (.leaf x)

/-- A table follows another one everywhere. -/
def Refines (t u : Table) (v : String → Bool) (reading : Nat → Bool → Bool) : Prop :=
  ∀ ⦃k : Nat⦄ ⦃c : Content⦄, u.content? k = some c → t.Matches v reading k c

theorem matches_of_content? {t : Table} {k : Nat} {c : Content} (h : t.content? k = some c)
    (v : String → Bool) (reading : Nat → Bool → Bool) : t.Matches v reading k c := by
  cases c with
  | branch b => exact fun o => .single ⟨b, h, rfl⟩
  | leaf x => exact h
  | closed f => exact fun o => ⟨k, o, .stop h (by simp), valueAt_closed h v reading o⟩

theorem Refines.walk {t u : Table} {v : String → Bool} {reading : Nat → Bool → Bool}
    (h : t.Refines u v reading) {k m : Nat} {o p : Bool} (hw : u.Walk v k o m p) :
    ∃ m' p', t.Walk v k o m' p' ∧ t.valueAt v reading m' p' = u.valueAt v reading m p := by
  induction hw with
  | @stop k o c hc hstop =>
    cases c with
    | branch b => exact absurd rfl (hstop b)
    | leaf x =>
      have ht : t.content? k = some (.leaf x) := h hc
      refine ⟨k, o, .stop ht (by simp), ?_⟩
      rw [valueAt_leaf ht, valueAt_leaf hc]
    | closed f =>
      obtain ⟨m, p, hw, hv⟩ := (h hc : t.Matches v reading k (.closed f)) o
      exact ⟨m, p, hw, hv.trans (valueAt_closed hc v reading o).symm⟩
  | @step k o b k' o' hb rest ih =>
    obtain ⟨m, p, hw, hv⟩ := ih
    exact ⟨m, p, .of_moves ((h hb : t.Matches v reading k (.branch b)) o) hw, hv⟩

theorem Refines.moves {t u : Table} {v : String → Bool} {reading : Nat → Bool → Bool}
    (h : t.Refines u v reading) {a b : Nat × Bool} (hm : Relation.TransGen (u.Move v) a b) :
    Relation.TransGen (t.Move v) a b := by
  have hmove : ∀ {x y}, u.Move v x y → Relation.TransGen (t.Move v) x y := by
    rintro ⟨k, o⟩ y ⟨branch, hb, rfl⟩
    exact (h hb : t.Matches v reading k (.branch branch)) o
  induction hm with
  | single hxy => exact hmove hxy
  | tail _ hxy ih => exact ih.trans (hmove hxy)

/-! ## Steps refine -/

/-- A folded node, entered on its side, is read as what it contributes: a text as its truth value,
a leaf that contributes nothing as the possibly negated outcome, and the leaves after a decided
branch as their own values. -/
def Fits (t : Table) (v : String → Bool) (reading : Nat → Bool → Bool) (s : Site)
    (negated : Bool) : Prop :=
  match s.node.content with
  | .leaf (.text text) => reading s.node.key s.side.outcome = v text
  | .leaf _ => reading s.node.key s.side.outcome = (s.side.outcome ^^ negated)
  | .closed _ => True
  | .branch n => ∀ o b, t.bool? (n.next o) = some b → reading (n.next o) o = b

/-- A reading is apt for the absorptions of a table: the folded node fits, and the other successor,
entered beside the fold, is read as the possibly negated outcome. -/
def Apt (t : Table) (v : String → Bool) (reading : Nat → Bool → Bool) : Prop :=
  ∀ ⦃s : Site⦄ ⦃value : LeafValue⦄ ⦃negated : Bool⦄ ⦃op : Connective⦄, t.IsSite s →
    t.content? (s.branch.other s.side) = some (.leaf value) →
    value.absorption? s.side = some (negated, op) →
    t.contribution s.node ≠ .pending →
    reading (s.branch.other s.side) (!s.side.outcome) = (!s.side.outcome ^^ negated) ∧
      t.Fits v reading s negated

theorem content?_of_bool? {t : Table} {k : Nat} {b : Bool} (h : t.bool? k = some b) :
    t.content? k = some (.leaf (.bool b)) := by
  unfold bool? at h
  obtain ⟨n, hn, hb⟩ := Option.bind_eq_some_iff.1 h
  obtain ⟨x, hx, hb⟩ := Option.bind_eq_some_iff.1 hb
  rw [content?, hn, Option.map_some]
  unfold Node.value? at hx
  split at hx
  · next y hy =>
    cases hx
    rw [hy]
    cases x with
    | bool c => cases hb; rfl
    | nil => cases hb
    | text s => cases hb
  · cases hx

theorem bool?_of_content? {t : Table} {k : Nat} {b : Bool}
    (h : t.content? k = some (.leaf (.bool b))) : t.bool? k = some b := by
  obtain ⟨n, hn, hk, hc⟩ := content?_eq_some_iff.1 h
  simp [bool?, get?_eq_some_iff.2 ⟨hn, hk⟩, Node.bool?, Node.value?, hc, LeafValue.bool?]

/-- A decided branch leads to boolean leaves, and its normalised statement is their value. -/
theorem decided?_spec {t : Table} {b : Branch} {f : Formula} (h : t.decided? b = some f)
    (v : String → Bool) : ∀ o, ∃ x, t.bool? (b.next o) = some x ∧
      (b.statement.eval v = o → f.eval v = x) := by
  unfold decided? at h
  split at h
  · next ht hf =>
    cases h
    rintro (_ | _)
    · exact ⟨false, hf, id⟩
    · exact ⟨true, ht, id⟩
  · next ht hf =>
    cases h
    rintro (_ | _)
    · exact ⟨true, hf, fun he => by simp [he]⟩
    · exact ⟨false, ht, fun he => by simp [he]⟩
  · cases h

theorem walk_of_bool? {t : Table} {v : String → Bool} {k : Nat} {b : Bool} (h : t.bool? k = some b)
    (o : Bool) (reading : Nat → Bool → Bool) :
    t.Walk v k o k o ∧ t.valueAt v reading k o = reading k o :=
  ⟨.stop (content?_of_bool? h) (by simp), valueAt_leaf (content?_of_bool? h) v reading o⟩

/-- A node that contributes a formula has that formula's value for its walk. -/
theorem walk_of_contribution {t : Table} {s : Site} (hs : t.IsSite s) {v : String → Bool}
    {reading : Nat → Bool → Bool} {negated : Bool} (hread : t.Fits v reading s negated)
    {g : Formula} (hg : t.contribution s.node = .formula g) :
    ∃ m p, t.Walk v s.node.key s.side.outcome m p ∧ t.valueAt v reading m p = g.eval v := by
  have hnode := hs.content?_node
  unfold Fits at hread
  unfold contribution at hg
  split at hg
  · next text hc =>
    cases hg
    rw [hc] at hnode hread
    refine ⟨_, _, .stop hnode (by simp), ?_⟩
    rw [valueAt_leaf hnode, hread]
    simp [Formula.ofText, Formula.eval]
  · cases hg
  · next f hc =>
    cases hg
    rw [hc] at hnode
    exact ⟨_, _, .stop hnode (by simp), valueAt_closed hnode v reading _⟩
  · next n hc =>
    split at hg
    · next f hd =>
      cases hg
      rw [hc] at hnode hread
      obtain ⟨x, hx, hv⟩ := decided?_spec hd v (n.statement.eval v)
      obtain ⟨hw, hval⟩ := walk_of_bool? hx (v := v) (n.statement.eval v) reading
      refine ⟨_, _, .step hnode hw, ?_⟩
      rw [hval, hread _ _ hx, hv rfl]
    · cases hg

/-- After an absorption the parent has the value of its walk before. -/
theorem matches_absorbed {t : Table} {s : Site} (hs : t.IsSite s) {v : String → Bool}
    {reading : Nat → Bool → Bool} (hapt : t.Apt v reading) {value : LeafValue} {negated : Bool}
    {op : Connective} {f : Formula}
    (hother : t.content? (s.branch.other s.side) = some (.leaf value))
    (hab : value.absorption? s.side = some (negated, op))
    (hf : joined s.branch.statement negated op (t.contribution s.node) = some f) :
    t.Matches v reading s.parent.key (.closed f) := by
  intro o
  obtain ⟨hkey, hnext, -⟩ := Branch.sideOf?_spec hs.side
  have hpending : t.contribution s.node ≠ .pending := by
    intro h
    rw [h] at hf
    cases hf
  obtain ⟨hread, hfits⟩ := hapt hs hother hab hpending
  by_cases hx : s.branch.statement.eval v = s.side.outcome
  · -- The test leads to the folded node.
    have hstep : ∀ m p, t.Walk v s.node.key s.side.outcome m p → t.Walk v s.parent.key o m p := by
      intro m p hw
      refine .step hs.content?_parent ?_
      rw [hx, hkey]
      exact hw
    cases hc : t.contribution s.node with
    | pending => exact absurd hc hpending
    | nothing =>
      rw [hc] at hf
      have hcontent := hs.content?_node
      unfold contribution at hc
      split at hc
      · cases hc
      · next x hx' hleaf =>
        rw [hleaf] at hcontent
        unfold Fits at hfits
        rw [hleaf] at hfits
        refine ⟨_, _, hstep _ _ (.stop hcontent (by simp)), ?_⟩
        rw [valueAt_leaf hcontent, eval_joined_nothing hf, hx]
        cases x with
        | text text => exact absurd rfl (hx' text)
        | bool b => exact hfits
        | nil => exact hfits
      · cases hc
      · split at hc <;> cases hc
    | formula g =>
      rw [hc] at hf
      obtain ⟨m, p, hw, hv⟩ := walk_of_contribution hs hfits hc
      refine ⟨m, p, hstep m p hw, ?_⟩
      rw [hv, eval_joined_formula hf, LeafValue.absorption?_spec hab, if_pos hx]
  · -- The test leads to the other successor.
    have hx' := Bool.eq_not_of_ne hx
    refine ⟨s.branch.other s.side, !s.side.outcome, .step hs.content?_parent ?_, ?_⟩
    · rw [hx', hnext]
      exact .stop hother (by simp)
    · rw [valueAt_leaf hother, hread]
      cases hc : t.contribution s.node with
      | pending => exact absurd hc hpending
      | nothing =>
        rw [hc] at hf
        rw [eval_joined_nothing hf, hx']
      | formula g =>
        rw [hc] at hf
        rw [eval_joined_formula hf, LeafValue.absorption?_spec hab, if_neg hx, hx']

/-- After a merge the parent leads on as its walk did before. -/
theorem matches_merged {t : Table} {s : Site} (hs : t.IsSite s) (v : String → Bool)
    (reading : Nat → Bool → Bool) {n m : Branch} (hn : s.node.content = .branch n)
    (hm : s.branch.merge? n s.side = some m) :
    t.Matches v reading s.parent.key (.branch m) := by
  intro o
  obtain ⟨hkey, hnext, -⟩ := Branch.sideOf?_spec hs.side
  obtain ⟨hsucc, hshared, heval⟩ := Branch.merge?_spec hm
  have hnode := hs.content?_node
  rw [hn] at hnode
  rw [hsucc, heval]
  split_ifs with hx
  · refine .head ⟨s.branch, hs.content?_parent, rfl⟩ (.single ⟨n, ?_, rfl⟩)
    rw [hx, hkey]
    exact hnode
  · refine .single ⟨s.branch, hs.content?_parent, ?_⟩
    have hx' := Bool.eq_not_of_ne hx
    rw [hx', hnext, hshared]

/-- A step keeps the walks and their values when the reading is apt. -/
theorem Step.refines {t u : Table} (h : t.Step u) {v : String → Bool}
    {reading : Nat → Bool → Bool} (hapt : t.Apt v reading) : t.Refines u v reading := by
  intro k c hk
  cases h with
  | drop hs hself =>
    rw [content?_erase] at hk
    split_ifs at hk
    exact matches_of_content? hk v reading
  | merge hs hne hn hm =>
    rcases (content?_of_replace hs hne hk).2 with ⟨rfl, rfl⟩ | ⟨-, hk⟩
    · exact matches_merged hs v reading hn hm
    · exact matches_of_content? hk v reading
  | absorb hs hne hother hab hf =>
    rcases (content?_of_replace hs hne hk).2 with ⟨rfl, rfl⟩ | ⟨-, hk⟩
    · exact matches_absorbed hs hapt hother hab hf
    · exact matches_of_content? hk v reading

/-! ## The usual reading -/

/-- A reading that gives every leaf its own value. -/
def Reads (t : Table) (v : String → Bool) (reading : Nat → Bool → Bool) : Prop :=
  ∀ ⦃k : Nat⦄ ⦃x : LeafValue⦄, t.content? k = some (.leaf x) → ∀ o, reading k o = x.read v o

/-- No path ends without a value. -/
def NoNil (t : Table) : Prop := ∀ k, t.content? k ≠ some (.leaf .nil)

theorem Apt.of_reads {t : Table} {v : String → Bool} {reading : Nat → Bool → Bool}
    (hr : t.Reads v reading) (hnil : t.NoNil) : t.Apt v reading := by
  intro s value negated op hs hother hab hpending
  constructor
  · rw [hr hother]
    cases value with
    | bool b => rw [LeafValue.absorption?_bool hab, LeafValue.read]
    | nil => exact absurd hother (hnil _)
    | text text => simp [LeafValue.absorption?_text] at hab
  · have hnode := hs.content?_node
    unfold Fits
    split
    · next text hc =>
      rw [hc] at hnode
      rw [hr hnode, LeafValue.read]
    · next x hx hc =>
      rw [hc] at hnode
      cases x with
      | text text => exact absurd rfl (hx text)
      | nil => exact absurd hnode (hnil _)
      | bool b => exact absurd hc (isBool_eq_false_iff.1 hs.isOpen b)
    · trivial
    · next n hc =>
      intro o b hb
      rw [hr (content?_of_bool? hb), LeafValue.read]

/-- The leaves after a step are leaves before it. -/
theorem Step.content?_leaf {t u : Table} (h : t.Step u) {k : Nat} {x : LeafValue}
    (hk : u.content? k = some (.leaf x)) : t.content? k = some (.leaf x) := by
  cases h with
  | drop hs hself =>
    rw [content?_erase] at hk
    split_ifs at hk
    exact hk
  | merge hs hne =>
    rcases (content?_of_replace hs hne hk).2 with ⟨-, h⟩ | ⟨-, h⟩
    · cases h
    · exact h
  | absorb hs hne =>
    rcases (content?_of_replace hs hne hk).2 with ⟨-, h⟩ | ⟨-, h⟩
    · cases h
    · exact h

end Table

end ShortCircuit
