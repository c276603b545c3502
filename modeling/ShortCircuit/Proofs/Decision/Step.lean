import ShortCircuit.Proofs.Decision.Graph

/-!
# Steps of the reduction

One relation says what a fold can do to a table: drop a branch that only leads to itself, merge a
branch into its parent, or take a value into its parent. The reduction is a sequence of such steps,
so a property of all steps is a property of the reduction.

* `Table.step_of_fold`, `Table.steps_of_reduce`: folding and reducing make steps.
* `Branch.merge?_spec`, `LeafValue.absorption?_spec`: what the two rules compute, the same for both
  sides.
* `Table.content?_rewritten`: what a merge or an absorption changes before the table is pruned.
-/

namespace ShortCircuit

/-! ## The two rules -/

/-- The connective that continues a test on a side. -/
def Side.connective : Side → Connective
  | .onTrue => .and
  | .onFalse => .or

theorem Branch.sideOf?_spec {b : Branch} {key : Nat} {side : Side}
    (h : b.sideOf? key = some side) :
    b.next side.outcome = key ∧ b.next (!side.outcome) = b.other side ∧ b.other side ≠ key := by
  unfold Branch.sideOf? at h
  split_ifs at h with h1 h2
  · cases h
    exact ⟨h1.1, rfl, h1.2⟩
  · cases h
    exact ⟨h2.1, rfl, h2.2⟩

/-- A merged branch has the successors of the later one, and its statement has the value of the
later one exactly when the earlier test leads there. -/
theorem Branch.merge?_spec {b n m : Branch} {side : Side} (h : b.merge? n side = some m) :
    (∀ o, m.next o = n.next o) ∧ b.other side = n.next (!side.outcome) ∧
      ∀ v, m.statement.eval v =
        if b.statement.eval v = side.outcome then n.statement.eval v else b.statement.eval v := by
  cases side with
  | onTrue =>
    simp only [Branch.merge?] at h
    split_ifs at h with hs
    cases h
    refine ⟨?_, hs.symm, fun v => ?_⟩
    · rintro (_ | _)
      · exact hs.symm
      · rfl
    · cases hb : b.statement.eval v <;>
        simp [Formula.combine, Formula.eval, Formula.shown, Connective.apply, Side.outcome, hb]
  | onFalse =>
    simp only [Branch.merge?] at h
    split_ifs at h with hs
    cases h
    refine ⟨?_, hs.symm, fun v => ?_⟩
    · rintro (_ | _)
      · rfl
      · exact hs.symm
    · cases hb : b.statement.eval v <;>
        simp [Formula.combine, Formula.eval, Formula.shown, Connective.apply, Side.outcome, hb]

/-- Two branches are merged when they share the successor on the other side. -/
theorem Branch.merge?_eq_some_iff {b n m : Branch} {side : Side} :
    b.merge? n side = some m ↔ n.next (!side.outcome) = b.other side ∧
      m = ⟨b.statement.combine side.connective n.statement, n.onTrue, n.onFalse⟩ := by
  cases side with
  | onTrue =>
    show (if n.onFalse = b.onFalse then _ else none) = some m ↔ n.onFalse = b.onFalse ∧ _
    split_ifs with h
    · rw [Option.some.injEq, eq_comm, h]
      simp [Side.connective]
    · simp [h]
  | onFalse =>
    show (if n.onTrue = b.onTrue then _ else none) = some m ↔ n.onTrue = b.onTrue ∧ _
    split_ifs with h
    · rw [Option.some.injEq, eq_comm, h]
      simp [Side.connective]
    · simp [h]

theorem Branch.statement_of_merge? {b n m : Branch} {side : Side}
    (h : b.merge? n side = some m) :
    m.statement = b.statement.combine side.connective n.statement := by
  rw [(Branch.merge?_eq_some_iff.1 h).2]

/-- The connective of an absorption is that of the side, unless the parent is negated. -/
theorem LeafValue.absorption?_op {other : LeafValue} {side : Side} {negated : Bool}
    {op : Connective} (h : other.absorption? side = some (negated, op)) :
    op = Formula.shown side.connective negated := by
  cases side <;> cases other with
  | bool b => cases b <;> cases h <;> rfl
  | nil => cases h; rfl
  | text s => cases h

/-- The connective of an absorption yields the value on the side of the fold, and on the other side
the possibly negated outcome. -/
theorem LeafValue.absorption?_spec {other : LeafValue} {side : Side} {negated : Bool}
    {op : Connective} (h : other.absorption? side = some (negated, op)) (x y : Bool) :
    op.apply (x ^^ negated) y = if x = side.outcome then y else x ^^ negated := by
  cases side <;> cases other with
  | bool b => cases b <;> cases h <;> cases x <;> cases y <;> rfl
  | nil => cases h; cases x <;> cases y <;> rfl
  | text s => cases h

/-- The negation is the one that gives the other successor its own truth value. -/
theorem LeafValue.absorption?_bool {b : Bool} {side : Side} {negated : Bool} {op : Connective}
    (h : (LeafValue.bool b).absorption? side = some (negated, op)) :
    (!side.outcome ^^ negated) = b := by
  cases side <;> cases b <;> cases h <;> rfl

theorem LeafValue.absorption?_nil {side : Side} {negated : Bool} {op : Connective}
    (h : LeafValue.nil.absorption? side = some (negated, op)) : negated = false := by
  cases side <;> cases h <;> rfl

theorem LeafValue.absorption?_text {text : String} {side : Side} :
    (LeafValue.text text).absorption? side = none := by
  cases side <;> rfl

theorem Table.eval_joined_nothing {statement f : Formula} {negated : Bool} {op : Connective}
    (h : Table.joined statement negated op .nothing = some f) (v : String → Bool) :
    f.eval v = (statement.eval v ^^ negated) := by
  cases h
  cases negated <;> simp

theorem Table.eval_joined_formula {statement f g : Formula} {negated : Bool} {op : Connective}
    (h : Table.joined statement negated op (.formula g) = some f) (v : String → Bool) :
    f.eval v = op.apply (statement.eval v ^^ negated) (g.eval v) := by
  cases h
  cases negated <;> simp [Formula.combine, Formula.eval, Formula.shown]

namespace Table

/-! ## Sites -/

/-- A node that is no boolean leaf, its only recorded parent, and the one edge between them. -/
structure IsSite (t : Table) (s : Site) : Prop where
  node : t.get? s.node.key = some s.node
  isOpen : s.node.isBool = false
  parents : s.node.parents = [s.parent.key]
  parent : t.get? s.parent.key = some s.parent
  branch : s.parent.content = .branch s.branch
  side : s.branch.sideOf? s.node.key = some s.side

theorem isSite_of_site? {t : Table} {key : Nat} {s : Site} (h : t.site? key = some s) :
    s.node.key = key ∧ t.IsSite s := by
  unfold site? at h
  split at h
  · cases h
  · next node hn =>
    split at h
    · cases h
    · next ho =>
      split at h
      · next p hp =>
        split at h
        · cases h
        · next parent hq =>
          split at h
          · next branch hb =>
            split at h
            · next side hside =>
              cases h
              obtain ⟨-, hk⟩ := mem_of_get? hn
              obtain ⟨-, hpk⟩ := mem_of_get? hq
              subst hk hpk
              exact ⟨rfl, hn, by simpa using ho, hp, hq, hb, hside⟩
            · cases h
          · cases h
      · cases h

theorem site?_of_isSite {t : Table} {s : Site} (h : t.IsSite s) :
    t.site? s.node.key = some s := by
  unfold site?
  simp only [h.node, h.isOpen, Bool.false_eq_true, if_false, h.parents, h.parent, h.branch, h.side]

section IsSite

variable {t : Table} {s : Site} (hs : t.IsSite s)

include hs

theorem IsSite.content?_node : t.content? s.node.key = some s.node.content := by
  rw [content?, hs.node, Option.map_some]

theorem IsSite.content?_parent : t.content? s.parent.key = some (.branch s.branch) := by
  rw [content?, hs.parent, Option.map_some, hs.branch]

/-- The parent is the only predecessor of the node. -/
theorem IsSite.eq_of_edge (hc : t.Covers) {a : Nat} (ha : t.Edge a s.node.key) :
    a = s.parent.key := by
  have hmem := hc hs.node ha
  rw [hs.parents] at hmem
  exact List.mem_singleton.1 hmem

theorem IsSite.edge : t.Edge s.parent.key s.node.key :=
  ⟨s.branch, s.side.outcome, hs.content?_parent, (Branch.sideOf?_spec hs.side).1⟩

end IsSite

/-! ## Steps -/

/-- What one fold can do to a table. -/
inductive Step (t : Table) : Table → Prop
  | drop {s : Site} (hs : t.IsSite s) (hself : s.parent.key = s.node.key) :
      Step t (t.erase s.node.key)
  | merge {s : Site} {n m : Branch} (hs : t.IsSite s) (hne : s.parent.key ≠ s.node.key)
      (hn : s.node.content = .branch n) (hm : s.branch.merge? n s.side = some m)
      (assigns : Option UInt8) : Step t (t.replace s (.branch m) assigns)
  | absorb {s : Site} {value : LeafValue} {negated : Bool} {op : Connective} {f : Formula}
      (hs : t.IsSite s) (hne : s.parent.key ≠ s.node.key)
      (hother : t.content? (s.branch.other s.side) = some (.leaf value))
      (hab : value.absorption? s.side = some (negated, op))
      (hf : joined s.branch.statement negated op (t.contribution s.node) = some f)
      (assigns : Option UInt8) : Step t (t.replace s (.closed f) assigns)

/-- What a merge needs. -/
theorem merged?_eq_some {t u : Table} {s : Site} (h : t.merged? s = some u) :
    ∃ n m, s.node.content = .branch n ∧ s.branch.merge? n s.side = some m ∧
      u = t.replace s (.branch m) (s.parent.assigns <|> s.node.assigns) := by
  unfold merged? at h
  split at h
  · next n hn =>
    split at h
    · next m hm =>
      cases h
      exact ⟨n, m, hn, hm, rfl⟩
    · cases h
  · cases h

theorem step_of_merged? {t u : Table} {s : Site} (hs : t.IsSite s)
    (hne : s.parent.key ≠ s.node.key) (h : t.merged? s = some u) : t.Step u := by
  obtain ⟨n, m, hn, hm, rfl⟩ := merged?_eq_some h
  exact .merge hs hne hn hm _

/-- What an absorption needs. -/
theorem absorbed?_eq_some {t u : Table} {s : Site} (h : t.absorbed? s = some u) :
    ∃ value negated op f, t.content? (s.branch.other s.side) = some (.leaf value) ∧
      value.absorption? s.side = some (negated, op) ∧
      joined s.branch.statement negated op (t.contribution s.node) = some f ∧
      u = t.replace s (.closed f) s.parent.assigns := by
  unfold absorbed? at h
  split at h
  · cases h
  · next other hother =>
    split at h
    · cases h
    · next value hvalue =>
      split at h
      · cases h
      · next negated op hab =>
        split at h
        · cases h
        · next f hf =>
          cases h
          refine ⟨value, negated, op, f, ?_, hab, hf, rfl⟩
          rw [content?, hother, Option.map_some]
          unfold Node.value? at hvalue
          split at hvalue
          · next x hx =>
            cases hvalue
            rw [hx]
          · cases hvalue

theorem absorbed?_of_leaf {t : Table} {s : Site} {value : LeafValue} {negated : Bool}
    {op : Connective} {f : Formula}
    (hother : t.content? (s.branch.other s.side) = some (.leaf value))
    (hab : value.absorption? s.side = some (negated, op))
    (hf : joined s.branch.statement negated op (t.contribution s.node) = some f) :
    t.absorbed? s = some (t.replace s (.closed f) s.parent.assigns) := by
  obtain ⟨other, hget, hcontent⟩ := Option.map_eq_some_iff.1 hother
  simp only [absorbed?, hget, Node.value?, hcontent, hab, hf]

theorem step_of_absorbed? {t u : Table} {s : Site} (hs : t.IsSite s)
    (hne : s.parent.key ≠ s.node.key) (h : t.absorbed? s = some u) : t.Step u := by
  obtain ⟨value, negated, op, f, hother, hab, hf, rfl⟩ := absorbed?_eq_some h
  exact .absorb hs hne hother hab hf _

/-- A fold leaves the table alone or makes a step. -/
theorem step_of_fold (t : Table) (key : Nat) : (t.fold key).2 = t ∨ t.Step (t.fold key).2 := by
  unfold fold
  split
  · exact .inl rfl
  · next s hsite =>
    obtain ⟨rfl, hs⟩ := isSite_of_site? hsite
    split
    · next hself => exact .inr (.drop hs hself)
    · next hne =>
      split
      · next u hu => exact .inr (step_of_merged? hs hne hu)
      · split
        · next u hu => exact .inr (step_of_absorbed? hs hne hu)
        · exact .inl rfl

theorem steps_of_sweep (t : Table) (keys : List Nat) :
    Relation.ReflTransGen Step t (t.sweep keys).2 := by
  induction keys generalizing t with
  | nil => exact .refl
  | cons key keys ih =>
    have hfold : Relation.ReflTransGen Step t (t.fold key).2 := by
      rcases step_of_fold t key with h | h
      · rw [h]
      · exact .single h
    unfold sweep
    split
    · next u hu => rwa [hu] at hfold
    · next u hu =>
      rw [hu] at hfold
      exact hfold.trans (ih u)

theorem reduce_of_openCount_le {t : Table} (h : t.openCount ≤ 1) : t.reduce = (.ok (), t) := by
  rw [reduce, if_pos h]

theorem reduce_of_sweep {t u : Table} (h : ¬t.openCount ≤ 1)
    (hu : t.sweep t.keys.reverse = (true, u)) : t.reduce = u.reduce := by
  rw [reduce, if_neg h]
  split
  · next w hw =>
    cases hu.symm.trans hw
    rfl
  · next w hw => cases hu.symm.trans hw

theorem reduce_of_stuck {t u : Table} (h : ¬t.openCount ≤ 1)
    (hu : t.sweep t.keys.reverse = (false, u)) :
    t.reduce = (.error (.stalled u.openCount), u) := by
  rw [reduce, if_neg h]
  split
  · next w hw => cases hu.symm.trans hw
  · next w hw =>
    cases hu.symm.trans hw
    rfl

/-- The reduction makes steps, and when it succeeds at most one node is left open. -/
theorem steps_of_reduce {t u : Table} {r : Except Obstacle Unit} (h : t.reduce = (r, u)) :
    Relation.ReflTransGen Step t u ∧ (r = .ok () → u.openCount ≤ 1) := by
  induction t using reduce.induct with
  | case1 t hle =>
    rw [reduce_of_openCount_le hle] at h
    cases h
    exact ⟨.refl, fun _ => hle⟩
  | case2 t hle w hw ih =>
    rw [reduce_of_sweep hle hw] at h
    have hsweep := steps_of_sweep t t.keys.reverse
    rw [hw] at hsweep
    exact ⟨hsweep.trans (ih h).1, (ih h).2⟩
  | case3 t hle w hw =>
    rw [reduce_of_stuck hle hw] at h
    cases h
    have hsweep := steps_of_sweep t t.keys.reverse
    rw [hw] at hsweep
    exact ⟨hsweep, fun h => nomatch h⟩

theorem isBool_eq_false_iff {n : Node} : n.isBool = false ↔ ∀ b, n.content ≠ .leaf (.bool b) := by
  unfold Node.isBool Node.bool? Node.value?
  split
  · next x hx =>
    rw [hx]
    cases x <;> simp [LeafValue.bool?]
  · next hx => exact ⟨fun _ b hb => hx _ hb, fun _ => rfl⟩

/-- When at most one node is open, all nodes beside an open one are boolean leaves. -/
theorem bool_of_openCount_le {t : Table} (h : t.openCount ≤ 1) {k k' : Nat} {c c' : Content}
    (hk : t.content? k = some c) (hk' : t.content? k' = some c') (hne : k ≠ k')
    (hc : ∀ b, c ≠ .leaf (.bool b)) : ∃ b, c' = .leaf (.bool b) := by
  obtain ⟨n, hn, rfl, rfl⟩ := content?_eq_some_iff.1 hk
  obtain ⟨n', hn', rfl, rfl⟩ := content?_eq_some_iff.1 hk'
  by_contra hno
  rw [openCount, List.countP_eq_length_filter] at h
  have hmem : n ∈ t.nodes.filter fun n => !n.isBool :=
    List.mem_filter.2 ⟨hn, by simpa using isBool_eq_false_iff.2 hc⟩
  have hmem' : n' ∈ t.nodes.filter fun n => !n.isBool := by
    refine List.mem_filter.2 ⟨hn', by simpa using isBool_eq_false_iff.2 fun b hb => hno ⟨b, hb⟩⟩
  generalize t.nodes.filter (fun n => !n.isBool) = l at h hmem hmem'
  rcases l with _ | ⟨m, _ | ⟨m', l⟩⟩
  · cases hmem
  · rw [List.mem_singleton] at hmem hmem'
    exact hne (by rw [hmem, hmem'])
  · simp at h

/-! ## Effects of steps -/

/-- The table of a fold before it is pruned. -/
def rewritten (t : Table) (s : Site) (content : Content) (assigns : Option UInt8) : Table :=
  ((t.erase s.node.key).update s.parent.key content assigns).link

theorem replace_eq_prune (t : Table) (s : Site) (content : Content) (assigns : Option UInt8) :
    t.replace s content assigns = (t.rewritten s content assigns).prune := rfl

@[simp]
theorem root_rewritten (t : Table) (s : Site) (content : Content) (assigns : Option UInt8) :
    (t.rewritten s content assigns).root = t.root := rfl

theorem covers_rewritten (t : Table) (s : Site) (content : Content) (assigns : Option UInt8) :
    (t.rewritten s content assigns).Covers := covers_link _

theorem content?_rewritten {t : Table} {s : Site} (hs : t.IsSite s)
    (hne : s.parent.key ≠ s.node.key) (content : Content) (assigns : Option UInt8) (k : Nat) :
    (t.rewritten s content assigns).content? k =
      if k = s.node.key then none
      else if k = s.parent.key then some content
      else t.content? k := by
  rw [rewritten, content?_link, content?_update, content?_erase]
  by_cases hk : k = s.parent.key
  · subst hk
    simp [hne, hs.content?_parent]
  · simp [hk]

/-- After a merge every edge is still there; those of the node start at its parent. -/
theorem edge_merged {t : Table} {s : Site} (hs : t.IsSite s) (hne : s.parent.key ≠ s.node.key)
    {n m : Branch} (hn : s.node.content = .branch n) (hm : s.branch.merge? n s.side = some m)
    (assigns : Option UInt8) {a k : Nat} (he : t.Edge a k) (hk : k ≠ s.node.key) :
    (t.rewritten s (.branch m) assigns).Edge (if a = s.node.key then s.parent.key else a) k := by
  obtain ⟨hkey, hnext, -⟩ := Branch.sideOf?_spec hs.side
  obtain ⟨hsucc, hshared, -⟩ := Branch.merge?_spec hm
  have hcontent := content?_rewritten hs hne (.branch m) assigns
  have hparent : (t.rewritten s (.branch m) assigns).content? s.parent.key = some (.branch m) := by
    rw [hcontent, if_neg hne, if_pos rfl]
  by_cases ha : a = s.node.key
  · subst ha
    rw [if_pos rfl, edge_iff_of_branch hparent]
    obtain ⟨o, ho⟩ := (edge_iff_of_branch (by rw [hs.content?_node, hn])).1 he
    exact ⟨o, (hsucc o).trans ho⟩
  · rw [if_neg ha]
    by_cases hp : a = s.parent.key
    · subst hp
      rw [edge_iff_of_branch hparent]
      obtain ⟨o, rfl⟩ := (edge_iff_of_branch hs.content?_parent).1 he
      by_cases ho : o = s.side.outcome
      · exact absurd (by rw [ho, hkey]) hk
      · exact ⟨o, by rw [Bool.eq_not_of_ne ho, hsucc, hnext, hshared]⟩
    · refine he.of_content ?_
      rw [hcontent, if_neg ha, if_neg hp]

/-- What stands in a table after a fold stood there before, or is the new content of the parent. -/
theorem content?_of_replace {t : Table} {s : Site} (hs : t.IsSite s)
    (hne : s.parent.key ≠ s.node.key) {content : Content} {assigns : Option UInt8} {k : Nat}
    {c : Content} (h : (t.replace s content assigns).content? k = some c) :
    k ≠ s.node.key ∧
      (k = s.parent.key ∧ c = content ∨ k ≠ s.parent.key ∧ t.content? k = some c) := by
  rw [replace_eq_prune] at h
  have h := content?_of_prune h
  rw [content?_rewritten hs hne] at h
  split_ifs at h with h1 h2
  · cases h
    exact ⟨h1, .inl ⟨h2, rfl⟩⟩
  · exact ⟨h1, .inr ⟨h2, h⟩⟩

theorem Step.root_eq {t u : Table} (h : t.Step u) : u.root = t.root := by
  cases h with
  | drop => rfl
  | merge => rw [replace_eq_prune, root_prune, root_rewritten]
  | absorb => rw [replace_eq_prune, root_prune, root_rewritten]

theorem Step.covers {t u : Table} (h : t.Step u) (hc : t.Covers) : u.Covers := by
  cases h with
  | @drop s hs hself =>
    intro k n hn a ha
    rw [get?_erase] at hn
    split_ifs at hn with hk
    obtain ⟨branch, outcome, hb, rfl⟩ := ha
    rw [content?_erase] at hb
    split_ifs at hb with ha
    exact hc hn ⟨branch, outcome, hb, rfl⟩
  | merge => exact (covers_rewritten _ _ _ _).prune
  | absorb => exact (covers_rewritten _ _ _ _).prune

/-- A key that has lost its node never gets one again. -/
theorem Step.content?_ne_none {t u : Table} (h : t.Step u) {k : Nat} (hk : u.content? k ≠ none) :
    t.content? k ≠ none := by
  obtain ⟨c, hk⟩ := Option.ne_none_iff_exists'.1 hk
  cases h with
  | drop hs hself =>
    rw [content?_erase] at hk
    split_ifs at hk
    simp [hk]
  | merge hs hne =>
    rcases (content?_of_replace hs hne hk).2 with ⟨rfl, -⟩ | ⟨-, h⟩
    · simp [hs.content?_parent]
    · simp [h]
  | absorb hs hne =>
    rcases (content?_of_replace hs hne hk).2 with ⟨rfl, -⟩ | ⟨-, h⟩
    · simp [hs.content?_parent]
    · simp [h]

end Table

end ShortCircuit
