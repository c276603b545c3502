import ShortCircuit.Proofs.Decision.Meaning
import ShortCircuit.Proofs.Recovery.Collection

/-!
# Runs of a chain

The tests of a chain are run one after another: a test goes to the target of its jump or passes the
jump, and the run continues while a segment of the chain starts at the place reached. The table of
the chain, with a leaf at every exit, has the same runs.

* `Chain.Run` is the run of a chain under an assignment of truth values to the texts of its tests.
* `Table.mem_exits`: the exits of a table are the successors that are no nodes.
* `Chain.Closes`: a table consists of the branches of a chain and of leaves at its exits.
* `Chain.Closes.run`, `Chain.Closes.walk`: the walks through such a table are the runs of the
  chain.
-/

namespace ShortCircuit

namespace Pair

/-- Where control goes after a test with an outcome: the jump is taken when the outcome equals the
polarity, otherwise control passes it. -/
def next (p : Pair) (outcome : Bool) : Nat :=
  if outcome = p.instruction.polarity then p.target else p.pc + 2

theorem next_branch (p : Pair) (outcome : Bool) : p.branch.next outcome = p.next outcome := by
  unfold branch next
  cases hp : p.instruction.polarity <;> cases outcome <;> simp

theorem eval_branch (p : Pair) (v : String → Bool) : p.branch.statement.eval v = v p.text := by
  unfold branch
  split <;> simp [Formula.ofText, Formula.eval]

theorem next_not_polarity (p : Pair) : p.next (!p.instruction.polarity) = p.pc + 2 := by
  unfold next
  cases p.instruction.polarity <;> simp

end Pair

namespace Table

/-! ## Exits -/

theorem mem_insertTarget {m n : Nat} {l : List Nat} : m ∈ insertTarget n l ↔ m = n ∨ m ∈ l := by
  induction l with
  | nil => simp [insertTarget]
  | cons a l ih =>
    unfold insertTarget
    split_ifs with h1 h2
    · simp
    · subst h2
      simp
    · simp only [List.mem_cons, ih]
      tauto

theorem pairwise_insertTarget {n : Nat} {l : List Nat} (h : l.Pairwise (· < ·)) :
    (insertTarget n l).Pairwise (· < ·) := by
  induction l with
  | nil => simp [insertTarget]
  | cons a l ih =>
    obtain ⟨ha, hl⟩ := List.pairwise_cons.1 h
    unfold insertTarget
    split_ifs with h1 h2
    · refine List.pairwise_cons.2 ⟨fun b hb => ?_, h⟩
      rcases List.mem_cons.1 hb with rfl | hb
      · exact h1
      · exact Nat.lt_trans h1 (ha b hb)
    · exact h
    · refine List.pairwise_cons.2 ⟨fun b hb => ?_, ih hl⟩
      rcases mem_insertTarget.1 hb with rfl | hb
      · omega
      · exact ha b hb

/-- The targets of a table are what its edges lead to. -/
theorem mem_targets {t : Table} {k : Nat} : k ∈ t.targets ↔ ∃ a, t.Edge a k := by
  have hfold : ∀ l : List Nat, k ∈ l.foldr insertTarget [] ↔ k ∈ l := by
    intro l
    induction l with
    | nil => simp
    | cons a l ih => simp [mem_insertTarget, ih]
  rw [targets, hfold, List.mem_flatMap]
  simp only [edge_iff_exists_node]
  constructor
  · rintro ⟨n, hn, hk⟩
    exact ⟨n.key, n, hn, rfl, hk⟩
  · rintro ⟨a, n, hn, -, hk⟩
    exact ⟨n, hn, hk⟩

/-- The exits of a table are the successors of branches that are no nodes. -/
theorem mem_exits {t : Table} {k : Nat} :
    k ∈ t.exits ↔ (∃ a, t.Edge a k) ∧ t.content? k = none := by
  rw [exits, List.mem_filter, mem_targets]
  have hcontains : (!t.contains k) = true ↔ t.content? k = none := by
    rw [Bool.not_eq_true', ← Bool.not_eq_true, contains_iff, not_not]
  rw [hcontains]

theorem pairwise_exits (t : Table) : t.exits.Pairwise (· < ·) := by
  have hfold : ∀ l : List Nat, (l.foldr insertTarget []).Pairwise (· < ·) := by
    intro l
    induction l with
    | nil => simp
    | cons a l ih => exact pairwise_insertTarget ih
  exact (hfold _).filter _

/-! ## Adding several nodes -/

@[simp]
theorem root_foldl_insert (t : Table) (nodes : List Node) :
    (nodes.foldl insert t).root = t.root := by
  induction nodes generalizing t with
  | nil => rfl
  | cons n nodes ih => rw [List.foldl_cons, ih, root_insert]

theorem content?_foldl_insert_of_ne {t : Table} {nodes : List Node} {k : Nat}
    (h : ∀ n ∈ nodes, n.key ≠ k) : (nodes.foldl insert t).content? k = t.content? k := by
  induction nodes generalizing t with
  | nil => rfl
  | cons n nodes ih =>
    have hn : k ≠ n.key := (h n (by simp)).symm
    rw [List.foldl_cons, ih fun m hm => h m (by simp [hm]), content?_insert, if_neg hn]

theorem content?_foldl_insert_of_mem {t : Table} {nodes : List Node}
    (hd : nodes.Pairwise fun m n => m.key ≠ n.key) {n : Node} (hn : n ∈ nodes) :
    (nodes.foldl insert t).content? n.key = some n.content := by
  induction nodes generalizing t with
  | nil => cases hn
  | cons m nodes ih =>
    obtain ⟨hm, hd⟩ := List.pairwise_cons.1 hd
    rw [List.foldl_cons]
    rcases List.mem_cons.1 hn with rfl | hn
    · rw [content?_foldl_insert_of_ne fun j hj => (hm j hj).symm, content?_insert, if_pos rfl]
    · exact ih hd hn

end Table

namespace Chain

/-! ## Runs -/

/-- Under `v`, the run of a chain from a place reached with an outcome ends at a place reached with
an outcome: it stops where no segment starts, and else continues after the test there. -/
inductive Run (c : Chain) (v : String → Bool) : Nat → Bool → Nat → Bool → Prop
  | leave {place : Nat} {o : Bool} (h : ∀ p ∈ c.pairs, p.key ≠ place) : Run c v place o place o
  | test {p : Pair} {o : Bool} {place : Nat} {o' : Bool} (hp : p ∈ c.pairs)
      (rest : Run c v (p.next (v p.text)) (v p.text) place o') : Run c v p.key o place o'

/-! ## Segments -/

theorem Segmented.key_le {code : List Instruction} {key : Nat} {pairs : List Pair}
    (h : Segmented code key pairs) {p : Pair} (hp : p ∈ pairs) : key ≤ p.key := by
  induction pairs generalizing key with
  | nil => cases hp
  | cons q pairs ih =>
    obtain ⟨hkey, hle, -, -, -, hrest⟩ := h
    rcases List.mem_cons.1 hp with rfl | hp
    · exact Nat.le_of_eq hkey.symm
    · have := ih hrest hp
      omega

theorem Segmented.exists_key {code : List Instruction} {key : Nat} {pairs : List Pair}
    (h : Segmented code key pairs) (hne : pairs ≠ []) : ∃ p ∈ pairs, p.key = key := by
  cases pairs with
  | nil => exact absurd rfl hne
  | cons p pairs => exact ⟨p, by simp, h.1⟩

theorem Segmented.pairwise {code : List Instruction} {key : Nat} {pairs : List Pair}
    (h : Segmented code key pairs) : pairs.Pairwise fun p q => p.key < q.key := by
  induction pairs generalizing key with
  | nil => exact .nil
  | cons p pairs ih =>
    obtain ⟨hkey, hle, -, -, -, hrest⟩ := h
    refine List.pairwise_cons.2 ⟨fun q hq => ?_, ih hrest⟩
    have := hrest.key_le hq
    omega

theorem Segmented.key_inj {code : List Instruction} {key : Nat} {pairs : List Pair}
    (h : Segmented code key pairs) {p q : Pair} (hp : p ∈ pairs) (hq : q ∈ pairs)
    (he : p.key = q.key) : p = q := by
  have hnodup : (pairs.map (·.key)).Nodup :=
    List.pairwise_map.2 (h.pairwise.imp fun hlt => Nat.ne_of_lt hlt)
  exact List.inj_on_of_nodup_map hnodup hp hq he

/-- Where a test is passed the next segment starts, unless it is the last test. -/
theorem Segmented.getLast?_or_next {code : List Instruction} {key : Nat} {pairs : List Pair}
    (h : Segmented code key pairs) {p : Pair} (hp : p ∈ pairs) :
    pairs.getLast? = some p ∨ ∃ q ∈ pairs, q.key = p.pc + 2 ∧ key < q.key := by
  induction pairs generalizing key with
  | nil => cases hp
  | cons r pairs ih =>
    obtain ⟨rfl, hle, -, -, -, hrest⟩ := h
    cases pairs with
    | nil =>
      rw [List.mem_singleton.1 hp]
      exact .inl rfl
    | cons q pairs =>
      have hq : q.key = r.pc + 2 := hrest.1
      rcases List.mem_cons.1 hp with rfl | hp
      · exact .inr ⟨q, by simp, hq, by omega⟩
      · rcases ih hrest hp with hlast | ⟨q', hq', hkey, hlt⟩
        · exact .inl (by rw [List.getLast?_cons_cons, hlast])
        · exact .inr ⟨q', List.mem_cons_of_mem _ hq', hkey, by omega⟩

/-- Runs are deterministic. -/
theorem Run.unique {code : List Instruction} {key : Nat} {c : Chain}
    (hc : Segmented code key c.pairs) {v : String → Bool} {k m m' : Nat} {o p p' : Bool}
    (h : c.Run v k o m p) (h' : c.Run v k o m' p') : m = m' ∧ p = p' := by
  induction h with
  | leave hk =>
    cases h' with
    | leave => exact ⟨rfl, rfl⟩
    | test hq => exact absurd rfl (hk _ hq)
  | @test q o place o' hq rest ih =>
    generalize hkey : q.key = k at h'
    cases h' with
    | leave hk => exact absurd hkey (hk _ hq)
    | test hq' rest' =>
      obtain rfl := hc.key_inj hq hq' hkey
      exact ih rest'

/-! ## The table of a chain -/

@[simp]
theorem root_table (c : Chain) (start : Nat) : (c.table start).root = start := by
  have h := Table.root_foldl_insert (.empty start) (c.pairs.map Pair.node)
  rw [List.foldl_map] at h
  exact h

section Table

variable {code : List Instruction} {start : Nat} {c : Chain} (hc : Segmented code start c.pairs)

include hc

theorem content?_table_of_mem {p : Pair} (hp : p ∈ c.pairs) :
    (c.table start).content? p.key = some (.branch p.branch) := by
  have hd : (c.pairs.map Pair.node).Pairwise fun m n => m.key ≠ n.key :=
    List.pairwise_map.2 (hc.pairwise.imp fun hlt => Nat.ne_of_lt hlt)
  have h := Table.content?_foldl_insert_of_mem (t := .empty start) hd (List.mem_map_of_mem hp)
  rw [List.foldl_map] at h
  exact h

omit hc in
theorem content?_table_of_ne {k : Nat} (hk : ∀ p ∈ c.pairs, p.key ≠ k) :
    (c.table start).content? k = none := by
  have hne : ∀ n ∈ c.pairs.map Pair.node, n.key ≠ k := by simpa [Pair.node] using hk
  have h := Table.content?_foldl_insert_of_ne (t := .empty start) hne
  rw [List.foldl_map] at h
  exact h

/-- What a chain's table holds are the branches of its tests. -/
theorem content?_table_eq_some_iff {k : Nat} {x : Content} :
    (c.table start).content? k = some x ↔ ∃ p ∈ c.pairs, p.key = k ∧ x = .branch p.branch := by
  constructor
  · intro h
    by_cases hk : ∀ p ∈ c.pairs, p.key ≠ k
    · rw [content?_table_of_ne hk] at h
      cases h
    · push Not at hk
      obtain ⟨p, hp, rfl⟩ := hk
      rw [content?_table_of_mem hc hp] at h
      exact ⟨p, hp, rfl, (Option.some.inj h).symm⟩
  · rintro ⟨p, hp, rfl, rfl⟩
    exact content?_table_of_mem hc hp

end Table

/-! ## Closed tables -/

/-- A table consists of the branches of a chain and of a leaf at every exit. -/
structure Closes (c : Chain) (start : Nat) (t : Table) : Prop where
  root : t.root = start
  covers : t.Covers
  branch : ∀ p ∈ c.pairs, t.content? p.key = some (.branch p.branch)
  leaf : ∀ k ∈ (c.table start).exits, ∃ x, t.content? k = some (.leaf x)
  others : ∀ k, t.content? k ≠ none → (∃ p ∈ c.pairs, p.key = k) ∨ k ∈ (c.table start).exits

/-- Leaves at the exits close the table of a chain. -/
theorem closes_of_leaves {code : List Instruction} {start : Nat} {c : Chain}
    (hc : Segmented code start c.pairs) {leaves : List Node}
    (hkeys : leaves.map (·.key) = (c.table start).exits)
    (hleaf : ∀ n ∈ leaves, ∃ x, n.content = .leaf x) :
    c.Closes start (leaves.foldl Table.insert (c.table start)).link ∧
      ∀ n ∈ leaves, (leaves.foldl Table.insert (c.table start)).link.content? n.key =
        some n.content := by
  have hd : leaves.Pairwise fun m n => m.key ≠ n.key := by
    have h := (c.table start).pairwise_exits
    rw [← hkeys, List.pairwise_map] at h
    exact h.imp fun hlt => Nat.ne_of_lt hlt
  have hmem : ∀ n ∈ leaves, (leaves.foldl Table.insert (c.table start)).link.content? n.key =
      some n.content := by
    intro n hn
    rw [Table.content?_link, Table.content?_foldl_insert_of_mem hd hn]
  have hexit : ∀ k, k ∈ (c.table start).exits ↔ ∃ n ∈ leaves, n.key = k := by
    intro k
    rw [← hkeys, List.mem_map]
  refine ⟨⟨by simp, Table.covers_link _, fun p hp => ?_, fun k hk => ?_, fun k hk => ?_⟩, hmem⟩
  · -- A leaf never takes the place of a test, because exits are no nodes.
    rw [Table.content?_link, Table.content?_foldl_insert_of_ne, content?_table_of_mem hc hp]
    intro n hn he
    have hnone := (Table.mem_exits.1 ((hexit n.key).2 ⟨n, hn, rfl⟩)).2
    rw [he, content?_table_of_mem hc hp] at hnone
    cases hnone
  · obtain ⟨n, hn, rfl⟩ := (hexit k).1 hk
    obtain ⟨x, hx⟩ := hleaf n hn
    exact ⟨x, by rw [hmem n hn, hx]⟩
  · by_cases hl : ∃ n ∈ leaves, n.key = k
    · exact .inr ((hexit k).2 hl)
    · push Not at hl
      rw [Table.content?_link, Table.content?_foldl_insert_of_ne hl] at hk
      obtain ⟨x, hx⟩ := Option.ne_none_iff_exists'.1 hk
      obtain ⟨p, hp, hpk, -⟩ := (content?_table_eq_some_iff hc).1 hx
      exact .inl ⟨p, hp, hpk⟩

section Closes

variable {code : List Instruction} {start : Nat} {c : Chain} {t : Table}

/-- What is no leaf of a closed table is the branch of a test. -/
theorem Closes.cases (h : c.Closes start t) {k : Nat} {x : Content} (hx : t.content? k = some x) :
    (∃ p ∈ c.pairs, p.key = k ∧ x = .branch p.branch) ∨
      (k ∈ (c.table start).exits ∧ ∃ y, x = .leaf y) := by
  rcases h.others k (by simp [hx]) with ⟨p, hp, rfl⟩ | hk
  · rw [h.branch p hp] at hx
    exact .inl ⟨p, hp, rfl, (Option.some.inj hx).symm⟩
  · obtain ⟨y, hy⟩ := h.leaf k hk
    exact .inr ⟨hk, y, Option.some.inj (hx.symm.trans hy)⟩

/-- A walk through a closed table is a run of the chain, and it ends at an exit. -/
theorem Closes.run (h : c.Closes start t) {v : String → Bool} {k m : Nat} {o p : Bool}
    (hw : t.Walk v k o m p) : c.Run v k o m p ∧ m ∈ (c.table start).exits := by
  induction hw with
  | @stop k o x hx hstop =>
    rcases h.cases hx with ⟨q, hq, rfl, rfl⟩ | ⟨hk, y, rfl⟩
    · exact absurd rfl (hstop _)
    · refine ⟨.leave fun q hq he => ?_, hk⟩
      subst he
      rw [h.branch q hq] at hx
      cases hx
  | @step k o b k' o' hb rest ih =>
    rcases h.cases hb with ⟨q, hq, rfl, hqb⟩ | ⟨hk, y, hy⟩
    · cases hqb
      rw [q.next_branch, q.eval_branch] at ih
      exact ⟨.test hq ih.1, ih.2⟩
    · cases hy

/-- No successor of a test is missing from a closed table. -/
theorem Closes.total (h : c.Closes start t) (hc : Segmented code start c.pairs) {p : Pair}
    (hp : p ∈ c.pairs) (o : Bool) : t.content? (p.next o) ≠ none := by
  by_cases hkey : ∃ q ∈ c.pairs, q.key = p.next o
  · obtain ⟨q, hq, hkey⟩ := hkey
    rw [← hkey, h.branch q hq]
    simp
  · push Not at hkey
    have hedge : (c.table start).Edge p.key (p.next o) :=
      ⟨p.branch, o, content?_table_of_mem hc hp, p.next_branch o⟩
    obtain ⟨x, hx⟩ := h.leaf _ (Table.mem_exits.2 ⟨⟨_, hedge⟩, content?_table_of_ne hkey⟩)
    rw [hx]
    simp

/-- A run of the chain is a walk through the closed table. -/
theorem Closes.walk (h : c.Closes start t) (hc : Segmented code start c.pairs)
    {v : String → Bool} {k m : Nat} {o p : Bool} (hrun : c.Run v k o m p)
    (hk : t.content? k ≠ none) : t.Walk v k o m p := by
  induction hrun with
  | leave hne =>
    obtain ⟨x, hx⟩ := Option.ne_none_iff_exists'.1 hk
    rcases h.cases hx with ⟨q, hq, hkey, -⟩ | ⟨-, y, rfl⟩
    · exact absurd hkey (hne q hq)
    · exact .stop hx (by simp)
  | @test q o place o' hq rest ih =>
    refine .step (h.branch q hq) ?_
    rw [q.next_branch, q.eval_branch]
    exact ih (h.total hc hq _)

/-- Every test is reachable, because each segment starts where the pair before it is passed. -/
theorem Closes.reachable (h : c.Closes start t) (hc : Segmented code start c.pairs) {p : Pair}
    (hp : p ∈ c.pairs) : t.Reachable p.key := by
  have key : ∀ {k pairs}, Segmented code k pairs → pairs ⊆ c.pairs → t.Reachable k →
      ∀ q ∈ pairs, t.Reachable q.key := by
    intro k pairs hseg hsub hk
    induction pairs generalizing k with
    | nil => intro q hq; cases hq
    | cons p pairs ih =>
      obtain ⟨rfl, -, -, -, -, hrest⟩ := hseg
      have hedge : t.Edge p.key (p.pc + 2) := by
        refine ⟨p.branch, !p.instruction.polarity, h.branch p (hsub (by simp)), ?_⟩
        rw [p.next_branch, p.next_not_polarity]
      intro q hq
      rcases List.mem_cons.1 hq with rfl | hq
      · exact hk
      · exact ih hrest (fun r hr => hsub (by simp [hr])) (hk.tail hedge) q hq
  refine key hc (List.Subset.refl _) ?_ p hp
  rw [← h.root]
  exact .head

/-- Every exit is reachable. -/
theorem Closes.reachable_exit (h : c.Closes start t) (hc : Segmented code start c.pairs) {k : Nat}
    (hk : k ∈ (c.table start).exits) : t.Reachable k := by
  obtain ⟨⟨a, b, o, hb, rfl⟩, -⟩ := Table.mem_exits.1 hk
  obtain ⟨p, hp, rfl, hpb⟩ := (content?_table_eq_some_iff hc).1 hb
  cases hpb
  exact (h.reachable hc hp).tail ⟨p.branch, o, h.branch p hp, rfl⟩

end Closes

end Chain

end ShortCircuit
