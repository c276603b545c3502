import ShortCircuit.Proofs.Decision.Meaning

/-!
# How exits are read

A value is read off the leaf at which the tests are left, together with the outcome with which the
leaf is entered. Texts and, as a rule, truth values are read as themselves, and a leaf without a
value passes the outcome on. The last test makes two exceptions: when its exits do not tell its
outcomes apart, truth values are not read at all, and a leaf without a value beside the truth value
of its own outcome is read as the opposite of that outcome.

* `Tail.reading` is the truth value that the reduction gives to an exit.
* `Table.HasTail` is the invariant: every branch is an inner one or has the successors of the last
  test, and a folded test exists only when the last test can be taken into account.
* `Table.Step.hasTail`: every step keeps it. `Table.HasTail.apt`: it makes the reading apt.
* `Table.eval_statement`: the statement of a reduced table has the value that is read at the end of
  the walk, and the walk ends unless the last test leads back to the root.
-/

namespace ShortCircuit

/-- The last test of a chain, by its successors, and the leaves at the exits of the chain. -/
structure Tail where
  next : Bool → Nat
  leaf? : Nat → Option LeafValue

namespace Tail

/-- Whether the exits of the last test do not tell its outcomes apart: both hold the same truth
value, or one leads back to a test. -/
def isIndifferent (a : Tail) : Bool :=
  match a.leaf? (a.next true), a.leaf? (a.next false) with
  | some (.bool b), some (.bool b') => b == b'
  | some _, some _ => false
  | _, _ => true

/-- Whether an exit without a value lies beside the truth value of the outcome that leads to it. -/
def isCrossed (a : Tail) (k : Nat) : Bool :=
  a.leaf? k == some .nil &&
    (a.next true == k && a.leaf? (a.next false) == some (.bool true) ||
      a.next false == k && a.leaf? (a.next true) == some (.bool false))

/-- The truth value that the reduction gives to an exit entered with an outcome. -/
def reading (a : Tail) (v : String → Bool) (k : Nat) (o : Bool) : Bool :=
  match a.leaf? k with
  | some (.text s) => v s
  | some (.bool b) => if a.isIndifferent then o else b
  | some .nil => o ^^ a.isCrossed k
  | none => o

variable {a : Tail} {k : Nat}

theorem isCrossed_iff : a.isCrossed k = true ↔
    a.leaf? k = some .nil ∧ ∃ o, a.next o = k ∧ a.leaf? (a.next (!o)) = some (.bool o) := by
  simp only [isCrossed, Bool.and_eq_true, Bool.or_eq_true, beq_iff_eq]
  refine and_congr_right fun _ => ?_
  constructor
  · rintro (⟨h, h'⟩ | ⟨h, h'⟩)
    · exact ⟨true, h, h'⟩
    · exact ⟨false, h, h'⟩
  · rintro ⟨_ | _, h, h'⟩
    · exact .inr ⟨h, h'⟩
    · exact .inl ⟨h, h'⟩

/-- A last test between two exits of which one holds no truth value is not indifferent. -/
theorem isIndifferent_of_open {o : Bool} {x y : LeafValue} (hx : a.leaf? (a.next o) = some x)
    (hy : a.leaf? (a.next (!o)) = some y) (hopen : ∀ b, x ≠ .bool b) : a.isIndifferent = false := by
  cases o with
  | true =>
    simp only [isIndifferent, hx, show a.leaf? (a.next false) = some y from hy]
    cases x with
    | bool b => exact absurd rfl (hopen b)
    | nil => rfl
    | text s => rfl
  | false =>
    simp only [isIndifferent, hx, show a.leaf? (a.next true) = some y from hy]
    cases x with
    | bool b => exact absurd rfl (hopen b)
    | nil => cases y <;> rfl
    | text s => cases y <;> rfl

theorem isIndifferent_of_bools {b b' : Bool} (h : a.leaf? (a.next true) = some (.bool b))
    (h' : a.leaf? (a.next false) = some (.bool b')) : a.isIndifferent = (b == b') := by
  simp only [isIndifferent, h, h']

theorem isIndifferent_of_none {o : Bool} (h : a.leaf? (a.next o) = none) :
    a.isIndifferent = true := by
  unfold isIndifferent
  split
  · next h1 h2 => cases o <;> simp_all
  · next h1 h2 => cases o <;> simp_all
  · rfl

end Tail

namespace Table

/-- Leaves are those of the tail; a branch leads to an inner node or has the successors of the last
test; no successor is missing; and once a test is folded, the last test is not indifferent and its
crossed exit is gone. -/
structure HasTail (t : Table) (a : Tail) : Prop where
  leaf : ∀ ⦃k c⦄, t.content? k = some c → ∀ x, a.leaf? k = some x ↔ c = .leaf x
  branch : ∀ ⦃k b⦄, t.content? k = some (.branch b) →
    (∀ o, b.next o = a.next o) ∨ ∃ o, a.leaf? (b.next o) = none ∧ b.next o ≠ t.root
  total : ∀ ⦃k b⦄, t.content? k = some (.branch b) → ∀ o, t.content? (b.next o) ≠ none
  closed : ∀ ⦃k f⦄, t.content? k = some (.closed f) →
    a.isIndifferent = false ∧ ∀ x, a.isCrossed x = true → t.content? x = none

namespace HasTail

variable {t : Table} {a : Tail} (h : t.HasTail a)

include h

theorem leaf?_eq {k : Nat} {x : LeafValue} (hk : t.content? k = some (.leaf x)) :
    a.leaf? k = some x :=
  (h.leaf hk x).2 rfl

theorem leaf?_eq_none {k : Nat} {c : Content} (hk : t.content? k = some c)
    (hc : ∀ x, c ≠ .leaf x) : a.leaf? k = none := by
  cases hl : a.leaf? k with
  | none => rfl
  | some x => exact absurd ((h.leaf hk x).1 hl) (hc x)

/-- A branch between two leaves has the successors of the last test. -/
theorem next_eq {k : Nat} {b : Branch} (hk : t.content? k = some (.branch b))
    (hleaf : ∀ o, ∃ x, a.leaf? (b.next o) = some x) : ∀ o, b.next o = a.next o := by
  rcases h.branch hk with hnext | ⟨o, ho, -⟩
  · exact hnext
  · obtain ⟨x, hx⟩ := hleaf o
    rw [ho] at hx
    cases hx

/-- The value that is folded beside a leaf is a folded test, or belongs to the last test: it is one
of its exits, or the last test itself between opposite truth values. -/
theorem fold_cases {s : Site} (hs : t.IsSite s) {value : LeafValue}
    (hother : t.content? (s.branch.other s.side) = some (.leaf value))
    (hpending : t.contribution s.node ≠ .pending) :
    (∃ f, s.node.content = .closed f) ∨
      (∃ x, s.node.content = .leaf x ∧ ∀ o, s.branch.next o = a.next o) ∨
      ∃ n b, s.node.content = .branch n ∧ (∀ o, n.next o = a.next o) ∧
        ∀ o, a.leaf? (n.next o) = some (.bool (o ^^ b)) := by
  obtain ⟨hkey, hnext, -⟩ := Branch.sideOf?_spec hs.side
  have hnode := hs.content?_node
  cases hc : s.node.content with
  | closed f => exact .inl ⟨f, rfl⟩
  | leaf x =>
    rw [hc] at hnode
    refine .inr (.inl ⟨x, rfl, h.next_eq hs.content?_parent fun o => ?_⟩)
    by_cases ho : o = s.side.outcome
    · exact ⟨x, by rw [ho, hkey, h.leaf?_eq hnode]⟩
    · exact ⟨value, by rw [Bool.eq_not_of_ne ho, hnext, h.leaf?_eq hother]⟩
  | branch n =>
    rw [hc] at hnode
    cases hd : t.decided? n with
    | none =>
      exfalso
      apply hpending
      simp only [contribution, hc, hd]
    | some f =>
      -- A decided branch lies between opposite truth values.
      obtain ⟨b, hb⟩ : ∃ b, ∀ o, t.bool? (n.next o) = some (o ^^ b) := by
        unfold decided? at hd
        split at hd
        · next ht hf => exact ⟨false, fun o => by cases o <;> simpa⟩
        · next ht hf => exact ⟨true, fun o => by cases o <;> simpa⟩
        · cases hd
      have hleaf : ∀ o, a.leaf? (n.next o) = some (.bool (o ^^ b)) := fun o =>
        h.leaf?_eq (content?_of_bool? (hb o))
      exact .inr (.inr ⟨n, b, rfl, h.next_eq hnode fun o => ⟨_, hleaf o⟩, hleaf⟩)

/-- Where a value can be folded beside a leaf, the last test is not indifferent, and its crossed
exit is the folded node or gone already. -/
theorem fold_spec {s : Site} (hs : t.IsSite s) {value : LeafValue}
    (hother : t.content? (s.branch.other s.side) = some (.leaf value))
    (hpending : t.contribution s.node ≠ .pending) :
    a.isIndifferent = false ∧
      ∀ k, a.isCrossed k = true → k = s.node.key ∨ t.content? k = none := by
  obtain ⟨hkey, hnext, -⟩ := Branch.sideOf?_spec hs.side
  have hnode := hs.content?_node
  rcases h.fold_cases hs hother hpending with ⟨f, hf⟩ | ⟨x, hx, hlast⟩ | ⟨n, b, -, hlast, hleaf⟩
  · rw [hf] at hnode
    exact ⟨(h.closed hnode).1, fun k hk => .inr ((h.closed hnode).2 k hk)⟩
  · have hopen : ∀ b, x ≠ .bool b := fun b hb =>
      isBool_eq_false_iff.1 hs.isOpen b (hx.trans (congrArg _ hb))
    rw [hx] at hnode
    have hside : a.leaf? (a.next s.side.outcome) = some x := by
      rw [← hlast, hkey, h.leaf?_eq hnode]
    have hbeside : a.leaf? (a.next (!s.side.outcome)) = some value := by
      rw [← hlast, hnext, h.leaf?_eq hother]
    refine ⟨Tail.isIndifferent_of_open hside hbeside hopen, fun k hk => .inl ?_⟩
    obtain ⟨-, o, rfl, ho⟩ := Tail.isCrossed_iff.1 hk
    by_cases hso : o = s.side.outcome
    · rw [hso, ← hlast, hkey]
    · rw [Bool.eq_not_of_ne hso, Bool.not_not, hside] at ho
      exact absurd (Option.some.inj ho) (hopen _)
  · have hbool : ∀ o, a.leaf? (a.next o) = some (.bool (o ^^ b)) := fun o => by
      rw [← hlast, hleaf]
    refine ⟨?_, fun k hk => ?_⟩
    · rw [Tail.isIndifferent_of_bools (hbool true) (hbool false)]
      cases b <;> rfl
    · obtain ⟨hnil, o, rfl, -⟩ := Tail.isCrossed_iff.1 hk
      rw [hbool o] at hnil
      cases hnil

/-- In a table with a tail the reading of its exits is apt. -/
theorem apt (v : String → Bool) : t.Apt v (a.reading v) := by
  intro s value negated op hs hother hab hpending
  obtain ⟨hkey, hnext, hne⟩ := Branch.sideOf?_spec hs.side
  obtain ⟨hdiffers, hcrossed⟩ := h.fold_spec hs hother hpending
  have hnode := hs.content?_node
  constructor
  · rw [Tail.reading, h.leaf?_eq hother]
    cases value with
    | bool b => simp only [hdiffers, Bool.false_eq_true, if_false, LeafValue.absorption?_bool hab]
    | text text => simp [LeafValue.absorption?_text] at hab
    | nil =>
      have hfalse : a.isCrossed (s.branch.other s.side) = false := by
        rw [← Bool.not_eq_true]
        intro hc
        rcases hcrossed _ hc with he | hnone
        · exact hne he
        · rw [hother] at hnone
          cases hnone
      simp only [hfalse, LeafValue.absorption?_nil hab]
  · unfold Fits
    split
    · next text hc =>
      rw [hc] at hnode
      simp only [Tail.reading, h.leaf?_eq hnode]
    · next x hx hc =>
      rw [hc] at hnode
      cases x with
      | text text => exact absurd rfl (hx text)
      | bool b => exact absurd hc (isBool_eq_false_iff.1 hs.isOpen b)
      | nil =>
        rcases h.fold_cases hs hother hpending with ⟨f, hf⟩ | ⟨y, -, hlast⟩ | ⟨n, b, hn, -⟩
        · rw [hc] at hf
          cases hf
        · -- The node and the leaf beside it are the exits of the last test.
          have hcross : a.isCrossed s.node.key = true ↔ value = .bool s.side.outcome := by
            rw [Tail.isCrossed_iff]
            constructor
            · rintro ⟨-, o, ho, hb⟩
              have hso : o = s.side.outcome := by
                by_contra hso
                rw [Bool.eq_not_of_ne hso, ← hlast, hnext] at ho
                exact hne ho
              rw [hso, ← hlast, hnext, h.leaf?_eq hother] at hb
              exact Option.some.inj hb
            · rintro rfl
              refine ⟨h.leaf?_eq hnode, s.side.outcome, by rw [← hlast, hkey], ?_⟩
              rw [← hlast, hnext, h.leaf?_eq hother]
          simp only [Tail.reading, h.leaf?_eq hnode]
          congr 1
          cases value with
          | text text => simp [LeafValue.absorption?_text] at hab
          | nil =>
            rw [LeafValue.absorption?_nil hab, ← Bool.not_eq_true, hcross]
            simp
          | bool b =>
            have hb := LeafValue.absorption?_bool hab
            rw [Bool.eq_iff_iff, hcross, ← hb]
            cases negated <;> simp
        · rw [hc] at hn
          cases hn
    · trivial
    · next n hc =>
      intro o b hb
      simp only [Tail.reading, h.leaf?_eq (content?_of_bool? hb), hdiffers, Bool.false_eq_true,
        if_false]

end HasTail

/-! ## Steps keep the tail -/

/-- No edge is left to the node that a fold removes, and what else an edge leads to is still
there. -/
theorem content?_replace_of_edge {t : Table} {s : Site} (hs : t.IsSite s)
    (hne : s.parent.key ≠ s.node.key) {content : Content} {assigns : Option UInt8} {k j : Nat}
    (he : (t.replace s content assigns).Edge k j) (hj : j ≠ s.node.key)
    (hsome : t.content? j ≠ none) : (t.replace s content assigns).content? j ≠ none := by
  rw [replace_eq_prune] at he ⊢
  rw [content?_prune_of_edge (covers_rewritten _ _ _ _) he, content?_rewritten hs hne, if_neg hj]
  split_ifs
  · simp
  · exact hsome

theorem Step.hasTail {t u : Table} {a : Tail} (hstep : t.Step u) (hc : t.Covers)
    (h : t.HasTail a) : u.HasTail a := by
  have hnone : ∀ {k}, t.content? k = none → u.content? k = none := by
    intro k hk
    by_contra hu
    exact hstep.content?_ne_none hu hk
  have hroot := hstep.root_eq
  cases hstep with
  | @drop s hs hself =>
    have hkept : ∀ {k c}, (t.erase s.node.key).content? k = some c →
        k ≠ s.node.key ∧ t.content? k = some c := by
      intro k c hk
      rw [content?_erase] at hk
      split_ifs at hk with hkn
      exact ⟨hkn, hk⟩
    refine ⟨fun k c hk => h.leaf (hkept hk).2, fun k b hk => h.branch (hkept hk).2,
      fun k b hk o => ?_, fun k f hk => ?_⟩
    · rw [content?_erase, if_neg]
      · exact h.total (hkept hk).2 o
      · intro he
        have hk' := hs.eq_of_edge hc ⟨b, o, (hkept hk).2, he⟩
        exact (hkept hk).1 (hk'.trans hself)
    · exact ⟨(h.closed (hkept hk).2).1, fun x hx => hnone ((h.closed (hkept hk).2).2 x hx)⟩
  | @merge s n m hs hne hn hm assigns =>
    obtain ⟨hsucc, -, -⟩ := Branch.merge?_spec hm
    have hnode := hs.content?_node
    rw [hn] at hnode
    have hself : ∀ {j o}, n.next o = j → j ≠ s.node.key := by
      rintro j o hj rfl
      exact hne (hs.eq_of_edge hc ⟨n, o, hnode, hj⟩).symm
    refine ⟨fun k c hk x => ?_, fun k b hk => ?_, fun k b hk o => ?_, fun k f hk => ?_⟩
    · rcases (content?_of_replace hs hne hk).2 with ⟨rfl, rfl⟩ | ⟨-, hk⟩
      · rw [h.leaf?_eq_none hs.content?_parent (by simp)]
        simp
      · exact h.leaf hk x
    · rw [hroot]
      rcases (content?_of_replace hs hne hk).2 with ⟨rfl, hb⟩ | ⟨-, hk⟩
      · cases hb
        simp only [hsucc]
        exact h.branch hnode
      · exact h.branch hk
    · have he : (t.replace s (.branch m) assigns).Edge k (b.next o) := ⟨b, o, hk, rfl⟩
      rcases (content?_of_replace hs hne hk).2 with ⟨rfl, hb⟩ | ⟨hkp, hk⟩
      · cases hb
        rw [hsucc] at he ⊢
        exact content?_replace_of_edge hs hne he (hself rfl) (h.total hnode o)
      · refine content?_replace_of_edge hs hne he ?_ (h.total hk o)
        exact fun hj => hkp (hs.eq_of_edge hc ⟨b, o, hk, hj⟩)
    · rcases (content?_of_replace hs hne hk).2 with ⟨-, hb⟩ | ⟨-, hk⟩
      · cases hb
      · exact ⟨(h.closed hk).1, fun x hx => hnone ((h.closed hk).2 x hx)⟩
  | @absorb s value negated op f hs hne hother hab hf assigns =>
    have hpending : t.contribution s.node ≠ .pending := by
      intro hp
      rw [hp] at hf
      cases hf
    refine ⟨fun k c hk x => ?_, fun k b hk => ?_, fun k b hk o => ?_, fun k g hk => ?_⟩
    · rcases (content?_of_replace hs hne hk).2 with ⟨rfl, rfl⟩ | ⟨-, hk⟩
      · rw [h.leaf?_eq_none hs.content?_parent (by simp)]
        simp
      · exact h.leaf hk x
    · rw [hroot]
      rcases (content?_of_replace hs hne hk).2 with ⟨-, hb⟩ | ⟨-, hk⟩
      · cases hb
      · exact h.branch hk
    · have he : (t.replace s (.closed f) assigns).Edge k (b.next o) := ⟨b, o, hk, rfl⟩
      rcases (content?_of_replace hs hne hk).2 with ⟨-, hb⟩ | ⟨hkp, hk⟩
      · cases hb
      · refine content?_replace_of_edge hs hne he ?_ (h.total hk o)
        exact fun hj => hkp (hs.eq_of_edge hc ⟨b, o, hk, hj⟩)
    · rcases (content?_of_replace hs hne hk).2 with ⟨rfl, -⟩ | ⟨-, hk⟩
      · -- A new folded test: the crossed exit was folded into it or gone already.
        obtain ⟨hdiffers, hcrossed⟩ := h.fold_spec hs hother hpending
        refine ⟨hdiffers, fun x hx => ?_⟩
        rcases hcrossed x hx with rfl | hx
        · by_contra hu
          obtain ⟨c, hu⟩ := Option.ne_none_iff_exists'.1 hu
          exact (content?_of_replace hs hne hu).1 rfl
        · exact hnone hx
      · exact ⟨(h.closed hk).1, fun x hx => hnone ((h.closed hk).2 x hx)⟩

theorem hasTail_of_steps {t u : Table} {a : Tail} (hsteps : Relation.ReflTransGen Step t u)
    (hc : t.Covers) (h : t.HasTail a) : u.HasTail a :=
  invariant_of_steps (fun hw hstep => hstep.hasTail hw) hsteps hc h

/-! ## The statement of a reduced table -/

/-- Between truth values a branch is decided when they differ. -/
theorem decided?_eq_none_iff {t : Table} {b : Branch} {p q : Bool}
    (hp : t.bool? (b.next true) = some p) (hq : t.bool? (b.next false) = some q) :
    t.decided? b = none ↔ (p == q) = true := by
  rw [Branch.next_true] at hp
  rw [Branch.next_false] at hq
  rw [decided?, hp, hq]
  cases p <;> cases q <;> simp

/-- A branch that leads to a branch is not decided. -/
theorem decided?_of_next {t : Table} {b n : Branch} {o : Bool}
    (hn : t.content? (b.next o) = some (.branch n)) : t.decided? b = none := by
  cases hd : t.decided? b with
  | none => rfl
  | some f =>
    obtain ⟨x, hx, -⟩ := decided?_spec hd (fun _ => true) o
    cases hn.symm.trans (content?_of_bool? hx)

section Reduced

variable {t : Table} {a : Tail} {b : Branch} (h : t.HasTail a) (hle : t.openCount ≤ 1)
  (hb : t.content? t.root = some (.branch b))

include h hle hb

/-- The last branch of a reduced table has the successors of the last test, and each of them is a
truth value or the branch itself. -/
theorem HasTail.last_branch :
    (∀ o, b.next o = a.next o) ∧ ∀ o, b.next o = t.root ∨ ∃ x, t.bool? (b.next o) = some x := by
  have hbool : ∀ o, b.next o ≠ t.root → ∃ x, t.bool? (b.next o) = some x := by
    intro o hne
    obtain ⟨c, hc⟩ := Option.ne_none_iff_exists'.1 (h.total hb o)
    obtain ⟨x, rfl⟩ := bool_of_openCount_le hle hb hc hne.symm (by simp)
    exact ⟨x, bool?_of_content? hc⟩
  refine ⟨?_, fun o => or_iff_not_imp_left.2 (hbool o)⟩
  rcases h.branch hb with hnext | ⟨o, ho, hne⟩
  · exact hnext
  · obtain ⟨x, hx⟩ := hbool o hne
    rw [h.leaf?_eq (content?_of_bool? hx)] at ho
    cases ho

/-- Where the last branch does not lead back to itself, its statement has the value that is read at
its exit. -/
theorem HasTail.reading_last (v : String → Bool)
    (hne : b.next (b.statement.eval v) ≠ t.root) :
    a.reading v (b.next (b.statement.eval v)) (b.statement.eval v) =
      ((t.decided? b).getD b.statement).eval v := by
  obtain ⟨hnext, hsucc⟩ := h.last_branch hle hb
  have hleaf : ∀ {o x}, t.bool? (b.next o) = some x → a.leaf? (a.next o) = some (.bool x) := by
    intro o x hx
    rw [← hnext, h.leaf?_eq (content?_of_bool? hx)]
  have hread : ∀ {o x}, t.bool? (b.next o) = some x →
      a.reading v (b.next o) o = if a.isIndifferent then o else x := by
    intro o x hx
    rw [hnext, Tail.reading, hleaf hx]
  obtain ⟨x, hx⟩ := (hsucc _).resolve_left hne
  rw [hread hx]
  cases hd : t.decided? b with
  | some f =>
    obtain ⟨y, hy, hv⟩ := decided?_spec hd v (b.statement.eval v)
    cases hx.symm.trans hy
    obtain ⟨p, hp, -⟩ := decided?_spec hd v true
    obtain ⟨q, hq, -⟩ := decided?_spec hd v false
    have hpq : (p == q) = false := by
      rw [← Bool.not_eq_true, ← decided?_eq_none_iff hp hq, hd]
      simp
    rw [Tail.isIndifferent_of_bools (hleaf hp) (hleaf hq), hpq, Option.getD_some, hv rfl]
    simp
  | none =>
    -- The outcomes of an undecided branch are not told apart.
    have hsame : a.isIndifferent = true := by
      rcases hsucc true with ht | ⟨p, hp⟩
      · exact Tail.isIndifferent_of_none (o := true)
          (by rw [← hnext, ht, h.leaf?_eq_none hb (by simp)])
      · rcases hsucc false with hf | ⟨q, hq⟩
        · exact Tail.isIndifferent_of_none (o := false)
            (by rw [← hnext, hf, h.leaf?_eq_none hb (by simp)])
        · rw [Tail.isIndifferent_of_bools (hleaf hp) (hleaf hq)]
          exact (decided?_eq_none_iff hp hq).1 hd
    rw [hsame, if_pos rfl, Option.getD_none]

end Reduced

/-- The statement of a reduced table has the value that is read at the end of the walk; only when
the last test leads back to the root does the walk not end. -/
theorem eval_statement {t u : Table} {a : Tail} {f : Formula} (h : t.HasTail a) (hc : t.Covers)
    (hr : t.reduce = (.ok (), u)) (hf : u.statement = .ok f) (v : String → Bool) (o : Bool) :
    (∃ k p, t.Walk v t.root o k p ∧ t.valueAt v (a.reading v) k p = f.eval v) ∨
      a.next (f.eval v) = t.root ∧ ∀ k p, ¬t.Walk v t.root o k p := by
  obtain ⟨hsteps, hle⟩ := steps_of_reduce hr
  have hu := hasTail_of_steps hsteps hc h
  have hapt : ∀ w, Relation.ReflTransGen Step t w → w.Apt v (a.reading v) := fun w hw =>
    (hasTail_of_steps hw hc h).apt v
  -- A walk of the reduced table is lifted to the table before.
  have hlift : ∀ {k p}, u.Walk v u.root o k p → u.valueAt v (a.reading v) k p = f.eval v →
      ∃ k p, t.Walk v t.root o k p ∧ t.valueAt v (a.reading v) k p = f.eval v := by
    intro k p hw hv
    obtain ⟨k', p', hw', hv'⟩ := walk_of_steps hsteps hapt hw
    rw [root_of_steps hsteps] at hw'
    exact ⟨k', p', hw', hv'.trans hv⟩
  rcases statement_eq_ok hf with hclosed | ⟨b, hb, rfl⟩
  · exact .inl (hlift (.stop hclosed (by simp)) (valueAt_closed hclosed v _ o))
  · obtain ⟨hnext, hsucc⟩ := hu.last_branch (hle rfl) hb
    by_cases hback : b.next (b.statement.eval v) = u.root
    · refine .inr ⟨?_, fun k p hw => ?_⟩
      · rw [decided?_of_next (o := b.statement.eval v) (by rw [hback, hb]), Option.getD_none,
          ← hnext, hback, root_of_steps hsteps]
      · -- The cycle of the last branch is one of the table before.
        have hcycle : Relation.TransGen (t.Move v) (t.root, b.statement.eval v)
            (t.root, b.statement.eval v) := by
          rw [← root_of_steps hsteps]
          exact moves_of_steps hsteps hapt (.single ⟨b, hb, by rw [hback]⟩)
        obtain ⟨-, ⟨n, hn, -⟩, -⟩ := Relation.TransGen.head'_iff.1 hcycle
        exact (hw.of_branch hn).not_moves hcycle
    · obtain ⟨x, hx⟩ := (hsucc _).resolve_left hback
      obtain ⟨hw, hval⟩ := walk_of_bool? hx (v := v) (b.statement.eval v) (a.reading v)
      exact .inl (hlift (.step hb hw)
        (hval.trans (hu.reading_last (hle rfl) hb v hback)))

end Table

end ShortCircuit
