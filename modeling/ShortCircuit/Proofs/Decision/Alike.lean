import ShortCircuit.Proofs.Formula
import ShortCircuit.Proofs.Decision.Folding

/-!
# Tables that are alike

Two tables are alike when they agree at every key but for statements, and these render alike. Folds
look at statements only to put them into new ones, so alike tables can be folded alike.

* `Content.Alike`, `Table.Alike`: contents and tables that agree but for statements.
* `Table.Folds.transfer`: what can be folded in a table can be folded in one that agrees with it at
  the keys concerned.
* `Table.alike_of_tests`: descendants of alike tables are alike when their tests are.
* `Table.Alike.fold`: alike tables can be folded alike.
-/

namespace ShortCircuit

/-! ## Alike contents -/

/-- Two contents agree but for their statements, which render alike. -/
inductive Content.Alike : Content → Content → Prop
  | branch {f g : Formula} {a b : Nat} (h : f.Alike g) :
      Alike (.branch ⟨f, a, b⟩) (.branch ⟨g, a, b⟩)
  | closed {f g : Formula} (h : f.Alike g) : Alike (.closed f) (.closed g)
  | leaf (x : LeafValue) : Alike (.leaf x) (.leaf x)

theorem Content.Alike.refl (c : Content) : c.Alike c := by
  cases c with
  | branch b => exact .branch (.refl _)
  | closed f => exact .closed (.refl _)
  | leaf x => exact .leaf x

theorem Content.Alike.symm {c d : Content} (h : c.Alike d) : d.Alike c := by
  cases h with
  | branch h => exact .branch h.symm
  | closed h => exact .closed h.symm
  | leaf x => exact .leaf x

theorem Content.Alike.trans {c d e : Content} (h : c.Alike d) (h' : d.Alike e) : c.Alike e := by
  cases h with
  | branch h =>
    cases h' with
    | branch h' => exact .branch (h.trans h')
  | closed h =>
    cases h' with
    | closed h' => exact .closed (h.trans h')
  | leaf x => exact h'

/-- Whether branches are merged depends on their successors only. -/
theorem Branch.merge?_alike {b b' n n' m : Branch} {side : Side}
    (hb : (Content.branch b).Alike (.branch b')) (hn : (Content.branch n).Alike (.branch n'))
    (h : b.merge? n side = some m) :
    ∃ m', b'.merge? n' side = some m' ∧ (Content.branch m).Alike (.branch m') := by
  obtain ⟨hshare, rfl⟩ := Branch.merge?_eq_some_iff.1 h
  cases hb with
  | branch hf =>
    cases hn with
    | branch hg =>
      refine ⟨_, Branch.merge?_eq_some_iff.2 ⟨?_, rfl⟩, .branch (hf.combine _ hg)⟩
      cases side <;> exact hshare

/-- Two contributions agree but for their statements, which render alike. -/
inductive Contribution.Alike : Contribution → Contribution → Prop
  | pending : Alike .pending .pending
  | nothing : Alike .nothing .nothing
  | formula {f g : Formula} (h : f.Alike g) : Alike (.formula f) (.formula g)

theorem Table.joined_alike {f f' g : Formula} {negated : Bool} {op : Connective}
    {x y : Contribution} (hf : f.Alike f') (hx : x.Alike y)
    (h : Table.joined f negated op x = some g) :
    ∃ g', Table.joined f' negated op y = some g' ∧ g.Alike g' := by
  have hstatement : (if negated then f.negate else f).Alike
      (if negated then f'.negate else f') := by
    cases negated with
    | true => exact hf.negated
    | false => exact hf
  cases hx with
  | pending => cases h
  | nothing =>
    cases h
    exact ⟨_, rfl, hstatement⟩
  | formula hx =>
    cases h
    exact ⟨_, rfl, hstatement.combine op hx⟩

/-- Joining a value to the second of two tests and the result to the first is alike to joining the
value to the two tests. Under a negation the connective of the tests is written as the other one. -/
theorem Table.joined_assoc (side : Side) (p : Formula) {n f : Formula} {negated : Bool}
    {op : Connective} {x y : Contribution} (hx : x.Alike y)
    (hop : op = Formula.shown side.connective negated)
    (h : Table.joined n negated op x = some f) :
    ∃ g, Table.joined (p.combine side.connective n) negated op y = some g ∧
      g.Alike ((if negated then p.negate else p).combine op f) := by
  subst hop
  -- A negated join of the tests is alike to the join of the negated tests.
  have htests : (if negated then (p.combine side.connective n).negate
      else p.combine side.connective n).Alike
      ((if negated then p.negate else p).combine (Formula.shown side.connective negated)
        (if negated then n.negate else n)) := by
    cases negated with
    | true => exact Formula.alike_dual side.connective p.negate n.negate true
    | false => exact .refl _
  cases hx with
  | pending => cases h
  | nothing =>
    cases h
    exact ⟨_, rfl, htests⟩
  | formula hx =>
    cases h
    refine ⟨_, rfl, ?_⟩
    exact (htests.combine _ hx.symm).trans (Formula.alike_assoc _ _ _ _)

namespace Table

/-! ## Alike tables -/

/-- Nothing stands at a key of two tables, or alike contents do. -/
def AlikeAt (t u : Table) (k : Nat) : Prop :=
  Option.Rel Content.Alike (t.content? k) (u.content? k)

/-- Two tables with the same root are alike at every key. -/
structure Alike (t u : Table) : Prop where
  root : t.root = u.root
  alikeAt : ∀ k, t.AlikeAt u k

theorem rel_refl (c : Option Content) : Option.Rel Content.Alike c c := by
  cases c with
  | none => exact .none
  | some c => exact .some (.refl c)

theorem rel_symm {c d : Option Content} (h : Option.Rel Content.Alike c d) :
    Option.Rel Content.Alike d c := by
  cases h with
  | none => exact .none
  | some h => exact .some h.symm

theorem rel_trans {c d e : Option Content} (h : Option.Rel Content.Alike c d)
    (h' : Option.Rel Content.Alike d e) : Option.Rel Content.Alike c e := by
  cases h with
  | none => exact h'
  | some h =>
    cases h' with
    | some h' => exact .some (h.trans h')

theorem AlikeAt.of_eq {t u : Table} {k : Nat} (h : u.content? k = t.content? k) :
    t.AlikeAt u k := by
  rw [AlikeAt, h]
  exact rel_refl _

theorem AlikeAt.exists_content? {t u : Table} {k : Nat} (h : t.AlikeAt u k) {c : Content}
    (hc : t.content? k = some c) : ∃ d, u.content? k = some d ∧ c.Alike d := by
  unfold AlikeAt at h
  rw [hc] at h
  generalize u.content? k = y at h
  cases h with
  | some h => exact ⟨_, rfl, h⟩

theorem AlikeAt.bool? {t u : Table} {k : Nat} (h : t.AlikeAt u k) : u.bool? k = t.bool? k := by
  have hle : ∀ {t u : Table} {b : Bool}, t.AlikeAt u k → t.bool? k = some b →
      u.bool? k = some b := by
    intro t u b h hb
    obtain ⟨d, hd, halike⟩ := h.exists_content? (content?_of_bool? hb)
    cases halike
    exact bool?_of_content? hd
  exact Option.ext fun b => ⟨hle (rel_symm h), hle h⟩

theorem Alike.refl (t : Table) : t.Alike t := ⟨rfl, fun _ => rel_refl _⟩

theorem Alike.symm {t u : Table} (h : t.Alike u) : u.Alike t :=
  ⟨h.root.symm, fun k => rel_symm (h.alikeAt k)⟩

theorem Alike.trans {t u w : Table} (h : t.Alike u) (h' : u.Alike w) : t.Alike w :=
  ⟨h.root.trans h'.root, fun k => rel_trans (h.alikeAt k) (h'.alikeAt k)⟩

/-! ## Alike folds -/

/-- Alike branches between the same truth values are decided alike. -/
theorem decided?_alike {t u : Table} {f g : Formula} {a b : Nat} (h : f.Alike g)
    (ha : u.bool? a = t.bool? a) (hb : u.bool? b = t.bool? b) :
    Option.Rel Formula.Alike (t.decided? ⟨f, a, b⟩) (u.decided? ⟨g, a, b⟩) := by
  simp only [decided?, ha, hb]
  cases t.bool? a with
  | none => exact .none
  | some x =>
    cases t.bool? b with
    | none => cases x <;> exact .none
    | some y =>
      cases x <;> cases y
      · exact .none
      · exact .some h.negated
      · exact .some h
      · exact .none

/-- Alike contents add alike statements when the truth values behind them are the same. -/
theorem adds_alike {t u : Table} {c d : Content} (h : c.Alike d)
    (hbool : ∀ b o, c = .branch b → u.bool? (b.next o) = t.bool? (b.next o)) :
    (t.adds c).Alike (u.adds d) := by
  cases h with
  | @branch f g a b h =>
    have hd := decided?_alike h (hbool ⟨f, a, b⟩ true rfl) (hbool ⟨f, a, b⟩ false rfl)
    simp only [adds, contribution]
    simp only [Branch.next_true, Branch.next_false] at hd
    generalize t.decided? ⟨f, a, b⟩ = x at hd
    generalize u.decided? ⟨g, a, b⟩ = y at hd
    cases hd with
    | none => exact .pending
    | some h => exact .formula h
  | closed h => exact .formula h
  | leaf x =>
    cases x with
    | bool b => exact .nothing
    | nil => exact .nothing
    | text s => exact .formula (.refl _)

/-- What can be folded in a table can be folded in another that is alike at the two keys, where no
other edge leads to the node, and that has the same leaves behind the two keys. -/
theorem Folds.transfer {t u : Table} {p n : Nat} {c : Content} (h : t.Folds p n c)
    (hp : t.AlikeAt u p) (hn : t.AlikeAt u n) (honly : ∀ a, u.Edge a n → a = p)
    (hleaf : ∀ {k x}, t.Edge p k → t.content? k = some (.leaf x) → u.content? k = some (.leaf x))
    (hbool : ∀ {k}, t.Edge n k → u.bool? k = t.bool? k) : ∃ d, u.Folds p n d ∧ c.Alike d := by
  cases h with
  | merge hpc hnc hside _ hm =>
    obtain ⟨p', hpc', hpa⟩ := hp.exists_content? hpc
    obtain ⟨n', hnc', hna⟩ := hn.exists_content? hnc
    cases hpa with
    | branch hf =>
      cases hna with
      | branch hg =>
        obtain ⟨m', hm', hma⟩ := Branch.merge?_alike (.branch hf) (.branch hg) hm
        exact ⟨_, .merge hpc' hnc' hside honly hm', hma⟩
  | @absorb b d side value negated op f hpc hnc hopen hside _ hmerge hother hab hf =>
    obtain ⟨p', hpc', hpa⟩ := hp.exists_content? hpc
    obtain ⟨n', hnc', hna⟩ := hn.exists_content? hnc
    have hadds := adds_alike (t := t) (u := u) hna fun e o he =>
      hbool ⟨e, o, by rw [hnc, he], rfl⟩
    have hother' := hleaf ⟨b, _, hpc, (Branch.sideOf?_spec hside).2.1⟩ hother
    cases hpa with
    | @branch f₁ g₁ x y hfg =>
      obtain ⟨g, hg, hga⟩ := joined_alike hfg hadds hf
      refine ⟨_, .absorb hpc' hnc' ?_ hside honly ?_ ?_ hab hg, .closed hga⟩
      · rintro z rfl
        cases hna
        exact hopen z rfl
      · rintro e rfl
        refine Option.eq_none_iff_forall_ne_some.2 fun m hm => ?_
        cases hna with
        | branch hn =>
          obtain ⟨m', hm', -⟩ := Branch.merge?_alike (.branch hfg.symm) (.branch hn.symm) hm
          rw [hmerge _ rfl] at hm'
          cases hm'
      · cases side <;> exact hother'

/-! ## Tables with alike tests -/

theorem Alike.test? {t u : Table} (h : t.Alike u) (k : Nat) :
    Option.Rel Content.Alike (t.test? k) (u.test? k) := by
  have hk := h.alikeAt k
  unfold AlikeAt at hk
  unfold Table.test?
  generalize t.content? k = x at hk
  generalize u.content? k = y at hk
  cases hk with
  | none => exact .none
  | some h =>
    cases h with
    | branch h => exact .some (.branch h)
    | closed h => exact .some (.closed h)
    | leaf x => exact .none

theorem edge_of_tests {t u : Table}
    (h : ∀ k, Option.Rel Content.Alike (t.test? k) (u.test? k)) {a k : Nat} (he : t.Edge a k) :
    u.Edge a k := by
  obtain ⟨b, o, hb, rfl⟩ := edge_iff_test?.1 he
  have ha := h a
  rw [hb] at ha
  refine edge_iff_test?.2 ?_
  generalize u.test? a = y at ha
  cases ha with
  | some ha =>
    cases ha with
    | branch hf => exact ⟨_, o, rfl, by cases o <;> rfl⟩

theorem Alike.edge {t u : Table} (h : t.Alike u) {a k : Nat} (he : t.Edge a k) : u.Edge a k :=
  edge_of_tests h.test? he

section Descendants

variable {t u t' u' : Table} (h : t.Alike u) (ht : t.Descends t') (hu : u.Descends u')
  (htests : ∀ k, Option.Rel Content.Alike (t'.test? k) (u'.test? k))

include h ht hu htests

/-- A leaf that is still there in one descendant is there in the other. -/
theorem content?_leaf_of_tests {k : Nat} {x : LeafValue} (hk : t'.content? k = some (.leaf x)) :
    u'.content? k = some (.leaf x) := by
  have hpresent : u'.content? k ≠ none := by
    rcases ht.proper.supported k (by simp [hk]) with hroot | ⟨a, ha⟩
    · rw [ht.root] at hroot
      obtain ⟨d, hd, -⟩ := (h.alikeAt k).exists_content? (ht.leaf hk)
      rw [hroot, h.root] at hd ⊢
      exact hu.content?_root (by simp [hd])
    · exact hu.proper.total (edge_of_tests htests ha)
  obtain ⟨d, hd⟩ := Option.ne_none_iff_exists'.1 hpresent
  cases hleaf : d with
  | leaf y =>
    rw [hleaf] at hd
    obtain ⟨e, he, halike⟩ := (h.alikeAt k).exists_content? (ht.leaf hk)
    cases he.symm.trans (hu.leaf hd)
    cases halike
    exact hd
  | branch b =>
    have htest := rel_symm (htests k)
    rw [test?_eq_some_iff.2 ⟨hleaf ▸ hd, by simp⟩, Table.test?, hk] at htest
    cases htest
  | closed f =>
    have htest := rel_symm (htests k)
    rw [test?_eq_some_iff.2 ⟨hleaf ▸ hd, by simp⟩, Table.test?, hk] at htest
    cases htest

/-- Descendants of alike tables are alike when their tests are, because a leaf is left exactly where
a test leads to it. -/
theorem alike_of_tests : t'.Alike u' := by
  refine ⟨ht.root.trans (h.root.trans hu.root.symm), fun k => ?_⟩
  have hforth := fun {x} => content?_leaf_of_tests h ht hu htests (k := k) (x := x)
  have hback := fun {x} => content?_leaf_of_tests h.symm hu ht (fun k => rel_symm (htests k))
    (k := k) (x := x)
  have hk := htests k
  unfold AlikeAt
  unfold Table.test? at hk
  split at hk
  · next x hx =>
    rw [hx, hforth hx]
    exact .some (.leaf x)
  · split at hk
    · next x hx =>
      rw [hback hx, hx]
      exact .some (.leaf x)
    · exact hk

end Descendants

/-- Alike tables can be folded alike. -/
theorem Alike.fold {t u t' : Table} (h : t.Alike u) (ht : t.Proper) (hu : u.Proper) {n : Nat}
    (hfold : t.fold n = (true, t')) : ∃ u', u.fold n = (true, u') ∧ t'.Alike u' := by
  obtain ⟨p, c, hfolds, hfolded⟩ := ht.folded_of_fold hfold
  obtain ⟨d, hfolds', hcd⟩ := hfolds.transfer (h.alikeAt p) (h.alikeAt n)
    (fun a ha => hfolds.only (h.symm.edge ha))
    (fun {k x} _ hk => by
      obtain ⟨d, hd, halike⟩ := (h.alikeAt k).exists_content? hk
      cases halike
      exact hd)
    (fun {k} _ => (h.alikeAt k).bool?)
  obtain ⟨u', hfold', hfolded'⟩ := hu.fold_of_folds hfolds'
  refine ⟨u', hfold', alike_of_tests h hfolded.descends hfolded'.descends fun k => ?_⟩
  rw [hfolded.test?, hfolded'.test?]
  split_ifs
  · exact .none
  · exact .some hcd
  · exact h.test? k

end Table

end ShortCircuit
