import ShortCircuit.Proofs.Decision.Meaning
import Mathlib.Data.List.Perm.Basic

/-!
# The texts of a decision table

Every fold moves the texts of a node behind those of its parent and touches no other text, so the
texts of a table are the same before and after a reduction. Their order is kept as well when each
test hangs on the test before it: then a test can only be folded into its predecessor, and what is
folded with it stands right behind.

* `Table.textsAt` are the texts at a key, `Table.texts` those along a list of keys.
* `Table.IsRewrite`: what merges and absorptions have in common, and `Table.Step.cases`.
* `Table.IsRewrite.textsAt_replace`: where the texts are after a fold.
* `Table.Spined` is the invariant: every test but the root has an edge from the test before it, and
  every text has an edge from somewhere. `Table.Step.spined`: every step keeps it while the root is
  there.
* `Table.atoms_of_reduce`: the texts of the statement are those of the table.
-/

namespace ShortCircuit

theorem Formula.atoms_ne_nil (f : Formula) : f.atoms ≠ [] := by
  induction f with
  | atom => simp [atoms]
  | join op l r n hl _ => simp [atoms, hl]

/-- The texts of a content, from left to right. -/
def Content.texts : Content → List String
  | .branch b => b.statement.atoms
  | .closed f => f.atoms
  | .leaf (.text text) => [text]
  | .leaf _ => []

namespace Table

/-! ## Texts at keys -/

/-- The texts at a key. -/
def textsAt (t : Table) (k : Nat) : List String := ((t.content? k).map Content.texts).getD []

/-- The texts along a list of keys. -/
def texts (t : Table) (keys : List Nat) : List String := keys.flatMap t.textsAt

/-- A test, folded or not, stands at a key. -/
def IsTest (t : Table) (k : Nat) : Prop := ∃ c, t.content? k = some c ∧ ∀ x, c ≠ .leaf x

theorem textsAt_of_content? {t : Table} {k : Nat} {c : Content} (h : t.content? k = some c) :
    t.textsAt k = c.texts := by
  rw [textsAt, h, Option.map_some, Option.getD_some]

theorem textsAt_of_none {t : Table} {k : Nat} (h : t.content? k = none) : t.textsAt k = [] := by
  rw [textsAt, h, Option.map_none, Option.getD_none]

theorem textsAt_ne_nil_iff {t : Table} {k : Nat} :
    t.textsAt k ≠ [] ↔ t.IsTest k ∨ ∃ text, t.content? k = some (.leaf (.text text)) := by
  cases hc : t.content? k with
  | none => simp [textsAt_of_none hc, IsTest, hc]
  | some c =>
    rw [textsAt_of_content? hc]
    cases c with
    | branch b => simp [Content.texts, IsTest, hc, Formula.atoms_ne_nil]
    | closed f => simp [Content.texts, IsTest, hc, Formula.atoms_ne_nil]
    | leaf x => cases x <;> simp [Content.texts, IsTest, hc]

theorem isTest_of_branch {t : Table} {k : Nat} {b : Branch}
    (h : t.content? k = some (.branch b)) : t.IsTest k := ⟨_, h, by simp⟩

theorem IsTest.textsAt_ne_nil {t : Table} {k : Nat} (h : t.IsTest k) : t.textsAt k ≠ [] :=
  textsAt_ne_nil_iff.2 (.inl h)

theorem Edge.isTest {t : Table} {a k : Nat} (h : t.Edge a k) : t.IsTest a := by
  obtain ⟨b, o, hb, -⟩ := h
  exact isTest_of_branch hb

theorem atoms_of_decided? {t : Table} {b : Branch} {f : Formula} (h : t.decided? b = some f) :
    f.atoms = b.statement.atoms := by
  unfold decided? at h
  split at h
  · cases h
    rfl
  · cases h
    exact Formula.atoms_negate _
  · cases h

/-! ## What folds have in common -/

/-- A new content for the parent of a site: a test whose texts are those of parent and node. It
leads where the node did, and all edges to texts and tests survive, those of the node as edges of
the parent. -/
structure IsRewrite (t : Table) (s : Site) (c : Content) : Prop where
  isTest : ∀ x, c ≠ .leaf x
  texts : c.texts = t.textsAt s.parent.key ++ t.textsAt s.node.key
  next : ∀ m o, c = .branch m → t.Edge s.node.key (m.next o)
  edge : ∀ {a k : Nat} (assigns : Option UInt8), t.Edge a k → k ≠ s.node.key → t.textsAt k ≠ [] →
    (t.rewritten s c assigns).Edge (if a = s.node.key then s.parent.key else a) k

section Fold

variable {t : Table} {s : Site} (hs : t.IsSite s)

include hs

theorem isRewrite_of_merge (hne : s.parent.key ≠ s.node.key) {n m : Branch}
    (hn : s.node.content = .branch n) (hm : s.branch.merge? n s.side = some m) :
    t.IsRewrite s (.branch m) where
  isTest := by simp
  texts := by
    rw [textsAt_of_content? hs.content?_parent, textsAt_of_content? hs.content?_node, hn]
    simp only [Content.texts, Branch.statement_of_merge? hm, Formula.combine, Formula.atoms]
  next := by
    rintro _ o ⟨⟩
    exact ⟨n, o, by rw [hs.content?_node, hn], ((Branch.merge?_spec hm).1 o).symm⟩
  edge := fun assigns he hk _ => edge_merged hs hne hn hm assigns he hk

/-- A node that adds something to its parent leads to no text and to no test. -/
theorem textsAt_of_contribution {statement f : Formula} {negated : Bool} {op : Connective}
    (hf : joined statement negated op (t.contribution s.node) = some f) {k : Nat}
    (he : t.Edge s.node.key k) : t.textsAt k = [] := by
  obtain ⟨n, o, hn, rfl⟩ := he
  have hcontent : s.node.content = .branch n := Option.some.inj (hs.content?_node.symm.trans hn)
  simp only [contribution, hcontent] at hf
  cases hd : t.decided? n with
  | none =>
    rw [hd] at hf
    cases hf
  | some g =>
    obtain ⟨x, hx, -⟩ := decided?_spec hd (fun _ => true) o
    rw [textsAt_of_content? (content?_of_bool? hx)]
    rfl

theorem texts_of_joined {negated : Bool} {op : Connective} {f : Formula}
    (hf : joined s.branch.statement negated op (t.contribution s.node) = some f) :
    f.atoms = s.branch.statement.atoms ++ s.node.content.texts := by
  have hstatement : (if negated then s.branch.statement.negate else s.branch.statement).atoms =
      s.branch.statement.atoms := by
    split <;> simp
  have hformula : ∀ g : Formula, t.contribution s.node = .formula g →
      f.atoms = s.branch.statement.atoms ++ g.atoms := by
    intro g hg
    rw [hg] at hf
    cases hf
    simp only [Formula.combine, Formula.atoms, hstatement]
  cases hc : s.node.content with
  | closed g => exact hformula g (by simp only [contribution, hc])
  | leaf x =>
    cases x with
    | text text => exact hformula (.ofText text) (by simp only [contribution, hc])
    | nil =>
      simp only [contribution, hc] at hf
      cases hf
      simpa [Content.texts] using hstatement
    | bool b => exact absurd hc (isBool_eq_false_iff.1 hs.isOpen b)
  | branch n =>
    cases hd : t.decided? n with
    | none =>
      simp only [contribution, hc, hd] at hf
      cases hf
    | some g =>
      rw [hformula g (by simp only [contribution, hc, hd]), Content.texts,
        atoms_of_decided? hd]

theorem isRewrite_of_absorb (hne : s.parent.key ≠ s.node.key) {value : LeafValue}
    {negated : Bool} {op : Connective} {f : Formula}
    (hother : t.content? (s.branch.other s.side) = some (.leaf value))
    (hab : value.absorption? s.side = some (negated, op))
    (hf : joined s.branch.statement negated op (t.contribution s.node) = some f) :
    t.IsRewrite s (.closed f) where
  isTest := by simp
  texts := by
    rw [textsAt_of_content? hs.content?_parent, textsAt_of_content? hs.content?_node]
    exact texts_of_joined hs hf
  next := by simp
  edge := by
    intro a k assigns he hk htexts
    obtain ⟨hkey, hnext, -⟩ := Branch.sideOf?_spec hs.side
    have han : a ≠ s.node.key := by
      rintro rfl
      exact htexts (textsAt_of_contribution hs hf he)
    have hap : a ≠ s.parent.key := by
      rintro rfl
      obtain ⟨o, rfl⟩ := (edge_iff_of_branch hs.content?_parent).1 he
      by_cases ho : o = s.side.outcome
      · exact hk (by rw [ho, hkey])
      · -- The other successor is a leaf, and one with a text admits no absorption.
        rw [Bool.eq_not_of_ne ho, hnext, textsAt_of_content? hother] at htexts
        cases value with
        | text text =>
          rw [LeafValue.absorption?_text] at hab
          cases hab
        | nil => exact htexts rfl
        | bool b => exact htexts rfl
    rw [if_neg han]
    refine he.of_content ?_
    rw [content?_rewritten hs hne, if_neg han, if_neg hap]

end Fold

/-- A step drops a branch that leads to itself, or gives the parent of a site new content. -/
theorem Step.cases {t u : Table} (h : t.Step u) :
    (∃ s, t.IsSite s ∧ s.parent.key = s.node.key ∧ u = t.erase s.node.key) ∨
      ∃ s c assigns, t.IsSite s ∧ s.parent.key ≠ s.node.key ∧ t.IsRewrite s c ∧
        u = t.replace s c assigns := by
  cases h with
  | @drop s hs hself => exact .inl ⟨s, hs, hself, rfl⟩
  | @merge s n m hs hne hn hm assigns =>
    exact .inr ⟨s, _, assigns, hs, hne, isRewrite_of_merge hs hne hn hm, rfl⟩
  | @absorb s value negated op f hs hne hother hab hf assigns =>
    exact .inr ⟨s, _, assigns, hs, hne, isRewrite_of_absorb hs hne hother hab hf, rfl⟩

namespace IsRewrite

section Replace

variable {t : Table} {s : Site} {c : Content} (hr : t.IsRewrite s c) (hs : t.IsSite s)
  (hne : s.parent.key ≠ s.node.key)

include hr hs hne

theorem textsAt_rewritten (assigns : Option UInt8) (k : Nat) :
    (t.rewritten s c assigns).textsAt k =
      if k = s.node.key then []
      else if k = s.parent.key then t.textsAt s.parent.key ++ t.textsAt s.node.key
      else t.textsAt k := by
  have hcontent := content?_rewritten hs hne c assigns k
  split_ifs at hcontent ⊢ with hn hp
  · exact textsAt_of_none hcontent
  · rw [textsAt_of_content? hcontent, hr.texts]
  · rw [textsAt, textsAt, hcontent]

variable (hsupported : ∀ k, t.textsAt k ≠ [] → k = t.root ∨ ∃ a, t.Edge a k)

include hsupported

/-- Texts and tests are not pruned. -/
theorem content?_replace (assigns : Option UInt8) {k : Nat}
    (hk : (t.rewritten s c assigns).textsAt k ≠ []) :
    (t.replace s c assigns).content? k = (t.rewritten s c assigns).content? k := by
  refine content?_prune_of_supported (covers_rewritten _ _ _ _)
    (S := fun k => (t.rewritten s c assigns).textsAt k ≠ []) (fun j hj => ?_) hk
  have hkept : j ≠ s.node.key ∧ t.textsAt j ≠ [] := by
    rw [hr.textsAt_rewritten hs hne] at hj
    split_ifs at hj with hn hp
    · exact absurd rfl hj
    · exact ⟨hn, hp ▸ (isTest_of_branch hs.content?_parent).textsAt_ne_nil⟩
    · exact ⟨hn, hj⟩
  rcases hsupported j hkept.2 with hj | ⟨a, ha⟩
  · exact .inl hj
  · have he := hr.edge assigns ha hkept.1 hkept.2
    exact .inr ⟨_, he.isTest.textsAt_ne_nil, he⟩

/-- After a fold the texts of the node stand behind those of the parent. -/
theorem textsAt_replace (assigns : Option UInt8) (k : Nat) :
    (t.replace s c assigns).textsAt k =
      if k = s.node.key then []
      else if k = s.parent.key then t.textsAt s.parent.key ++ t.textsAt s.node.key
      else t.textsAt k := by
  rw [← hr.textsAt_rewritten hs hne assigns]
  by_cases hk : (t.rewritten s c assigns).textsAt k = []
  · rw [hk]
    cases hc : (t.replace s c assigns).content? k with
    | none => exact textsAt_of_none hc
    | some d =>
      have hd : (t.rewritten s c assigns).content? k = some d := content?_of_prune hc
      rw [textsAt_of_content? hc, ← textsAt_of_content? hd, hk]
  · rw [textsAt, textsAt, hr.content?_replace hs hne hsupported assigns hk]

theorem isTest_replace (assigns : Option UInt8) {k : Nat} :
    (t.replace s c assigns).IsTest k ↔ k ≠ s.node.key ∧ t.IsTest k := by
  constructor
  · rintro ⟨d, hd, hleaf⟩
    obtain ⟨hn, ⟨rfl, -⟩ | ⟨-, hk⟩⟩ := content?_of_replace hs hne hd
    · exact ⟨hn, isTest_of_branch hs.content?_parent⟩
    · exact ⟨hn, d, hk, hleaf⟩
  · rintro ⟨hn, d, hd, hleaf⟩
    have htest : (t.rewritten s c assigns).IsTest k := by
      by_cases hp : k = s.parent.key
      · exact ⟨c, by rw [content?_rewritten hs hne, if_neg hn, if_pos hp], hr.isTest⟩
      · exact ⟨d, by rw [content?_rewritten hs hne, if_neg hn, if_neg hp, hd], hleaf⟩
    obtain ⟨e, he, hleaf⟩ := htest
    refine ⟨e, ?_, hleaf⟩
    rw [hr.content?_replace hs hne hsupported assigns
      (IsTest.textsAt_ne_nil ⟨e, he, hleaf⟩), he]

theorem edge_replace (assigns : Option UInt8) {a k : Nat} (he : t.Edge a k)
    (hk : k ≠ s.node.key) (htexts : t.textsAt k ≠ []) :
    (t.replace s c assigns).Edge (if a = s.node.key then s.parent.key else a) k := by
  have he := hr.edge assigns he hk htexts
  exact he.of_content (hr.content?_replace hs hne hsupported assigns he.isTest.textsAt_ne_nil)

end Replace

end IsRewrite

/-! ## Tests that hang on the test before them -/

/-- The first key carries the last test before the second. -/
def Precedes (t : Table) (a k : Nat) : Prop :=
  t.IsTest a ∧ a < k ∧ ∀ j, t.IsTest j → j < k → j ≤ a

/-- Every test but the root has an edge from the test before it, and every text has an edge. -/
structure Spined (t : Table) : Prop where
  test : ∀ k, t.IsTest k → k ≠ t.root → ∃ a, t.Precedes a k ∧ t.Edge a k
  text : ∀ k text, t.content? k = some (.leaf (.text text)) → ∃ a, t.Edge a k

theorem Spined.supported {t : Table} (h : t.Spined) (k : Nat) (hk : t.textsAt k ≠ []) :
    k = t.root ∨ ∃ a, t.Edge a k := by
  rcases textsAt_ne_nil_iff.1 hk with htest | ⟨text, htext⟩
  · by_cases hroot : k = t.root
    · exact .inl hroot
    · obtain ⟨a, -, ha⟩ := h.test k htest hroot
      exact .inr ⟨a, ha⟩
  · exact .inr (h.text k text htext)

section Spined

variable {t : Table} (h : t.Spined) (hc : t.Covers) {s : Site} (hs : t.IsSite s)

include h hc hs

/-- A test that is folded is folded into the test before it. -/
theorem Spined.precedes (hroot : t.root ≠ s.node.key) (hn : t.IsTest s.node.key) :
    t.Precedes s.parent.key s.node.key := by
  obtain ⟨a, ha, he⟩ := h.test _ hn hroot.symm
  rwa [hs.eq_of_edge hc he] at ha

theorem Spined.replace {c : Content} (hr : t.IsRewrite s c) (hne : s.parent.key ≠ s.node.key)
    (hroot : t.root ≠ s.node.key) (assigns : Option UInt8) :
    (t.replace s c assigns).Spined := by
  have htest := fun {k} => hr.isTest_replace hs hne h.supported assigns (k := k)
  have hedge := fun {a k} => hr.edge_replace hs hne h.supported assigns (a := a) (k := k)
  refine ⟨fun k hk hkr => ?_, fun k text hk => ?_⟩
  · obtain ⟨hkn, hk⟩ := htest.1 hk
    rw [replace_eq_prune, root_prune, root_rewritten] at hkr
    obtain ⟨a, ⟨hat, hak, hlast⟩, ha⟩ := h.test k hk hkr
    have he := hedge ha hkn hk.textsAt_ne_nil
    by_cases han : a = s.node.key
    · -- The test behind the node now hangs on the parent, the test before the node.
      rw [if_pos han] at he
      rw [han] at hat hak hlast
      obtain ⟨hpt, hpn, hlast'⟩ := h.precedes hc hs hroot hat
      refine ⟨s.parent.key, ⟨htest.2 ⟨hne, hpt⟩, Nat.lt_trans hpn hak, ?_⟩, he⟩
      intro j hj hjk
      obtain ⟨hjn, hj⟩ := htest.1 hj
      have hle := hlast j hj hjk
      exact hlast' j hj (by omega)
    · rw [if_neg han] at he
      refine ⟨a, ⟨htest.2 ⟨han, hat⟩, hak, ?_⟩, he⟩
      intro j hj hjk
      exact hlast j (htest.1 hj).2 hjk
  · obtain ⟨hkn, ⟨-, hc⟩ | ⟨-, hk⟩⟩ := content?_of_replace hs hne hk
    · exact absurd hc.symm (hr.isTest _)
    · obtain ⟨a, ha⟩ := h.text k text hk
      exact ⟨_, hedge ha hkn (textsAt_ne_nil_iff.2 (.inr ⟨text, hk⟩))⟩

end Spined

/-- While the root is there, no branch that leads to itself is dropped. -/
theorem Spined.step {t u : Table} (hsp : t.Spined) (hc : t.Covers) (h : t.Step u)
    (hroot : u.content? u.root ≠ none) :
    ∃ s c assigns, t.IsSite s ∧ s.parent.key ≠ s.node.key ∧ t.root ≠ s.node.key ∧
      t.IsRewrite s c ∧ u = t.replace s c assigns := by
  rw [h.root_eq] at hroot
  rcases h.cases with ⟨s, hs, hself, rfl⟩ | ⟨s, c, assigns, hs, hne, hr, rfl⟩
  · have hne : t.root ≠ s.node.key := by
      intro he
      rw [content?_erase, if_pos he] at hroot
      exact hroot rfl
    have htest : t.IsTest s.node.key := hself ▸ isTest_of_branch hs.content?_parent
    have := (hsp.precedes hc hs hne htest).2.1
    omega
  · exact ⟨s, c, assigns, hs, hne, root_ne_of_replace hs hne hroot, hr, rfl⟩

/-- Every step keeps the invariant while the root is there. -/
theorem Step.spined {t u : Table} (h : t.Step u) (hc : t.Covers) (hsp : t.Spined)
    (hroot : u.content? u.root ≠ none) : u.Spined := by
  obtain ⟨s, c, assigns, hs, hne, hrootne, hr, rfl⟩ := hsp.step hc h hroot
  exact hsp.replace hc hs hr hne hrootne assigns

/-! ## Texts along keys -/

section Along

variable {f g : Nat → List String} {keys : List Nat} {p n : Nat}

/-- Moving the texts of one key behind those of another permutes the texts. -/
theorem perm_flatMap_of_move (hnodup : keys.Nodup) (hp : p ∈ keys) (hn : n ∈ keys) (hpn : p ≠ n)
    (hgp : g p = f p ++ f n) (hgn : g n = []) (hother : ∀ k, k ≠ p → k ≠ n → g k = f k) :
    (keys.flatMap g).Perm (keys.flatMap f) := by
  have hn' : n ∈ keys.erase p := (List.mem_erase_of_ne hpn.symm).2 hn
  have hperm : keys.Perm (p :: n :: (keys.erase p).erase n) :=
    (List.perm_cons_erase hp).trans ((List.perm_cons_erase hn').cons p)
  have hrest : ((keys.erase p).erase n).flatMap g = ((keys.erase p).erase n).flatMap f := by
    refine List.flatMap_congr fun k hk => ?_
    obtain ⟨hkn, hk⟩ := (hnodup.erase p).mem_erase_iff.1 hk
    exact hother k (hnodup.mem_erase_iff.1 hk).1 hkn
  calc
    (keys.flatMap g).Perm ((p :: n :: (keys.erase p).erase n).flatMap g) := hperm.flatMap_right g
    _ = (p :: n :: (keys.erase p).erase n).flatMap f := by
      simp only [List.flatMap_cons, hgp, hgn, hrest, List.nil_append, List.append_assoc]
    List.Perm _ (keys.flatMap f) := (hperm.flatMap_right f).symm

/-- The texts keep their order when nothing stands between the two keys. -/
theorem flatMap_of_move (hsorted : keys.Pairwise (· < ·)) (hp : p ∈ keys) (hn : n ∈ keys)
    (hpn : p < n) (hbetween : ∀ k, p < k → k < n → f k = []) (hgp : g p = f p ++ f n)
    (hgn : g n = []) (hother : ∀ k, k ≠ p → k ≠ n → g k = f k) :
    keys.flatMap g = keys.flatMap f := by
  obtain ⟨front, rest, rfl⟩ := List.append_of_mem hp
  obtain ⟨-, hrest, hfront⟩ := List.pairwise_append.1 hsorted
  obtain ⟨hprest, hrest⟩ := List.pairwise_cons.1 hrest
  have hnrest : n ∈ rest := by
    rcases List.mem_append.1 hn with h | h
    · have := hfront n h p List.mem_cons_self
      omega
    · exact (List.mem_cons.1 h).resolve_left (by omega)
  obtain ⟨middle, back, rfl⟩ := List.append_of_mem hnrest
  obtain ⟨-, hback, hmiddle⟩ := List.pairwise_append.1 hrest
  have hg : ∀ l : List Nat, (∀ k ∈ l, k ≠ p ∧ k ≠ n) → l.flatMap g = l.flatMap f := fun l hl =>
    List.flatMap_congr fun k hk => hother k (hl k hk).1 (hl k hk).2
  have hfront' : front.flatMap g = front.flatMap f := by
    refine hg front fun k hk => ?_
    have := hfront k hk p List.mem_cons_self
    omega
  have hback' : back.flatMap g = back.flatMap f := by
    refine hg back fun k hk => ?_
    have := (List.pairwise_cons.1 hback).1 k hk
    omega
  have hempty : middle.flatMap f = [] := by
    refine List.flatMap_eq_nil_iff.2 fun k hk => ?_
    exact hbetween k (hprest k (by simp [hk])) (hmiddle k hk n List.mem_cons_self)
  have hmiddle' : middle.flatMap g = [] := by
    refine (hg middle fun k hk => ?_).trans hempty
    have := hprest k (by simp [hk])
    have := hmiddle k hk n List.mem_cons_self
    omega
  simp only [List.flatMap_append, List.flatMap_cons, hfront', hback', hempty, hmiddle', hgp, hgn,
    List.nil_append, List.append_assoc]

end Along

/-- No leaf carries a text. -/
def NoText (t : Table) : Prop := ∀ k text, t.content? k ≠ some (.leaf (.text text))

/-- What a reduction keeps: the texts of the table along some keys, and their order when there are
no texts beside those of tests. -/
structure Keeps (t : Table) (keys : List Nat) (u : Table) : Prop where
  spined : u.Spined
  mem_keys : ∀ k, u.textsAt k ≠ [] → k ∈ keys
  perm : (u.texts keys).Perm (t.texts keys)
  ordered : keys.Pairwise (· < ·) → t.NoText → u.NoText ∧ u.texts keys = t.texts keys

theorem Keeps.step {t w u : Table} {keys : List Nat} (h : t.Keeps keys w) (hnodup : keys.Nodup)
    (hc : w.Covers) (hstep : w.Step u) (hroot : u.content? u.root ≠ none) : t.Keeps keys u := by
  obtain ⟨s, c, assigns, hs, hne, hrootne, hr, rfl⟩ := h.spined.step hc hstep hroot
  have htexts := hr.textsAt_replace hs hne h.spined.supported assigns
  have hgn := (htexts s.node.key).trans (if_pos rfl)
  have hgp := (htexts s.parent.key).trans ((if_neg hne).trans (if_pos rfl))
  have hother : ∀ k, k ≠ s.parent.key → k ≠ s.node.key →
      (w.replace s c assigns).textsAt k = w.textsAt k := by
    intro k hkp hkn
    rw [htexts, if_neg hkn, if_neg hkp]
  have hpt := isTest_of_branch hs.content?_parent
  have hp := h.mem_keys _ hpt.textsAt_ne_nil
  have hkeys : ∀ k, (w.replace s c assigns).textsAt k ≠ [] → k ∈ keys := by
    intro k hk
    rw [htexts] at hk
    split_ifs at hk with hkn hkp
    · exact absurd rfl hk
    · exact hkp ▸ hp
    · exact h.mem_keys k hk
  -- A node without texts changes nothing, whether its key is in the list or not.
  have hempty : w.textsAt s.node.key = [] →
      (w.replace s c assigns).texts keys = w.texts keys := by
    intro hn
    refine List.flatMap_congr fun k _ => ?_
    by_cases hkp : k = s.parent.key
    · rw [hkp, hgp, hn, List.append_nil]
    · by_cases hkn : k = s.node.key
      · rw [hkn, hgn, hn]
      · exact hother k hkp hkn
  refine ⟨h.spined.replace hc hs hr hne hrootne assigns, hkeys, ?_, fun hsorted hno => ?_⟩
  · refine List.Perm.trans ?_ h.perm
    by_cases hn : w.textsAt s.node.key = []
    · rw [hempty hn]
    · exact perm_flatMap_of_move hnodup hp (h.mem_keys _ hn) hne hgp hgn hother
  · obtain ⟨hno, horder⟩ := h.ordered hsorted hno
    refine ⟨fun k text hk => hno k text (hstep.content?_leaf hk), Eq.trans ?_ horder⟩
    by_cases hn : w.textsAt s.node.key = []
    · exact hempty hn
    · have htest : ∀ k, w.textsAt k ≠ [] → w.IsTest k := fun k hk =>
        (textsAt_ne_nil_iff.1 hk).resolve_right fun ⟨text, htext⟩ => hno k text htext
      obtain ⟨-, hlt, hlast⟩ := h.spined.precedes hc hs hrootne (htest _ hn)
      refine flatMap_of_move hsorted hp (h.mem_keys _ hn) hlt (fun k hpk hkn => ?_) hgp hgn hother
      by_contra hk
      have := hlast k (htest k hk) hkn
      omega

/-- At the end all texts are those of the statement. -/
theorem texts_of_openCount_le {t : Table} {f : Formula} {keys : List Nat} (hle : t.openCount ≤ 1)
    (hf : t.statement = .ok f) (hnodup : keys.Nodup) (hkeys : ∀ k, t.textsAt k ≠ [] → k ∈ keys) :
    t.texts keys = f.atoms := by
  have hroot : ∃ c, t.content? t.root = some c ∧ (∀ b, c ≠ .leaf (.bool b)) ∧
      c.texts = f.atoms := by
    rcases statement_eq_ok hf with hc | ⟨b, hb, rfl⟩
    · exact ⟨_, hc, by simp, rfl⟩
    · refine ⟨_, hb, by simp, ?_⟩
      cases hd : t.decided? b with
      | none => rfl
      | some g => exact (atoms_of_decided? hd).symm
  obtain ⟨c, hc, hopen, htexts⟩ := hroot
  have hmem : t.root ∈ keys := by
    refine hkeys _ ?_
    rw [textsAt_of_content? hc, htexts]
    exact f.atoms_ne_nil
  have hother : ∀ k, k ≠ t.root → t.textsAt k = [] := by
    intro k hk
    cases hd : t.content? k with
    | none => exact textsAt_of_none hd
    | some d =>
      obtain ⟨b, rfl⟩ := bool_of_openCount_le hle hc hd hk.symm hopen
      exact textsAt_of_content? hd
  obtain ⟨front, back, rfl⟩ := List.append_of_mem hmem
  obtain ⟨hfront, hback⟩ : t.root ∉ front ∧ t.root ∉ back := by
    have h := (List.nodup_cons.1 (List.nodup_middle.1 hnodup)).1
    rwa [List.mem_append, not_or] at h
  have hnil : ∀ l : List Nat, t.root ∉ l → l.flatMap t.textsAt = [] := fun l hl =>
    List.flatMap_eq_nil_iff.2 fun k hk => hother k fun he => hl (he ▸ hk)
  simp only [texts, List.flatMap_append, List.flatMap_cons, hnil front hfront, hnil back hback,
    textsAt_of_content? hc, htexts, List.nil_append, List.append_nil]

/-- The texts of the statement of a reduced table are the texts of the table; when only tests have
texts, they are in the order of the tests. -/
theorem atoms_of_reduce {t u : Table} {f : Formula} {keys : List Nat} (hc : t.Covers)
    (hsp : t.Spined) (hnodup : keys.Nodup) (hkeys : ∀ k, t.textsAt k ≠ [] → k ∈ keys)
    (hr : t.reduce = (.ok (), u)) (hf : u.statement = .ok f) :
    f.atoms.Perm (t.texts keys) ∧
      (keys.Pairwise (· < ·) → t.NoText → f.atoms = t.texts keys) := by
  obtain ⟨hsteps, hle⟩ := steps_of_reduce hr
  have hkeeps : u.content? u.root ≠ none → t.Keeps keys u := by
    refine invariant_of_steps (P := fun w => w.content? w.root ≠ none → t.Keeps keys w)
      (fun hw hstep ih hroot => ?_) hsteps hc
      fun _ => ⟨hsp, hkeys, .refl _, fun _ hno => ⟨hno, rfl⟩⟩
    refine (ih ?_).step hnodup hw hstep hroot
    rw [hstep.root_eq] at hroot
    exact hstep.content?_ne_none hroot
  have hroot : u.content? u.root ≠ none := by
    rcases statement_eq_ok hf with hc | ⟨b, hb, -⟩
    · simp [hc]
    · simp [hb]
  have hkeeps := hkeeps hroot
  rw [← texts_of_openCount_le (hle rfl) hf hnodup hkeeps.mem_keys]
  exact ⟨hkeeps.perm, fun hsorted hno => (hkeeps.ordered hsorted hno).2⟩

end Table

end ShortCircuit
