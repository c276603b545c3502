import ShortCircuit.Proofs.Decision.Texts

/-!
# Tests that decide nothing

A test is idle when both of its outcomes lead to the same place. Folding never gets rid of such a
test: merged into its parent it makes the parent idle, an idle parent has no single edge to fold
along, and between equal leaves there is nothing to absorb. So the last test of a table with an
idle test is idle, and no second leaf can be left beside it.

* `Table.Idle`: some test leads to one place only.
* `Table.Step.idle`: every step keeps an idle test. `Table.Step.offers`: every step keeps a way to a
  boolean leaf, as an edge or inside a folded test.
* `Table.eq_of_idle`: a table with an idle test is reduced only if its tests lead to no other
  boolean leaf.
-/

namespace ShortCircuit

namespace Table

/-- Some test leads to a place, whatever its outcome is. -/
def Idle (t : Table) (place : Nat) : Prop :=
  ∃ k b, t.content? k = some (.branch b) ∧ ∀ o, b.next o = place

/-- Some branch leads to a place, or a test is folded that may have led there. -/
def Offers (t : Table) (place : Nat) : Prop :=
  (∃ a, t.Edge a place) ∨ ∃ k f, t.content? k = some (.closed f)

/-- An idle test has no single edge to its child, so nothing is folded into it. -/
theorem IsSite.parent_not_idle {t : Table} {s : Site} (hs : t.IsSite s) {place : Nat} :
    ¬∀ o, s.branch.next o = place := by
  intro h
  obtain ⟨hkey, hother, hne⟩ := Branch.sideOf?_spec hs.side
  rw [h] at hkey hother
  exact hne (hother.symm.trans hkey)

/-- An idle test adds nothing to its parent. -/
theorem not_idle_of_joined {t : Table} {n : Node} {statement f : Formula} {negated : Bool}
    {op : Connective} (hf : joined statement negated op (t.contribution n) = some f) {b : Branch}
    (hb : n.content = .branch b) {place : Nat} : ¬∀ o, b.next o = place := by
  intro h
  have hdecided : t.decided? b = none := by
    have htrue : b.onTrue = place := h true
    have hfalse : b.onFalse = place := h false
    rw [decided?, htrue, hfalse]
    rcases t.bool? place with _ | _ | _ <;> rfl
  simp only [contribution, hb, hdecided] at hf
  cases hf

section Replace

variable {t : Table} {s : Site} {c : Content} (hr : t.IsRewrite s c) (hs : t.IsSite s)
  (hne : s.parent.key ≠ s.node.key)
  (hsupported : ∀ k, t.textsAt k ≠ [] → k = t.root ∨ ∃ a, t.Edge a k)

include hr hs hne hsupported

/-- The new content of the parent is not pruned. -/
theorem IsRewrite.content?_parent (assigns : Option UInt8) :
    (t.replace s c assigns).content? s.parent.key = some c := by
  have hparent : (t.rewritten s c assigns).content? s.parent.key = some c := by
    rw [content?_rewritten hs hne, if_neg hne, if_pos rfl]
  have htest : (t.rewritten s c assigns).IsTest s.parent.key := ⟨c, hparent, hr.isTest⟩
  rw [hr.content?_replace hs hne hsupported assigns htest.textsAt_ne_nil, hparent]

/-- The tests beside the node and its parent stay as they are. -/
theorem IsRewrite.content?_of_isTest (assigns : Option UInt8) {k : Nat} (hk : t.IsTest k)
    (hkn : k ≠ s.node.key) (hkp : k ≠ s.parent.key) :
    (t.replace s c assigns).content? k = t.content? k := by
  have hcontent : (t.rewritten s c assigns).content? k = t.content? k := by
    rw [content?_rewritten hs hne, if_neg hkn, if_neg hkp]
  have htest : (t.rewritten s c assigns).IsTest k := by
    obtain ⟨d, hd, hleaf⟩ := hk
    exact ⟨d, hcontent.trans hd, hleaf⟩
  rw [hr.content?_replace hs hne hsupported assigns htest.textsAt_ne_nil, hcontent]

end Replace

/-! ## What steps keep -/

section Step

variable {t u : Table} (hsp : t.Spined)

include hsp

/-- A fold that does not take an idle test away keeps it. -/
theorem Spined.idle_replace {s : Site} {c : Content} (hr : t.IsRewrite s c) (hs : t.IsSite s)
    (hne : s.parent.key ≠ s.node.key) (assigns : Option UInt8) {k : Nat} {b : Branch} {place : Nat}
    (hk : t.content? k = some (.branch b)) (hb : ∀ o, b.next o = place) (hkn : k ≠ s.node.key) :
    (t.replace s c assigns).Idle place := by
  have hkp : k ≠ s.parent.key := by
    rintro rfl
    cases hk.symm.trans hs.content?_parent
    exact hs.parent_not_idle hb
  refine ⟨k, b, ?_, hb⟩
  rw [hr.content?_of_isTest hs hne hsp.supported assigns (isTest_of_branch hk) hkn hkp, hk]

/-- Every step keeps an idle test. -/
theorem Step.idle (h : t.Step u) {place : Nat} (hidle : t.Idle place) : u.Idle place := by
  obtain ⟨k, b, hk, hb⟩ := hidle
  cases h with
  | @drop s hs hself =>
    refine ⟨k, b, ?_, hb⟩
    rw [content?_erase, if_neg ?_, hk]
    rintro rfl
    rw [← hself] at hk
    cases hk.symm.trans hs.content?_parent
    exact hs.parent_not_idle hb
  | @merge s n m hs hne hn hm assigns =>
    have hr := isRewrite_of_merge hs hne hn hm
    by_cases hkn : k = s.node.key
    · -- The merged branch has the successors of the idle test.
      subst hkn
      rw [hs.content?_node, hn] at hk
      cases hk
      refine ⟨s.parent.key, m, hr.content?_parent hs hne hsp.supported assigns, fun o => ?_⟩
      rw [(Branch.merge?_spec hm).1, hb]
    · exact hsp.idle_replace hr hs hne assigns hk hb hkn
  | @absorb s value negated op f hs hne hother hab hf assigns =>
    have hr := isRewrite_of_absorb hs hne hother hab hf
    refine hsp.idle_replace hr hs hne assigns hk hb ?_
    rintro rfl
    rw [hs.content?_node] at hk
    exact not_idle_of_joined hf (Option.some.inj hk) hb

/-- While the root is there, every step keeps the edges to a boolean leaf or folds a test. -/
theorem Step.offers (h : t.Step u) (hc : t.Covers) (hroot : u.content? u.root ≠ none) {place : Nat}
    (hplace : ∀ c, t.content? place = some c → ∃ v, c = .leaf (.bool v))
    (hoffers : t.Offers place) : u.Offers place := by
  rw [h.root_eq] at hroot
  cases h with
  | @drop s hs hself =>
    have hne : t.root ≠ s.node.key := by
      intro he
      rw [content?_erase, if_pos he] at hroot
      exact hroot rfl
    have htest : t.IsTest s.node.key := hself ▸ isTest_of_branch hs.content?_parent
    have := (hsp.precedes hc hs hne htest).2.1
    omega
  | @merge s n m hs hne hn hm assigns =>
    have hr := isRewrite_of_merge hs hne hn hm
    rcases hoffers with ⟨a, ha⟩ | ⟨k, f, hk⟩
    · have hpn : place ≠ s.node.key := by
        rintro rfl
        obtain ⟨v, hv⟩ := hplace _ hs.content?_node
        cases hn.symm.trans hv
      have he := edge_merged hs hne hn hm assigns ha hpn
      have hkept := hr.content?_replace hs hne hsp.supported assigns he.isTest.textsAt_ne_nil
      exact .inl ⟨_, he.of_content hkept⟩
    · have hkn : k ≠ s.node.key := by
        rintro rfl
        rw [hs.content?_node, hn] at hk
        cases hk
      have hkp : k ≠ s.parent.key := by
        rintro rfl
        cases hk.symm.trans hs.content?_parent
      refine .inr ⟨k, f, ?_⟩
      rw [hr.content?_of_isTest hs hne hsp.supported assigns ⟨_, hk, by simp⟩ hkn hkp, hk]
  | @absorb s value negated op f hs hne hother hab hf assigns =>
    have hr := isRewrite_of_absorb hs hne hother hab hf
    exact .inr ⟨s.parent.key, f, hr.content?_parent hs hne hsp.supported assigns⟩

end Step

/-- A boolean leaf never becomes anything else. -/
theorem Step.content?_bool {t u : Table} (h : t.Step u) {place : Nat}
    (hplace : ∀ c, t.content? place = some c → ∃ v, c = .leaf (.bool v)) :
    ∀ c, u.content? place = some c → ∃ v, c = .leaf (.bool v) := by
  have hreplace : ∀ {s : Site} {d : Content} {assigns : Option UInt8}, t.IsSite s →
      s.parent.key ≠ s.node.key → ∀ c, (t.replace s d assigns).content? place = some c →
      ∃ v, c = .leaf (.bool v) := by
    intro s d assigns hs hne c hc
    rcases (content?_of_replace hs hne hc).2 with ⟨rfl, -⟩ | ⟨-, hold⟩
    · obtain ⟨v, hv⟩ := hplace _ hs.content?_parent
      cases hv
    · exact hplace c hold
  cases h with
  | drop hs hself =>
    intro c hc
    rw [content?_erase] at hc
    split_ifs at hc
    exact hplace c hc
  | merge hs hne => exact hreplace hs hne
  | absorb hs hne => exact hreplace hs hne

/-! ## The reduced table -/

/-- A table with an idle test that leads to one place, and with an edge to a boolean leaf at another
place, is not reduced to one statement. -/
theorem eq_of_idle {t u : Table} {f : Formula} (hc : t.Covers) (hsp : t.Spined)
    (hr : t.reduce = (.ok (), u)) (hf : u.statement = .ok f) {place other : Nat}
    (hidle : t.Idle place) {a : Nat} (he : t.Edge a other) {v : Bool}
    (hother : t.content? other = some (.leaf (.bool v))) : other = place := by
  obtain ⟨hsteps, hle⟩ := steps_of_reduce hr
  -- As long as the root is there, the idle test and a way to the other leaf stay.
  have hkept : u.content? u.root ≠ none → u.Spined ∧ u.Idle place ∧ u.Offers other ∧
      ∀ c, u.content? other = some c → ∃ v, c = .leaf (.bool v) := by
    refine invariant_of_steps (P := fun w => w.content? w.root ≠ none → w.Spined ∧
      w.Idle place ∧ w.Offers other ∧ ∀ c, w.content? other = some c → ∃ v, c = .leaf (.bool v))
      (fun hw hstep ih hroot => ?_) hsteps hc fun _ => ⟨hsp, hidle, .inl ⟨a, he⟩, fun c hc => ?_⟩
    · have hroot' := hroot
      rw [hstep.root_eq] at hroot'
      obtain ⟨hsp, hidle, hoffers, hbool⟩ := ih (hstep.content?_ne_none hroot')
      exact ⟨hstep.spined hw hsp hroot, hstep.idle hsp hidle,
        hstep.offers hsp hw hroot hbool hoffers, hstep.content?_bool hbool⟩
    · exact ⟨v, Option.some.inj (hc.symm.trans hother)⟩
  have hroot : u.content? u.root ≠ none := by
    rcases statement_eq_ok hf with hc | ⟨b, hb, -⟩
    · simp [hc]
    · simp [hb]
  obtain ⟨-, ⟨k, b, hk, hb⟩, hoffers, -⟩ := hkept hroot
  -- The idle test is the only node left that is no boolean leaf.
  have honly : ∀ {j c}, u.content? j = some c → (∀ b, c ≠ .leaf (.bool b)) → j = k := by
    intro j c hj hopen
    by_contra hne
    obtain ⟨x, hx⟩ := bool_of_openCount_le (hle rfl) hk hj (Ne.symm hne) (by simp)
    exact hopen x hx
  rcases hoffers with ⟨j, b', o, hj, rfl⟩ | ⟨j, g, hj⟩
  · obtain rfl := honly hj (by simp)
    cases hk.symm.trans hj
    exact hb o
  · obtain rfl := honly hj (by simp)
    cases hk.symm.trans hj

end Table

end ShortCircuit
