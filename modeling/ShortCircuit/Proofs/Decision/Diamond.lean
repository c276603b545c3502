import ShortCircuit.Proofs.Decision.Alike

/-!
# Two folds of one table

Two folds of a table with increasing edges either touch different keys, and then commute; or they
take two leaves without a value into the same test; or they follow each other along a chain of three
nodes, and then the two orders differ in how the statements are nested and in whether a negated join
is written with the other connective. In every case the results are alike after at most one further
fold each.

* `Table.Folds.persists`: a fold leaves alone what can be folded elsewhere.
* `Table.Folds.eq_closed_of_sibling`: two folds into the same test.
* `Table.Folds.chain`: two folds along a chain.
* `Table.Proper.diamond`: two folds can be brought together.
-/

namespace ShortCircuit

theorem Side.outcome_injective : Function.Injective Side.outcome := by
  rintro (_ | _) (_ | _) h <;> cases h <;> rfl

/-- Two different successors are on different sides. -/
theorem Branch.other_of_sides {b : Branch} {k k' : Nat} {side side' : Side}
    (h : b.sideOf? k = some side) (h' : b.sideOf? k' = some side') (hne : k ≠ k') :
    b.other side = k' := by
  obtain ⟨hk, hother, -⟩ := Branch.sideOf?_spec h
  obtain ⟨hk', -, -⟩ := Branch.sideOf?_spec h'
  have hside : side'.outcome ≠ side.outcome := by
    intro heq
    rw [heq, hk] at hk'
    exact hne hk'
  rw [← hother, ← hk', Bool.eq_not_of_ne hside]

namespace Table

/-! ## Folds at different places -/

/-- A fold leaves alone what can be folded at other keys. -/
theorem Folds.persists {t u : Table} {p n p' n' : Nat} {c c' : Content} (h : t.Folds p n c)
    (hu : t.Folded p n c u) (h' : t.Folds p' n' c') (hpp : p' ≠ p) (hpn : p' ≠ n) (hnp : n' ≠ p)
    (hnn : n' ≠ n) : ∃ d, u.Folds p' n' d ∧ c'.Alike d := by
  have hedge : ∀ {k}, t.Edge p' k → u.Edge p' k := fun he => hu.edge_of_ne hpn hpp he
  have hpbranch : ∀ x, t.content? p ≠ some (.leaf x) := by
    obtain ⟨b, o, hb, -⟩ := h.edge
    simp [hb]
  refine h'.transfer ?_ ?_ ?_ ?_ ?_
  · obtain ⟨b, o, hb, -⟩ := h'.edge
    exact .of_eq ((hu.content?_branch hpn hpp hb).trans hb.symm)
  · exact .of_eq (hu.content?_of_edge hnn hnp (hedge h'.edge))
  · intro a ha
    rcases hu.edge_cases h ha with ⟨-, hn⟩ | ⟨-, -, ha⟩
    · exact absurd (h'.only hn).symm hpn
    · exact h'.only ha
  · intro k x he hk
    rw [hu.content?_of_edge ?_ ?_ (hedge he), hk]
    · rintro rfl
      exact hpp (h.only he)
    · rintro rfl
      exact hpbranch x hk
  · intro k he
    by_cases hkp : k = p
    · -- The test that was folded into is no truth value, before and after.
      subst hkp
      have hbefore : t.bool? k = none :=
        Option.eq_none_iff_forall_ne_some.2 fun b hb => hpbranch _ (content?_of_bool? hb)
      rw [hbefore]
      refine Option.eq_none_iff_forall_ne_some.2 fun b hb => ?_
      exact hpbranch _ (hu.descends.leaf (content?_of_bool? hb))
    · have hkn : k ≠ n := by
        rintro rfl
        exact hnp (h.only he)
      exact AlikeAt.bool? (.of_eq (hu.content?_of_edge hkn hkp (hu.edge_of_ne hnn hnp he)))

/-! ## Two folds into the same test -/

theorem Folds.content?_ne_bool {t : Table} {p n : Nat} {c : Content} (h : t.Folds p n c)
    (b : Bool) : t.content? n ≠ some (.leaf (.bool b)) := by
  cases h with
  | merge hp hn => simp [hn]
  | absorb hp hn hopen =>
    rw [hn]
    exact fun h => hopen b (Option.some.inj h)

section Siblings

variable {t : Table} (ht : t.Proper) {p n n' : Nat} {c c' : Content} (h : t.Folds p n c)
  (h' : t.Folds p n' c') (hne : n ≠ n')

include ht h h' hne

/-- A sibling of a node that can be folded is a leaf without a value, when it can be folded too. -/
theorem Folds.content?_sibling : t.content? n' = some (.leaf .nil) := by
  obtain ⟨b', side', hp', hside'⟩ := h'.exists_side
  cases h with
  | @merge b d m side hp hn hside honly hm =>
    -- The shared successor would have two parents.
    cases hp.symm.trans hp'
    have hshare := (Branch.merge?_eq_some_iff.1 hm).1
    rw [Branch.other_of_sides hside hside' hne] at hshare
    have hnp := h'.only ⟨d, _, hn, hshare⟩
    have hlt := ht.increasing ⟨_, _, hp, (Branch.sideOf?_spec hside).1⟩
    omega
  | @absorb b d side value negated op f hp hn hopen hside honly hmerge hother hab hf =>
    cases hp.symm.trans hp'
    rw [Branch.other_of_sides hside hside' hne] at hother
    cases value with
    | nil => exact hother
    | bool x => exact absurd hother (h'.content?_ne_bool x)
    | text s =>
      rw [LeafValue.absorption?_text] at hab
      cases hab

/-- Two leaves without a value close the test with its own statement. -/
theorem Folds.eq_closed_of_sibling :
    ∃ b, t.content? p = some (.branch b) ∧ c = .closed b.statement := by
  have hn := h'.content?_sibling ht h hne.symm
  have hn' := h.content?_sibling ht h' hne
  obtain ⟨b', side', hp', hside'⟩ := h'.exists_side
  cases h with
  | merge hp hn₁ => cases hn.symm.trans hn₁
  | @absorb b d side value negated op f hp hn₁ hopen hside honly hmerge hother hab hf =>
    refine ⟨b, hp, ?_⟩
    cases hp.symm.trans hp'
    cases hn.symm.trans hn₁
    rw [Branch.other_of_sides hside hside' hne, hn'] at hother
    cases hother
    cases LeafValue.absorption?_nil hab
    cases hf
    rfl

end Siblings

/-! ## Two folds along a chain -/

section Chain

variable {t : Table} (ht : t.Proper) {p n z : Nat} {c e : Content} (h : t.Folds p n c)
  (h' : t.Folds n z e)

include ht h h'

/-- A node that something can be folded into is folded by a merge, and what is folded into it hangs
on the same side. -/
theorem Folds.merge_of_chain :
    ∃ b d m side, t.content? p = some (.branch b) ∧ t.content? n = some (.branch d) ∧
      b.sideOf? n = some side ∧ d.sideOf? z = some side ∧ b.merge? d side = some m ∧
      c = .branch m := by
  obtain ⟨d, side', hd, hside'⟩ := h'.exists_side
  obtain ⟨hz, -, -⟩ := Branch.sideOf?_spec hside'
  cases h with
  | @merge b d₁ m side hp hn hside honly hm =>
    cases hd.symm.trans hn
    refine ⟨b, d, m, side, hp, hd, hside, ?_, hm, rfl⟩
    have hsame : side'.outcome = side.outcome := by
      by_contra hne
      -- On the other side the third node would be the shared successor, with two parents.
      rw [Bool.eq_not_of_ne hne, (Branch.merge?_eq_some_iff.1 hm).1,
        ← (Branch.sideOf?_spec hside).2.1] at hz
      have hpn := h'.only ⟨b, _, hp, hz⟩
      have hlt := ht.increasing ⟨b, _, hp, (Branch.sideOf?_spec hside).1⟩
      omega
    rw [hside', Side.outcome_injective hsame]
  | @absorb b d₁ side value negated op f hp hn hopen hside honly hmerge hother hab hf =>
    -- A branch adds something only when truth values are behind it.
    cases hd.symm.trans hn
    cases hdec : t.decided? d with
    | none =>
      simp only [adds, contribution, hdec] at hf
      cases hf
    | some g =>
      obtain ⟨x, hx, -⟩ := decided?_spec hdec (fun _ => true) side'.outcome
      rw [hz] at hx
      exact absurd (content?_of_bool? hx) (h'.content?_ne_bool x)

/-- Along a chain of three nodes, the last can be folded after the middle one was folded, and the
middle one after the last one was, with alike results. -/
theorem Folds.chain {u w : Table} (hu : t.Folded p n c u) (hw : t.Folded n z e w) :
    ∃ c' e', u.Folds p z c' ∧ w.Folds p n e' ∧ c'.Alike e' := by
  have hpn := ht.increasing h.edge
  have hnz := ht.increasing h'.edge
  obtain ⟨b, d, m, side, hb, hd, hside, hside', hm, rfl⟩ := h.merge_of_chain ht h'
  obtain ⟨hshare, rfl⟩ := Branch.merge?_eq_some_iff.1 hm
  obtain ⟨hz, hnext, hotherne⟩ := Branch.sideOf?_spec hside'
  -- What stands at the keys after each of the two folds.
  have hup := hu.content?_parent (by omega)
  have huz : u.Edge p z := ⟨_, side.outcome, hup, by rw [← hz]; cases side <;> rfl⟩
  have huzc := hu.content?_of_edge (by omega) (by omega) huz
  have huonly : ∀ a, u.Edge a z → a = p := by
    intro a ha
    rcases hu.edge_cases h ha with ⟨hap, -⟩ | ⟨han, -, ha⟩
    · exact hap
    · exact absurd (h'.only ha) han
  have hwp := hw.content?_branch (by omega) (by omega) hb
  have hwn := hw.content?_parent (by omega)
  have hwonly : ∀ a, w.Edge a n → a = p := by
    intro a ha
    rcases hw.edge_cases h' ha with ⟨-, hzn⟩ | ⟨-, -, ha⟩
    · have := ht.increasing hzn
      omega
    · exact h.only ha
  cases h' with
  | @merge d₁ z₁ m₁ side₁ hn₁ hzc hside₁ honly₁ hm₁ =>
    cases hd.symm.trans hn₁
    cases hside'.symm.trans hside₁
    obtain ⟨hshare₁, rfl⟩ := Branch.merge?_eq_some_iff.1 hm₁
    refine ⟨_, _, .merge hup (huzc.trans hzc) hside' huonly
      (Branch.merge?_eq_some_iff.2 ⟨?_, rfl⟩), .merge hwp hwn hside hwonly
      (Branch.merge?_eq_some_iff.2 ⟨?_, rfl⟩), .branch (Formula.alike_assoc _ _ _ _)⟩
    · rw [hshare₁]
      cases side <;> rfl
    · rw [← hshare, hnext, ← hshare₁]
      cases side <;> rfl
  | @absorb d₁ z₁ side₁ value negated op f hn₁ hzc hopen hside₁ honly₁ hmerge hother hab hf =>
    cases hd.symm.trans hn₁
    cases hside'.symm.trans hside₁
    have hadds : (t.adds z₁).Alike (u.adds z₁) := by
      refine adds_alike (.refl _) fun x o hx => ?_
      have hzk : t.Edge z (x.next o) := ⟨x, o, by rw [hzc, hx], rfl⟩
      have hlt := ht.increasing hzk
      have huk := hu.edge_of_ne (a := z) (by omega) (by omega) hzk
      exact AlikeAt.bool? (.of_eq (hu.content?_of_edge (by omega) (by omega) huk))
    obtain ⟨g, hg, halike⟩ := joined_assoc side b.statement hadds
      (LeafValue.absorption?_op hab) hf
    have hne : ∀ {k x}, t.content? k = some (.branch x) → d.other side ≠ k := by
      rintro k x hk rfl
      cases hk.symm.trans hother
    have huother : u.content? (d.other side) = some (.leaf value) := by
      have huk : u.Edge p (d.other side) := ⟨_, !side.outcome, hup, by rw [← hnext]; rfl⟩
      rw [hu.content?_of_edge (hne hd) (hne hb) huk, hother]
    have hwother : w.content? (b.other side) = some (.leaf value) := by
      have hwk : w.Edge p (b.other side) := ⟨b, _, hwp, (Branch.sideOf?_spec hside).2.1⟩
      rw [← hshare, hnext] at hwk ⊢
      rw [hw.content?_of_edge hotherne (hne hd) hwk, hother]
    refine ⟨_, _, .absorb hup (huzc.trans hzc) hopen hside' huonly ?_ ?_ hab hg,
      .absorb hwp hwn (by simp) hside hwonly (by simp) hwother hab rfl, .closed halike⟩
    · intro x hx
      refine Option.eq_none_iff_forall_ne_some.2 fun m hm => ?_
      have hshare' : x.next (!side.outcome) = d.other side := by
        rw [(Branch.merge?_eq_some_iff.1 hm).1]
        cases side <;> rfl
      have hsome := Branch.merge?_eq_some_iff.2 ⟨hshare', rfl⟩
      rw [hmerge x hx] at hsome
      cases hsome
    · rw [← huother]
      cases side <;> rfl

end Chain

/-! ## The diamond -/

/-- The two results of folds along a chain can be brought together. -/
theorem Proper.join_chain {t u w : Table} (ht : t.Proper) {p n z : Nat} {c e : Content}
    (h : t.Folds p n c) (h' : t.Folds n z e) (hu : t.Folded p n c u) (hw : t.Folded n z e w) :
    ∃ u' w', u.fold z = (true, u') ∧ w.fold n = (true, w') ∧ u'.Alike w' := by
  have hpn := ht.increasing h.edge
  have hnz := ht.increasing h'.edge
  obtain ⟨c', e', hc, he, halike⟩ := h.chain ht h' hu hw
  obtain ⟨u', hfold, hu'⟩ := hu.descends.proper.fold_of_folds hc
  obtain ⟨w', hfold', hw'⟩ := hw.descends.proper.fold_of_folds he
  refine ⟨u', w', hfold, hfold', alike_of_tests (.refl t) (hu.descends.trans hu'.descends)
    (hw.descends.trans hw'.descends) fun k => ?_⟩
  rw [hu'.test?, hu.test?, hw'.test?, hw.test?]
  by_cases hkz : k = z
  · rw [if_pos hkz, if_neg (by omega : k ≠ n), if_neg (by omega : k ≠ p), if_pos hkz]
    exact .none
  · rw [if_neg hkz]
    by_cases hkp : k = p
    · rw [if_pos hkp, if_neg (by omega : k ≠ n), if_pos hkp]
      exact .some halike
    · rw [if_neg hkp, if_neg hkp, if_neg hkz]
      by_cases hkn : k = n
      · rw [if_pos hkn, if_pos hkn]
        exact .none
      · rw [if_neg hkn, if_neg hkn, if_neg hkp, if_neg hkn]
        exact rel_refl _

/-- Two folds of a proper table give alike tables, or tables that one more fold each makes alike. -/
theorem Proper.diamond {t u w : Table} (ht : t.Proper) {n n' : Nat} (hu : t.fold n = (true, u))
    (hw : t.fold n' = (true, w)) :
    u.Alike w ∨ ∃ k k' u' w', u.fold k = (true, u') ∧ w.fold k' = (true, w') ∧ u'.Alike w' := by
  by_cases hnn : n = n'
  · subst hnn
    cases hu.symm.trans hw
    exact .inl (.refl u)
  obtain ⟨p, c, h, hu⟩ := ht.folded_of_fold hu
  obtain ⟨p', c', h', hw⟩ := ht.folded_of_fold hw
  by_cases hpp : p = p'
  · subst hpp
    refine .inl (alike_of_tests (.refl t) hu.descends hw.descends fun k => ?_)
    obtain ⟨b, hb, rfl⟩ := h.eq_closed_of_sibling ht h' hnn
    obtain ⟨b', hb', rfl⟩ := h'.eq_closed_of_sibling ht h (Ne.symm hnn)
    cases hb.symm.trans hb'
    have hleaf : ∀ {j}, t.content? j = some (.leaf .nil) → t.test? j = none := by
      intro j hj
      rw [Table.test?, hj]
    have hn := hleaf (h'.content?_sibling ht h (Ne.symm hnn))
    have hn' := hleaf (h.content?_sibling ht h' hnn)
    have hpn := ht.increasing h.edge
    have hpn' := ht.increasing h'.edge
    rw [hu.test?, hw.test?]
    by_cases hkn : k = n
    · rw [if_pos hkn, if_neg (by omega : k ≠ n'), if_neg (by omega : k ≠ p), hkn, hn]
      exact .none
    · by_cases hkn' : k = n'
      · rw [if_neg hkn, if_neg (by omega : k ≠ p), if_pos hkn', hkn', hn']
        exact .none
      · rw [if_neg hkn, if_neg hkn']
        exact rel_refl _
  by_cases hpn : p' = n
  · subst hpn
    obtain ⟨u', w', hu', hw', halike⟩ := ht.join_chain h h' hu hw
    exact .inr ⟨_, _, u', w', hu', hw', halike⟩
  by_cases hnp : p = n'
  · subst hnp
    obtain ⟨w', u', hw', hu', halike⟩ := ht.join_chain h' h hw hu
    exact .inr ⟨_, _, u', w', hu', hw', halike.symm⟩
  obtain ⟨d', hd', hc'⟩ := h.persists hu h' (Ne.symm hpp) hpn (Ne.symm hnp) (Ne.symm hnn)
  obtain ⟨d, hd, hc⟩ := h'.persists hw h hpp hnp (Ne.symm hpn) hnn
  obtain ⟨u', hfold, hu'⟩ := hu.descends.proper.fold_of_folds hd'
  obtain ⟨w', hfold', hw'⟩ := hw.descends.proper.fold_of_folds hd
  refine .inr ⟨_, _, u', w', hfold, hfold', alike_of_tests (.refl t)
    (hu.descends.trans hu'.descends) (hw.descends.trans hw'.descends) fun k => ?_⟩
  rw [hu'.test?, hu.test?, hw'.test?, hw.test?]
  by_cases hkn : k = n
  · rw [if_neg (by omega : k ≠ n'), if_neg (by omega : k ≠ p'), if_pos hkn, if_pos hkn]
    exact .none
  · by_cases hkp : k = p
    · rw [if_neg (by omega : k ≠ n'), if_neg (by omega : k ≠ p'), if_neg hkn, if_pos hkp,
        if_neg hkn, if_pos hkp]
      exact .some hc
    · rw [if_neg hkn, if_neg hkp, if_neg hkn, if_neg hkp]
      split_ifs
      · exact .none
      · exact .some hc'.symm
      · exact rel_refl _

end Table

end ShortCircuit
