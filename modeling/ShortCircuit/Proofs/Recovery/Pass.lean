import ShortCircuit.Recovery.Region
import ShortCircuit.Proofs.Recovery.Scan
import Mathlib.Data.List.Pairwise
import Mathlib.Logic.Relation

/-!
# The pass over a function

The pass goes through the code once. At a conditional it starts a region; a condition takes it to
the place where the code after the condition goes on, and all conditionals on the way are tests of
the condition. So the regions part the conditionals of a function among them.

* `Region.Spans`: a region starts at a place, or is a condition around it.
* `Cursor.advance?_cases`: what one step of the pass does.
* `Cursor.pairwise_regions`, `Cursor.exists_spans`: the regions are in order and leave out no
  conditional.
* `Region.recover_partitions`: the regions of a function part its conditionals.
-/

namespace ShortCircuit

/-! ## One step of the pass -/

/-- A region spans a place: it starts there, or it is a condition that starts before the place and
resumes behind it. -/
def Region.Spans (r : Region) (pc : Nat) : Prop :=
  r.start = pc ∨ ∃ c, r = .condition c ∧ c.start < pc ∧ pc < c.resume

namespace Cursor

variable {function : Prototype} {c d : Cursor}

/-- What stands at a cursor and where the pass goes on. -/
theorem advance?_cases {r : Option Region} (h : c.advance? function = some (r, d)) :
    (¬Code.ConditionalAt function.code c.pc ∧ r = none ∧ d.pc = c.pc + 1) ∨
    (Code.ConditionalAt function.code c.pc ∧ ∃ condition s,
      Condition.startingAt function (Code.jumpsBack function.code c.pc) c.pc c.stack =
        .ok (some condition) s ∧
      r = some (.condition condition) ∧ d.pc = condition.resume) ∨
    (Code.ConditionalAt function.code c.pc ∧ ∃ cause,
      r = some (.jump c.pc (Code.jumpAfter? function.code c.pc) cause) ∧
      d.pc = c.pc + if (Code.jumpAfter? function.code c.pc).isSome then 2 else 1) := by
  have hlt := (lt_of_advance? h).1
  unfold advance? at h
  split at h
  · cases h
  · next i hi =>
    split at h
    · next hc =>
      have hcond : Code.ConditionalAt function.code c.pc := ⟨i, hi, hc⟩
      split at h
      · next condition s hs =>
        cases h
        have hspan := Condition.span_of_startingAt (Nat.le_of_lt hlt) hs
        exact .inr (.inl ⟨hcond, condition, s, hs, rfl, Nat.max_eq_left hspan.2.1⟩)
      · next s hs => exact absurd hs (Condition.startingAt_ne_none hcond)
      · next cause s hs =>
        refine .inr (.inr ⟨hcond, cause, ?_⟩)
        split at h
        · next target hj =>
          cases h
          simp [hj]
        · next hj =>
          cases h
          simp [hj]
    · next hc =>
      cases h
      exact .inl ⟨Code.not_conditionalAt hi (by simpa using hc), rfl, rfl⟩

/-- The conditionals that one step passes are those of its region. -/
theorem spans_of_advance? {r : Region} (h : c.advance? function = some (some r, d)) :
    r.start = c.pc ∧ Code.ConditionalAt function.code c.pc ∧ d.pc ≤ function.code.length ∧
      (∀ condition, r = .condition condition → condition.resume ≤ d.pc) ∧
      ∀ pc, c.pc ≤ pc → pc < d.pc → Code.ConditionalAt function.code pc → r.Spans pc := by
  have hlt := (lt_of_advance? h).1
  obtain ⟨-, hr, -⟩ | ⟨hc, condition, s, hs, hr, hd⟩ | ⟨hc, cause, hr, hd⟩ := advance?_cases h
  · cases hr
  · cases hr
    obtain ⟨hstart, -, hresume, -⟩ := Condition.span_of_startingAt (Nat.le_of_lt hlt) hs
    refine ⟨hstart, hc, by omega, ?_, ?_⟩
    · rintro _ ⟨⟩
      exact Nat.le_of_eq hd.symm
    · intro pc hpc hlt' _
      rcases Nat.eq_or_lt_of_le hpc with heq | hpc
      · exact .inl (hstart.trans heq)
      · exact .inr ⟨condition, rfl, by omega, by omega⟩
  · cases hr
    refine ⟨rfl, hc, ?_, by simp, ?_⟩
    · split at hd
      · next hj =>
        obtain ⟨target, hj⟩ := Option.isSome_iff_exists.1 hj
        have := (Code.not_conditionalAt_jump hj).1
        omega
      · omega
    · intro pc hpc hlt' hpc'
      rcases Nat.eq_or_lt_of_le hpc with heq | hpc
      · exact .inl heq
      · split at hd
        · next hj =>
          obtain ⟨target, hj⟩ := Option.isSome_iff_exists.1 hj
          have heq : pc = c.pc + 1 := by omega
          exact absurd (heq ▸ hpc') (Code.not_conditionalAt_jump hj).2
        · omega

/-! ## The whole pass -/

/-- A step of the pass leads from one cursor to the next. -/
def Step (function : Prototype) (c d : Cursor) : Prop := ∃ r, c.advance? function = some (r, d)

/-- The pass over a function visits a cursor. -/
def Visited (function : Prototype) (c : Cursor) : Prop :=
  Relation.ReflTransGen (Step function) initial c

theorem le_of_steps (h : Relation.ReflTransGen (Step function) c d) : c.pc ≤ d.pc := by
  induction h with
  | refl => exact Nat.le_refl _
  | tail _ hstep ih =>
    obtain ⟨r, hr⟩ := hstep
    exact Nat.le_of_lt (Nat.lt_of_le_of_lt ih (lt_of_advance? hr).2)

theorem length_le_of_advance? (h : c.advance? function = none) :
    function.code.length ≤ c.pc := by
  unfold advance? at h
  split at h
  · next hi => exact List.getElem?_eq_none_iff.1 hi
  · split at h
    · split at h
      · cases h
      · cases h
      · split at h <;> cases h
    · cases h

theorem regions_of_end (h : c.advance? function = none) : c.regions function = [] := by
  rw [regions]
  split
  · rfl
  · next hn => cases h.symm.trans hn
  · next hn => cases h.symm.trans hn

theorem regions_of_pass (h : c.advance? function = some (none, d)) :
    c.regions function = d.regions function := by
  rw [regions]
  split
  · next hn => cases h.symm.trans hn
  · next hn => cases h.symm.trans hn
  · next hn =>
    cases h.symm.trans hn
    rfl

theorem regions_of_region {r : Region} (h : c.advance? function = some (some r, d)) :
    c.regions function = r :: d.regions function := by
  rw [regions]
  split
  · next hn => cases h.symm.trans hn
  · next hn =>
    cases h.symm.trans hn
    rfl
  · next hn => cases h.symm.trans hn

theorem advance?_of_not_conditional {i : Instruction} (hi : function.code[c.pc]? = some i)
    (hc : i.isConditional = false) :
    c.advance? function = some (none, ⟨c.pc + 1, Region.step function c.pc i c.stack⟩) := by
  rw [advance?, hi]
  exact if_neg (by simp [hc])

theorem advance?_of_condition {i : Instruction} (hi : function.code[c.pc]? = some i)
    (hc : i.isConditional = true) {condition : Condition} {s : RegisterStack}
    (h : Condition.startingAt function (Code.jumpsBack function.code c.pc) c.pc c.stack =
      .ok (some condition) s) :
    c.advance? function = some (some (.condition condition),
      ⟨max condition.resume (c.pc + 1), Region.bindValue s condition⟩) := by
  simp only [advance?, hi, if_pos hc, h]

/-- Every region comes from a step of the pass. -/
theorem exists_step_of_mem_regions {r : Region} (h : r ∈ c.regions function) :
    ∃ d e, Relation.ReflTransGen (Step function) c d ∧
      d.advance? function = some (some r, e) := by
  induction c using regions.induct function with
  | case1 c hc =>
    rw [regions_of_end hc] at h
    cases h
  | case2 c r' d hd ih =>
    rw [regions_of_region hd] at h
    rcases List.mem_cons.1 h with rfl | h
    · exact ⟨c, d, .refl, hd⟩
    · obtain ⟨d', e, hsteps, he⟩ := ih h
      exact ⟨d', e, .head ⟨_, hd⟩ hsteps, he⟩
  | case3 c d hd ih =>
    rw [regions_of_pass hd] at h
    obtain ⟨d', e, hsteps, he⟩ := ih h
    exact ⟨d', e, .head ⟨_, hd⟩ hsteps, he⟩

theorem le_start_of_mem_regions {r : Region} (h : r ∈ c.regions function) : c.pc ≤ r.start := by
  obtain ⟨d, e, hsteps, he⟩ := exists_step_of_mem_regions h
  rw [(spans_of_advance? he).1]
  exact le_of_steps hsteps

/-- Code without conditionals has no regions. -/
theorem regions_eq_nil
    (h : ∀ pc i, c.pc ≤ pc → function.code[pc]? = some i → i.isConditional = false) :
    c.regions function = [] := by
  refine List.eq_nil_iff_forall_not_mem.2 fun r hr => ?_
  obtain ⟨d, e, hsteps, he⟩ := exists_step_of_mem_regions hr
  obtain ⟨i, hi, hc⟩ := (spans_of_advance? he).2.1
  rw [h d.pc i (le_of_steps hsteps) hi] at hc
  cases hc

/-- A later region starts behind an earlier one, and not before an earlier condition resumes. -/
theorem pairwise_regions (function : Prototype) (c : Cursor) :
    (c.regions function).Pairwise fun r r' =>
      r.start < r'.start ∧ ∀ condition, r = .condition condition → condition.resume ≤ r'.start := by
  induction c using regions.induct function with
  | case1 c hc =>
    rw [regions_of_end hc]
    exact .nil
  | case2 c r d hd ih =>
    rw [regions_of_region hd]
    refine List.pairwise_cons.2 ⟨?_, ih⟩
    intro r' hr'
    have hle := le_start_of_mem_regions hr'
    obtain ⟨hstart, -, -, hresume, -⟩ := spans_of_advance? hd
    refine ⟨?_, fun condition hc => Nat.le_trans (hresume condition hc) hle⟩
    have := (lt_of_advance? hd).2
    omega
  | case3 c d hd ih =>
    rw [regions_of_pass hd]
    exact ih

/-- Every conditional from a cursor on is spanned by a region. -/
theorem exists_spans {pc : Nat} (hpc : c.pc ≤ pc) (h : Code.ConditionalAt function.code pc) :
    ∃ r ∈ c.regions function, r.Spans pc := by
  induction c using regions.induct function with
  | case1 c hc =>
    obtain ⟨i, hi, -⟩ := h
    have := length_le_of_advance? hc
    have := Code.lt_length hi
    omega
  | case2 c r d hd ih =>
    rw [regions_of_region hd]
    by_cases hlt : pc < d.pc
    · exact ⟨r, List.mem_cons_self, (spans_of_advance? hd).2.2.2.2 pc hpc hlt h⟩
    · obtain ⟨r', hr', hspan⟩ := ih (Nat.le_of_not_lt hlt)
      exact ⟨r', List.mem_cons_of_mem _ hr', hspan⟩
  | case3 c d hd ih =>
    rw [regions_of_pass hd]
    obtain ⟨hnot, -, hd'⟩ | ⟨-, _, _, _, hr, -⟩ | ⟨-, _, hr, -⟩ := advance?_cases hd
    · refine ih ?_
      rcases Nat.eq_or_lt_of_le hpc with rfl | hlt
      · exact absurd h hnot
      · omega
    · cases hr
    · cases hr

/-- The pass ends at the end of the code. -/
theorem exists_end (hc : c.pc ≤ function.code.length) :
    ∃ d, Relation.ReflTransGen (Step function) c d ∧ d.pc = function.code.length ∧
      d.advance? function = none := by
  induction c using regions.induct function with
  | case1 c hend =>
    exact ⟨c, .refl, Nat.le_antisymm hc (length_le_of_advance? hend), hend⟩
  | case2 c r d hd ih =>
    obtain ⟨e, hsteps, he⟩ := ih (spans_of_advance? hd).2.2.1
    exact ⟨e, .head ⟨_, hd⟩ hsteps, he⟩
  | case3 c d hd ih =>
    have hlt := (lt_of_advance? hd).1
    obtain ⟨-, -, hd'⟩ | ⟨-, _, _, _, hr, -⟩ | ⟨-, _, hr, -⟩ := advance?_cases hd
    · obtain ⟨e, hsteps, he⟩ := ih (by omega)
      exact ⟨e, .head ⟨_, hd⟩ hsteps, he⟩
    · cases hr
    · cases hr

end Cursor

namespace Region

/-- At most one of two ordered regions spans a place. -/
theorem not_spans_of_lt {r r' : Region} {pc : Nat}
    (h : r.start < r'.start ∧ ∀ condition, r = .condition condition → condition.resume ≤ r'.start)
    (hr : r.Spans pc) : ¬r'.Spans pc := by
  have hlt : pc < r'.start := by
    rcases hr with rfl | ⟨condition, rfl, -, hlt⟩
    · exact h.1
    · exact Nat.lt_of_lt_of_le hlt (h.2 condition rfl)
  rintro (rfl | ⟨condition, rfl, hlt', -⟩)
  · exact Nat.lt_irrefl _ hlt
  · exact Nat.lt_asymm hlt hlt'

/-- The pass over a function ends and its regions part the conditionals among them. They start at
conditionals, each behind the one before it; a condition takes at least one instruction, ends inside
the code and before the next region; each conditional is spanned by exactly one region, and one that
a condition spans is a test of its chain. No conditional is found to start no condition. -/
theorem recover_partitions (function : Prototype) :
    (∃ c, Cursor.Visited function c ∧ c.pc = function.code.length ∧ c.advance? function = none) ∧
    ((recover function).Pairwise fun r r' =>
      r.start < r'.start ∧ ∀ c, r = .condition c → c.resume ≤ r'.start) ∧
    (∀ r ∈ recover function, Code.ConditionalAt function.code r.start) ∧
    (∀ c, .condition c ∈ recover function →
      c.start < c.resume ∧ c.resume ≤ function.code.length ∧
      ∃ cursor chain s s', Cursor.Visited function cursor ∧ cursor.pc = c.start ∧
        Chain.collect function (Code.jumpsBack function.code c.start) c.start cursor.stack.push =
          .ok chain s ∧
        Condition.startingAt function (Code.jumpsBack function.code c.start) c.start
          cursor.stack = .ok (some c) s' ∧
        ∀ pc, c.start ≤ pc → pc < c.resume → Code.ConditionalAt function.code pc →
          ∃ p ∈ chain.pairs, p.pc = pc) ∧
    (∀ pc, Code.ConditionalAt function.code pc → ∃! r, r ∈ recover function ∧ r.Spans pc) ∧
    (∀ cursor, Cursor.Visited function cursor → Code.ConditionalAt function.code cursor.pc →
      ∀ s, Condition.startingAt function (Code.jumpsBack function.code cursor.pc) cursor.pc
        cursor.stack ≠ .ok none s) := by
  have hordered := Cursor.pairwise_regions function .initial
  refine ⟨Cursor.exists_end (Nat.zero_le _), hordered, ?_, ?_, ?_, ?_⟩
  · intro r hr
    obtain ⟨d, e, -, he⟩ := Cursor.exists_step_of_mem_regions hr
    obtain ⟨hstart, hc, -⟩ := Cursor.spans_of_advance? he
    exact hstart ▸ hc
  · intro c hc
    obtain ⟨d, e, hsteps, he⟩ := Cursor.exists_step_of_mem_regions hc
    have hlt := Nat.le_of_lt (Cursor.lt_of_advance? he).1
    obtain ⟨-, hr, -⟩ | ⟨-, condition, s, hs, hr, -⟩ | ⟨-, cause, hr, -⟩ :=
      Cursor.advance?_cases he
    · cases hr
    · cases hr
      obtain ⟨hstart, hresume, hlength, chain, s₁, hchain, hpairs⟩ :=
        Condition.span_of_startingAt hlt hs
      rw [hstart]
      exact ⟨hresume, hlength, d, chain, s₁, s, hsteps, rfl, hchain, hs, hpairs⟩
    · cases hr
  · intro pc hpc
    obtain ⟨r, hr, hspan⟩ := Cursor.exists_spans (c := .initial) (Nat.zero_le _) hpc
    have hdisjoint : (recover function).Pairwise fun r r' => ¬(r.Spans pc ∧ r'.Spans pc) := by
      refine hordered.imp ?_
      rintro r r' h ⟨hr, hr'⟩
      exact not_spans_of_lt h hr hr'
    have : Std.Symm fun r r' : Region => ¬(r.Spans pc ∧ r'.Spans pc) :=
      ⟨fun _ _ h hspans => h hspans.symm⟩
    refine ⟨r, ⟨hr, hspan⟩, ?_⟩
    rintro r' ⟨hr', hspan'⟩
    by_contra hne
    exact hdisjoint.forall hr' hr hne ⟨hspan', hspan⟩
  · intro cursor _ hc s
    exact Condition.startingAt_ne_none hc

end Region

end ShortCircuit
