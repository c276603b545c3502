import ShortCircuit.Proofs.Decision.Idle
import ShortCircuit.Proofs.Recovery.Stage
import ShortCircuit.Proofs.Recovery.Texts

/-!
# The exits of a condition

The place behind the last test of a chain is always one of its exits, because no segment starts
there; the other exits are targets of jumps. A condition that decides a jump has two exits, so the
place behind the last test is one of them. Outside a loop it is the body. Otherwise the body would
be a place between the tests, and the last test, which cannot jump back to it, would have both of
its outcomes lead to the same exit. Such a table is not reduced.

* `Chain.mem_exits_iff`: the exits are the places that tests lead to and where no segment starts.
* `Chain.resume_mem_exits`, `Chain.length_exits_le`: the place behind the last test is an exit, and
  there is at most one further exit for each test.
* `Chain.Closes.eq_of_idle`: a chain whose last test is idle is not reduced to a condition.
* `Condition.exits_of_test`: where body, exit and resumption of a condition lie.
-/

namespace ShortCircuit

theorem Pair.next_eq (p : Pair) (o : Bool) : p.next o = p.target ∨ p.next o = p.pc + 2 := by
  unfold Pair.next
  split
  · exact .inl rfl
  · exact .inr rfl

namespace Chain

variable {code : List Instruction} {start : Nat} {c : Chain} {last : Pair}

/-- No segment starts behind the last test. -/
theorem Segmented.key_lt_resume (hc : Segmented code start c.pairs)
    (hlast : c.pairs.getLast? = some last) {p : Pair} (hp : p ∈ c.pairs) : p.key < last.pc + 2 := by
  have hmem : last ∈ c.pairs := List.mem_of_getLast? hlast
  have hle : p.key ≤ last.key := by
    obtain ⟨front, hfront⟩ := List.getLast?_eq_some_iff.1 hlast
    have hpairwise := hc.pairwise
    rw [hfront] at hpairwise hp
    rcases List.mem_append.1 hp with hp | hp
    · exact Nat.le_of_lt ((List.pairwise_append.1 hpairwise).2.2 p hp last (by simp))
    · obtain rfl := List.mem_singleton.1 hp
      exact Nat.le_refl _
  have := hc.key_le_pc hmem
  omega

/-- The place behind a test lies behind the start. -/
theorem Segmented.start_lt_behind (hc : Segmented code start c.pairs) {p : Pair}
    (hp : p ∈ c.pairs) : start < p.pc + 2 := by
  have := hc.key_le hp
  have := hc.key_le_pc hp
  omega

section Exits

variable (hc : Segmented code start c.pairs)

include hc

/-- The exits of a chain are the places that its tests lead to and where no segment starts. -/
theorem mem_exits_iff {k : Nat} :
    k ∈ (c.table start).exits ↔
      (∃ p ∈ c.pairs, ∃ o, p.next o = k) ∧ ∀ p ∈ c.pairs, p.key ≠ k := by
  rw [Table.mem_exits]
  constructor
  · rintro ⟨⟨a, b, o, hb, rfl⟩, hnone⟩
    obtain ⟨p, hp, -, hpb⟩ := (content?_table_eq_some_iff hc).1 hb
    cases hpb
    refine ⟨⟨p, hp, o, (p.next_branch o).symm⟩, fun q hq he => ?_⟩
    rw [← he, content?_table_of_mem hc hq] at hnone
    cases hnone
  · rintro ⟨⟨p, hp, o, rfl⟩, hkey⟩
    refine ⟨⟨p.key, p.branch, o, content?_table_of_mem hc hp, p.next_branch o⟩, ?_⟩
    exact content?_table_of_ne hkey

/-- A place that a test leads to is an exit, or a segment starts there. -/
theorem next_mem_exits {p : Pair} (hp : p ∈ c.pairs) (o : Bool) :
    p.next o ∈ (c.table start).exits ∨ ∃ q ∈ c.pairs, q.key = p.next o := by
  by_cases hkey : ∃ q ∈ c.pairs, q.key = p.next o
  · exact .inr hkey
  · push Not at hkey
    exact .inl ((mem_exits_iff hc).2 ⟨⟨p, hp, o, rfl⟩, hkey⟩)

/-- The place behind the last test is an exit. -/
theorem resume_mem_exits (hlast : c.pairs.getLast? = some last) :
    last.pc + 2 ∈ (c.table start).exits := by
  refine (mem_exits_iff hc).2 ⟨⟨last, List.mem_of_getLast? hlast, _, last.next_not_polarity⟩, ?_⟩
  intro p hp
  exact Nat.ne_of_lt (hc.key_lt_resume hlast hp)

/-- Every other exit is the target of a jump. -/
theorem exit_cases (hlast : c.pairs.getLast? = some last) {k : Nat}
    (hk : k ∈ (c.table start).exits) : k = last.pc + 2 ∨ ∃ p ∈ c.pairs, p.target = k := by
  obtain ⟨⟨p, hp, o, rfl⟩, hkey⟩ := (mem_exits_iff hc).1 hk
  rcases p.next_eq o with ho | ho
  · exact .inr ⟨p, hp, ho.symm⟩
  · -- Where a test is passed the next segment starts, unless it is the last test.
    rcases hc.getLast?_or_next hp with hp | ⟨q, hq, hqk, -⟩
    · cases hp.symm.trans hlast
      exact .inl ho
    · exact absurd (hqk.trans ho.symm) (hkey q hq)

/-- There is at most one exit more than there are tests. -/
theorem length_exits_le (hlast : c.pairs.getLast? = some last) :
    (c.table start).exits.length ≤ c.pairs.length + 1 := by
  have hnodup : (c.table start).exits.Nodup :=
    (c.table start).pairwise_exits.imp fun hlt => Nat.ne_of_lt hlt
  have hsubset : (c.table start).exits ⊆ (last.pc + 2) :: c.pairs.map (·.target) := by
    intro k hk
    rcases exit_cases hc hlast hk with rfl | hp
    · exact List.mem_cons_self
    · exact List.mem_cons_of_mem _ (List.mem_map.2 hp)
  have hle := hnodup.length_le_of_subset hsubset
  rwa [List.length_cons, List.length_map] at hle

/-- When the body of a chain lies before the place behind the last test and no test jumps
backwards, both outcomes of the last test lead to that place. -/
theorem last_idle (hlast : c.pairs.getLast? = some last) (hforward : last.pc + 1 < last.target)
    {body : Nat} (hbody : body < last.pc + 2)
    (hexits : ∀ k, k ∈ (c.table start).exits ↔ k = body ∨ k = last.pc + 2) (o : Bool) :
    last.next o = last.pc + 2 := by
  have hmem := List.mem_of_getLast? hlast
  have hle : last.pc + 2 ≤ last.next o := by
    rcases last.next_eq o with ho | ho <;> omega
  rcases next_mem_exits hc hmem o with hexit | ⟨q, hq, hkey⟩
  · rcases (hexits _).1 hexit with ho | ho
    · omega
    · exact ho
  · have := hc.key_lt_resume hlast hq
    omega

end Exits

/-- A closed table in which one test is idle is reduced only if all boolean exits are the place that
this test leads to. -/
theorem Closes.eq_of_idle {t u : Table} {f : Formula} (h : c.Closes start t)
    (hc : Segmented code start c.pairs) (hr : t.reduce = (.ok (), u)) (hf : u.statement = .ok f)
    {p : Pair} (hp : p ∈ c.pairs) {place : Nat} (hidle : ∀ o, p.next o = place) {k : Nat} {v : Bool}
    (hk : k ∈ (c.table start).exits) (hleaf : t.content? k = some (.leaf (.bool v))) :
    k = place := by
  have htest : t.Idle place := by
    refine ⟨p.key, p.branch, h.branch p hp, fun o => ?_⟩
    rw [p.next_branch, hidle]
  obtain ⟨⟨q, hq, o, rfl⟩, -⟩ := (mem_exits_iff hc).1 hk
  have hedge : t.Edge q.key (q.next o) := ⟨q.branch, o, h.branch q hq, q.next_branch o⟩
  exact Table.eq_of_idle h.covers (h.spined hc) hr hf htest hedge hleaf

end Chain

namespace Condition

/-- The exits of a condition that decides a jump. The code after the condition goes on behind its
last test. Outside a loop this is the body, which lies behind the start and before the other exit;
in a loop it is the body or the other exit, and the body when the other exit goes back behind the
start. Body and exit always differ. -/
theorem exits_of_test {function : Prototype} {inLoop : Bool} {start : Nat} {s : RegisterStack}
    {c : Condition} (h : (startingAt function inLoop start).run' s = some (some c))
    (htest : c.isValue = false) :
    ∃ chain s₁ last body, Chain.collect function inLoop start s.push = .ok chain s₁ ∧
      chain.pairs.getLast? = some last ∧ c.start = start ∧ c.body? = some body ∧
      c.resume = last.pc + 2 ∧ body ≠ c.endPc ∧
      (inLoop = false → c.start < body ∧ body = c.resume ∧ c.resume < c.endPc) ∧
      (inLoop = true → (c.resume = body ∨ c.resume = c.endPc) ∧
        (c.endPc < c.start → body = c.resume)) := by
  obtain ⟨s', h⟩ := Analysis.eq_ok_of_run' h
  obtain ⟨chain, s₁, s₂, hcollect, hne, hchain⟩ := startingAt_eq_ok h
  obtain ⟨context, table, target, s₃, reduced, hcontext, hclose, hreduce, hstatement, hstart,
    huse⟩ := ofChain_eq_ok hchain
  have hseg := Chain.segmented_of_collect hcollect
  obtain ⟨last, hlast⟩ := Option.ne_none_iff_exists'.1 (mt List.getLast?_eq_none_iff.1 hne)
  have hmem := List.mem_of_getLast? hlast
  cases context with
  | value consumer =>
    obtain ⟨target', register, hvalue⟩ := exists_valueUse_eq (s₃.frame function consumer)
      consumer chain.register? target
    rw [isValue, huse.2, hvalue] at htest
    cases htest
  | test body exit =>
    obtain ⟨hresume, huse⟩ := huse
    have hresume : c.resume = last.pc + 2 := by rw [hresume, Chain.resume, hlast]
    have hend : c.endPc = exit := by rw [endPc, huse]
    obtain ⟨hne, hexits, horder⟩ := Context.ofChain_eq_test hcontext
    obtain ⟨hcloses, hleaf⟩ := closes_of_test hseg hclose
    have hbehind := hseg.start_lt_behind hmem
    have hcases := (hexits _).1 (Chain.resume_mem_exits hseg hlast)
    refine ⟨chain, s₁, last, body, hcollect, hlast, hstart, by rw [body?, huse], hresume,
      by rw [hend]; exact hne, fun hloop => ?_, fun _ => ?_⟩
    · have hlt := horder hloop
      have hbody : body = last.pc + 2 := by
        rcases hcases with hbody | rfl
        · exact hbody.symm
        · -- The body lies between the tests: then the last test is idle.
          obtain ⟨b, hscan, -⟩ := Chain.scans_of_collect hcollect
          have hidle := Chain.last_idle hseg hlast (hscan.forward hloop last hmem) hlt hexits
          have hexit := (hexits body).2 (.inl rfl)
          exact hcloses.eq_of_idle hseg hreduce hstatement hmem hidle hexit (hleaf body hexit)
      omega
    · refine ⟨?_, fun hback => ?_⟩ <;> omega

/-- The code of `if a and b then f() end`. -/
def conjunctionTest : Prototype where
  code :=
    [.ofABx .getGlobal 0 0, .ofABC .test 0 0 0, .ofAsBx .jmp 0 5, .ofABx .getGlobal 0 1,
     .ofABC .test 0 0 0, .ofAsBx .jmp 0 2, .ofABx .getGlobal 0 2, .ofABC .call 0 1 1,
     .ofABC .ret 0 1 0]
  constants := [.string [97], .string [98], .string [102]]

/-- The condition starts at 1, its last test is passed at 6, where the body starts, and 8 is the
other exit. -/
theorem exits_of_test_conjunctionTest :
    ∃ c chain s₁ last,
      (startingAt conjunctionTest false 1).run' (RegisterStack.empty.define 0 (.atom "a")) =
        some (some c) ∧
      Chain.collect conjunctionTest false 1 (RegisterStack.empty.define 0 (.atom "a")).push =
        .ok chain s₁ ∧
      chain.pairs.getLast? = some last ∧ c.body? = some c.resume ∧ c.resume = last.pc + 2 ∧
      c.start < c.resume ∧ c.resume < c.endPc := by
  have h : (startingAt conjunctionTest false 1).run' (RegisterStack.empty.define 0 (.atom "a")) =
      some (some ⟨1, 6, .join .and (.atom "a" false) (.atom "b" false) false, .test 6 8⟩) := by
    decide +kernel
  obtain ⟨chain, s₁, last, body, hcollect, hlast, -, hbody, hresume, -, houtside, -⟩ :=
    exits_of_test h rfl
  obtain ⟨hstart, rfl, hend⟩ := houtside rfl
  exact ⟨_, chain, s₁, last, h, hcollect, hlast, hbody, hresume, hstart, hend⟩

end Condition

end ShortCircuit
