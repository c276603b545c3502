import ShortCircuit.Proofs.Decision.Texts
import ShortCircuit.Proofs.Recovery.Path
import ShortCircuit.Proofs.Recovery.Run
import ShortCircuit.Proofs.Recovery.Test

/-!
# The texts of a recovered condition

No test of a chain is lost, repeated or moved: the statement of a condition that decides a jump
reads, from left to right, the texts of the tests in the order of the code. The statement of a value
reads the same texts and those that its paths write, each once, in some order.

* `Chain.Segmented.exists_previous`: every test but the first starts where the one before it is
  passed.
* `Chain.Closes.spined`: so each test of a closed table hangs on the test before it.
* `Condition.atoms_of_startingAt`: the texts of the statement.
-/

namespace ShortCircuit

namespace Chain

section Segmented

variable {code : List Instruction} {key : Nat} {pairs : List Pair}

theorem Segmented.key_le_pc (h : Segmented code key pairs) {p : Pair} (hp : p ∈ pairs) :
    p.key ≤ p.pc := by
  induction pairs generalizing key with
  | nil => cases hp
  | cons q pairs ih =>
    obtain ⟨rfl, hle, -, -, -, hrest⟩ := h
    rcases List.mem_cons.1 hp with rfl | hp
    · exact hle
    · exact ih hrest hp

/-- The tests are in the order of the code. -/
theorem Segmented.pairwise_pc (h : Segmented code key pairs) :
    pairs.Pairwise fun p q => p.pc < q.pc := by
  induction pairs generalizing key with
  | nil => exact .nil
  | cons p pairs ih =>
    obtain ⟨-, -, -, -, -, hrest⟩ := h
    refine List.pairwise_cons.2 ⟨fun q hq => ?_, ih hrest⟩
    have := hrest.key_le hq
    have := hrest.key_le_pc hq
    omega

/-- A test that is not the first starts where the test before it is passed. -/
theorem Segmented.exists_previous (h : Segmented code key pairs) {q : Pair} (hq : q ∈ pairs)
    (hne : q.key ≠ key) :
    ∃ p ∈ pairs, p.pc + 2 = q.key ∧ p.key < q.key ∧
      ∀ r ∈ pairs, r.key < q.key → r.key ≤ p.key := by
  induction pairs generalizing key with
  | nil => cases hq
  | cons p pairs ih =>
    obtain ⟨rfl, hle, -, -, -, hrest⟩ := h
    have hq : q ∈ pairs := (List.mem_cons.1 hq).resolve_left fun he => hne (he ▸ rfl)
    by_cases hnext : q.key = p.pc + 2
    · refine ⟨p, List.mem_cons_self, hnext.symm, by omega, fun r hr hlt => ?_⟩
      rcases List.mem_cons.1 hr with rfl | hr
      · exact Nat.le_refl _
      · have := hrest.key_le hr
        omega
    · obtain ⟨p', hp', hpc, hlt, hlast⟩ := ih hrest hq hnext
      refine ⟨p', List.mem_cons_of_mem _ hp', hpc, hlt, fun r hr hrq => ?_⟩
      rcases List.mem_cons.1 hr with rfl | hr
      · have := hrest.key_le hp'
        omega
      · exact hlast r hr hrq

end Segmented

theorem texts_branch (p : Pair) : (Content.branch p.branch).texts = [p.text] := by
  unfold Pair.branch
  split <;> rfl

section Closes

variable {code : List Instruction} {start : Nat} {c : Chain} {t : Table} (h : c.Closes start t)

include h

theorem Closes.isTest_iff {k : Nat} : t.IsTest k ↔ ∃ p ∈ c.pairs, p.key = k := by
  constructor
  · rintro ⟨x, hx, hleaf⟩
    rcases h.cases hx with ⟨p, hp, hk, -⟩ | ⟨-, y, rfl⟩
    · exact ⟨p, hp, hk⟩
    · exact absurd rfl (hleaf y)
  · rintro ⟨p, hp, rfl⟩
    exact Table.isTest_of_branch (h.branch p hp)

/-- In a closed table every test hangs on the test before it, and every text on some test. -/
theorem Closes.spined (hc : Segmented code start c.pairs) : t.Spined := by
  refine ⟨fun k hk hroot => ?_, fun k text hk => ?_⟩
  · obtain ⟨q, hq, rfl⟩ := h.isTest_iff.1 hk
    rw [h.root] at hroot
    obtain ⟨p, hp, hpc, hlt, hlast⟩ := hc.exists_previous hq hroot
    refine ⟨p.key, ⟨h.isTest_iff.2 ⟨p, hp, rfl⟩, hlt, fun j hj hjq => ?_⟩,
      p.branch, !p.instruction.polarity, h.branch p hp, ?_⟩
    · obtain ⟨r, hr, rfl⟩ := h.isTest_iff.1 hj
      exact hlast r hr hjq
    · rw [p.next_branch, p.next_not_polarity, hpc]
  · rcases h.cases hk with ⟨p, -, -, hp⟩ | ⟨hexit, -⟩
    · cases hp
    · obtain ⟨⟨a, b, o, hb, rfl⟩, -⟩ := Table.mem_exits.1 hexit
      obtain ⟨p, hp, rfl, hpb⟩ := (content?_table_eq_some_iff hc).1 hb
      cases hpb
      exact ⟨p.key, p.branch, o, h.branch p hp, rfl⟩

theorem Closes.texts_keys : t.texts (c.pairs.map (·.key)) = c.pairs.map (·.text) := by
  rw [Table.texts, List.flatMap_map, List.map_eq_flatMap]
  refine List.flatMap_congr fun p hp => ?_
  rw [Table.textsAt_of_content? (h.branch p hp), texts_branch]

/-- The statement of a reduced table without texts at its exits reads the tests in order. -/
theorem Closes.atoms_of_noText (hc : Segmented code start c.pairs) (hno : t.NoText) {u : Table}
    {f : Formula} (hr : t.reduce = (.ok (), u)) (hf : u.statement = .ok f) :
    f.atoms = c.pairs.map (·.text) := by
  have hsorted : (c.pairs.map (·.key)).Pairwise (· < ·) := List.pairwise_map.2 hc.pairwise
  have hkeys : ∀ k, t.textsAt k ≠ [] → k ∈ c.pairs.map (·.key) := by
    intro k hk
    have htest := (Table.textsAt_ne_nil_iff.1 hk).resolve_right fun ⟨s, hs⟩ => hno k s hs
    exact List.mem_map.2 (h.isTest_iff.1 htest)
  have hnodup := hsorted.imp fun hlt => Nat.ne_of_lt hlt
  rw [← h.texts_keys]
  exact (Table.atoms_of_reduce h.covers (h.spined hc) hnodup hkeys hr hf).2 hsorted hno

/-- The statement of a reduced table reads the tests and the texts at its exits. -/
theorem Closes.perm_atoms (hc : Segmented code start c.pairs) {u : Table} {f : Formula}
    (hr : t.reduce = (.ok (), u)) (hf : u.statement = .ok f) :
    f.atoms.Perm (c.pairs.map (·.text) ++ t.texts (c.table start).exits) := by
  have hnodup : (c.pairs.map (·.key) ++ (c.table start).exits).Nodup := by
    refine List.Nodup.append ?_ ?_ ?_
    · exact (List.pairwise_map.2 hc.pairwise).imp fun hlt => Nat.ne_of_lt hlt
    · exact (c.table start).pairwise_exits.imp fun hlt => Nat.ne_of_lt hlt
    · -- An exit is no node of the table of the chain.
      intro k hk hexit
      obtain ⟨p, hp, rfl⟩ := List.mem_map.1 hk
      have hnone := (Table.mem_exits.1 hexit).2
      rw [content?_table_of_mem hc hp] at hnone
      cases hnone
  have hkeys : ∀ k, t.textsAt k ≠ [] → k ∈ c.pairs.map (·.key) ++ (c.table start).exits := by
    intro k hk
    have hcontent : t.content? k ≠ none := fun hnone => hk (Table.textsAt_of_none hnone)
    rcases h.others k hcontent with hp | hexit
    · exact List.mem_append_left _ (List.mem_map.2 hp)
    · exact List.mem_append_right _ hexit
  have hperm := (Table.atoms_of_reduce h.covers (h.spined hc) hnodup hkeys hr hf).1
  rwa [Table.texts, List.flatMap_append, ← Table.texts, ← Table.texts, h.texts_keys] at hperm

end Closes

end Chain

namespace Condition

/-- A value is closed with the leaves of the paths from the exits of its chain. -/
theorem leaves_of_close {function : Prototype} {start consumer : Nat} {t table : Table}
    {target : Option String} {s s' : RegisterStack}
    (h : close function start (.value consumer) t s = .ok (table, target) s') :
    ∃ leaves, Path.leaves function start consumer none t.exits s = .ok (leaves, target) s' ∧
      table = (leaves.foldl Table.insert t).link := by
  obtain ⟨⟨leaves, joined⟩, s₁, hleaves, hrest⟩ := Analysis.bind_eq_ok h
  obtain ⟨he, rfl⟩ := Analysis.pure_eq_ok hrest
  cases he
  exact ⟨leaves, hleaves, rfl⟩

/-- The texts of the statement of a condition are those of the tests of its chain, which are in the
order of the code. When the condition decides a jump, they are read in that order. When it computes
a value, they are read together with the texts of the leaves that close the table, each once. -/
theorem atoms_of_startingAt {function : Prototype} {inLoop : Bool} {start : Nat}
    {s : RegisterStack} {c : Condition}
    (h : (startingAt function inLoop start).run' s = some (some c)) :
    ∃ chain s₁, Chain.collect function inLoop start s.push = .ok chain s₁ ∧
      (chain.pairs.Pairwise fun p q => p.pc < q.pc) ∧
      (c.isValue = false → c.statement.atoms = chain.pairs.map (·.text)) ∧
      (c.isValue = true → ∃ leaves target s₂,
        Path.leaves function start c.endPc none (chain.table start).exits s₁ =
          .ok (leaves, target) s₂ ∧
        close function start (.value c.endPc) (chain.table start) s₁ =
          .ok ((leaves.foldl Table.insert (chain.table start)).link, target) s₂ ∧
        c.statement.atoms.Perm
          (chain.pairs.map (·.text) ++ leaves.flatMap (·.content.texts))) := by
  obtain ⟨s', h⟩ := Analysis.eq_ok_of_run' h
  obtain ⟨chain, s₁, s₂, hcollect, -, hchain⟩ := startingAt_eq_ok h
  obtain ⟨context, table, target, s₃, reduced, -, hclose, hreduce, hstatement, -, huse⟩ :=
    ofChain_eq_ok hchain
  have hseg := Chain.segmented_of_collect hcollect
  refine ⟨chain, s₁, hcollect, hseg.pairwise_pc, ?_⟩
  cases context with
  | test body exit =>
    obtain ⟨hcloses, hleaf⟩ := closes_of_test hseg hclose
    have hno : table.NoText := by
      intro k text hk
      rcases hcloses.cases hk with ⟨p, -, -, hp⟩ | ⟨hexit, -⟩
      · cases hp
      · cases hk.symm.trans (hleaf k hexit)
    have htest : c.isValue = false := by rw [isValue, huse.2]
    refine ⟨fun _ => hcloses.atoms_of_noText hseg hno hreduce hstatement, fun hvalue => ?_⟩
    cases htest.symm.trans hvalue
  | value consumer =>
    obtain ⟨target', register, hv⟩ := exists_valueUse_eq (s₃.frame function consumer)
      consumer chain.register? target
    have hvalue : c.isValue = true := by rw [isValue, huse.2, hv]
    have hend : c.endPc = consumer := by rw [endPc, huse.2, hv]
    refine ⟨fun htest => ?_, fun _ => ?_⟩
    · cases htest.symm.trans hvalue
    obtain ⟨leaves, hleaves, rfl⟩ := leaves_of_close hclose
    obtain ⟨hkeys, hleaf⟩ := Path.leaves_eq_ok hleaves
    obtain ⟨hcloses, hcontent⟩ := Chain.closes_of_leaves hseg hkeys fun n hn => by
      obtain ⟨y, -, hy⟩ := hleaf n hn
      exact ⟨_, hy⟩
    rw [hend]
    refine ⟨leaves, target, s₃, hleaves, hclose, ?_⟩
    have hperm := hcloses.perm_atoms hseg hreduce hstatement
    have htexts : (leaves.foldl Table.insert (chain.table start)).link.texts
        (chain.table start).exits = leaves.flatMap (·.content.texts) := by
      rw [← hkeys, Table.texts, List.flatMap_map]
      exact List.flatMap_congr fun n hn => Table.textsAt_of_content? (hcontent n hn)
    rwa [htexts] at hperm

/-- The code of `x = a and (b or c)`, in which `c` is written on the path behind the tests. -/
def alternative : Prototype where
  code :=
    [.ofABx .getGlobal 0 0, .ofABC .test 0 0 0, .ofAsBx .jmp 0 4, .ofABx .getGlobal 0 1,
     .ofABC .test 0 0 1, .ofAsBx .jmp 0 1, .ofABx .getGlobal 0 2, .ofABx .setGlobal 0 3]
  constants := [.string [97], .string [98], .string [99], .string [120]]

/-- The tests of `a` and `b` and the leaf `c` make up the statement. -/
theorem atoms_of_startingAt_alternative :
    ∃ chain s₁ leaves target s₂,
      Chain.collect alternative false 1 (RegisterStack.empty.define 0 (.atom "a")).push =
        .ok chain s₁ ∧
      Path.leaves alternative 1 7 none (chain.table 1).exits s₁ = .ok (leaves, target) s₂ ∧
      ["a", "b", "c"].Perm (chain.pairs.map (·.text) ++ leaves.flatMap (·.content.texts)) := by
  have h : (startingAt alternative false 1).run' (RegisterStack.empty.define 0 (.atom "a")) =
      some (some ⟨1, 7, .join .and (.atom "a" false)
        (.join .or (.atom "b" false) (.atom "c" false) false) false,
        .value 7 (some "x") (some 0)⟩) := by
    decide +kernel
  obtain ⟨chain, s₁, hcollect, -, -, hvalue⟩ := atoms_of_startingAt h
  obtain ⟨leaves, target, s₂, hleaves, -, hperm⟩ := hvalue rfl
  exact ⟨chain, s₁, leaves, target, s₂, hcollect, hleaves, hperm⟩

end Condition

end ShortCircuit
