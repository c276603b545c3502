import ShortCircuit.Proofs.Decision.Contraction
import ShortCircuit.Proofs.Recovery.Compiled
import ShortCircuit.Proofs.Recovery.Pass
import ShortCircuit.Proofs.Recovery.Test
import Mathlib.Data.List.Sort

/-!
# Recovering compiled conditions

A formula without negation that is compiled as a test is recovered as one condition with the same
text: the body follows the last test, and the other exit is where the compilation goes when the
formula does not hold.

* `Chain.exits_of_circuit`: the exits of a chain that forms a circuit are those of the circuit.
* `Condition.ofChain_of_circuit`: the condition of such a chain renders as the formula of the
  circuit.
* `Formula.recover_of_compiledAt`: the regions of a function that holds a compiled formula are one
  condition, which renders as the formula.
-/

namespace ShortCircuit

/-- Nodes with increasing keys behind those of a table are appended. -/
theorem Table.nodes_foldl_insert {t : Table} {nodes : List Node}
    (h : (t.nodes ++ nodes).Pairwise fun m n => m.key < n.key) :
    (nodes.foldl insert t).nodes = t.nodes ++ nodes := by
  induction nodes generalizing t with
  | nil => simp
  | cons n nodes ih =>
    have hlast : ∀ m ∈ t.nodes, m.key < n.key := fun m hm =>
      (List.pairwise_append.1 h).2.2 m hm n List.mem_cons_self
    have hinsert : (t.insert n).nodes = t.nodes ++ [n] := by
      have hbefore : t.nodes.filter (·.key < n.key) = t.nodes :=
        List.filter_eq_self.2 fun m hm => by simp [hlast m hm]
      have hbehind : t.nodes.filter (n.key < ·.key) = [] :=
        List.filter_eq_nil_iff.2 fun m hm => by simp [Nat.le_of_lt (hlast m hm)]
      simp only [insert, hbefore, hbehind]
    rw [List.foldl_cons, ih (by rw [hinsert]; simpa using h), hinsert, List.append_assoc]
    rfl

section Circuit

variable {function : Prototype} {start a b : Nat} {chain : Chain} {d : Circuit}
  (hseg : Chain.Segmented function.code start chain.pairs)
  (hd : chain.pairs.map (fun p => (p.key, Content.branch p.branch)) = d.entries a b)
  (hkeys : ∀ k ∈ d.keys, k < a) (hab : a < b)

include hseg hd

theorem Chain.mem_entries_table {k : Nat} {x : Content} :
    (k, x) ∈ (chain.table start).entries ↔ (k, x) ∈ d.entries a b := by
  rw [Table.mem_entries, content?_table_eq_some_iff hseg, ← hd, List.mem_map]
  simp only [Prod.mk.injEq, eq_comm (a := x)]

include hkeys hab

/-- The exits of a chain that forms a circuit are those of the circuit. -/
theorem Chain.exits_of_circuit : (chain.table start).exits = [a, b] := by
  have hmem := fun {k x} => Chain.mem_entries_table (k := k) (x := x) hseg hd
  have hnone : ∀ k, a ≤ k → (chain.table start).content? k = none := by
    intro k hk
    by_contra hne
    obtain ⟨x, hx⟩ := Option.ne_none_iff_exists'.1 hne
    have := hkeys k (Circuit.mem_keys_of_mem_entries (hmem.1 (Table.mem_entries.2 hx)))
    omega
  obtain ⟨last, f, hlast⟩ := d.exists_last a b
  have hlast := Table.mem_entries.1 (hmem.2 hlast)
  have hsorted : [a, b].Pairwise (· < ·) := by simpa using hab
  refine (chain.table start).pairwise_exits.eq_of_mem_iff hsorted fun k => ?_
  rw [Table.mem_exits, List.mem_pair]
  constructor
  · rintro ⟨⟨x, hx⟩, hk⟩
    have hxd : x ∈ d.keys := by
      obtain ⟨br, o, hbr, -⟩ := hx
      exact Circuit.mem_keys_of_mem_entries (hmem.1 (Table.mem_entries.2 hbr))
    rcases Circuit.mem_of_edge (fun e he => hmem.2 he) hx hxd with hkd | hk' | hk'
    · rw [← d.map_entries a b, List.mem_map] at hkd
      obtain ⟨⟨k, y⟩, hy, rfl⟩ := hkd
      rw [Table.mem_entries.1 (hmem.2 hy)] at hk
      cases hk
    · exact .inl hk'
    · exact .inr hk'
  · rintro (rfl | rfl)
    · exact ⟨⟨last, _, true, hlast, rfl⟩, hnone _ (Nat.le_refl _)⟩
    · exact ⟨⟨last, _, false, hlast, rfl⟩, hnone _ (Nat.le_of_lt hab)⟩

/-- The closed table of such a chain holds the circuit and a leaf at each exit. -/
theorem Chain.entries_of_circuit :
    (Condition.testTable a (chain.table start)).entries =
      d.entries a b ++ [(a, .leaf (.bool true)), (b, .leaf (.bool false))] := by
  have hleaves : (chain.table start).exits.map (Condition.exitLeaf a) =
      [{ key := a, content := .leaf (.bool true) },
       { key := b, content := .leaf (.bool false) }] := by
    rw [exits_of_circuit hseg hd hkeys hab]
    simp [Condition.exitLeaf, Nat.ne_of_gt hab]
  have htable : (chain.table start).nodes = chain.pairs.map Pair.node := by
    have hsorted : (chain.pairs.map Pair.node).Pairwise fun m n => m.key < n.key :=
      List.pairwise_map.2 hseg.pairwise
    have h := Table.nodes_foldl_insert (t := .empty start) hsorted
    rw [List.foldl_map] at h
    exact h
  have hlt : ∀ n ∈ chain.pairs.map Pair.node, n.key < a := by
    intro n hn
    obtain ⟨p, hp, rfl⟩ := List.mem_map.1 hn
    have hmem : (p.key, Content.branch p.branch) ∈ d.entries a b := hd ▸ List.mem_map_of_mem hp
    exact hkeys p.key (Circuit.mem_keys_of_mem_entries hmem)
  have hsorted : ((chain.table start).nodes ++
      ([{ key := a, content := .leaf (.bool true) },
        { key := b, content := .leaf (.bool false) }] : List Node)).Pairwise
        fun m n => m.key < n.key := by
    refine List.pairwise_append.2 ⟨(chain.table start).sorted, by simpa using hab, ?_⟩
    intro m hm n hn
    rw [htable] at hm
    have hma := hlt m hm
    rw [List.mem_pair] at hn
    rcases hn with rfl | rfl
    · exact hma
    · exact Nat.lt_trans hma hab
  have hentries : ∀ t : Table, t.link.entries = t.entries := by
    intro t
    simp [Table.entries, Table.link, Table.mapNodes, Function.comp_def]
  rw [Condition.testTable, hentries, hleaves, Table.entries, Table.nodes_foldl_insert hsorted,
    htable, List.map_append, List.map_map, ← hd]
  rfl

/-- The condition of a chain that forms a circuit has the exits of the circuit and renders as its
formula. -/
theorem Condition.ofChain_of_circuit (hfirst : d.first = start) (hconsumer : chain.consumer = none)
    (s : RegisterStack) :
    ∃ c, ofChain function false start chain s = .ok c s ∧ c.use = .test a b ∧
      c.resume = chain.resume start ∧ c.statement.render = d.formula.render := by
  have hexits := Chain.exits_of_circuit hseg hd hkeys hab
  have hcontext : Context.ofChain chain false start = .ok (.test a b) := by
    simp [Context.ofChain, hconsumer, Context.ofExits, hexits]
  have hclose := close_of_test hcontext function s
  obtain ⟨hcloses, -⟩ := closes_of_test hseg hclose
  have hentries := Chain.entries_of_circuit hseg hd hkeys hab
  have hlinked : (testTable a (chain.table start)).link = testTable a (chain.table start) :=
    Table.link_link _
  generalize testTable a (chain.table start) = table at hclose hcloses hentries hlinked
  -- Every node of the closed table is reachable, so none is an orphan.
  have hreachable : ∀ k, table.content? k ≠ none → table.Reachable k := by
    intro k hk
    rcases hcloses.others k hk with ⟨p, hp, rfl⟩ | hk
    · exact hcloses.reachable hseg hp
    · exact hcloses.reachable_exit hseg hk
  have htidy : table.Tidy := by
    refine ⟨hlinked, fun k hk => ?_⟩
    rcases Relation.ReflTransGen.cases_tail (hreachable k hk) with h | ⟨x, -, hx⟩
    · exact .inl h
    · exact .inr ⟨x, hx⟩
  obtain ⟨reduced, f, hreduce, hstatement, hrender⟩ :=
    Circuit.reduce_entries htidy (hcloses.root.trans hfirst.symm) hentries
  refine ⟨⟨start, chain.resume start, f, .test a b⟩, ?_, rfl, rfl, hrender⟩
  have hout : Analysis.ofExcept start table.reduce.1 s = .ok () s := by rw [hreduce]; rfl
  have hread : Analysis.ofExcept start table.reduce.2.statement s = .ok f s := by
    rw [hreduce, hstatement]
    rfl
  rw [ofChain, hcontext, Analysis.bind_of_ok (Analysis.ofExcept_ok start _ s),
    Analysis.bind_of_ok hclose]
  show (Analysis.ofExcept start table.reduce.1 >>= fun _ => _) s = _
  rw [Analysis.bind_of_ok hout, Analysis.bind_of_ok hread]
  rfl

end Circuit

/-! ## Compiled formulas -/

namespace Formula

section Compiled

variable {function : Prototype} {e : Formula} {onFalse : Nat} {i : Instruction}
  (hpos : e.IsPositive) (h : e.CompiledAt function 0 e.span onFalse) (hlt : e.span < onFalse)
  (hlocals : function.locals = []) (hbody : function.code[e.span]? = some i) (hret : i.op = .ret)

include hbody hret

/-- A return ends a chain. -/
theorem collectFrom_of_ret (inLoop : Bool) (start key : Nat) (s : RegisterStack) :
    Chain.collectFrom function inLoop start key e.span s = .ok .stop s := by
  have hend : Code.isBooleanEnd function.code e.span = false := by
    simp [Code.isBooleanEnd, Code.isBooleanLoad, hbody, hret]
  rw [Chain.collectFrom_other hbody (by simp [Instruction.isConditional, Instruction.role, hret]),
    if_neg (by simp [Instruction.role, hret]), if_neg (by simp [hend]),
    if_neg (by simp [Instruction.role, hret]),
    if_neg (by simp [Instruction.isTransparent, hret])]
  rfl

theorem jumpsBack_of_ret : Code.jumpsBack function.code e.span = false := by
  rw [Code.jumpsBack]
  split
  · rfl
  · next j hj =>
    cases hbody.symm.trans hj
    simp [Instruction.isConditional, Instruction.role, Instruction.isTransparent, hret]

include hpos h hlt hlocals

/-- The condition that starts at the first test of a compiled formula. The first load lies before
the test, so it is executed before the analysis starts. -/
theorem startingAt_of_compiledAt {register : UInt8} {index : UInt32} {text : String}
    (hload : function.code[0]? = some (.ofABx .getGlobal register index))
    (hname : function.constants[index.toNat]?.bind Literal.identifier? = some text) :
    ∃ c s, Condition.startingAt function false 1
        (RegisterStack.empty.define register (.atom text)) = .ok (some c) s ∧
      c.use = .test e.span onFalse ∧ c.resume = e.span ∧ c.statement.render = e.render := by
  obtain ⟨pairs, last, s', hpairs, hlast, hpc, hcollect⟩ :=
    collectFrom_of_compiledAt 1 1 hpos h hlocals (by omega) (by omega)
      ⟨.empty, [(RegisterStack.empty.define register (.atom text)).current]⟩
  simp only [Nat.zero_add] at hpc hcollect
  have hcollect := hcollect _ _ (collectFrom_of_ret hbody hret false 1 e.span s')
  rw [collectFrom_getGlobal 1 1 hload hname] at hcollect
  have hcollect : Chain.collect function false 1
      (RegisterStack.empty.define register (.atom text)).push = .ok ⟨pairs, none⟩ s' := by
    rw [Chain.stop, List.append_nil] at hcollect
    exact hcollect
  obtain ⟨c, hc, huse, hresume, hrender⟩ :=
    Condition.ofChain_of_circuit (Chain.segmented_of_collect hcollect) hpairs
      (fun k hk => by simpa using lt_of_mem_keys_circuit (by omega) hk) hlt
      (e.first_circuit 1 0) rfl s'
  have hne : pairs ≠ [] := by
    rintro rfl
    cases hlast
  refine ⟨c, _, Condition.startingAt_of_collect hcollect hne hc, huse, ?_, ?_⟩
  · rw [hresume, Chain.resume, hlast]
    exact hpc
  · rw [hrender, formula_circuit hpos]

end Compiled

/-- A formula without negation, compiled as a test whose body returns, is recovered as one condition
with the same text, provided that the code behind the tests holds no further conditionals. -/
theorem recover_of_compiledAt {function : Prototype} {e : Formula} {onFalse : Nat} {i : Instruction}
    (hpos : e.IsPositive) (h : e.CompiledAt function 0 e.span onFalse) (hlt : e.span < onFalse)
    (hlocals : function.locals = []) (hbody : function.code[e.span]? = some i) (hret : i.op = .ret)
    (hrest : ∀ pc j, e.span ≤ pc → function.code[pc]? = some j → j.isConditional = false) :
    ∃ c, Region.recover function = [.condition c] ∧ c.isValue = false ∧
      c.body? = some e.span ∧ c.resume = e.span ∧ c.endPc = onFalse ∧
      c.statement.render = e.render := by
  obtain ⟨register, index, text, test, hload, hname, htest, hcond⟩ := exists_load_of_compiledAt h
  obtain ⟨c, s, hc, huse, hresume, hrender⟩ :=
    startingAt_of_compiledAt hpos h hlt hlocals hbody hret hload hname
  have hspan := e.three_le_span
  have hback : Code.jumpsBack function.code 1 = false := by
    have hall := jumpsBack_of_compiledAt h (by omega) (by omega)
    simp only [Nat.zero_add] at hall
    rw [← jumpsBack_of_ret hbody hret, ← hall]
    exact (jumpsBack_getGlobal hload).symm
  have hstep : Region.step function 0 (.ofABx .getGlobal register index) .empty =
      RegisterStack.empty.define register (.atom text) := by
    rw [Region.step, RegisterStack.execute_getGlobal hname]
  have hpass := Cursor.advance?_of_not_conditional (c := .initial) hload rfl
  have hregion := Cursor.advance?_of_condition
    (c := ⟨1, RegisterStack.empty.define register (.atom text)⟩) htest hcond
    (by rw [hback]; exact hc)
  refine ⟨c, ?_, ?_, ?_, hresume, ?_, hrender⟩
  · rw [Region.recover, Cursor.regions_of_pass hpass]
    show Cursor.regions function ⟨1, Region.step function 0 _ .empty⟩ = _
    rw [hstep, Cursor.regions_of_region hregion, Cursor.regions_eq_nil]
    intro pc j hpc hj
    refine hrest pc j ?_ hj
    show e.span ≤ pc
    have hpc : max c.resume 2 ≤ pc := hpc
    omega
  · rw [Condition.isValue, huse]
  · rw [Condition.body?, huse]
  · rw [Condition.endPc, huse]

/-- The compilation of `((a or b) and c) and d`, nested to the left. -/
def leftNested : Prototype where
  code :=
    [.ofABx .getGlobal 0 0, .ofABC .test 0 0 1, .ofAsBx .jmp 0 3,
     .ofABx .getGlobal 0 1, .ofABC .test 0 0 0, .ofAsBx .jmp 0 7,
     .ofABx .getGlobal 0 2, .ofABC .test 0 0 0, .ofAsBx .jmp 0 4,
     .ofABx .getGlobal 0 3, .ofABC .test 0 0 0, .ofAsBx .jmp 0 1,
     .ofABC .ret 0 1 0, .ofABC .ret 0 1 0]
  constants := [.string [97], .string [98], .string [99], .string [100]]

theorem recover_of_compiledAt_leftNested :
    ∃ c, Region.recover leftNested = [.condition c] ∧ c.isValue = false ∧ c.body? = some 12 ∧
      c.resume = 12 ∧ c.endPc = 13 ∧ c.statement.render = "(a or b) and c and d" := by
  have hcompiled : CompiledAt leftNested
      (.join .and (.join .and (.join .or (.atom "a" false) (.atom "b" false) false)
        (.atom "c" false) false) (.atom "d" false) false) 0 12 13 := by
    refine ⟨⟨⟨?_, ?_⟩, ?_⟩, ?_⟩
    · exact ⟨0, 0, true, .ofAsBx .jmp 0 3, rfl, by decide +kernel, rfl, rfl, rfl, by decide, rfl⟩
    · exact ⟨0, 1, false, .ofAsBx .jmp 0 7, rfl, by decide +kernel, rfl, rfl, rfl, by decide, rfl⟩
    · exact ⟨0, 2, false, .ofAsBx .jmp 0 4, rfl, by decide +kernel, rfl, rfl, rfl, by decide, rfl⟩
    · exact ⟨0, 3, false, .ofAsBx .jmp 0 1, rfl, by decide +kernel, rfl, rfl, rfl, by decide, rfl⟩
  have hrest : ∀ pc j, 12 ≤ pc → leftNested.code[pc]? = some j → j.isConditional = false := by
    intro pc j hpc hj
    have hlt : pc < 14 := Code.lt_length hj
    obtain rfl | rfl : pc = 12 ∨ pc = 13 := by omega
    · cases hj
      rfl
    · cases hj
      rfl
  exact recover_of_compiledAt (by simp [IsPositive]) hcompiled (by decide) rfl rfl rfl hrest

end Formula

end ShortCircuit
