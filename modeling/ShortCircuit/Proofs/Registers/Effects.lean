import ShortCircuit.Registers.Execution
import Mathlib.Data.List.TakeWhile
import Mathlib.Tactic.Common

/-!
# Which registers an instruction touches

Most operations define one register. A few touch several: the load of `nil` and the call a range, and
method selection two that need not be neighbours, since the register above the last one is the
first. No other register changes, and nothing at all when the instruction fails.

* `Instruction.touches`: the registers that an instruction may change, by its operation and fields;
  only for a call with an open list of arguments do the contents of the registers matter.
* `Frame.shape_of_effect`: the forms that the writes of an instruction have.
* `Frame.touches_of_mem`: all writes are to touched registers.
* `RegisterStack.execute_eq_selectInPlace`: method selection, which stores a register before it reads
  the other, cannot fail between the two.
* `RegisterStack.execute_touches`: what execution leaves alone, and that it defines the destination.
-/

namespace ShortCircuit

/-- Whether the operation defines register `A` and no other. -/
def Opcode.definesOne : Opcode → Bool
  | .move | .loadK | .loadBool | .getUpvalue | .getGlobal | .getTable | .newTable | .add | .sub
  | .mul | .div | .mod | .pow | .unm | .not | .len | .concat | .testSet | .vararg => true
  | _ => false

/-- Whether an instruction may change a register. A call with an open list of arguments takes the
known registers directly above the callee. -/
def Instruction.touches (rs : Registers) (i : Instruction) (r : UInt8) : Bool :=
  match i.op with
  | .loadNil => i.a.toNat ≤ r.toNat && r.toNat ≤ max i.a.toNat (i.b.toNat % 256)
  | .self => r == i.a || r == i.a + 1
  | .call =>
    i.a.toNat ≤ r.toNat &&
      if i.b = 0 then (Registers.range (i.a.toNat + 1) r.toNat).all fun q => (rs.get q).isSome
      else r.toNat ≤ i.a.toNat + i.b.toNat - 1
  | op => op.definesOne && r == i.a

theorem Instruction.touches_of_definesOne {i : Instruction} (h : i.op.definesOne = true)
    (rs : Registers) : i.touches rs i.a = true := by
  unfold touches
  split <;> simp_all [Opcode.definesOne]

/-- Every instruction touches its destination, except one that makes a closure. -/
theorem Instruction.touches_destination {i : Instruction} {r : UInt8}
    (h : i.destination? = some r) (rs : Registers) :
    r = i.a ∧ (i.touches rs r = true ∨ i.op = .closure) := by
  unfold destination? at h
  cases hop : i.op with
  | loadNil =>
    rw [hop] at h
    cases h
    refine ⟨rfl, .inl ?_⟩
    simp only [touches, hop, Nat.le_refl, decide_true, Bool.true_and, decide_eq_true_eq]
    omega
  | self =>
    rw [hop] at h
    cases h
    refine ⟨rfl, .inl ?_⟩
    simp [touches, hop]
  | call =>
    rw [hop] at h
    dsimp only at h
    split_ifs at h
    cases h
    refine ⟨rfl, .inl ?_⟩
    simp only [touches, hop, Nat.le_refl, decide_true, Bool.true_and]
    split_ifs with hb
    · simp [Registers.range]
    · have : i.b.toNat ≠ 0 := fun h0 => hb (UInt16.toNat_inj.1 h0)
      simp only [decide_eq_true_eq]
      omega
  | closure =>
    rw [hop] at h
    cases h
    exact ⟨rfl, .inr rfl⟩
  | move | loadK | loadBool | getUpvalue | getGlobal | getTable | newTable | add | sub | mul | div
  | mod | pow | unm | not | len | concat | testSet | vararg =>
    rw [hop] at h
    cases h
    exact ⟨rfl, .inl (touches_of_definesOne (by rw [hop]; rfl) rs)⟩
  | _ =>
    rw [hop] at h
    cases h

/-! ## Results -/

theorem exists_of_map_eq_ok {ε α β : Type} {g : α → β} {x : Except ε α} {b : β}
    (h : x.map g = .ok b) : ∃ a, x = .ok a ∧ g a = b := by
  cases x with
  | error e => cases h
  | ok a =>
    cases h
    exact ⟨a, rfl, rfl⟩

theorem exists_of_bind_eq_ok {ε α β : Type} {x : Except ε α} {g : α → Except ε β} {b : β}
    (h : x >>= g = .ok b) : ∃ a, x = .ok a ∧ g a = .ok b := by
  cases x with
  | error e => cases h
  | ok a => exact ⟨a, rfl, h⟩

/-! ## Ranges and sequences of writes -/

namespace Registers

theorem mem_range {first last : Nat} (hlast : last ≤ 255) {r : UInt8} :
    r ∈ range first last ↔ first ≤ r.toNat ∧ r.toNat ≤ last := by
  have hlt := r.toNat_lt
  simp only [range, List.mem_map, List.mem_range'_1]
  constructor
  · rintro ⟨n, ⟨hfirst, hn⟩, rfl⟩
    rw [UInt8.toNat_ofNat']
    omega
  · rintro ⟨hfirst, hr⟩
    exact ⟨r.toNat, by omega, UInt8.ofNat_toNat⟩

/-- Writes to other registers leave a register as it is. -/
theorem get_apply {rs : Registers} {r : UInt8} {writes : List Write}
    (h : ∀ w ∈ writes, w.register ≠ r) : (rs.apply writes).get r = rs.get r := by
  induction writes generalizing rs with
  | nil => rfl
  | cons w writes ih =>
    have hw : r ≠ w.register := (h w List.mem_cons_self).symm
    calc
      (rs.apply (w :: writes)).get r = ((rs.put w.register w.slot).apply writes).get r := rfl
      _ = (rs.put w.register w.slot).get r := ih fun v hv => h v (List.mem_cons_of_mem _ hv)
      _ = rs.get r := get_put_of_ne rs w.slot hw

/-- A register that is written, and only with expressions, is known. -/
theorem get_apply_ne_none {rs : Registers} {r : UInt8} {writes : List Write}
    (hslots : ∀ w ∈ writes, w.slot ≠ none)
    (hr : rs.get r ≠ none ∨ ∃ w ∈ writes, w.register = r) : (rs.apply writes).get r ≠ none := by
  induction writes generalizing rs with
  | nil => exact hr.resolve_right (by simp)
  | cons w writes ih =>
    show ((rs.put w.register w.slot).apply writes).get r ≠ none
    refine ih (fun v hv => hslots v (List.mem_cons_of_mem _ hv)) ?_
    rw [get_put]
    by_cases hw : r = w.register
    · exact .inl (by simpa [hw] using hslots w List.mem_cons_self)
    · rcases hr with hr | ⟨v, hv, rfl⟩
      · exact .inl (by simpa [hw] using hr)
      · rcases List.mem_cons.1 hv with rfl | hv
        · exact absurd rfl hw
        · exact .inr ⟨v, hv, rfl⟩

/-- The last write to a register counts. -/
theorem get_apply_concat (rs : Registers) (writes : List Write) (w : Write) :
    (rs.apply (writes ++ [w])).get w.register = w.slot := by
  simp [apply]

end Registers

namespace Frame

/-- The run of known registers above a register ends at the last register at most, and all of it is
known. -/
theorem lastKnownAbove_spec (f : Frame) (base : UInt8) :
    f.lastKnownAbove base.toNat ≤ 255 ∧ ∀ q : UInt8, base.toNat < q.toNat →
      q.toNat ≤ f.lastKnownAbove base.toNat → (f.registers.get q).isSome = true := by
  have hbase := base.toNat_lt
  unfold lastKnownAbove
  generalize hrun : (Registers.range (base.toNat + 1) 255).takeWhile
    (fun r => (f.registers.get r).isSome) = run
  obtain ⟨others, hall⟩ : run <+: Registers.range (base.toNat + 1) 255 :=
    hrun ▸ List.takeWhile_prefix _
  have hlength : run.length + others.length = 255 - base.toNat := by
    rw [← List.length_append, hall]
    simp [Registers.range]
  refine ⟨by omega, fun q hq hle => ?_⟩
  -- The register stands in the run at its distance from the base.
  have hindex : (Registers.range (base.toNat + 1) 255)[q.toNat - (base.toNat + 1)]? = some q := by
    have hlt := q.toNat_lt
    rw [Registers.range, List.getElem?_map, List.getElem?_range' (by omega), Option.map_some,
      Nat.one_mul, Nat.add_sub_cancel' hq, UInt8.ofNat_toNat]
  rw [← hall, List.getElem?_append_left (by omega)] at hindex
  have hmem : q ∈ run := List.mem_of_getElem? hindex
  rw [← hrun] at hmem
  exact List.mem_takeWhile_imp (p := fun r => (f.registers.get r).isSome) hmem

theorem le_lastArgument (f : Frame) (i : Instruction) : i.a.toNat ≤ f.lastArgument i := by
  have ha := i.a.toNat_lt
  unfold lastArgument lastKnownAbove
  split
  · omega
  · next hb =>
    have : i.b.toNat ≠ 0 := fun h0 => hb (UInt16.toNat_inj.1 h0)
    omega

theorem lastArgument_le (f : Frame) (i : Instruction) : f.lastArgument i ≤ 255 := by
  unfold lastArgument
  split
  · exact (f.lastKnownAbove_spec i.a).1
  · exact Nat.min_le_right _ _

/-! ## Effects -/

/-- The forms that the writes of an instruction have. -/
inductive Shape (f : Frame) (i : Instruction) : List Write → Prop
  | one (hop : i.op.definesOne = true) (e : Rendered) : Shape f i [.store i.a e]
  | nils (hop : i.op = .loadNil) :
      Shape f i ((Registers.range i.a.toNat (max i.a.toNat i.b.toUInt8.toNat)).map
        fun r => .store r (.atom "nil"))
  | method (hop : i.op = .self) (object : Rendered) (slot : Slot) :
      Shape f i [.store (i.a + 1) object, ⟨i.a, some slot⟩]
  | call (hop : i.op = .call) : Shape f i (f.call i)
  | nothing (hop : i.destination? = none) : Shape f i []

variable {f : Frame} {i : Instruction} {writes : List Write}

theorem shape_of_effect (h : f.effect i = .ok writes) : f.Shape i writes := by
  unfold effect at h
  dsimp only at h
  cases hop : i.op with
  | move | testSet | loadBool | getUpvalue | newTable | unm | not | len | concat | vararg =>
    rw [hop] at h
    cases h
    exact .one (by rw [hop]; rfl) _
  | loadK | getGlobal | getTable =>
    rw [hop] at h
    obtain ⟨_, -, rfl⟩ := exists_of_map_eq_ok h
    exact .one (by rw [hop]; rfl) _
  | add | sub | mul | div | mod | pow =>
    rw [hop] at h
    obtain ⟨left, -, h⟩ := exists_of_bind_eq_ok h
    obtain ⟨right, -, h⟩ := exists_of_bind_eq_ok h
    cases h
    exact .one (by rw [hop]; rfl) _
  | loadNil =>
    rw [hop] at h
    cases h
    exact .nils hop
  | self =>
    rw [hop] at h
    obtain ⟨slot, -, rfl⟩ := exists_of_map_eq_ok h
    exact .method hop _ slot
  | call =>
    rw [hop] at h
    cases h
    exact .call hop
  | setGlobal | setUpvalue | setTable | setList | close | jmp | eq | lt | le | test | tailCall
  | ret =>
    rw [hop] at h
    cases h
    exact .nothing (by simp [Instruction.destination?, hop])
  | forLoop | forPrep | tforLoop | closure =>
    rw [hop] at h
    cases h

/-- All writes of an instruction are to registers that it touches. -/
theorem touches_of_mem (h : f.effect i = .ok writes) {w : Write} (hw : w ∈ writes) :
    i.touches f.registers w.register = true := by
  cases shape_of_effect h with
  | one hop e =>
    rw [List.mem_singleton.1 hw]
    exact Instruction.touches_of_definesOne hop _
  | nils hop =>
    obtain ⟨r, hr, rfl⟩ := List.mem_map.1 hw
    have ha := i.a.toNat_lt
    have hb := i.b.toUInt8.toNat_lt
    rw [Registers.mem_range (by omega), UInt16.toNat_toUInt8] at hr
    simp only [Instruction.touches, hop, Bool.and_eq_true, decide_eq_true_eq]
    exact hr
  | method hop object slot =>
    simp only [List.mem_cons, List.not_mem_nil, or_false] at hw
    simp only [Instruction.touches, hop, Bool.or_eq_true, beq_iff_eq]
    rcases hw with rfl | rfl
    · exact .inr rfl
    · exact .inl rfl
  | call hop =>
    have hrange : w.register ∈ Registers.range i.a.toNat (f.lastArgument i) := by
      rcases List.mem_append.1 hw with hw | hw
      · obtain ⟨r, hr, rfl⟩ := List.mem_map.1 hw
        exact hr
      · split_ifs at hw
        · cases hw
        · rw [List.mem_singleton.1 hw, Registers.mem_range (f.lastArgument_le i)]
          exact ⟨Nat.le_refl _, f.le_lastArgument i⟩
    rw [Registers.mem_range (f.lastArgument_le i)] at hrange
    simp only [Instruction.touches, hop, Bool.and_eq_true, decide_eq_true_eq]
    refine ⟨hrange.1, ?_⟩
    unfold lastArgument at hrange
    split_ifs at hrange ⊢ with hb
    · refine List.all_eq_true.2 fun q hq => ?_
      have hlast := w.register.toNat_lt
      obtain ⟨hfirst, hle⟩ := (Registers.mem_range (by omega)).1 hq
      exact (f.lastKnownAbove_spec i.a).2 q hfirst (Nat.le_trans hle hrange.2)
    · simp only [decide_eq_true_eq]
      omega
  | nothing hop => cases hw

/-- After an instruction its destination is known. -/
theorem get_destination (h : f.effect i = .ok writes) {r : UInt8} (hr : i.destination? = some r) :
    (f.registers.apply writes).get r ≠ none := by
  obtain rfl := (Instruction.touches_destination hr f.registers).1
  cases shape_of_effect h with
  | one hop e =>
    have hstore : Write.store i.a e ∈ [Write.store i.a e] := List.mem_singleton_self _
    exact Registers.get_apply_ne_none (by simp [Write.store]) (.inr ⟨_, hstore, rfl⟩)
  | nils hop =>
    have ha := i.a.toNat_lt
    have hb := i.b.toUInt8.toNat_lt
    have hfirst : i.a ∈ Registers.range i.a.toNat (max i.a.toNat i.b.toUInt8.toNat) :=
      (Registers.mem_range (by omega)).2 ⟨Nat.le_refl _, Nat.le_max_left _ _⟩
    exact Registers.get_apply_ne_none (by simp [Write.store])
      (.inr ⟨_, List.mem_map_of_mem hfirst, rfl⟩)
  | method hop object slot =>
    exact Registers.get_apply_ne_none (by simp [Write.store]) (.inr ⟨⟨i.a, some slot⟩, by simp, rfl⟩)
  | call hop =>
    have hkept : ¬i.c = 1 := by
      intro hc
      simp [Instruction.destination?, hop, hc] at hr
    rw [call, if_neg hkept]
    exact ne_of_eq_of_ne (Registers.get_apply_concat _ _ (.store i.a _)) (by simp [Write.store])
  | nothing hop =>
    rw [hop] at hr
    cases hr

end Frame

/-- The name that a key field selects a method by: only a string constant gives one. -/
def Frame.methodName? (f : Frame) (key : UInt16) : Except ExecutionError (Option String) :=
  match Operand.ofField key with
  | .register _ => .ok none
  | .constant index => (f.constant index).map Literal.text?

namespace RegisterStack

/-- Method selection one register after the other: the object is stored before the element is read,
and stays stored when that fails. -/
def selectInPlace (function : Prototype) (pc : Nat) (i : Instruction) :
    EStateM ExecutionError RegisterStack Unit :=
  fun s =>
    let object := (s.frame function pc).register i.b.toUInt8
    match (s.frame function pc).methodName? i.c with
    | .error e => .error e s
    | .ok (some name) =>
      let slot : Slot :=
        { text := object.wrap Precedence.suffix ++ ":" ++ name
          precedence := Precedence.suffix
          isMethod := true }
      let stored := s.define (i.a + 1) object
      .ok () { stored with current := stored.current.put i.a (some slot) }
    | .ok none =>
      let stored := s.define (i.a + 1) object
      match (stored.frame function pc).element object i.c with
      | .error e => .error e stored
      | .ok text => .ok () (stored.define i.a ⟨text, Precedence.suffix⟩)

/-- Nothing stays stored by a method selection that fails: a constant key that is missing is missed
before the object is stored. -/
theorem execute_eq_selectInPlace (function : Prototype) (pc : Nat) {i : Instruction}
    (hop : i.op = .self) : execute function pc i = selectInPlace function pc i := by
  funext s
  unfold execute selectInPlace
  simp only [Frame.effect, hop, Frame.method, Frame.selected, Frame.methodName?, Frame.element]
  cases Operand.ofField i.c with
  | register r => rfl
  | constant index =>
    have hagain (object : Rendered) :
        ((s.define (i.a + 1) object).frame function pc).constant index =
          (s.frame function pc).constant index := rfl
    simp only [hagain]
    cases (s.frame function pc).constant index with
    | error e => rfl
    | ok l =>
      simp only [Except.map, Except.bind]
      cases l.text? with
      | some name => rfl
      | none => rfl

/-- Execution of an instruction that fails changes nothing, and this does not depend on method
selection computing both registers before it stores one. An instruction that succeeds changes no
snapshot and no register but those that it touches, and defines its destination; the destination is
touched, unless the operation is not supported. -/
theorem execute_touches (function : Prototype) (pc : Nat) (i : Instruction) (s : RegisterStack) :
    (∀ e s', execute function pc i s = .error e s' → s' = s) ∧
    (i.op = .self → execute function pc i s = selectInPlace function pc i s) ∧
    (∀ s', execute function pc i s = .ok () s' → s'.saved = s.saved ∧
      (∀ r, i.touches s.current r = false → s'.current.get r = s.current.get r) ∧
      ∀ r, i.destination? = some r → s'.current.get r ≠ none) ∧
    ∀ r, i.destination? = some r →
      i.touches s.current r = true ∨ execute function pc i s = .error (.unsupported i.op pc) s := by
  refine ⟨fun e s' h => ?_, fun hop => ?_, fun s' h => ?_, fun r hr => ?_⟩
  · unfold execute at h
    split at h
    · cases h
    · cases h
      rfl
  · rw [execute_eq_selectInPlace function pc hop]
  · unfold execute at h
    split at h
    · next writes hwrites =>
      cases h
      refine ⟨rfl, fun r hr => ?_, fun r => Frame.get_destination hwrites⟩
      refine Registers.get_apply fun w hw he => ?_
      have htouched := Frame.touches_of_mem hwrites hw
      rw [he] at htouched
      exact absurd (hr.symm.trans htouched) (by decide)
    · cases h
  · refine (i.touches_destination hr s.current).2.imp_right fun hop => ?_
    simp only [execute, Frame.effect, hop]
    rfl

/-- Method selection into the last register goes on in the first one and leaves the others alone. -/
theorem execute_touches_last :
    ∃ s', execute {} 0 (.ofABC .self 255 3 4) (empty.define 3 (.atom "object")) = .ok () s' ∧
      s'.saved = [] ∧ s'.current.get 255 ≠ none ∧
      s'.current.get 3 = some { toRendered := .atom "object" } := by
  obtain ⟨-, -, hok, -⟩ := execute_touches {} 0 (.ofABC .self 255 3 4) (empty.define 3 (.atom "object"))
  obtain ⟨hsaved, hframe, hdestination⟩ := hok _ rfl
  exact ⟨_, rfl, hsaved, hdestination 255 rfl, hframe 3 rfl⟩

end RegisterStack

end ShortCircuit
