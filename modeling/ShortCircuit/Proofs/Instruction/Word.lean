import ShortCircuit.Instruction.Word
import Mathlib.Tactic.Common

/-!
# Words of well-formed instructions

An instruction keeps both views of its operands, and a word holds only one of them. Nothing is lost
when the views agree and fit into the word.

* `Instruction.IsWellFormed`: `B` and `C` have nine bits, and `Bx` is made of them.
* `Instruction.decode?_encode`: a well-formed instruction is read back from its word.
* `Instruction.decodeList_encode`: so is a list of them.
* `Instruction.isBuilt_iff`: the well-formed instructions are those that can be built from operands
  that fit, whichever view they are built from.
* `Instruction.offset_of_isWellFormed`: their signed offsets do not wrap around.
* `Instruction.decodeList_inverts_encode`: reading and writing lists are inverse to each other, and
  the first word without an opcode is reported.
-/

namespace ShortCircuit.Instruction

/-- Both operands have nine bits, and the wide operand is made of them. -/
structure IsWellFormed (i : Instruction) : Prop where
  b_lt : i.b.toNat < 512
  c_lt : i.c.toNat < 512
  bx_eq : i.bx.toNat = 512 * i.b.toNat + i.c.toNat

instance (i : Instruction) : Decidable i.IsWellFormed :=
  decidable_of_iff (i.b.toNat < 512 ∧ i.c.toNat < 512 ∧ i.bx.toNat = 512 * i.b.toNat + i.c.toNat)
    ⟨fun ⟨hb, hc, hbx⟩ => ⟨hb, hc, hbx⟩, fun ⟨hb, hc, hbx⟩ => ⟨hb, hc, hbx⟩⟩

/-- The word of a well-formed instruction as a number, the same for both layouts. -/
theorem toNat_encode {i : Instruction} (h : i.IsWellFormed) :
    i.encode.toNat =
      i.op.code + 64 * i.a.toNat + 16384 * i.c.toNat + 8388608 * i.b.toNat := by
  obtain ⟨hb, hc, hbx⟩ := h
  have hop := i.op.code_le
  have ha := i.a.toNat_lt
  unfold encode
  split_ifs
  · rw [UInt32.toNat_ofNat']
    omega
  · rw [UInt32.toNat_ofNat']
    omega

/-- A well-formed instruction is read back from its word. -/
theorem decode?_encode {i : Instruction} (h : i.IsWellFormed) : decode? i.encode = some i := by
  have hword := toNat_encode h
  obtain ⟨hb, hc, hbx⟩ := h
  have hop := i.op.code_le
  have ha := i.a.toNat_lt
  unfold decode?
  rw [hword]
  generalize hw : i.op.code + 64 * i.a.toNat + 16384 * i.c.toNat + 8388608 * i.b.toNat = w
  have hcode : w % 64 = i.op.code := by omega
  have hA : w / 64 % 256 = i.a.toNat := by omega
  have hB : w / 8388608 % 512 = i.b.toNat := by omega
  have hC : w / 16384 % 512 = i.c.toNat := by omega
  have hBx : w / 16384 = i.bx.toNat := by omega
  rw [hcode, hA, hB, hC, hBx, Opcode.ofCode?_code]
  simp

theorem decodeFrom_encode (pc : Nat) {code : List Instruction} (h : ∀ i ∈ code, i.IsWellFormed) :
    decodeFrom pc (code.map encode) = .ok code := by
  induction code generalizing pc with
  | nil => rfl
  | cons i code ih =>
    have hi := decode?_encode (h i List.mem_cons_self)
    have hrest := ih (pc + 1) fun j hj => h j (List.mem_cons_of_mem i hj)
    simp only [List.map_cons, decodeFrom, hi, hrest]
    rfl

/-- A list of well-formed instructions is read back from its words. -/
theorem decodeList_encode {code : List Instruction} (h : ∀ i ∈ code, i.IsWellFormed) :
    decodeList (code.map encode) = .ok code :=
  decodeFrom_encode 0 h

/-! ## Words that can be read -/

/-- A word is read unless its low six bits are above 37. -/
theorem decode?_eq_none_iff {word : UInt32} : decode? word = none ↔ 37 < word.toNat % 64 := by
  rw [decode?, Option.map_eq_none_iff, Opcode.ofCode?_eq_none_iff]

/-- What is read from a word is well formed and is written as that word. -/
theorem isWellFormed_of_decode? {word : UInt32} {i : Instruction} (h : decode? word = some i) :
    i.IsWellFormed ∧ i.encode = word := by
  have hlt := word.toNat_lt
  obtain ⟨op, hop, hi⟩ := Option.map_eq_some_iff.1 h
  have hcode : i.op.code = word.toNat % 64 := by
    rw [← hi]
    exact Opcode.code_of_ofCode? hop
  have ha : i.a.toNat = word.toNat / 64 % 256 := by
    rw [← hi, UInt8.toNat_ofNat']
    omega
  have hb : i.b.toNat = word.toNat / 8388608 % 512 := by
    rw [← hi, UInt16.toNat_ofNat']
    omega
  have hc : i.c.toNat = word.toNat / 16384 % 512 := by
    rw [← hi, UInt16.toNat_ofNat']
    omega
  have hbx : i.bx.toNat = word.toNat / 16384 := by
    rw [← hi, UInt32.toNat_ofNat']
    omega
  have hwell : i.IsWellFormed := ⟨by omega, by omega, by omega⟩
  refine ⟨hwell, UInt32.toNat_inj.1 ?_⟩
  rw [toNat_encode hwell]
  omega

/-- A list is read up to its first word without an opcode, and without one it is read as a whole. -/
theorem decodeFrom_cases (pc : Nat) (words : List UInt32) :
    match words.findIdx? fun word => 37 < word.toNat % 64 with
    | none => ∃ code, decodeFrom pc words = .ok code ∧ (∀ i ∈ code, i.IsWellFormed) ∧
        code.map encode = words
    | some n => decodeFrom pc words = .error (pc + n) := by
  induction words generalizing pc with
  | nil => exact ⟨[], rfl, by simp, rfl⟩
  | cons word words ih =>
    rw [List.findIdx?_cons]
    cases hword : decode? word with
    | none => simp [decode?_eq_none_iff.1 hword, decodeFrom, hword]
    | some i =>
      have hgood : ¬37 < word.toNat % 64 := fun hbad => by
        rw [decode?_eq_none_iff.2 hbad] at hword
        cases hword
      obtain ⟨hi, hencode⟩ := isWellFormed_of_decode? hword
      have hrest := ih (pc + 1)
      cases hfind : words.findIdx? fun word => 37 < word.toNat % 64 with
      | none =>
        rw [hfind] at hrest
        obtain ⟨code, hcode, hwell, hwords⟩ := hrest
        simp only [hgood, decide_false, Bool.false_eq_true, if_false, Option.map_none]
        refine ⟨i :: code, ?_, List.forall_mem_cons.2 ⟨hi, hwell⟩, ?_⟩
        · rw [decodeFrom, hword, hcode]
          rfl
        · rw [List.map_cons, hencode, hwords]
      | some n =>
        rw [hfind] at hrest
        simp only [hgood, decide_false, Bool.false_eq_true, if_false, Option.map_some]
        rw [decodeFrom, hword, hrest, Nat.add_assoc, Nat.add_comm 1 n]
        rfl

/-- The codes that reading gives are the well-formed ones, each from its own words. -/
theorem decodeList_eq_ok_iff {words : List UInt32} {code : List Instruction} :
    decodeList words = .ok code ↔ (∀ i ∈ code, i.IsWellFormed) ∧ code.map encode = words := by
  constructor
  · intro h
    have hcases := decodeFrom_cases 0 words
    rw [show decodeFrom 0 words = .ok code from h] at hcases
    split at hcases
    · obtain ⟨_, ⟨⟩, hwell, hwords⟩ := hcases
      exact ⟨hwell, hwords⟩
    · cases hcases
  · rintro ⟨hwell, rfl⟩
    exact decodeList_encode hwell

/-! ## Instructions built from one view -/

/-- An instruction built from operands that fit into a word, with any opcode. -/
inductive IsBuilt : Instruction → Prop
  | abc (op : Opcode) (a : UInt8) {b c : UInt16} (hb : b.toNat < 512) (hc : c.toNat < 512) :
      IsBuilt (ofABC op a b c)
  | abx (op : Opcode) (a : UInt8) {bx : UInt32} (hbx : bx.toNat < 262144) : IsBuilt (ofABx op a bx)
  | asbx (op : Opcode) (a : UInt8) {offset : Int} (hleast : -131071 ≤ offset)
      (hmost : offset ≤ 131072) : IsBuilt (ofAsBx op a offset)

theorem toNat_bx_ofABC (op : Opcode) (a : UInt8) {b c : UInt16} (hb : b.toNat < 512)
    (hc : c.toNat < 512) : (ofABC op a b c).bx.toNat = 512 * b.toNat + c.toNat := by
  have hshift : b.toNat <<< 9 % 2 ^ 32 = 2 ^ 9 * b.toNat := by
    rw [Nat.shiftLeft_eq]
    omega
  simp only [ofABC, UInt32.toNat_or, UInt32.toNat_shiftLeft, UInt16.toNat_toUInt32]
  rw [show (9 : UInt32).toNat % 32 = 9 from rfl, hshift, ← Nat.two_pow_add_eq_or_of_lt hc]

theorem isWellFormed_ofABx (op : Opcode) (a : UInt8) {bx : UInt32} (hbx : bx.toNat < 262144) :
    (ofABx op a bx).IsWellFormed := by
  have hb : (ofABx op a bx).b.toNat = bx.toNat / 512 % 512 := by
    rw [ofABx, UInt16.toNat_ofNat']
    omega
  have hc : (ofABx op a bx).c.toNat = bx.toNat % 512 := by
    rw [ofABx, UInt16.toNat_ofNat']
    omega
  have hwide : (ofABx op a bx).bx.toNat = bx.toNat := rfl
  exact ⟨by omega, by omega, by omega⟩

theorem toNat_ofInt_offset {offset : Int} (hleast : -131071 ≤ offset) (hmost : offset ≤ 131072) :
    ((UInt32.ofInt (offset + offsetBias)).toNat : Int) = offset + offsetBias := by
  unfold offsetBias UInt32.ofInt
  rw [UInt32.toNat_ofNat']
  omega

/-- The well-formed instructions are the ones that can be built. -/
theorem isBuilt_iff {i : Instruction} : i.IsBuilt ↔ i.IsWellFormed := by
  constructor
  · rintro (⟨op, a, hb, hc⟩ | ⟨op, a, hbx⟩ | ⟨op, a, hleast, hmost⟩)
    · exact ⟨hb, hc, toNat_bx_ofABC op a hb hc⟩
    · exact isWellFormed_ofABx op a hbx
    · have hbx := toNat_ofInt_offset hleast hmost
      unfold offsetBias at hbx
      exact isWellFormed_ofABx op a (by unfold offsetBias; omega)
  · rintro ⟨hb, hc, hbx⟩
    have hview : i = ofABC i.op i.a i.b i.c := by
      have hwide : i.bx = (ofABC i.op i.a i.b i.c).bx :=
        UInt32.toNat_inj.1 (hbx.trans (toNat_bx_ofABC i.op i.a hb hc).symm)
      obtain ⟨op, a, b, c, bx⟩ := i
      exact congrArg (Instruction.mk op a b c) hwide
    rw [hview]
    exact .abc _ _ hb hc

/-- The offset of an instruction that fits into a word does not wrap around. -/
theorem offset_of_isWellFormed {i : Instruction} (h : i.IsWellFormed) :
    i.offset = i.bx.toNat - offsetBias := by
  obtain ⟨hb, hc, hbx⟩ := h
  have hlt : i.bx.toNat < 262144 := by omega
  have hsigned : i.bx.toInt32.toInt = i.bx.toNat := BitVec.toInt_eq_toNat_of_lt (by
    show 2 * i.bx.toNat < 2 ^ 32
    omega)
  have hbias : (Int32.ofInt offsetBias).toInt = offsetBias := rfl
  rw [offset, Int32.toInt_sub, hsigned, hbias]
  unfold offsetBias
  exact Int.bmod_eq_of_le (by omega) (by omega)

/-- An offset in reach is read back from the biased operand. -/
theorem offset_ofAsBx (op : Opcode) (a : UInt8) {offset : Int} (hleast : -131071 ≤ offset)
    (hmost : offset ≤ 131072) : (ofAsBx op a offset).offset = offset := by
  have hwell : (ofAsBx op a offset).IsWellFormed := isBuilt_iff.1 (.asbx op a hleast hmost)
  calc
    (ofAsBx op a offset).offset = (UInt32.ofInt (offset + offsetBias)).toNat - offsetBias :=
      offset_of_isWellFormed hwell
    _ = offset + offsetBias - offsetBias := by rw [toNat_ofInt_offset hleast hmost]
    _ = offset := Int.add_sub_cancel _ _

/-- A jump built for a target in reach goes there. -/
theorem jumpTarget?_ofAsBx (a : UInt8) {pc target : Nat}
    (hleast : -131071 ≤ (target : Int) - (pc + 1)) (hmost : (target : Int) - (pc + 1) ≤ 131072) :
    (ofAsBx .jmp a (target - (pc + 1))).jumpTarget? pc = some target := by
  have hsum : (pc : Int) + 1 + (target - (pc + 1)) = target := by omega
  have hrelative : (ofAsBx .jmp a (target - (pc + 1))).op.isRelative = true := rfl
  rw [jumpTarget?, if_pos hrelative, offset_ofAsBx .jmp a hleast hmost, hsum]
  rfl

/-! ## Both directions -/

/-- Reading and writing words are inverse to each other. A list of words is read unless the low six
bits of one are above 37, and the first such word is reported; the instructions read are those that
can be built from operands that fit, and they are written as the words they come from; and a jump
built for a target in reach is read as a jump to it. -/
theorem decodeList_inverts_encode :
    (∀ words : List UInt32,
      match words.findIdx? fun word => 37 < word.toNat % 64 with
      | none => ∃ code, decodeList words = .ok code
      | some pc => decodeList words = .error pc) ∧
    (∀ words code, decodeList words = .ok code ↔
      (∀ i ∈ code, i.IsBuilt) ∧ code.map encode = words) ∧
    ∀ (a : UInt8) (pc target : Nat), -131071 ≤ (target : Int) - (pc + 1) →
      (target : Int) - (pc + 1) ≤ 131072 →
      (decode? (ofAsBx .jmp a (target - (pc + 1))).encode).bind (·.jumpTarget? pc) =
        some target := by
  refine ⟨fun words => ?_, fun words code => ?_, fun a pc target hleast hmost => ?_⟩
  · have hcases := decodeFrom_cases 0 words
    split at hcases
    · obtain ⟨code, hcode, -⟩ := hcases
      exact ⟨code, hcode⟩
    · rwa [Nat.zero_add] at hcases
  · simp only [isBuilt_iff, decodeList_eq_ok_iff]
  · rw [decode?_encode (isBuilt_iff.1 (.asbx .jmp a hleast hmost)), Option.bind_some,
      jumpTarget?_ofAsBx a hleast hmost]

/-- The farthest jump ahead is read back, and the second of two words is reported. -/
theorem decodeList_inverts_encode_farthest :
    (decode? (ofAsBx .jmp 0 131072).encode).bind (·.jumpTarget? 7) = some 131080 ∧
      decodeList [(ofABC .move 0 511 256).encode, 63] = .error 1 ∧
      decodeList [(ofABC .jmp 0 511 256).encode] = .ok [ofABC .jmp 0 511 256] := by
  obtain ⟨hfirst, hread, hjump⟩ := decodeList_inverts_encode
  refine ⟨hjump 0 7 131080 (by decide) (by decide),
    hfirst [(ofABC .move 0 511 256).encode, 63], (hread _ _).2 ⟨?_, rfl⟩⟩
  intro i hi
  rw [List.mem_singleton.1 hi]
  exact .abc .jmp 0 (by decide) (by decide)

end ShortCircuit.Instruction
