import ShortCircuit.Proofs.Chunk.Reading
import ShortCircuit.Proofs.Instruction.Word
import ShortCircuit.Proofs.Prototype
import ShortCircuit.Proofs.Text.Utf8
import Mathlib.Algebra.Group.Nat.Defs
import Mathlib.Tactic.Common

/-!
# Dumps are read back

A compiler writes its functions as a chunk. Here the format is given from the writer's side: what
the compiler holds, the bytes it writes, and what a reader is to find in them. Strings may be
missing on the writer's side; a missing constant or name is found empty.

* `Dump`: a function as the compiler holds it, with the functions inside it.
* `Dump.bytes`, `Dump.chunk`: its bytes, and the chunk that has it as its main function.
* `Dump.loaded`: the tree of prototypes to be found in the chunk.
* `Dump.Fits`: counts and lengths fit into their fields, and instructions into their words.
* `Chunk.read_dump`: the chunk of a dump is read as its tree, whatever follows it.
-/

namespace ShortCircuit

/-! ## The layout of parts -/

namespace Layout

/-- The little-endian bytes of a number in a field of `width` bytes. -/
def natural : Nat → Nat → List UInt8
  | 0, _ => []
  | width + 1, n => UInt8.ofNat (n % 256) :: natural width (n / 256)

/-- A string: its length with the closing zero byte, its bytes and that byte; length zero for no
string. -/
def string (width : SizeWidth) : Option (List UInt8) → List UInt8
  | none => natural width.bytes 0
  | some bytes => natural width.bytes (bytes.length + 1) ++ (bytes ++ [0])

/-- A text is written as the string of its bytes. -/
def text (width : SizeWidth) (s : Option String) : List UInt8 := string width (s.map Utf8.encode)

/-- A list: its length and its items. -/
def list {α : Type} (put : α → List UInt8) (xs : List α) : List UInt8 :=
  natural 4 xs.length ++ xs.flatMap put

/-- The length of a string with its closing byte fits into four bytes. -/
def StringFits (s : Option (List UInt8)) : Prop := (s.getD []).length + 1 < 2 ^ 32

instance (s : Option (List UInt8)) : Decidable (StringFits s) :=
  inferInstanceAs (Decidable (_ < _))

/-- The same for the bytes of a text. -/
def TextFits (s : Option String) : Prop := StringFits (s.map Utf8.encode)

instance (s : Option String) : Decidable (TextFits s) :=
  inferInstanceAs (Decidable (StringFits _))

end Layout

namespace Dump

/-- A constant; the bytes of a string may be missing. -/
inductive Constant where
  | nil
  | bool (value : Bool)
  | number (value : Binary64)
  | string (bytes : Option (List UInt8))

namespace Constant

/-- The tag of a constant and its value. -/
def bytes (width : SizeWidth) : Constant → List UInt8
  | .nil => [0]
  | .bool value => [1] ++ [if value then 1 else 0]
  | .number value => [3] ++ Layout.natural 8 value.bits.toNat
  | .string bytes => [4] ++ Layout.string width bytes

/-- The constant to be found. -/
def loaded : Constant → Literal
  | .nil => .nil
  | .bool value => .bool value
  | .number value => .number value
  | .string bytes => .string (bytes.getD [])

/-- The string of a constant fits. -/
def Fits : Constant → Prop
  | .string bytes => Layout.StringFits bytes
  | .nil | .bool _ | .number _ => True

instance : (c : Constant) → Decidable c.Fits
  | .string bytes => inferInstanceAs (Decidable (Layout.StringFits bytes))
  | .nil | .bool _ | .number _ => .isTrue trivial

end Constant

/-- A local variable; its name may be missing. -/
structure Variable where
  name : Option String
  start : UInt32
  stop : UInt32

namespace Variable

/-- The name and the range of a variable. -/
def bytes (width : SizeWidth) (v : Variable) : List UInt8 :=
  Layout.text width v.name ++ (Layout.natural 4 v.start.toNat ++ Layout.natural 4 v.stop.toNat)

/-- The variable to be found. -/
def loaded (v : Variable) : LocalVariable :=
  { name := v.name.getD "", start := v.start.toNat, stop := v.stop.toNat }

end Variable

/-- A function without the functions inside it. -/
structure Body where
  source : Option String
  lineDefined : UInt32
  lastLineDefined : UInt32
  upvalueCount : UInt8
  parameterCount : UInt8
  vararg : UInt8
  maxStackSize : UInt8
  code : List Instruction
  constants : List Constant
  lines : List UInt32
  locals : List Variable
  upvalueNames : List (Option String)

namespace Body

/-- The fields of a function in order, with `inner` for the list of functions inside it. -/
def bytes (width : SizeWidth) (b : Body) (inner : List UInt8) : List UInt8 :=
  Layout.text width b.source ++ (Layout.natural 4 b.lineDefined.toNat ++
    (Layout.natural 4 b.lastLineDefined.toNat ++ ([b.upvalueCount] ++ ([b.parameterCount] ++
    ([b.vararg] ++ ([b.maxStackSize] ++
    (Layout.list (fun i => Layout.natural 4 i.encode.toNat) b.code ++
    (Layout.list (·.bytes width) b.constants ++ (inner ++
    (Layout.list (fun line => Layout.natural 4 line.toNat) b.lines ++
    (Layout.list (·.bytes width) b.locals ++
    Layout.list (Layout.text width) b.upvalueNames)))))))))))

/-- The prototype to be found. -/
def loaded (b : Body) : Prototype :=
  { source := b.source
    lineDefined := b.lineDefined.toNat
    lastLineDefined := b.lastLineDefined.toNat
    upvalueCount := b.upvalueCount
    parameterCount := b.parameterCount
    isVararg := b.vararg != 0
    maxStackSize := b.maxStackSize
    code := b.code
    constants := b.constants.map Constant.loaded
    lines := b.lines.map UInt32.toNat
    locals := b.locals.map Variable.loaded
    upvalueNames := b.upvalueNames.map (·.getD "") }

/-- Counts and lengths fit into their fields, and instructions into their words. -/
@[mk_iff]
structure Fits (b : Body) : Prop where
  source : Layout.TextFits b.source
  code_length : b.code.length < 2 ^ 32
  code : ∀ i ∈ b.code, i.IsWellFormed
  constants_length : b.constants.length < 2 ^ 32
  constants : ∀ c ∈ b.constants, c.Fits
  lines_length : b.lines.length < 2 ^ 32
  locals_length : b.locals.length < 2 ^ 32
  locals : ∀ v ∈ b.locals, Layout.TextFits v.name
  upvalueNames_length : b.upvalueNames.length < 2 ^ 32
  upvalueNames : ∀ s ∈ b.upvalueNames, Layout.TextFits s

instance (b : Body) : Decidable b.Fits := decidable_of_iff _ (fits_iff b).symm

end Body

end Dump

/-- A function as the compiler holds it, with the functions inside it. -/
inductive Dump where
  | node (body : Dump.Body) (children : List Dump)

namespace Dump

mutual

/-- The bytes of a function. -/
def bytes (width : SizeWidth) : Dump → List UInt8
  | .node b cs => b.bytes width (Layout.natural 4 cs.length ++ bytesOf width cs)

/-- The bytes of several functions in order. -/
def bytesOf (width : SizeWidth) : List Dump → List UInt8
  | [] => []
  | c :: cs => c.bytes width ++ bytesOf width cs

end

mutual

/-- The tree of prototypes to be found. -/
def loaded : Dump → PrototypeTree
  | .node b cs => .node b.loaded (loadedOf cs)

/-- The trees of several functions in order. -/
def loadedOf : List Dump → List PrototypeTree
  | [] => []
  | c :: cs => c.loaded :: loadedOf cs

end

theorem bytesOf_eq_flatMap (width : SizeWidth) (cs : List Dump) :
    bytesOf width cs = cs.flatMap (bytes width) := by
  induction cs with
  | nil => rw [bytesOf, List.flatMap_nil]
  | cons c cs ih => rw [bytesOf, List.flatMap_cons, ih]

theorem loadedOf_eq_map (cs : List Dump) : loadedOf cs = cs.map loaded := by
  induction cs with
  | nil => rw [loadedOf, List.map_nil]
  | cons c cs ih => rw [loadedOf, List.map_cons, ih]

/-- Everything in the function and in the functions inside it fits. -/
inductive Fits : Dump → Prop where
  | node {b : Body} {cs : List Dump} (body : b.Fits) (count : cs.length < 2 ^ 32)
      (children : ∀ c ∈ cs, Fits c) : Fits (.node b cs)

/-- The chunk that has the function as its main function. -/
def chunk (width : SizeWidth) (d : Dump) : List UInt8 := Chunk.header width ++ d.bytes width

end Dump

/-! ## Parts are read back -/

namespace Reader

theorem length_layout_natural (width n : Nat) : (Layout.natural width n).length = width := by
  induction width generalizing n with
  | zero => rfl
  | succ width ih => rw [Layout.natural, List.length_cons, ih]

theorem littleEndian_layout_natural {width n : Nat} (h : n < 256 ^ width) :
    littleEndian (Layout.natural width n) = n := by
  induction width generalizing n with
  | zero =>
    rw [Nat.pow_zero] at h
    rw [Layout.natural, littleEndian]
    omega
  | succ width ih =>
    have hdiv : n / 256 < 256 ^ width := by
      rw [Nat.pow_succ] at h
      exact Nat.div_lt_of_lt_mul (Nat.mul_comm _ _ ▸ h)
    rw [Layout.natural, littleEndian, ih hdiv, UInt8.toNat_ofNat', Nat.mod_mod]
    exact Nat.mod_add_div n 256

theorem reads_layout_natural {width n : Nat} (h : n < 256 ^ width) :
    (natural width).Reads (Layout.natural width n) n := by
  have hread := reads_natural (Layout.natural width n)
  rwa [length_layout_natural, littleEndian_layout_natural h] at hread

/-- A number of 32 bits fits into four bytes. -/
theorem reads_uint32 (x : UInt32) : (natural 4).Reads (Layout.natural 4 x.toNat) x.toNat :=
  reads_layout_natural x.toNat_lt

theorem reads_list {α γ : Type} {item : Reader α} {put : γ → List UInt8} {get : γ → α}
    {xs : List γ} (hlength : xs.length < 2 ^ 32) (h : ∀ x ∈ xs, item.Reads (put x) (get x)) :
    (listOf item).Reads (Layout.list put xs) (xs.map get) :=
  (reads_layout_natural hlength).bind (reads_many h)

theorem dropTerminator_append_zero (bytes : List UInt8) :
    dropTerminator (bytes ++ [0]) = bytes := by
  rw [dropTerminator, List.getLast?_concat, if_pos rfl, List.dropLast_concat]

/-- Every length that fits into four bytes fits into the length of a string. -/
theorem reads_size (width : SizeWidth) {n : Nat} (h : n < 2 ^ 32) :
    (natural width.bytes).Reads (Layout.natural width.bytes n) n := by
  apply reads_layout_natural
  cases width with
  | four => exact h
  | eight => exact Nat.lt_trans h (by decide)

theorem reads_string? (width : SizeWidth) {s : Option (List UInt8)} (h : Layout.StringFits s) :
    (string? width).Reads (Layout.string width s) s := by
  cases s with
  | none =>
    have hzero := (reads_size width (by decide : 0 < 2 ^ 32)).bind (f := fun n => do
      if n = 0 then return none
      let bytes ← take n
      return some (dropTerminator bytes)) (reads_pure none)
    rwa [List.append_nil] at hzero
  | some bytes =>
    refine (reads_size width h).bind ?_
    rw [if_neg (Nat.succ_ne_zero _)]
    have htake := reads_take (bytes ++ [0])
    rw [List.length_append, List.length_singleton] at htake
    have hread := htake.bind_pure fun taken => some (dropTerminator taken)
    rwa [dropTerminator_append_zero] at hread

theorem reads_name (width : SizeWidth) {s : Option String} (h : Layout.TextFits s) :
    (name width).Reads (Layout.text width s) (s.getD "") := by
  have hread := (reads_string? width h).bind_pure fun bytes => Utf8.decode (bytes.getD [])
  cases s with
  | none =>
    have hempty : Utf8.decode [] = "" := Utf8.decode_encode ""
    rwa [Option.map_none, Option.getD_none, hempty] at hread
  | some s => rwa [Option.map_some, Option.getD_some, Utf8.decode_encode] at hread

theorem reads_localVariable (width : SizeWidth) {v : Dump.Variable} (h : Layout.TextFits v.name) :
    (localVariable width).Reads (v.bytes width) v.loaded :=
  (reads_name width h).bind ((reads_uint32 v.start).bind ((reads_uint32 v.stop).bind_pure _))

theorem reads_literal_of_payload {width : SizeWidth} {tag : UInt8} {bytes : List UInt8}
    {l : Literal} (h : (payload width tag).Reads bytes l) :
    (literal width).Reads ([tag] ++ bytes) l :=
  ((reads_byte tag).bind h).of_toOption (literal_toOption width)

theorem reads_literal (width : SizeWidth) {c : Dump.Constant} (h : c.Fits) :
    (literal width).Reads (c.bytes width) c.loaded := by
  cases c with
  | nil => exact reads_literal_of_payload (reads_pure Literal.nil)
  | bool value =>
    have hread := (reads_byte (if value then 1 else 0)).bind_pure fun b => Literal.bool (b != 0)
    cases value with
    | false => exact reads_literal_of_payload hread
    | true => exact reads_literal_of_payload hread
  | number value =>
    have hbits : (natural 8).Reads (Layout.natural 8 value.bits.toNat) value.bits.toNat :=
      reads_layout_natural value.bits.toNat_lt
    have hread := hbits.bind_pure fun n => Literal.number ⟨UInt64.ofNat n⟩
    rw [UInt64.ofNat_toNat] at hread
    exact reads_literal_of_payload hread
  | string bytes =>
    have hread := (reads_string? width h).bind_pure fun s => Literal.string (s.getD [])
    exact reads_literal_of_payload hread

theorem reads_code {code : List Instruction} (hlength : code.length < 2 ^ 32)
    (h : ∀ i ∈ code, i.IsWellFormed) :
    Reader.code.Reads (Layout.list (fun i => Layout.natural 4 i.encode.toNat) code) code := by
  intro rest
  have hwords := reads_list hlength (fun i _ => reads_uint32 (Instruction.encode i)) rest
  rw [Reader.code, hwords]
  have hmap : (code.map fun i => i.encode.toNat).map UInt32.ofNat =
      code.map Instruction.encode := by
    rw [List.map_map]
    exact List.map_congr_left fun i _ => UInt32.ofNat_toNat
  simp only [hmap, Instruction.decodeList_encode h]

/-! ## Functions are read back -/

theorem length_bytes_le_of_mem (width : SizeWidth) {c : Dump} {cs : List Dump} (h : c ∈ cs) :
    (c.bytes width).length ≤ (Dump.bytesOf width cs).length := by
  rw [Dump.bytesOf_eq_flatMap]
  induction cs with
  | nil => cases h
  | cons d cs ih =>
    rw [List.flatMap_cons, List.length_append]
    rcases List.mem_cons.1 h with rfl | hmem
    · exact Nat.le_add_right ..
    · exact Nat.le_trans (ih hmem) (Nat.le_add_left ..)

/-- A function that fits is read back, with a bound on the depth above the number of its bytes. -/
theorem reads_prototype (width : SizeWidth) {d : Dump} (h : d.Fits) {depth : Nat}
    (hdepth : (d.bytes width).length < depth) :
    (prototype width depth).Reads (d.bytes width) d.loaded := by
  induction h generalizing depth with
  | @node b cs hbody hcount _ ih =>
    cases depth with
    | zero => omega
    | succ depth =>
      have hcs : ∀ c ∈ cs, (prototype width depth).Reads (c.bytes width) c.loaded := by
        intro c hc
        apply ih c hc
        have hle := length_bytes_le_of_mem width hc
        simp only [Dump.bytes, Dump.Body.bytes, List.length_append, length_layout_natural] at hdepth
        omega
      have hchildren := reads_list hcount hcs
      rw [Layout.list, ← Dump.bytesOf_eq_flatMap, ← Dump.loadedOf_eq_map] at hchildren
      have hsource : (b.source.map Utf8.encode).map Utf8.decode = b.source := by
        cases b.source with
        | none => rfl
        | some s => exact congrArg some (Utf8.decode_encode s)
      rw [Dump.bytes, Dump.loaded, Dump.Body.loaded, ← hsource]
      refine (reads_string? width hbody.source).bind ?_
      refine (reads_uint32 b.lineDefined).bind ?_
      refine (reads_uint32 b.lastLineDefined).bind ?_
      refine (reads_byte b.upvalueCount).bind ?_
      refine (reads_byte b.parameterCount).bind ?_
      refine (reads_byte b.vararg).bind ?_
      refine (reads_byte b.maxStackSize).bind ?_
      refine (reads_code hbody.code_length hbody.code).bind ?_
      refine (reads_list hbody.constants_length
        fun c hc => reads_literal width (hbody.constants c hc)).bind ?_
      refine hchildren.bind ?_
      refine (reads_list hbody.lines_length fun line _ => reads_uint32 line).bind ?_
      refine (reads_list hbody.locals_length
        fun v hv => reads_localVariable width (hbody.locals v hv)).bind ?_
      exact (reads_list hbody.upvalueNames_length
        fun s hs => reads_name width (hbody.upvalueNames s hs)).bind_pure _

end Reader

/-- The chunk of a dump is read as its tree, whatever follows it, and the functions of the tree are
listed in depth-first order. -/
theorem Chunk.read_dump (width : SizeWidth) {d : Dump} (h : d.Fits) (trailing : List UInt8) :
    ∃ c, Chunk.read (d.chunk width ++ trailing) = .ok c ∧ c.sizeWidth = width ∧
      c.main = d.loaded ∧ d.loaded.IsPreorder c.functions := by
  have hmain := Reader.reads_prototype width h (Nat.lt_succ_self _)
  exact ⟨_, Chunk.read_of_reads hmain (Nat.lt_succ_self _) trailing, rfl, rfl,
    d.loaded.isPreorder_functions⟩

/-- A function with functions inside it, constants of every kind, a string that ends in a zero byte,
and missing strings. -/
def Dump.sample : Dump :=
  .node
    { source := some "@é.lua", lineDefined := 0, lastLineDefined := 0, upvalueCount := 0
      parameterCount := 0, vararg := 2, maxStackSize := 255
      code := [{ op := .closure, a := 1, b := 0, c := 0, bx := 0 }]
      constants := [.nil, .bool true, .number ⟨0x7FF0000000000001⟩, .string (some [])]
      lines := [], locals := [⟨some "x", 0, 4294967295⟩], upvalueNames := [] }
    [.node
      { source := none, lineDefined := 3, lastLineDefined := 4, upvalueCount := 1
        parameterCount := 0, vararg := 0, maxStackSize := 2
        code := [{ op := .ret, a := 0, b := 1, c := 0, bx := 512 }]
        constants := [.string none, .string (some [0x61, 0])]
        lines := [4], locals := [], upvalueNames := [some "x", none] } []]

theorem Dump.sample_fits : sample.Fits := by
  refine .node (by decide) (by decide) fun c hc => ?_
  obtain rfl := List.mem_singleton.1 hc
  exact .node (by decide) (by decide) fun c hc => absurd hc List.not_mem_nil

/-- The sample is read back with long string lengths and bytes after its end. -/
theorem Chunk.read_dump_sample :
    Dump.sample.Fits ∧
      ∃ c, Chunk.read (Dump.sample.chunk .eight ++ [0, 1, 2]) = .ok c ∧ c.sizeWidth = .eight ∧
        c.main = Dump.sample.loaded ∧ Dump.sample.loaded.IsPreorder c.functions :=
  ⟨Dump.sample_fits, Chunk.read_dump .eight Dump.sample_fits [0, 1, 2]⟩

end ShortCircuit
