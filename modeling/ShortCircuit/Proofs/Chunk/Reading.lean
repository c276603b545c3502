import ShortCircuit.Chunk.Basic
import Mathlib.Tactic.Common
import Mathlib.Data.List.Infix

/-!
# What readers take

A reader that succeeds has taken some bytes off the front of its input. Two questions are asked
of it: on which bytes it succeeds, whatever follows them, and whether it can succeed with fewer.

* `Reader.Reads r bytes a`: `r` takes `bytes` off any input that starts with them and gives `a`.
* `Reader.IsExact r`: the bytes that `r` takes are read the same before any other rest, and `r`
  fails on every input that ends within them.
* `Reader.isExact_prototype`: prototypes are read exactly, at every depth.
* `Reader.prototype_eq`: the bound on the depth does not matter once it exceeds the number of bytes.
* `Chunk.readHeader_eq_ok_iff`: the header that is accepted is one of two fixed byte strings.
-/

namespace ShortCircuit.Reader

variable {α β : Type}

/-! ## Sequencing -/

theorem bind_eq_ok_iff {r : Reader α} {f : α → Reader β} {bytes : List UInt8}
    {out : β × List UInt8} :
    (r >>= f) bytes = .ok out ↔ ∃ a rest, r bytes = .ok (a, rest) ∧ f a rest = .ok out := by
  change (r bytes >>= fun x => f x.1 x.2) = .ok out ↔ _
  cases hr : r bytes with
  | error e =>
    refine ⟨fun h => ?_, fun ⟨a, rest, ha, _⟩ => ?_⟩
    · cases h
    · cases ha
  | ok out₁ =>
    refine ⟨fun h => ⟨out₁.1, out₁.2, rfl, h⟩, fun ⟨a, rest, ha, h⟩ => ?_⟩
    cases ha
    exact h

theorem bind_eq_of_ok {r : Reader α} {bytes rest : List UInt8} {a : α}
    (h : r bytes = .ok (a, rest)) (f : α → Reader β) : (r >>= f) bytes = f a rest := by
  change (r bytes >>= fun x => f x.1 x.2) = _
  rw [h]
  rfl

theorem bind_eq_of_error {r : Reader α} {bytes : List UInt8} {e : Malformed}
    (h : r bytes = .error e) (f : α → Reader β) : (r >>= f) bytes = .error e := by
  change (r bytes >>= fun x => f x.1 x.2) = _
  rw [h]
  rfl

/-! ## Bytes that are read whatever follows -/

/-- The reader takes these bytes off any input that starts with them and gives the value. -/
def Reads (r : Reader α) (bytes : List UInt8) (a : α) : Prop :=
  ∀ rest, r (bytes ++ rest) = .ok (a, rest)

theorem reads_pure (a : α) : Reads (pure a) [] a := fun _ => rfl

theorem Reads.bind {r : Reader α} {f : α → Reader β} {first second : List UInt8} {a : α} {b : β}
    (hr : r.Reads first a) (hf : (f a).Reads second b) : (r >>= f).Reads (first ++ second) b := by
  intro rest
  rw [List.append_assoc, bind_eq_of_ok (hr _)]
  exact hf rest

theorem Reads.bind_pure {r : Reader α} {bytes : List UInt8} {a : α} (hr : r.Reads bytes a)
    (g : α → β) : (r >>= fun x => pure (g x)).Reads bytes (g a) := by
  have h := hr.bind (f := fun x => pure (g x)) (reads_pure (g a))
  rwa [List.append_nil] at h

theorem Reads.map {r : Reader α} {bytes : List UInt8} {a : α} (hr : r.Reads bytes a) (g : α → β) :
    (g <$> r).Reads bytes (g a) := by
  rw [map_eq_pure_bind]
  exact hr.bind_pure g

theorem ok_iff_of_toOption {r r' : Reader α}
    (h : ∀ bytes, (r bytes).toOption = (r' bytes).toOption) (bytes : List UInt8)
    (out : α × List UInt8) : r bytes = .ok out ↔ r' bytes = .ok out := by
  have hbytes := h bytes
  cases hr : r bytes <;> cases hr' : r' bytes <;> simp_all [Except.toOption]

theorem Reads.of_toOption {r r' : Reader α} {bytes : List UInt8} {a : α} (hr : r'.Reads bytes a)
    (h : ∀ bytes, (r bytes).toOption = (r' bytes).toOption) : r.Reads bytes a :=
  fun rest => (ok_iff_of_toOption h _ _).2 (hr rest)

theorem split?_append (bytes rest : List UInt8) :
    split? bytes.length (bytes ++ rest) = some (bytes, rest) := by
  induction bytes with
  | nil => rw [List.length_nil, List.nil_append, split?]
  | cons b bytes ih => rw [List.length_cons, List.cons_append, split?, ih]

theorem split?_eq_some_iff {n : Nat} {bytes taken rest : List UInt8} :
    split? n bytes = some (taken, rest) ↔ bytes = taken ++ rest ∧ taken.length = n := by
  refine ⟨fun h => ?_, fun ⟨hbytes, hlength⟩ => ?_⟩
  · fun_induction split? n bytes generalizing taken rest with
    | case1 bytes => grind
    | case2 => cases h
    | case3 => cases h
    | case4 n b bytes taken' rest' heq ih => grind
  · rw [hbytes, ← hlength, split?_append]

theorem reads_take (bytes : List UInt8) : (take bytes.length).Reads bytes bytes := by
  intro rest
  rw [take, split?_append]

theorem reads_natural (bytes : List UInt8) :
    (natural bytes.length).Reads bytes (littleEndian bytes) :=
  (reads_take bytes).map littleEndian

theorem reads_byte (b : UInt8) : byte.Reads [b] b := by
  have h := (reads_natural [b]).map UInt8.ofNat
  rw [littleEndian, littleEndian, Nat.mul_zero, Nat.add_zero, UInt8.ofNat_toNat] at h
  exact h

/-- Items that are read one by one are read as a list. -/
theorem reads_many {γ : Type} {item : Reader α} {put : γ → List UInt8} {get : γ → α}
    {xs : List γ} (h : ∀ x ∈ xs, item.Reads (put x) (get x)) :
    (many item xs.length).Reads (xs.flatMap put) (xs.map get) := by
  induction xs with
  | nil => exact reads_pure []
  | cons x xs ih =>
    have hx := h x List.mem_cons_self
    have hxs := ih fun y hy => h y (List.mem_cons_of_mem x hy)
    exact hx.bind (hxs.bind_pure (get x :: ·))

/-! ## Readers that cannot do with less -/

/-- The reader takes these bytes off any input that starts with them, and fails on any input that
ends before their end. -/
structure Consumes (r : Reader α) (bytes : List UInt8) (a : α) : Prop where
  reads : r.Reads bytes a
  fails : ∀ cut, cut <+: bytes → cut ≠ bytes → ∀ out, r cut ≠ .ok out

/-- Whenever the reader succeeds, it consumes the bytes that it has taken. -/
def IsExact (r : Reader α) : Prop :=
  ∀ bytes a rest, r bytes = .ok (a, rest) → ∃ used, bytes = used ++ rest ∧ r.Consumes used a

theorem isExact_pure (a : α) : IsExact (pure a) := by
  intro bytes b rest h
  cases h
  refine ⟨[], rfl, reads_pure a, fun cut hcut hne => ?_⟩
  exact absurd (List.prefix_nil.1 hcut) hne

theorem Consumes.bind {r : Reader α} {f : α → Reader β} {first second : List UInt8} {a : α} {b : β}
    (hr : r.Consumes first a) (hf : (f a).Consumes second b) :
    (r >>= f).Consumes (first ++ second) b := by
  refine ⟨hr.reads.bind hf.reads, fun cut hcut hne out hout => ?_⟩
  obtain ⟨a', rest, ha', hrest⟩ := bind_eq_ok_iff.1 hout
  -- An input that ends within the first part stops `r`, one that ends after it stops `f a`.
  rcases List.prefix_or_prefix_of_prefix hcut (List.prefix_append first second) with hle | hle
  · by_cases heq : cut = first
    · subst heq
      have hcut := hr.reads []
      rw [List.append_nil, ha'] at hcut
      cases hcut
      refine hf.fails [] List.nil_prefix (fun hnil => hne ?_) out hrest
      rw [← hnil, List.append_nil]
    · exact hr.fails cut hle heq _ ha'
  · obtain ⟨later, rfl⟩ := hle
    rw [hr.reads later] at ha'
    obtain ⟨rfl, rfl⟩ := Prod.mk.inj (Except.ok.inj ha')
    have hlater := (List.prefix_append_right_inj first).1 hcut
    refine hf.fails later hlater (fun heq => hne ?_) out hrest
    rw [heq]

theorem IsExact.bind {r : Reader α} {f : α → Reader β} (hr : r.IsExact)
    (hf : ∀ a, (f a).IsExact) : (r >>= f).IsExact := by
  intro bytes b rest h
  obtain ⟨a, middle, ha, hb⟩ := bind_eq_ok_iff.1 h
  obtain ⟨first, rfl, hfirst⟩ := hr bytes a middle ha
  obtain ⟨second, rfl, hsecond⟩ := hf a middle b rest hb
  exact ⟨first ++ second, (List.append_assoc ..).symm, hfirst.bind hsecond⟩

theorem IsExact.map {r : Reader α} (hr : r.IsExact) (g : α → β) : (g <$> r).IsExact := by
  rw [map_eq_pure_bind]
  exact hr.bind fun a => isExact_pure (g a)

/-- Exactness is about successes alone: readers that differ in their failures share it. -/
theorem IsExact.of_toOption {r r' : Reader α} (hr : r'.IsExact)
    (h : ∀ bytes, (r bytes).toOption = (r' bytes).toOption) : r.IsExact := by
  have hiff := ok_iff_of_toOption h
  intro bytes a rest hok
  obtain ⟨used, rfl, hused⟩ := hr bytes a rest ((hiff _ _).1 hok)
  refine ⟨used, rfl, hused.reads.of_toOption h, fun cut hcut hne out hout => ?_⟩
  exact hused.fails cut hcut hne out ((hiff _ _).1 hout)

theorem isExact_fail (cause : ReadCause) : IsExact (fail cause : Reader α) := by
  intro bytes a rest h
  cases h

theorem isExact_take (n : Nat) : IsExact (take n) := by
  intro bytes taken rest h
  have hsplit : split? n bytes = some (taken, rest) := by
    unfold take at h
    split at h
    · next heq => rw [heq, Except.ok.inj h]
    · cases h
  obtain ⟨rfl, rfl⟩ := split?_eq_some_iff.1 hsplit
  refine ⟨taken, rfl, reads_take taken, fun cut hcut hne out hout => ?_⟩
  unfold take at hout
  split at hout
  · next heq =>
    obtain ⟨hcut', hlength⟩ := split?_eq_some_iff.1 heq
    refine hne (hcut.eq_of_length_le ?_)
    rw [hcut', List.length_append, hlength]
    exact Nat.le_add_right ..
  · cases hout

theorem isExact_natural (n : Nat) : IsExact (natural n) := (isExact_take n).map littleEndian

theorem isExact_byte : IsExact byte := (isExact_natural 1).map UInt8.ofNat

theorem isExact_many {item : Reader α} (h : item.IsExact) (n : Nat) : (many item n).IsExact := by
  induction n with
  | zero => exact isExact_pure []
  | succ n ih => exact h.bind fun x => ih.bind fun xs => isExact_pure (x :: xs)

theorem isExact_listOf {item : Reader α} (h : item.IsExact) : (listOf item).IsExact :=
  (isExact_natural 4).bind fun n => isExact_many h n

/-! ## Parts of a prototype -/

theorem isExact_string? (width : SizeWidth) : (string? width).IsExact := by
  refine (isExact_natural _).bind fun n => ?_
  split
  · exact isExact_pure none
  · exact (isExact_take n).bind fun bytes => isExact_pure _

theorem isExact_name (width : SizeWidth) : (name width).IsExact :=
  (isExact_string? width).bind fun _ => isExact_pure _

theorem isExact_localVariable (width : SizeWidth) : (localVariable width).IsExact :=
  (isExact_name width).bind fun _ => (isExact_natural 4).bind fun _ =>
    (isExact_natural 4).bind fun _ => isExact_pure _

/-- What follows the tag of a constant. -/
def payload (width : SizeWidth) (tag : UInt8) : Reader Literal :=
  if tag = 0 then pure .nil
  else if tag = 1 then do return .bool ((← byte) != 0)
  else if tag = 3 then do return .number ⟨UInt64.ofNat (← natural 8)⟩
  else if tag = 4 then do return .string ((← string? width).getD [])
  else fail .badTag

theorem isExact_payload (width : SizeWidth) (tag : UInt8) : (payload width tag).IsExact := by
  unfold payload
  split_ifs
  · exact isExact_pure _
  · exact isExact_byte.bind fun _ => isExact_pure _
  · exact (isExact_natural 8).bind fun _ => isExact_pure _
  · exact (isExact_string? width).bind fun _ => isExact_pure _
  · exact isExact_fail _

/-- A constant is its tag and its payload, up to the place at which a bad tag is reported. -/
theorem literal_toOption (width : SizeWidth) (bytes : List UInt8) :
    (literal width bytes).toOption = ((byte >>= payload width) bytes).toOption := by
  unfold literal
  split
  · next e he => rw [bind_eq_of_error he]
  · next tag rest htag =>
    rw [bind_eq_of_ok htag]
    unfold payload
    split_ifs <;> rfl

theorem isExact_literal (width : SizeWidth) : (literal width).IsExact :=
  (isExact_byte.bind (isExact_payload width)).of_toOption (literal_toOption width)

/-- The instructions of a list of words. -/
def instructions (words : List Nat) : Reader (List Instruction) :=
  match Instruction.decodeList (words.map UInt32.ofNat) with
  | .ok instructions => pure instructions
  | .error _ => fail .badOpcode

/-- Code is a list of words turned to instructions, up to the place at which a bad word is
reported. -/
theorem code_toOption (bytes : List UInt8) :
    (code bytes).toOption = ((listOf (natural 4) >>= instructions) bytes).toOption := by
  unfold code
  split
  · next e he => rw [bind_eq_of_error he]
  · next words rest hwords =>
    rw [bind_eq_of_ok hwords]
    unfold instructions
    split
    · next h => rw [h]; rfl
    · next h => rw [h]; rfl

theorem isExact_code : IsExact code := by
  refine ((isExact_listOf (isExact_natural 4)).bind fun words => ?_).of_toOption code_toOption
  unfold instructions
  split
  · exact isExact_pure _
  · exact isExact_fail _

/-- Prototypes are read exactly. -/
theorem isExact_prototype (width : SizeWidth) (depth : Nat) : (prototype width depth).IsExact := by
  induction depth with
  | zero => exact isExact_fail _
  | succ depth ih =>
    exact (isExact_string? width).bind fun _ => (isExact_natural 4).bind fun _ =>
      (isExact_natural 4).bind fun _ => isExact_byte.bind fun _ => isExact_byte.bind fun _ =>
      isExact_byte.bind fun _ => isExact_byte.bind fun _ => isExact_code.bind fun _ =>
      (isExact_listOf (isExact_literal width)).bind fun _ => (isExact_listOf ih).bind fun _ =>
      (isExact_listOf (isExact_natural 4)).bind fun _ =>
      (isExact_listOf (isExact_localVariable width)).bind fun _ =>
      (isExact_listOf (isExact_name width)).bind fun _ => isExact_pure _

/-! ## The bound on the depth -/

/-- The readers agree on inputs with fewer than `n` bytes. -/
def AgreeBelow (n : Nat) (r r' : Reader α) : Prop :=
  ∀ bytes, bytes.length < n → r bytes = r' bytes

theorem AgreeBelow.refl (n : Nat) (r : Reader α) : AgreeBelow n r r := fun _ _ => rfl

theorem AgreeBelow.bind {n : Nat} {r r' : Reader α} {f f' : α → Reader β} (h : AgreeBelow n r r')
    (hr : r.IsExact) (hf : ∀ a, AgreeBelow n (f a) (f' a)) :
    AgreeBelow n (r >>= f) (r' >>= f') := by
  intro bytes hlt
  have hbytes := h bytes hlt
  cases hout : r bytes with
  | error e => rw [bind_eq_of_error hout, bind_eq_of_error (hbytes ▸ hout)]
  | ok out =>
    obtain ⟨used, rfl, -⟩ := hr bytes out.1 out.2 hout
    rw [bind_eq_of_ok hout, bind_eq_of_ok (hbytes ▸ hout)]
    rw [List.length_append] at hlt
    exact hf out.1 out.2 (by omega)

/-- After a first step that takes a byte, agreement on shorter inputs is enough. -/
theorem AgreeBelow.bind_of_lt {n : Nat} {r : Reader α} {f f' : α → Reader β}
    (hr : ∀ bytes a rest, r bytes = .ok (a, rest) → rest.length < bytes.length)
    (hf : ∀ a, AgreeBelow n (f a) (f' a)) : AgreeBelow (n + 1) (r >>= f) (r >>= f') := by
  intro bytes hlt
  cases hout : r bytes with
  | error e => rw [bind_eq_of_error hout, bind_eq_of_error hout]
  | ok out =>
    have hrest := hr bytes out.1 out.2 hout
    rw [bind_eq_of_ok hout, bind_eq_of_ok hout]
    exact hf out.1 out.2 (by omega)

theorem AgreeBelow.many {n : Nat} {item item' : Reader α} (h : AgreeBelow n item item')
    (hitem : item.IsExact) (count : Nat) : AgreeBelow n (many item count) (many item' count) := by
  induction count with
  | zero => exact .refl n _
  | succ count ih =>
    exact h.bind hitem fun x => ih.bind (isExact_many hitem count) fun xs => .refl n _

theorem AgreeBelow.listOf {n : Nat} {item item' : Reader α} (h : AgreeBelow n item item')
    (hitem : item.IsExact) : AgreeBelow n (listOf item) (listOf item') :=
  (AgreeBelow.refl n _).bind (isExact_natural 4) fun count => h.many hitem count

/-- Every string takes at least the bytes of its length. -/
theorem length_lt_of_string? {width : SizeWidth} {bytes rest : List UInt8}
    {s : Option (List UInt8)} (h : string? width bytes = .ok (s, rest)) :
    rest.length < bytes.length := by
  obtain ⟨used, rfl, hused⟩ := isExact_string? width bytes s rest h
  have hne : used ≠ [] := by
    rintro rfl
    have hempty := hused.reads []
    cases width <;> cases hempty
  have := List.length_pos_iff.2 hne
  rw [List.length_append]
  omega

/-- A prototype within fewer than `d` bytes is nested less than `d` levels deep. -/
theorem prototype_agreeBelow (width : SizeWidth) {d d' : Nat} (h : d ≤ d') :
    AgreeBelow d (prototype width d) (prototype width d') := by
  induction d generalizing d' with
  | zero => exact fun bytes hlt => absurd hlt (Nat.not_lt_zero _)
  | succ d ih =>
    cases d' with
    | zero => omega
    | succ d' =>
      have hchildren := (ih (Nat.le_of_succ_le_succ h)).listOf (isExact_prototype width d)
      refine .bind_of_lt (fun _ _ _ => length_lt_of_string?) fun _ => ?_
      refine (AgreeBelow.refl d _).bind (isExact_natural 4) fun _ => ?_
      refine (AgreeBelow.refl d _).bind (isExact_natural 4) fun _ => ?_
      refine (AgreeBelow.refl d _).bind isExact_byte fun _ => ?_
      refine (AgreeBelow.refl d _).bind isExact_byte fun _ => ?_
      refine (AgreeBelow.refl d _).bind isExact_byte fun _ => ?_
      refine (AgreeBelow.refl d _).bind isExact_byte fun _ => ?_
      refine (AgreeBelow.refl d _).bind isExact_code fun _ => ?_
      refine (AgreeBelow.refl d _).bind (isExact_listOf (isExact_literal width)) fun _ => ?_
      exact hchildren.bind (isExact_listOf (isExact_prototype width d)) fun _ => .refl d _

/-- Any two bounds above the number of bytes give the same answer. -/
theorem prototype_eq (width : SizeWidth) {d d' : Nat} {bytes : List UInt8}
    (h : bytes.length < d) (h' : bytes.length < d') :
    prototype width d bytes = prototype width d' bytes := by
  rcases Nat.le_total d d' with hle | hle
  · exact prototype_agreeBelow width hle bytes h
  · exact (prototype_agreeBelow width hle bytes h').symm

end ShortCircuit.Reader

namespace ShortCircuit.Chunk

/-! ## The header -/

/-- The header of a chunk with string lengths of the given width. -/
def header (width : SizeWidth) : List UInt8 :=
  signature ++ [version, format, 1, 4, UInt8.ofNat width.bytes, 4, 8, 0]

theorem length_header (width : SizeWidth) : (header width).length = 12 := by
  cases width <;> rfl

theorem readHeader_header (width : SizeWidth) (body : List UInt8) :
    readHeader (header width ++ body) = .ok (width, body) := by
  cases width <;> rfl

/-- What is accepted as a header is the header of the width that is announced. -/
theorem readHeader_eq_ok_iff {bytes body : List UInt8} {width : SizeWidth} :
    readHeader bytes = .ok (width, body) ↔ bytes = header width ++ body := by
  refine ⟨fun h => ?_, fun h => h ▸ readHeader_header width body⟩
  unfold readHeader at h
  split at h
  · split_ifs at h with hsignature hversion hformat horder hword hsize hnumber height
    all_goals obtain ⟨rfl, rfl⟩ := Prod.mk.inj (Except.ok.inj h)
    all_goals simp_all [header, signature, SizeWidth.bytes]
  · cases h

theorem readHeader_of_length_lt {bytes : List UInt8} (h : bytes.length < 12) :
    readHeader bytes = .error .badSignature := by
  unfold readHeader
  split
  · simp only [List.length_cons] at h
    omega
  · rfl

/-- A chunk is a header and a prototype. -/
theorem read_header_append (width : SizeWidth) (body : List UInt8) :
    read (header width ++ body) =
      match Reader.prototype width (body.length + 12) body with
      | .ok (main, _) => .ok { sizeWidth := width, main }
      | .error failure => .error (.malformed failure) := by
  have hlength : (header width ++ body).length = body.length + 12 := by
    rw [List.length_append, length_header, Nat.add_comm]
  rw [read, readHeader_header, hlength]
  rfl

/-- A prototype that is read whatever follows makes a chunk that is read whatever follows. -/
theorem read_of_reads {width : SizeWidth} {depth : Nat} {body : List UInt8} {main : PrototypeTree}
    (h : (Reader.prototype width depth).Reads body main) (hdepth : body.length < depth)
    (trailing : List UInt8) :
    read (header width ++ body ++ trailing) = .ok { sizeWidth := width, main } := by
  have hlt : body.length < (body ++ trailing).length + 12 := by
    rw [List.length_append]
    omega
  have hbody := h []
  rw [List.append_nil, Reader.prototype_eq width hdepth hlt] at hbody
  obtain ⟨used, rfl, hused⟩ := Reader.isExact_prototype width _ _ _ _ hbody
  rw [List.append_nil] at hused ⊢
  rw [List.append_assoc, read_header_append, hused.reads trailing]

theorem read_of_length_lt {bytes : List UInt8} (h : bytes.length < 12) :
    read bytes = .error .badSignature := by
  rw [read, readHeader_of_length_lt h]
  rfl

/-- What is accepted starts with a header and a prototype. -/
theorem exists_of_read {bytes : List UInt8} {c : Chunk} (h : read bytes = .ok c) :
    ∃ body rest, bytes = header c.sizeWidth ++ body ∧
      Reader.prototype c.sizeWidth (body.length + 12) body = .ok (c.main, rest) := by
  cases hheader : readHeader bytes with
  | error e =>
    rw [read, hheader] at h
    cases h
  | ok out =>
    obtain rfl := readHeader_eq_ok_iff.1 hheader
    rw [read_header_append] at h
    split at h
    · next main rest hmain =>
      cases h
      exact ⟨out.2, rest, rfl, hmain⟩
    · cases h

/-- After a header, bytes on which no prototype is read are malformed. -/
theorem exists_malformed {width : SizeWidth} {depth : Nat} {body : List UInt8}
    (hdepth : body.length < depth) (h : ∀ out, Reader.prototype width depth body ≠ .ok out) :
    ∃ failure, read (header width ++ body) = .error (.malformed failure) := by
  rw [read_header_append, Reader.prototype_eq width (by omega) hdepth]
  cases hbody : Reader.prototype width depth body with
  | error failure => exact ⟨failure, rfl⟩
  | ok out => exact absurd hbody (h out)

/-- An accepted chunk ends at a definite place: what follows does not matter, and nothing that ends
before is accepted. -/
theorem read_isDelimited {bytes : List UInt8} {c : Chunk} (h : read bytes = .ok c) :
    ∃ n ≤ bytes.length, (∀ rest, read (bytes.take n ++ rest) = .ok c) ∧
      ∀ m < n, (m < 12 → read (bytes.take m) = .error .badSignature) ∧
        (12 ≤ m → ∃ failure, read (bytes.take m) = .error (.malformed failure)) := by
  obtain ⟨body, rest, rfl, hmain⟩ := exists_of_read h
  obtain ⟨used, rfl, hused⟩ := Reader.isExact_prototype _ _ _ _ _ hmain
  have hheader := length_header c.sizeWidth
  have htake : ∀ k ≤ used.length, (header c.sizeWidth ++ (used ++ rest)).take (12 + k) =
      header c.sizeWidth ++ used.take k := by
    intro k hk
    rw [← hheader, List.take_length_add_append, List.take_append_of_le_length hk]
  refine ⟨12 + used.length, ?_, fun trailing => ?_, fun m hm => ⟨fun hlt => ?_, fun hle => ?_⟩⟩
  · simp only [List.length_append, hheader]
    omega
  · rw [htake _ (Nat.le_refl _), List.take_length]
    exact read_of_reads hused.reads (by rw [List.length_append]; omega) trailing
  · exact read_of_length_lt (by rw [List.length_take]; omega)
  · obtain ⟨k, rfl⟩ := Nat.exists_eq_add_of_le hle
    have hk : k < used.length := by omega
    have hlength : (used.take k).length = k := by rw [List.length_take]; omega
    rw [htake k hk.le]
    refine exists_malformed ?_ (hused.fails _ (List.take_prefix k used) fun heq => ?_)
    · rw [hlength, List.length_append]
      omega
    · rw [heq] at hlength
      omega

/-- A chunk with a string constant that ends in a zero byte, a function inside it and bytes after
its end. -/
theorem read_isDelimited_of_nested :
    let bytes := header .four ++
      [0, 0, 0, 0, 0, 0, 0, 0, 0, 0, 0, 0, 0, 0, 2, 2,
       1, 0, 0, 0, 0x1E, 0, 0x80, 0,
       1, 0, 0, 0, 4, 3, 0, 0, 0, 0x61, 0, 0,
       1, 0, 0, 0] ++ List.replicate 40 0 ++ List.replicate 12 0 ++ [7, 7]
    ∃ c, read bytes = .ok c ∧ c.main.subtrees.length = 2 ∧
      ∃ n ≤ bytes.length, (∀ rest, read (bytes.take n ++ rest) = .ok c) ∧
        ∀ m < n, (m < 12 → read (bytes.take m) = .error .badSignature) ∧
          (12 ≤ m → ∃ failure, read (bytes.take m) = .error (.malformed failure)) :=
  ⟨_, rfl, rfl, read_isDelimited rfl⟩

end ShortCircuit.Chunk
