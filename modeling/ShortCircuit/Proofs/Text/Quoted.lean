import ShortCircuit.Literal
import ShortCircuit.Proofs.Text.Comparison
import Mathlib.Data.List.Chain
import Mathlib.Data.Nat.Digits.Defs
import Mathlib.Tactic.Common

/-!
# Reading a literal back

A byte without a character of its own is written as its number, without padding. Reading takes up to
three digits for a number, so a number of one or two digits takes the digits behind it along, too.
Exactly then a literal stands for other bytes than those it was written for.

* `Quoted.Separated`: no short number is followed by a digit.
* `Quoted.decodeBody_escape`, `Quoted.decodeBody_glued`: how a byte is read back, before other bytes
  and before digits that join it.
* `Literal.decode?_render_string`: the strings that are read back from their literals.
* `Literal.render_string_collides`: two strings with the same literal.
-/

namespace ShortCircuit

namespace Quoted

/-- A byte that is a decimal digit. -/
def isDigit (b : UInt8) : Bool := 48 ≤ b.toNat && b.toNat ≤ 57

/-- A byte that is written as a number of one or two digits. -/
def isShort (b : UInt8) : Bool := b.toNat < 32 && b != 9 && b != 10 && b != 13

/-- No byte that is written as a short number stands before a digit. -/
def Separated (bytes : List UInt8) : Prop :=
  bytes.IsChain fun b d => ¬(isShort b = true ∧ isDigit d = true)

instance (bytes : List UInt8) : Decidable (Separated bytes) :=
  inferInstanceAs (Decidable (bytes.IsChain _))

/-- A literal behind its opening quote. -/
def tailChars (bytes : List UInt8) : List Char := bytes.flatMap escape ++ ['"']

theorem tailChars_nil : tailChars [] = ['"'] := rfl

theorem tailChars_cons (b : UInt8) (bytes : List UInt8) :
    tailChars (b :: bytes) = escape b ++ tailChars bytes := by
  rw [tailChars, List.flatMap_cons, List.append_assoc, tailChars]

theorem decode?_encode (bytes : List UInt8) :
    decode? (encode bytes) = decodeBody (tailChars bytes) := by
  rw [decode?, encode, String.toList_ofList]
  rfl

/-! ## Single bytes -/

/-- The first character of a byte is a digit only if the byte is one. -/
theorem escape_cases (b : UInt8) :
    isDigit b = true ∧ (∃ c, escape b = [c] ∧ c.isDigit = true) ∨
      isDigit b = false ∧ ∃ c cs, escape b = c :: cs ∧ c.isDigit = false := by
  have htable : ∀ n < 256, (isDigit (.ofNat n) = true ∧
      (escape (.ofNat n)).length = 1 ∧ (escape (.ofNat n)).all Char.isDigit = true) ∨
      isDigit (.ofNat n) = false ∧ (escape (.ofNat n)).head?.any (!Char.isDigit ·) = true := by
    decide +kernel
  have hb := htable b.toNat b.toNat_lt
  rw [UInt8.ofNat_toNat] at hb
  rcases hb with ⟨hd, hlength, hall⟩ | ⟨hd, hhead⟩
  · obtain ⟨c, hc⟩ := List.length_eq_one_iff.1 hlength
    exact .inl ⟨hd, c, hc, by simpa [hc] using hall⟩
  · cases hc : escape b with
    | nil => simp [hc] at hhead
    | cons c cs => exact .inr ⟨hd, c, cs, rfl, by simpa [hc] using hhead⟩

theorem decodeBody_letter {c : Char} {b : UInt8} (h : letter? c = some b) (rest : List Char) :
    decodeBody ('\\' :: c :: rest) = (decodeBody rest).map (b :: ·) := by
  rw [decodeBody.eq_def]
  simp [h]

theorem decodeBody_plain {c : Char} (hquote : c ≠ '"') (hback : c ≠ '\\') (rest : List Char) :
    decodeBody (c :: rest) = (decodeBody rest).map (UInt8.ofNat c.toNat :: ·) := by
  rw [decodeBody.eq_def]
  simp [hback]

theorem decodeBody_number {c : Char} (h : c.isDigit = true) (rest : List Char) :
    decodeBody ('\\' :: c :: rest) =
      if digitsValue (digitRun (c :: rest)).1 < 256 then
        (decodeBody (digitRun (c :: rest)).2).map
          (UInt8.ofNat (digitsValue (digitRun (c :: rest)).1) :: ·)
      else none := by
  have hletter : letter? c = none := by
    unfold letter?
    split_ifs with h1 h2 h3 h4 h5 <;> first | rfl | (subst_vars; exact nomatch h)
  rw [decodeBody.eq_def]
  simp [hletter, h]

/-! ## Numbers -/

/-- The digits at the front of a literal are those of the digits at the front of its bytes. -/
theorem digits_tailChars (n : Nat) (bytes : List UInt8) :
    (((tailChars bytes).take n).takeWhile Char.isDigit).length =
        ((bytes.take n).takeWhile isDigit).length ∧
      (tailChars bytes).drop ((bytes.take n).takeWhile isDigit).length =
        tailChars (bytes.drop ((bytes.take n).takeWhile isDigit).length) := by
  induction bytes generalizing n with
  | nil => cases n <;> simp [tailChars_nil]
  | cons b bytes ih =>
    cases n with
    | zero => simp
    | succ n =>
      rw [tailChars_cons]
      obtain ⟨hd, c, hc, hcd⟩ | ⟨hd, c, cs, hc, hcd⟩ := escape_cases b
      · obtain ⟨hlength, hdrop⟩ := ih n
        simp [hc, hd, hcd, hlength, hdrop]
      · simp [hc, hd, hcd, tailChars_cons]

/-- A number is read with the digits behind it, up to three in all. -/
theorem digitRun_append {digits : List Char} (hdigits : ∀ c ∈ digits, c.isDigit = true)
    (hlength : digits.length ≤ 3) (bytes : List UInt8) :
    ∃ more : List Char,
      more.length = ((bytes.take (3 - digits.length)).takeWhile isDigit).length ∧
      digitRun (digits ++ tailChars bytes) =
        (digits ++ more, tailChars (bytes.drop more.length)) := by
  obtain ⟨hmore, hdrop⟩ := digits_tailChars (3 - digits.length) bytes
  refine ⟨((tailChars bytes).take (3 - digits.length)).takeWhile Char.isDigit, hmore, ?_⟩
  have htake : (digits ++ tailChars bytes).take 3 =
      digits ++ (tailChars bytes).take (3 - digits.length) := by
    rw [List.take_append, List.take_of_length_le hlength]
  rw [digitRun, htake, List.takeWhile_append_of_pos hdigits]
  simp only [List.length_append, List.drop_length_add_append, hmore, hdrop]

/-- A byte that is written as its number is read with the digits behind it, up to three in all. -/
theorem decodeBody_digits (b : UInt8) (bytes : List UInt8) :
    ∃ more : List Char,
      more.length =
        ((bytes.take (3 - (Nat.toDigits 10 b.toNat).length)).takeWhile isDigit).length ∧
      decodeBody ('\\' :: Nat.toDigits 10 b.toNat ++ tailChars bytes) =
        if digitsValue (Nat.toDigits 10 b.toNat ++ more) < 256 then
          (decodeBody (tailChars (bytes.drop more.length))).map
            (UInt8.ofNat (digitsValue (Nat.toDigits 10 b.toNat ++ more)) :: ·)
        else none := by
  have hdigits : ∀ c ∈ Nat.toDigits 10 b.toNat, c.isDigit = true := fun c hc =>
    Nat.isDigit_of_mem_toDigits (by decide) (by decide) hc
  have hlength : (Nat.toDigits 10 b.toNat).length ≤ 3 :=
    Nat.toDigits_length 10 b.toNat 3 (by decide) (Nat.lt_of_lt_of_le b.toNat_lt (by decide))
  obtain ⟨more, hmore, hrun⟩ := digitRun_append hdigits hlength bytes
  refine ⟨more, hmore, ?_⟩
  cases hd : Nat.toDigits 10 b.toNat with
  | nil => exact absurd hd Nat.toDigits_ne_nil
  | cons d ds =>
    rw [hd] at hrun hdigits
    rw [List.cons_append, List.cons_append, decodeBody_number (hdigits d (by simp)),
      ← List.cons_append, hrun]

/-! ## Strings of bytes -/

/-- What stands for a byte: an escaped letter, the byte itself, a number of three digits, or a number
that leaves room for more of them. -/
inductive Spelling (b : UInt8) : List Char → Prop
  | letter {c : Char} (hshort : isShort b = false) (hc : letter? c = some b) : Spelling b ['\\', c]
  | plain {c : Char} (hshort : isShort b = false) (hquote : c ≠ '"') (hback : c ≠ '\\')
      (hc : UInt8.ofNat c.toNat = b) : Spelling b [c]
  | long (hshort : isShort b = false) (hlength : 3 - (Nat.toDigits 10 b.toNat).length = 0) :
      Spelling b ('\\' :: Nat.toDigits 10 b.toNat)
  | short {n : Nat} (hshort : isShort b = true)
      (hlength : 3 - (Nat.toDigits 10 b.toNat).length = n + 1) :
      Spelling b ('\\' :: Nat.toDigits 10 b.toNat)

theorem spelling_escape (b : UInt8) : Spelling b (escape b) := by
  unfold escape
  split_ifs with hquote hback hline hreturn htab hprint
  · subst hquote
    exact .letter rfl rfl
  · subst hback
    exact .letter rfl rfl
  · subst hline
    exact .letter rfl rfl
  · subst hreturn
    exact .letter rfl rfl
  · subst htab
    exact .letter rfl rfl
  · have htable : ∀ n < 127, 32 ≤ n → (Char.ofNat n).toNat = n := by decide
    have hchar := htable b.toNat (by omega) hprint.1
    obtain ⟨hq, hc⟩ := Comparison.ofNat_ne hquote hback
    exact .plain (by simp [isShort, hprint.1]) hq hc (by rw [hchar, UInt8.ofNat_toNat])
  · have htable : ∀ n < 256, (n < 32 → 3 - (Nat.toDigits 10 n).length ≠ 0) ∧
        (126 < n → 3 - (Nat.toDigits 10 n).length = 0) := by
      decide +kernel
    obtain ⟨hlow, hhigh⟩ := htable b.toNat b.toNat_lt
    by_cases hb : b.toNat < 32
    · obtain ⟨n, hn⟩ := Nat.exists_eq_succ_of_ne_zero (hlow hb)
      exact .short (by simp [isShort, hb, hline, hreturn, htab]) hn
    · exact .long (by simp [isShort, hb]) (hhigh (by omega))

/-- A byte is read back, unless it is a short number before a digit. -/
theorem decodeBody_escape {b : UInt8} {bytes : List UInt8}
    (h : ∀ d ∈ bytes.head?, ¬(isShort b = true ∧ isDigit d = true)) :
    decodeBody (escape b ++ tailChars bytes) = (decodeBody (tailChars bytes)).map (b :: ·) := by
  have hvalue : digitsValue (Nat.toDigits 10 b.toNat) = b.toNat := Nat.ofDigitChars_ten_toDigits
  obtain ⟨more, hmore, hread⟩ := decodeBody_digits b bytes
  have halone (hnone : more = []) : decodeBody ('\\' :: Nat.toDigits 10 b.toNat ++ tailChars bytes) =
      (decodeBody (tailChars bytes)).map (b :: ·) := by
    rw [hread, hnone, List.append_nil, hvalue, if_pos b.toNat_lt, UInt8.ofNat_toNat]
    rfl
  have hspelling := spelling_escape b
  generalize escape b = cs at hspelling
  cases hspelling with
  | letter _ hc => exact decodeBody_letter hc _
  | plain _ hquote hback hc => rw [List.singleton_append, decodeBody_plain hquote hback, hc]
  | long _ hlength =>
    refine halone (List.length_eq_zero_iff.1 ?_)
    rw [hmore, hlength, List.take_zero, List.takeWhile_nil, List.length_nil]
  | short hshort hlength =>
    refine halone (List.length_eq_zero_iff.1 ?_)
    cases bytes with
    | nil => simp [hmore]
    | cons d bytes =>
      have hd : ¬isDigit d = true := fun hd => h d rfl ⟨hshort, hd⟩
      rw [hmore, hlength, List.take_succ_cons, List.takeWhile_cons_of_neg hd, List.length_nil]

/-- A short number takes the digit behind it along, so there is a byte less to be read. -/
theorem decodeBody_glued {b d : UInt8} (hb : isShort b = true) (hd : isDigit d = true)
    {bytes read : List UInt8} (h : decodeBody (escape b ++ tailChars (d :: bytes)) = some read) :
    ∃ n c rest, read = c :: rest ∧ decodeBody (tailChars (bytes.drop n)) = some rest := by
  have hspelling := spelling_escape b
  generalize escape b = cs at hspelling h
  cases hspelling with
  | letter hshort => exact absurd (hb.symm.trans hshort) (by decide)
  | plain hshort => exact absurd (hb.symm.trans hshort) (by decide)
  | long hshort => exact absurd (hb.symm.trans hshort) (by decide)
  | short _ hlength =>
    obtain ⟨more, hmore, hread⟩ := decodeBody_digits b (d :: bytes)
    rw [hlength, List.take_succ_cons, List.takeWhile_cons_of_pos hd, List.length_cons] at hmore
    rw [hread, hmore, List.drop_succ_cons] at h
    split_ifs at h
    obtain ⟨rest, hrest, rfl⟩ := Option.map_eq_some_iff.1 h
    exact ⟨_, _, rest, rfl, hrest⟩

/-- Separated bytes are read back. -/
theorem decodeBody_of_separated {bytes : List UInt8} (h : Separated bytes) :
    decodeBody (tailChars bytes) = some bytes := by
  induction bytes with
  | nil =>
    rw [tailChars_nil, decodeBody.eq_def]
    rfl
  | cons b bytes ih =>
    obtain ⟨hfirst, hrest⟩ := List.isChain_cons.1 h
    rw [tailChars_cons, decodeBody_escape hfirst, ih hrest]
    rfl

/-- Never more bytes are read than were written, and fewer unless they are separated. -/
theorem length_of_decodeBody {bytes read : List UInt8}
    (h : decodeBody (tailChars bytes) = some read) :
    read.length ≤ bytes.length ∧ (read.length = bytes.length → Separated bytes) := by
  induction hsize : bytes.length using Nat.strongRecOn generalizing bytes read with
  | ind size ih =>
    subst hsize
    cases bytes with
    | nil =>
      rw [decodeBody_of_separated .nil] at h
      cases h
      exact ⟨Nat.le_refl 0, fun _ => .nil⟩
    | cons b bytes =>
      rw [tailChars_cons] at h
      by_cases hfirst : ∀ d ∈ bytes.head?, ¬(isShort b = true ∧ isDigit d = true)
      · rw [decodeBody_escape hfirst] at h
        obtain ⟨rest, hrest, rfl⟩ := Option.map_eq_some_iff.1 h
        obtain ⟨hle, hseparated⟩ := ih _ (Nat.lt_succ_self _) hrest rfl
        refine ⟨Nat.succ_le_succ hle, fun hlength => ?_⟩
        exact List.isChain_cons.2 ⟨hfirst, hseparated (Nat.succ.inj hlength)⟩
      · simp only [not_forall, not_not] at hfirst
        obtain ⟨d, hhead, hb, hd⟩ := hfirst
        obtain ⟨bytes, rfl⟩ : ∃ tail, bytes = d :: tail := List.head?_eq_some_iff.1 hhead
        obtain ⟨n, c, rest, rfl, hrest⟩ := decodeBody_glued hb hd h
        have hdrop : (bytes.drop n).length ≤ bytes.length := by simp
        have hle := (ih _ (by simp; omega) hrest rfl).1
        simp only [List.length_cons]
        omega

end Quoted

namespace Literal

open Quoted (Separated)

/-- A string constant is read back from its literal exactly when no byte that is written as a short
number stands before a digit; otherwise fewer bytes are read, if any. Among the strings that are read
back, each has a literal of its own. -/
theorem decode?_render_string (bytes : List UInt8) :
    (Quoted.decode? (render (.string bytes)) = some bytes ↔ Separated bytes) ∧
    (∀ read, Quoted.decode? (render (.string bytes)) = some read → ¬Separated bytes →
      read.length < bytes.length) ∧
    ∀ other, Separated bytes → Separated other →
      render (.string bytes) = render (.string other) → bytes = other := by
  have hread (bytes : List UInt8) : Quoted.decode? (render (.string bytes)) =
      Quoted.decodeBody (Quoted.tailChars bytes) := Quoted.decode?_encode bytes
  refine ⟨?_, fun read h hjoined => ?_, fun other hb ho heq => ?_⟩
  · rw [hread]
    exact ⟨fun h => (Quoted.length_of_decodeBody h).2 rfl, Quoted.decodeBody_of_separated⟩
  · rw [hread] at h
    obtain ⟨hle, hseparated⟩ := Quoted.length_of_decodeBody h
    exact Nat.lt_of_le_of_ne hle (mt hseparated hjoined)
  · refine Option.some.inj ?_
    calc
      some bytes = Quoted.decode? (render (.string bytes)) := by
        rw [hread, Quoted.decodeBody_of_separated hb]
      _ = Quoted.decode? (render (.string other)) := by rw [heq]
      _ = some other := by rw [hread, Quoted.decodeBody_of_separated ho]

/-- The byte 31 is read back before a letter. -/
theorem decode?_render_string_letter :
    Separated [31, 97] ∧
      Quoted.decode? (render (.string [31, 97])) = some [31, 97] :=
  ⟨by decide, (decode?_render_string [31, 97]).1.2 (by decide)⟩

/-- The byte 1 before a digit has the literal of the byte 12, and the byte 8 before two digits makes
a number that is too large. -/
theorem render_string_collides :
    render (.string [1, 50]) = render (.string [12]) ∧
      Quoted.decode? (render (.string [1, 50])) = some [12] ∧
      Quoted.decode? (render (.string [8, 57, 57])) = none := by
  decide +kernel

end Literal

end ShortCircuit
