import ShortCircuit.Text.Utf8
import Mathlib.Tactic.Common

/-!
# Texts survive as bytes

The decoder accepts any bytes, so it is judged by what it does on the bytes of a text: it gives the
text back.

* `Utf8.lead?_of_two`, `Utf8.exists_lead?_of_three`, `Utf8.exists_lead?_of_four`: the first
  byte of a character announces its length and admits its second byte.
* `Utf8.decodeChars_encodeChar`: the bytes of a character are decoded to it, whatever follows.
* `Utf8.decode_encode`: decoding undoes encoding.
-/

namespace ShortCircuit.Utf8

/-! ## Bytes after the first -/

theorem tail_of_owed_eq_zero {lead : Lead} (h : lead.owed = 0) (bytes : List UInt8) :
    tail lead bytes = (some lead.bits, bytes) := by
  cases bytes with
  | nil => rw [tail, if_pos h]
  | cons b rest => rw [tail, if_pos h]

theorem toNat_ofNat_of_lt {n : Nat} (h : n < 256) : (UInt8.ofNat n).toNat = n := by
  rw [UInt8.toNat_ofNat']
  omega

/-- A continuation byte in range adds its six low bits. -/
theorem tail_continuation {low high n : Nat} (hlow : low ≤ n % 64 + 128)
    (hhigh : n % 64 + 128 ≤ high) (owed bits : Nat) (rest : List UInt8) :
    tail ⟨owed + 1, low, high, bits⟩ (UInt8.ofNat (n % 64 + 128) :: rest) =
      tail ⟨owed, 0x80, 0xBF, bits * 64 + n % 64⟩ rest := by
  have hbyte := toNat_ofNat_of_lt (n := n % 64 + 128) (by omega)
  have hbits : (n % 64 + 128) % 64 = n % 64 := by omega
  rw [tail, if_neg (Nat.succ_ne_zero owed), hbyte, if_pos ⟨hlow, hhigh⟩, hbits,
    Nat.add_sub_cancel]

/-- The last byte of a character completes its number. -/
theorem tail_last (n : Nat) (rest : List UInt8) :
    tail ⟨1, 0x80, 0xBF, n / 64⟩ (UInt8.ofNat (n % 64 + 128) :: rest) = (some n, rest) := by
  have hn : n / 64 * 64 + n % 64 = n := by omega
  rw [tail_continuation (by omega) (by omega) 0, tail_of_owed_eq_zero (by rfl), hn]

theorem tail_last_two (n : Nat) (rest : List UInt8) :
    tail ⟨2, 0x80, 0xBF, n / 4096⟩
      (UInt8.ofNat (n / 64 % 64 + 128) :: UInt8.ofNat (n % 64 + 128) :: rest) = (some n, rest) := by
  have hn : n / 4096 * 64 + n / 64 % 64 = n / 64 := by omega
  rw [tail_continuation (by omega) (by omega) 1, hn, tail_last]

theorem decodeChars_cons {b : UInt8} {lead : Lead} {point : Nat} {bytes rest : List UInt8}
    (hlead : lead? b.toNat = some lead) (htail : tail lead bytes = (some point, rest)) :
    decodeChars (b :: bytes) = Char.ofNat point :: decodeChars rest := by
  rw [decodeChars, hlead]
  simp only [htail]

/-! ## First bytes -/

theorem lead?_of_one {n : Nat} (h : n ≤ 127) : lead? n = some ⟨0, 0x80, 0xBF, n⟩ := by
  rw [lead?, if_pos (by omega)]

theorem lead?_of_two {n : Nat} (hn : 127 < n) (h : n ≤ 2047) :
    lead? (n / 64 % 32 + 192) = some ⟨1, 0x80, 0xBF, n / 64⟩ := by
  have hbits : n / 64 % 32 + 192 - 0xC0 = n / 64 := by omega
  rw [lead?, if_neg (by omega), if_neg (by omega), if_pos (by omega), hbits]

/-- The first of three bytes excludes numbers that two bytes can hold, and those between the halves
of the range of characters. -/
theorem exists_lead?_of_three {n : Nat} (hn : 2047 < n) (h : n ≤ 65535)
    (hvalid : n < 55296 ∨ 57343 < n) :
    ∃ low high, lead? (n / 4096 % 16 + 224) = some ⟨2, low, high, n / 4096⟩ ∧
      low ≤ n / 64 % 64 + 128 ∧ n / 64 % 64 + 128 ≤ high := by
  unfold lead?
  rw [if_neg (by omega), if_neg (by omega), if_neg (by omega)]
  split_ifs with hfirst hlast
  · refine ⟨0xA0, 0xBF, ?_, by omega, by omega⟩
    rw [show n / 4096 = 0 by omega]
  · refine ⟨0x80, 0x9F, ?_, by omega, by omega⟩
    rw [show n / 4096 = 0xD by omega]
  · refine ⟨0x80, 0xBF, ?_, by omega, by omega⟩
    rw [show n / 4096 % 16 + 224 - 0xE0 = n / 4096 by omega]
  all_goals omega

/-- The first of four bytes excludes numbers that three bytes can hold, and those above the range of
characters. -/
theorem exists_lead?_of_four {n : Nat} (hn : 65535 < n) (h : n < 1114112) :
    ∃ low high, lead? (n / 262144 % 8 + 240) = some ⟨3, low, high, n / 262144⟩ ∧
      low ≤ n / 4096 % 64 + 128 ∧ n / 4096 % 64 + 128 ≤ high := by
  unfold lead?
  rw [if_neg (by omega), if_neg (by omega), if_neg (by omega), if_neg (by omega),
    if_neg (by omega), if_neg (by omega)]
  split_ifs with hfirst hmiddle hlast
  · refine ⟨0x90, 0xBF, ?_, by omega, by omega⟩
    rw [show n / 262144 = 0 by omega]
  · refine ⟨0x80, 0xBF, ?_, by omega, by omega⟩
    rw [show n / 262144 % 8 + 240 - 0xF0 = n / 262144 by omega]
  · refine ⟨0x80, 0x8F, ?_, by omega, by omega⟩
    rw [show n / 262144 = 4 by omega]
  · omega

/-! ## Characters and texts -/

/-- The bytes of a character are decoded to it, whatever follows. -/
theorem decodeChars_encodeChar (c : Char) (rest : List UInt8) :
    decodeChars (String.utf8EncodeChar c ++ rest) = c :: decodeChars rest := by
  have hc : Char.ofNat c.val.toNat = c := c.ofNat_toNat
  have hvalid : c.val.toNat < 55296 ∨ 57343 < c.val.toNat ∧ c.val.toNat < 1114112 := c.valid
  unfold String.utf8EncodeChar
  generalize c.val.toNat = n at hc hvalid
  dsimp only
  split_ifs with h1 h2 h3
  · have hlead := lead?_of_one h1
    rw [← toNat_ofNat_of_lt (n := n) (by omega)] at hlead
    rw [List.singleton_append, decodeChars_cons hlead (tail_of_owed_eq_zero rfl rest),
      toNat_ofNat_of_lt (by omega), hc]
  · have hlead := lead?_of_two (n := n) (by omega) h2
    rw [← toNat_ofNat_of_lt (n := n / 64 % 32 + 192) (by omega)] at hlead
    rw [List.cons_append, List.singleton_append, decodeChars_cons hlead (tail_last n rest), hc]
  · obtain ⟨low, high, hlead, hlow, hhigh⟩ :=
      exists_lead?_of_three (n := n) (by omega) h3 (by omega)
    rw [← toNat_ofNat_of_lt (n := n / 4096 % 16 + 224) (by omega)] at hlead
    have htail := tail_continuation hlow hhigh 1 (n / 4096) (UInt8.ofNat (n % 64 + 128) :: rest)
    rw [show n / 4096 * 64 + n / 64 % 64 = n / 64 by omega, tail_last] at htail
    rw [List.cons_append, List.cons_append, List.singleton_append, decodeChars_cons hlead htail, hc]
  · obtain ⟨low, high, hlead, hlow, hhigh⟩ := exists_lead?_of_four (n := n) (by omega) (by omega)
    rw [← toNat_ofNat_of_lt (n := n / 262144 % 8 + 240) (by omega)] at hlead
    have htail := tail_continuation hlow hhigh 2 (n / 262144)
      (UInt8.ofNat (n / 64 % 64 + 128) :: UInt8.ofNat (n % 64 + 128) :: rest)
    rw [show n / 262144 * 64 + n / 4096 % 64 = n / 4096 by omega, tail_last_two] at htail
    rw [List.cons_append, List.cons_append, List.cons_append, List.singleton_append,
      decodeChars_cons hlead htail, hc]

theorem decodeChars_flatMap (cs : List Char) :
    decodeChars (cs.flatMap String.utf8EncodeChar) = cs := by
  induction cs with
  | nil => rw [List.flatMap_nil, decodeChars]
  | cons c cs ih => rw [List.flatMap_cons, decodeChars_encodeChar, ih]

/-- Decoding the bytes of a text gives the text. -/
theorem decode_encode (s : String) : decode (encode s) = s := by
  rw [decode, encode, decodeChars_flatMap, String.ofList_toList]

end ShortCircuit.Utf8
