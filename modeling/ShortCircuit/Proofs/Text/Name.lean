import ShortCircuit.Literal
import ShortCircuit.Proofs.Text.Utf8

/-!
# Names

A name is a word of letters, digits and underscores that does not start with a digit and is no
keyword. A constant that is written as a name is one.

* `Name.isName`: whether characters form a name.
* `Literal.isName_of_identifier?`: constants are written as names only.
-/

namespace ShortCircuit

namespace Name

/-- A character that may begin a name. -/
def isStart (c : Char) : Bool := c.isAlpha || c == '_'

/-- A character that may follow in a name. -/
def isPart (c : Char) : Bool := isStart c || c.isDigit

/-- Whether characters form a name. -/
def isName : List Char → Bool
  | [] => false
  | c :: cs =>
    isStart c && cs.all isPart && !Literal.keywords.contains (String.ofList (c :: cs))

theorem isPart_of_isStart {c : Char} (h : isStart c = true) : isPart c = true := by
  simp [isPart, h]

theorem isPart_of_mem {cs : List Char} (h : isName cs = true) : ∀ c ∈ cs, isPart c = true := by
  cases cs with
  | nil => exact nomatch h
  | cons c cs =>
    simp only [isName, Bool.and_eq_true, List.all_eq_true] at h
    intro d hd
    rcases List.mem_cons.1 hd with rfl | hd
    · exact isPart_of_isStart h.1.1
    · exact h.1.2 d hd

theorem not_mem_keywords {cs : List Char} (h : isName cs = true) :
    String.ofList cs ∉ Literal.keywords := by
  cases cs with
  | nil => exact nomatch h
  | cons c cs =>
    simp only [isName, Bool.and_eq_true, Bool.not_eq_true'] at h
    simpa using h.2

/-- No keyword has a digit in it. -/
theorem isDigit_eq_false_of_mem_keywords {k : String} (hk : k ∈ Literal.keywords) {c : Char}
    (hc : c ∈ k.toList) : c.isDigit = false := by
  have htable : (Literal.keywords.all fun k => k.toList.all fun c => !c.isDigit) = true := by
    decide
  have hk := List.all_eq_true.1 htable k hk
  simpa using List.all_eq_true.1 hk c hc

/-- A name with a number behind it is a name. -/
theorem isName_numbered {word : String} (hword : isName word.toList = true) (n : Nat) :
    isName (word ++ toString n).toList = true := by
  have hdigits : ∀ d ∈ Nat.toDigits 10 n, d.isDigit = true := fun d hd =>
    Nat.isDigit_of_mem_toDigits (by decide) (by decide) hd
  have hlist : (word ++ toString n).toList = word.toList ++ Nat.toDigits 10 n := by simp
  rw [hlist]
  cases hcs : word.toList with
  | nil =>
    rw [hcs] at hword
    exact nomatch hword
  | cons c cs =>
    rw [hcs] at hword
    simp only [isName, Bool.and_eq_true] at hword
    simp only [List.cons_append, isName, List.all_append, hword.1.1, hword.1.2, Bool.true_and,
      Bool.and_eq_true, List.all_eq_true, Bool.not_eq_true']
    refine ⟨fun d hd => by simp [isPart, hdigits d hd], ?_⟩
    rw [Bool.eq_false_iff, ne_eq, List.contains_iff_mem]
    intro hmem
    obtain ⟨d, hd⟩ := List.exists_mem_of_ne_nil _ (Nat.toDigits_ne_nil (n := n) (b := 10))
    have hfalse := isDigit_eq_false_of_mem_keywords hmem (c := d) (by simp [hd])
    rw [hdigits d hd] at hfalse
    exact absurd hfalse (by decide)

end Name

/-- ASCII bytes are their own characters. -/
theorem Utf8.decodeChars_ascii {bytes : List UInt8} (h : ∀ b ∈ bytes, b.toNat < 128) :
    Utf8.decodeChars bytes = bytes.map fun b => Char.ofNat b.toNat := by
  induction bytes with
  | nil => simp [Utf8.decodeChars]
  | cons b bytes ih =>
    have hb : b.toNat ≤ 127 := Nat.le_of_lt_succ (h b (by simp))
    rw [Utf8.decodeChars_cons (Utf8.lead?_of_one hb) (Utf8.tail_of_owed_eq_zero rfl bytes),
      ih fun c hc => h c (by simp [hc])]
    rfl

namespace Literal

/-- A byte that may begin a name is a character that may. -/
theorem isStart_of_isNameStart {b : UInt8} (h : isNameStart b = true) :
    b.toNat < 128 ∧ Name.isStart (Char.ofNat b.toNat) = true := by
  have htable : ∀ n < 256, ((65 ≤ n ∧ n ≤ 90) ∨ (97 ≤ n ∧ n ≤ 122)) ∨ n = 95 →
      n < 128 ∧ Name.isStart (Char.ofNat n) = true := by decide +kernel
  exact htable b.toNat b.toNat_lt (by simpa [isNameStart] using h)

theorem isPart_of_isNamePart {b : UInt8} (h : isNamePart b = true) :
    b.toNat < 128 ∧ Name.isPart (Char.ofNat b.toNat) = true := by
  have htable : ∀ n < 256, 48 ≤ n ∧ n ≤ 57 → n < 128 ∧ Name.isPart (Char.ofNat n) = true := by
    decide +kernel
  rw [isNamePart, Bool.or_eq_true] at h
  rcases h with h | h
  · obtain ⟨hlt, hstart⟩ := isStart_of_isNameStart h
    exact ⟨hlt, Name.isPart_of_isStart hstart⟩
  · exact htable b.toNat b.toNat_lt (by simpa using h)

/-- Constants are written as names only. -/
theorem isName_of_identifier? {l : Literal} {name : String} (h : l.identifier? = some name) :
    Name.isName name.toList = true := by
  unfold identifier? isIdentifier at h
  cases l with
  | string bytes =>
    split_ifs at h with hname
    cases h
    cases bytes with
    | nil => exact nomatch hname
    | cons b rest =>
      simp only [isName, Bool.and_eq_true, List.all_eq_true, Bool.not_eq_true'] at hname
      obtain ⟨⟨hstart, hparts⟩, hkeyword⟩ := hname
      have hascii : ∀ c ∈ b :: rest, c.toNat < 128 := by
        intro c hc
        rcases List.mem_cons.1 hc with rfl | hc
        · exact (isStart_of_isNameStart hstart).1
        · exact (isPart_of_isNamePart (hparts c hc)).1
      rw [Utf8.decode, String.toList_ofList, Utf8.decodeChars_ascii hascii, List.map_cons]
      simp only [Name.isName, Bool.and_eq_true, List.all_eq_true, List.mem_map, Bool.not_eq_true']
      refine ⟨⟨(isStart_of_isNameStart hstart).2, ?_⟩, hkeyword⟩
      rintro _ ⟨c, hc, rfl⟩
      exact (isPart_of_isNamePart (hparts c hc)).2
  | _ => simp at h

end Literal

end ShortCircuit
