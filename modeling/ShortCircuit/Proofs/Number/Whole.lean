import ShortCircuit.Number.Binary64
import ShortCircuit.Number.Rounding
import Mathlib.Data.List.TakeWhile
import Mathlib.Tactic.Ring

/-!
# The text of a whole number

A whole number is written as its sign and a numeral. From `10 ^ 15` on the numeral is the shortest
one that reads back as the number, so its digits need not be those of the number.

* `nearestWhole`: the number that a numeral stands for.
* `Binary64.nearestWhole_of_readsBack`: a numeral that reads back as a whole number stands for it.
* `Binary64.text_of_isWhole`: the text of a whole number is its sign and a numeral that stands for
  its magnitude.
-/

namespace ShortCircuit

/-- The number that a numeral stands for: the nearest one with a significand of 53 bits, at a half
the even one. -/
def nearestWhole (n : Nat) : Nat :=
  if n < 2 ^ 53 then n
  else
    let unit := 2 ^ (n.log2 - 52)
    roundDiv n unit * unit

/-- A quotient rounds to `s` if it lies within a half of it, and strictly when `s` is odd. -/
theorem roundDiv_eq {n D s : Nat} (hD : 0 < D) (hlow : 2 * (s * D) ≤ 2 * n + D)
    (hhigh : 2 * n ≤ 2 * (s * D) + D)
    (hodd : s % 2 = 1 → 2 * (s * D) < 2 * n + D ∧ 2 * n < 2 * (s * D) + D) :
    roundDiv n D = s := by
  have hn : D * (n / D) + n % D = n := Nat.div_add_mod n D
  have hr : n % D < D := Nat.mod_lt n hD
  have hle : n / D ≤ s := by
    have : n / D < s + 1 := (Nat.div_lt_iff_lt_mul hD).2 (by rw [Nat.succ_mul]; omega)
    omega
  have hge : s ≤ n / D + 1 := by
    have : s < n / D + 2 := by
      refine Nat.lt_of_mul_lt_mul_right (a := D) ?_
      rw [Nat.add_mul, Nat.mul_comm (n / D)]
      omega
    omega
  unfold roundDiv
  rcases (show n / D = s ∨ n / D + 1 = s by omega) with hq | hq
  · rw [hq, Nat.mul_comm] at hn
    rw [if_pos]
    · exact hq
    · rcases Nat.mod_two_eq_zero_or_one s with heven | hone
      · exact (Nat.lt_or_eq_of_le (by omega : 2 * (n % D) ≤ D)).imp_right fun h => ⟨h, by rwa [hq]⟩
      · have := (hodd hone).2
        exact .inl (by omega)
  · have hs : s * D = D * (n / D) + D := by rw [← hq]; ring
    rw [if_neg, hq]
    rintro (hlt | ⟨hhalf, heven⟩)
    · omega
    · have := (hodd (by omega)).1
      omega

theorem nearestWhole_of_lt {n : Nat} (h : n < 2 ^ 53) : nearestWhole n = n := if_pos h

/-- Between two powers of two the numbers with 53 bits are `2 ^ k` apart. -/
theorem nearestWhole_eq {n k s : Nat} (hle : 2 ^ 52 * 2 ^ k ≤ n) (hlt : n < 2 ^ 53 * 2 ^ k)
    (hk : 0 < k) (hlow : 2 * (s * 2 ^ k) ≤ 2 * n + 2 ^ k) (hhigh : 2 * n ≤ 2 * (s * 2 ^ k) + 2 ^ k)
    (hodd : s % 2 = 1 → 2 * (s * 2 ^ k) < 2 * n + 2 ^ k ∧ 2 * n < 2 * (s * 2 ^ k) + 2 ^ k) :
    nearestWhole n = s * 2 ^ k := by
  have htwo : 2 ^ 1 ≤ 2 ^ k := Nat.pow_le_pow_right (by omega) hk
  have hn : ¬n < 2 ^ 53 := by omega
  have hlog : n.log2 = 52 + k := by
    rw [Nat.log2_eq_iff (by omega), Nat.pow_add, Nat.add_right_comm, Nat.pow_add]
    exact ⟨hle, hlt⟩
  have hunit : n.log2 - 52 = k := by omega
  simp only [nearestWhole, if_neg hn, hunit]
  rw [roundDiv_eq (Nat.two_pow_pos k) hlow hhigh hodd]

/-- A value `u` lies around `s` steps of width `G`: at most half a step above, and at most `b`
quarters of a step below, strictly when `s` is odd. -/
structure Around (s b G u : Nat) : Prop where
  low : 4 * (s * G) ≤ 4 * u + b * G
  high : 4 * u ≤ 4 * (s * G) + 2 * G
  strict : s % 2 = 1 → 4 * (s * G) < 4 * u + b * G ∧ 4 * u < 4 * (s * G) + 2 * G

/-- A common factor of the value and the width does not matter. -/
theorem Around.cancel {s b G u F : Nat} (hF : 0 < F) (h : Around s b (G * F) (u * F)) :
    Around s b G u := by
  have hvalue : 4 * (s * (G * F)) = 4 * (s * G) * F := by ring
  have hunits : 4 * (u * F) = 4 * u * F := by ring
  have hleft : 4 * u * F + b * (G * F) = (4 * u + b * G) * F := by ring
  have hright : 4 * (s * G) * F + 2 * (G * F) = (4 * (s * G) + 2 * G) * F := by ring
  obtain ⟨hlow, hhigh, hstrict⟩ := h
  rw [hvalue, hunits] at hlow hhigh hstrict
  rw [hleft] at hlow hstrict
  rw [hright] at hhigh hstrict
  refine ⟨Nat.le_of_mul_le_mul_right hlow hF, Nat.le_of_mul_le_mul_right hhigh hF, fun hodd => ?_⟩
  exact ⟨Nat.lt_of_mul_lt_mul_right (hstrict hodd).1, Nat.lt_of_mul_lt_mul_right (hstrict hodd).2⟩

/-- Among the whole steps only `s` itself lies around `s` steps. -/
theorem Around.eq {s b G N : Nat} (hG : 0 < G) (hb : b ≤ 2) (h : Around s b G (N * G)) : N = s := by
  have hunit : Around s b 1 N := Around.cancel hG (by rwa [Nat.one_mul])
  have hlow := hunit.low
  have hhigh := hunit.high
  omega

/-- Around `s` steps of a power of two, the nearest number with 53 bits is `s` steps. Below
`2 ^ 52` steps the numbers are half as far apart. -/
theorem Around.nearestWhole_eq {s b k n : Nat} (h : Around s b (2 ^ k) n) (hk : 0 < k) (hb : b ≤ 2)
    (hle : 2 ^ 52 ≤ s) (hlt : s < 2 ^ 53) (hleast : s = 2 ^ 52 → b = 1) :
    nearestWhole n = s * 2 ^ k := by
  obtain ⟨hlow, hhigh, hstrict⟩ := h
  have hpos : 0 < 2 ^ k := Nat.two_pow_pos k
  have hquarters : b * 2 ^ k ≤ 2 * 2 ^ k := Nat.mul_le_mul_right _ hb
  have habove : n < 2 ^ 53 * 2 ^ k := by
    have : (s + 1) * 2 ^ k ≤ 2 ^ 53 * 2 ^ k := Nat.mul_le_mul_right _ hlt
    rw [Nat.succ_mul] at this
    omega
  rcases Nat.lt_or_ge n (2 ^ 52 * 2 ^ k) with hn | hn
  · have hs : s = 2 ^ 52 := by
      by_contra hne
      have : (2 ^ 52 + 1) * 2 ^ k ≤ s * 2 ^ k := Nat.mul_le_mul_right _ (by omega)
      rw [Nat.succ_mul] at this
      omega
    rw [hs, hleast hs] at hlow
    obtain ⟨j, rfl⟩ : ∃ j, k = j + 1 := ⟨k - 1, by omega⟩
    rw [Nat.pow_succ] at hlow hn hpos ⊢
    have hj : 0 < j := by
      by_contra hzero
      rw [Nat.eq_zero_of_not_pos hzero] at hlow hn
      omega
    rw [ShortCircuit.nearestWhole_eq (s := 2 ^ 53) (by omega) (by omega) hj (by omega) (by omega)
      (fun hodd => absurd hodd (by decide)), hs]
    ring
  · exact ShortCircuit.nearestWhole_eq hn habove hk (by omega) (by omega)
      fun hodd => by have := hstrict hodd; omega

namespace Binary64

/-- Finite, with no part after the point, and not the negative zero. -/
def IsWhole (x : Binary64) : Prop :=
  x.exponentField < 2047 ∧ x.magnitude % 10 ^ places = 0 ∧ (x.isNegative → x.magnitude ≠ 0)

instance (x : Binary64) : Decidable x.IsWhole := inferInstanceAs (Decidable (_ ∧ _ ∧ _))

/-- The magnitude of a whole number. -/
def whole (x : Binary64) : Nat := x.magnitude / 10 ^ places

theorem whole_mul {x : Binary64} (h : x.magnitude % 10 ^ places = 0) :
    x.whole * 10 ^ places = x.magnitude :=
  Nat.div_mul_cancel (Nat.dvd_of_mod_eq_zero h)

theorem ten_pow_places : (10 : Nat) ^ places = 2 ^ places * 5 ^ places := by
  rw [← Nat.mul_pow]

theorem significand_lt (x : Binary64) : x.significand < 2 ^ 53 := by
  have h : x.fraction < 2 ^ 52 := Nat.mod_lt _ (by decide)
  unfold significand
  simp only [Nat.pow_eq]
  split_ifs <;> omega

theorem le_significand {x : Binary64} (h : x.exponentField ≠ 0) : 2 ^ 52 ≤ x.significand := by
  simp only [significand, if_neg h, Nat.pow_eq]
  exact Nat.le_add_right _ _

theorem fraction_eq_zero {x : Binary64} (h : x.exponentField ≠ 0) (hs : x.significand = 2 ^ 52) :
    x.fraction = 0 := by
  simp only [significand, if_neg h, Nat.pow_eq] at hs
  omega

/-- Half of the distance to the neighbour below, in quarters of the gap. -/
def below (x : Binary64) : Nat := if x.fraction = 0 && 1 < x.exponentField then 1 else 2

theorem below_le (x : Binary64) : x.below ≤ 2 := by
  unfold below
  split_ifs <;> decide

theorem gap_eq (x : Binary64) : x.gap = 2 ^ (x.exponentField - 1) * 5 ^ places := by
  simp only [gap, Nat.pow_eq]

theorem five_pow_pos : 0 < 5 ^ places := by
  generalize places = p
  exact Nat.pow_pos (Nat.succ_pos 4)

theorem gap_pos (x : Binary64) : 0 < x.gap := by
  rw [gap_eq]
  exact Nat.mul_pos (Nat.two_pow_pos _) five_pow_pos

/-- What reads back lies around the number. -/
theorem readsBack_iff {x : Binary64} {u : Nat} :
    x.readsBack u = true ↔ Around x.significand x.below x.gap u := by
  have hbelow : (if x.fraction = 0 && 1 < x.exponentField then x.gap else 2 * x.gap) =
      x.below * x.gap := by
    unfold below
    split_ifs <;> ring
  unfold readsBack magnitude
  dsimp only
  rw [hbelow]
  split_ifs with heven
  · simp only [Bool.and_eq_true, decide_eq_true_eq]
    exact ⟨fun h => ⟨h.1, h.2, fun hodd => by omega⟩, fun h => ⟨h.low, h.high⟩⟩
  · simp only [Bool.and_eq_true, decide_eq_true_eq]
    exact ⟨fun h => ⟨Nat.le_of_lt h.1, Nat.le_of_lt h.2, fun _ => h⟩, fun h => h.strict (by omega)⟩

theorem readsBack_magnitude (x : Binary64) : x.readsBack x.magnitude = true := by
  have hpos := x.gap_pos
  have hbelow : 0 < x.below * x.gap := by
    refine Nat.mul_pos ?_ hpos
    unfold below
    split_ifs <;> decide
  rw [readsBack_iff]
  unfold magnitude
  exact ⟨by omega, by omega, fun _ => by omega⟩

/-- A numeral that reads back as a whole number stands for it. -/
theorem nearestWhole_of_readsBack {x : Binary64} {n w : Nat}
    (h : x.readsBack (n * 10 ^ places) = true) (hw : x.magnitude = w * 10 ^ places) :
    nearestWhole n = w := by
  rw [readsBack_iff, gap_eq, ten_pow_places, ← Nat.mul_assoc] at h
  have haround := h.cancel five_pow_pos
  have hvalue : x.significand * 2 ^ (x.exponentField - 1) = w * 2 ^ places := by
    rw [magnitude, gap_eq, ten_pow_places, ← Nat.mul_assoc, ← Nat.mul_assoc] at hw
    exact Nat.eq_of_mul_eq_mul_right five_pow_pos hw
  rcases Nat.lt_or_ge places (x.exponentField - 1) with hlt | hle
  · -- The gap is a power of two above one, and the numeral lies around the number.
    obtain ⟨k, hk⟩ := Nat.exists_eq_add_of_le (Nat.le_of_lt hlt)
    rw [hk, Nat.pow_add, Nat.mul_comm (2 ^ places)] at haround hvalue
    rw [← Nat.mul_assoc] at hvalue
    rw [← Nat.eq_of_mul_eq_mul_right (Nat.two_pow_pos places) hvalue]
    have hfield : 1 < x.exponentField := by omega
    refine (haround.cancel (Nat.two_pow_pos places)).nearestWhole_eq (by omega) x.below_le
      (le_significand (by omega)) x.significand_lt fun hs => ?_
    simp [below, fraction_eq_zero (by omega) hs, hfield]
  · -- The gap is at most one, so the numeral is exact.
    obtain ⟨c, hc⟩ := Nat.exists_eq_add_of_le hle
    have hpow : 2 ^ places = 2 ^ c * 2 ^ (x.exponentField - 1) := by
      rw [← Nat.pow_add, Nat.add_comm c, ← hc]
    have hpos : 0 < 2 ^ (x.exponentField - 1) := Nat.two_pow_pos _
    rw [hpow, ← Nat.mul_assoc] at haround hvalue
    have hs := Nat.eq_of_mul_eq_mul_right hpos hvalue
    have hn := haround.eq hpos x.below_le
    rw [hs] at hn
    rw [Nat.eq_of_mul_eq_mul_right (Nat.two_pow_pos c) hn]
    refine nearestWhole_of_lt (Nat.lt_of_le_of_lt ?_ x.significand_lt)
    rw [hs]
    exact Nat.le_mul_of_pos_right w (Nat.two_pow_pos c)

/-! ## The shortest numeral -/

/-- On grids that are not finer than the whole numbers, the search ends at a whole number that reads
back: at the latest at the number itself. -/
theorem exists_shortestFrom_eq {x : Binary64} (h : x.magnitude % 10 ^ places = 0) :
    ∀ j, places ≤ j →
      ∃ n, x.shortestFrom j = n * 10 ^ places ∧ x.readsBack (n * 10 ^ places) = true
  | 0, hj => absurd hj (by decide)
  | j + 1, hj => by
    obtain ⟨c, hc⟩ := Nat.exists_eq_add_of_le hj
    have hstep : Nat.pow 10 (j + 1) = 10 ^ c * 10 ^ places := by
      rw [Nat.pow_eq, hc, Nat.add_comm, Nat.pow_add]
    have hlow : x.magnitude / Nat.pow 10 (j + 1) * Nat.pow 10 (j + 1) =
        x.magnitude / Nat.pow 10 (j + 1) * 10 ^ c * 10 ^ places := by
      rw [Nat.mul_assoc, ← hstep]
    have hhigh : x.magnitude / Nat.pow 10 (j + 1) * Nat.pow 10 (j + 1) + Nat.pow 10 (j + 1) =
        (x.magnitude / Nat.pow 10 (j + 1) * 10 ^ c + 10 ^ c) * 10 ^ places := by
      rw [hlow, Nat.add_mul, ← hstep]
    rw [shortestFrom, hhigh, hlow]
    split
    · next hl hh =>
      split_ifs
      · exact ⟨_, rfl, hl⟩
      · exact ⟨_, rfl, hh⟩
    · next hl _ => exact ⟨_, rfl, hl⟩
    · next _ hh => exact ⟨_, rfl, hh⟩
    · next hl _ =>
      refine exists_shortestFrom_eq h j ?_
      by_contra hlt
      have hplaces : j + 1 = places := by omega
      have hself : x.readsBack (x.whole * 10 ^ places) = true := by
        rw [whole_mul h, readsBack_magnitude]
      rw [← hlow, hplaces, Nat.pow_eq] at hl
      unfold whole at hself
      simp [hself] at hl

theorem places_le_length {m : Nat} (h : 10 ^ places ≤ m) : places ≤ (toString m).length := by
  by_contra hlt
  have hle : m.repr.length ≤ places := Nat.le_of_lt (Nat.lt_of_not_le hlt)
  rw [Nat.length_repr_le_iff (by decide)] at hle
  exact Nat.lt_irrefl _ (Nat.lt_of_lt_of_le hle h)

theorem ten_pow_pos : 0 < 10 ^ places := by
  generalize places = p
  exact Nat.pow_pos (Nat.succ_pos 9)

/-- A whole number of units is written without a point. -/
theorem positional_mul (n : Nat) : positional (n * 10 ^ places) = toString n := by
  have hzeros : ((toString 0).toList.leftpad places '0').reverse.dropWhile (· == '0') = [] := by
    rw [List.dropWhile_eq_nil_iff]
    intro c hc
    rw [List.mem_reverse, List.leftpad, List.mem_append] at hc
    rcases hc with hc | hc
    · simp [List.eq_of_mem_replicate hc]
    · simpa using hc
  simp only [positional, Nat.pow_eq, Nat.mul_div_cancel n ten_pow_pos, Nat.mul_mod_left, hzeros]
  rfl

theorem toString_neg {n : Nat} (h : n ≠ 0) : toString (-(n : Int)) = "-" ++ toString n := by
  obtain ⟨m, rfl⟩ := Nat.exists_eq_succ_of_ne_zero h
  rfl

/-- Below `10 ^ 15` a whole number is written exactly. -/
theorem toString_truncate {x : Binary64} (h : x.IsWhole) :
    toString x.truncate = (if x.isNegative then "-" else "") ++ toString x.whole := by
  obtain ⟨-, hwhole, hzero⟩ := h
  have htruncate : x.truncate = if x.isNegative then -(x.whole : Int) else x.whole := by
    simp only [truncate, whole, Nat.pow_eq]
  rw [htruncate]
  split_ifs with hneg
  · refine toString_neg fun hnone => hzero hneg ?_
    rw [← whole_mul hwhole, hnone, Nat.zero_mul]
  · simp only [String.empty_append]
    rfl

/-- The text of a whole number is its sign and a numeral that stands for its magnitude. -/
theorem text_of_isWhole {x : Binary64} (h : x.IsWhole) :
    ∃ n, x.text = (if x.isNegative then "-" else "") ++ toString n ∧ nearestWhole n = x.whole := by
  have hnan : x.isNaN = false := by simp [isNaN, Nat.ne_of_lt h.1]
  have hinf : x.isInfinite = false := by simp [isInfinite, Nat.ne_of_lt h.1]
  have hmagnitude := whole_mul h.2.1
  rw [text, hnan, hinf, if_neg Bool.false_ne_true, if_neg Bool.false_ne_true]
  have hiff : x.isSmallInteger = true ↔ x.whole < 10 ^ 15 := by
    simp only [isSmallInteger, Nat.pow_eq, h.2.1, decide_true, Bool.true_and, decide_eq_true_eq]
    rw [← hmagnitude]
    have hpos := ten_pow_pos
    generalize 10 ^ places = P at hpos ⊢
    exact Nat.mul_lt_mul_right hpos
  by_cases hsmall : x.isSmallInteger = true
  · refine ⟨x.whole, by rw [if_pos hsmall, toString_truncate h], nearestWhole_of_lt ?_⟩
    exact Nat.lt_trans (hiff.1 hsmall) (by decide)
  · have hle : 10 ^ places ≤ x.magnitude := by
      rw [← hmagnitude]
      exact Nat.le_mul_of_pos_left _ (by rw [hiff] at hsmall; omega)
    obtain ⟨n, hn, hback⟩ := exists_shortestFrom_eq h.2.1 _ (places_le_length hle)
    refine ⟨n, ?_, nearestWhole_of_readsBack hback hmagnitude.symm⟩
    rw [if_neg hsmall, shortest, hn, positional_mul]

end Binary64

end ShortCircuit
