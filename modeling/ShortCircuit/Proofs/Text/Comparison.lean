import ShortCircuit.Text.Comparison
import ShortCircuit.Text.Quoted
import Mathlib.Tactic.Common

/-!
# Where a text is cut

The scan for a comparison operator passes over brackets and string literals. This module says which
texts it passes over as a whole, and that they are closed under everything expressions are built
with; so a comparison of two such texts is cut at its own operator.

* `Comparison.Closed`: inside brackets the scan passes over the text.
* `Comparison.Flat`: outside brackets it does too, since no operator stands there.
* `Comparison.Closed.group`, `Comparison.flat_encode`: brackets and literals are flat, whatever
  stands in them.
* `Comparison.split?_comparison`, `Comparison.split?_of_flat`: where a text is cut.
-/

namespace ShortCircuit.Comparison

/-- The split of a text that has more text in front. -/
def Split.prepend (t : List Char) (s : Split) : Split := { s with left := t ++ s.left }

@[simp]
theorem Split.prepend_nil : Split.prepend [] = id := rfl

theorem Split.cons_eq (c : Char) : Split.cons c = Split.prepend [c] := rfl

theorem Split.prepend_comp (t u : List Char) :
    Split.prepend t ∘ Split.prepend u = Split.prepend (t ++ u) := by
  funext s
  simp [prepend]

/-- A character that begins an operator. -/
def isComparing (c : Char) : Bool := c == '=' || c == '~' || c == '<' || c == '>'

/-- A character that is no bracket and no quote. -/
def isNeutral (c : Char) : Bool := !isQuote c && !isOpening c && !isClosing c

/-- A character that means nothing to the scan. -/
def isPlain (c : Char) : Bool := isNeutral c && !isComparing c && c != ' '

/-- Whether a text does not begin with an operator. -/
def Unmarked (t : List Char) : Prop := ∀ c, t.head? = some c → isComparing c = false

/-- Inside brackets the scan passes over the text: its own brackets and literals are closed. -/
def Closed (t : List Char) : Prop :=
  ∀ depth rest, scan none (depth + 1) (t ++ rest) =
    (scan none (depth + 1) rest).map (Split.prepend t)

/-- Outside brackets the scan passes over the text, too, before everything that does not complete an
operator. -/
structure Flat (t : List Char) : Prop where
  closed : Closed t
  unmarked : Unmarked t
  passes : ∀ rest, Unmarked rest →
    scan none 0 (t ++ rest) = (scan none 0 rest).map (Split.prepend t)

/-! ## Single characters -/

/-- A neutral character is passed over, unless it is a space outside brackets. -/
theorem scan_neutral {c : Char} (h : isNeutral c = true) {depth : Nat} (hc : c ≠ ' ' ∨ depth ≠ 0)
    (rest : List Char) : scan none depth (c :: rest) =
      (scan none depth rest).map (Split.prepend [c]) := by
  simp only [isNeutral, Bool.and_eq_true, Bool.not_eq_true'] at h
  have hspace : ¬(c = ' ' ∧ depth = 0) := by tauto
  simp [scan, h.1.1, h.1.2, h.2, hspace, Split.cons_eq]

theorem operator?_of_unmarked {t : List Char} (h : Unmarked t) : operator? t = none := by
  cases t with
  | nil => rfl
  | cons c t =>
    have hc := h c rfl
    simp only [isComparing, Bool.or_eq_false_iff, beq_eq_false_iff_ne] at hc
    obtain ⟨⟨⟨heq, htilde⟩, hlt⟩, hgt⟩ := hc
    simp [operator?, Comparator.all, Comparator.symbol, heq.symm, htilde.symm, hlt.symm, hgt.symm]

/-- A space is passed over where no operator follows. -/
theorem scan_space {rest : List Char} (h : Unmarked rest) :
    scan none 0 (' ' :: rest) = (scan none 0 rest).map (Split.prepend [' ']) := by
  simp [scan, isQuote, isOpening, isClosing, operator?_of_unmarked h, Split.cons_eq]

theorem closed_singleton {c : Char} (h : isNeutral c = true) : Closed [c] :=
  fun _ rest => scan_neutral h (.inr (Nat.succ_ne_zero _)) rest

theorem flat_space : Flat [' '] where
  closed := closed_singleton (by decide)
  unmarked := by rintro c ⟨⟩; decide
  passes _ hrest := scan_space hrest

theorem flat_singleton {c : Char} (h : isPlain c = true) : Flat [c] := by
  simp only [isPlain, Bool.and_eq_true, Bool.not_eq_true', bne_iff_ne] at h
  exact ⟨closed_singleton h.1.1, by rintro d ⟨⟩; exact h.1.2,
    fun rest _ => scan_neutral h.1.1 (.inl h.2) rest⟩

/-! ## Texts in sequence -/

theorem closed_nil : Closed [] := fun depth rest => by simp

theorem Closed.append {t u : List Char} (ht : Closed t) (hu : Closed u) : Closed (t ++ u) := by
  intro depth rest
  rw [List.append_assoc, ht, hu, Option.map_map, Split.prepend_comp]

theorem closed_of_neutral {t : List Char} (h : t.all isNeutral = true) : Closed t := by
  induction t with
  | nil => exact closed_nil
  | cons c t ih =>
    rw [List.all_cons, Bool.and_eq_true] at h
    exact (closed_singleton h.1).append (ih h.2)

theorem Unmarked.append {t u : List Char} (ht : Unmarked t) (hu : Unmarked u) :
    Unmarked (t ++ u) := by
  cases t with
  | nil => exact hu
  | cons c t => exact ht

theorem flat_nil : Flat [] := ⟨closed_nil, nofun, fun rest _ => by simp⟩

theorem Flat.append {t u : List Char} (ht : Flat t) (hu : Flat u) : Flat (t ++ u) where
  closed := ht.closed.append hu.closed
  unmarked := ht.unmarked.append hu.unmarked
  passes rest hrest := by
    rw [List.append_assoc, ht.passes _ (hu.unmarked.append hrest), hu.passes _ hrest,
      Option.map_map, Split.prepend_comp]

theorem flat_of_plain {t : List Char} (h : t.all isPlain = true) : Flat t := by
  induction t with
  | nil => exact flat_nil
  | cons c t ih =>
    rw [List.all_cons, Bool.and_eq_true] at h
    exact (flat_singleton h.1).append (ih h.2)

/-! ## Brackets -/

theorem scan_opening {c : Char} (h : isOpening c = true) (depth : Nat) (rest : List Char) :
    scan none depth (c :: rest) = (scan none (depth + 1) rest).map (Split.prepend [c]) := by
  have hquote : isQuote c = false := by
    simp only [isOpening, Bool.or_eq_true, beq_iff_eq] at h
    rcases h with (rfl | rfl) | rfl <;> rfl
  simp [scan, hquote, h, Split.cons_eq]

theorem scan_closing {c : Char} (h : isClosing c = true) (depth : Nat) (rest : List Char) :
    scan none depth (c :: rest) = (scan none (depth - 1) rest).map (Split.prepend [c]) := by
  have hother : isQuote c = false ∧ isOpening c = false := by
    simp only [isClosing, Bool.or_eq_true, beq_iff_eq] at h
    rcases h with (rfl | rfl) | rfl <;> exact ⟨rfl, rfl⟩
  simp [scan, hother.1, hother.2, h, Split.cons_eq]

/-- Closed text in brackets is passed over at every depth. -/
theorem Closed.scan_group {t : List Char} (ht : Closed t) {o c : Char} (ho : isOpening o = true)
    (hc : isClosing c = true) (depth : Nat) (rest : List Char) :
    scan none depth (o :: (t ++ [c]) ++ rest) =
      (scan none depth rest).map (Split.prepend (o :: (t ++ [c]))) := by
  rw [List.cons_append, scan_opening ho, List.append_assoc, ht, List.singleton_append,
    scan_closing hc, Nat.add_sub_cancel, Option.map_map, Option.map_map, Split.prepend_comp,
    Split.prepend_comp]
  rfl

/-- Closed text in brackets is flat. -/
theorem Closed.group {t : List Char} (ht : Closed t) {o c : Char} (ho : isOpening o = true)
    (hc : isClosing c = true) : Flat (o :: (t ++ [c])) where
  closed depth rest := ht.scan_group ho hc (depth + 1) rest
  unmarked := by
    rintro d ⟨⟩
    simp only [isOpening, Bool.or_eq_true, beq_iff_eq] at ho
    rcases ho with (rfl | rfl) | rfl <;> rfl
  passes rest _ := ht.scan_group ho hc 0 rest

/-! ## Literals -/

/-- A character inside a literal is passed over, unless it ends the literal or escapes another. -/
theorem scan_quoted {q c : Char} (hq : c ≠ q) (hc : c ≠ '\\') (depth : Nat) (rest : List Char) :
    scan (some q) depth (c :: rest) =
      (scan (some q) depth rest).map (Split.prepend [c]) := by
  rw [scan.eq_def]
  simp [hq, hc, Split.cons_eq]

theorem scan_escaped (q e : Char) (depth : Nat) (rest : List Char) :
    scan (some q) depth ('\\' :: e :: rest) =
      (scan (some q) depth rest).map (Split.prepend ['\\', e]) := by
  rw [scan.eq_def]
  rfl

theorem scan_quoted_all {t : List Char} (h : ∀ c ∈ t, c ≠ '"' ∧ c ≠ '\\') (depth : Nat)
    (rest : List Char) :
    scan (some '"') depth (t ++ rest) = (scan (some '"') depth rest).map (Split.prepend t) := by
  induction t with
  | nil => simp
  | cons c t ih =>
    have hc := h c (by simp)
    rw [List.cons_append, scan_quoted hc.1 hc.2, ih fun d hd => h d (by simp [hd]),
      Option.map_map, Split.prepend_comp]
    rfl

/-- A byte that is neither a quote nor a backslash stands for another character. -/
theorem ofNat_ne {b : UInt8} (hquote : b ≠ 34) (hback : b ≠ 92) :
    Char.ofNat b.toNat ≠ '"' ∧ Char.ofNat b.toNat ≠ '\\' := by
  have htable : ∀ n < 256, (Char.ofNat n = '"' → n = 34) ∧ (Char.ofNat n = '\\' → n = 92) := by
    decide +kernel
  obtain ⟨h34, h92⟩ := htable b.toNat b.toNat_lt
  exact ⟨fun h => hquote (UInt8.toNat_inj.1 (h34 h)), fun h => hback (UInt8.toNat_inj.1 (h92 h))⟩

/-- The characters that stand for a byte are passed over. -/
theorem scan_escape (b : UInt8) (depth : Nat) (rest : List Char) :
    scan (some '"') depth (Quoted.escape b ++ rest) =
      (scan (some '"') depth rest).map (Split.prepend (Quoted.escape b)) := by
  unfold Quoted.escape
  split_ifs with hquote hback hline hreturn htab hprint
  · exact scan_escaped _ _ _ _
  · exact scan_escaped _ _ _ _
  · exact scan_escaped _ _ _ _
  · exact scan_escaped _ _ _ _
  · exact scan_escaped _ _ _ _
  · obtain ⟨hq, hc⟩ := ofNat_ne hquote hback
    exact scan_quoted hq hc depth rest
  · -- The first digit is escaped, the others stand for themselves.
    have hdigits : ∀ c ∈ Nat.toDigits 10 b.toNat, c.isDigit = true := fun c hc =>
      Nat.isDigit_of_mem_toDigits (by decide) (by decide) hc
    cases hd : Nat.toDigits 10 b.toNat with
    | nil => exact absurd hd Nat.toDigits_ne_nil
    | cons d ds =>
      rw [hd] at hdigits
      have hplain : ∀ c ∈ ds, c ≠ '"' ∧ c ≠ '\\' := by
        intro c hc
        have hdigit := hdigits c (by simp [hc])
        constructor <;> rintro rfl <;> exact nomatch hdigit
      rw [List.cons_append, List.cons_append, scan_escaped, scan_quoted_all hplain, Option.map_map,
        Split.prepend_comp]
      rfl

theorem scan_flatMap_escape (bytes : List UInt8) (depth : Nat) (rest : List Char) :
    scan (some '"') depth (bytes.flatMap Quoted.escape ++ rest) =
      (scan (some '"') depth rest).map (Split.prepend (bytes.flatMap Quoted.escape)) := by
  induction bytes with
  | nil => simp
  | cons b bytes ih =>
    rw [List.flatMap_cons, List.append_assoc, scan_escape, ih, Option.map_map, Split.prepend_comp]

theorem scan_encodeChars (bytes : List UInt8) (depth : Nat) (rest : List Char) :
    scan none depth (Quoted.encodeChars bytes ++ rest) =
      (scan none depth rest).map (Split.prepend (Quoted.encodeChars bytes)) := by
  have hopen : ∀ t, scan none depth ('"' :: t) =
      (scan (some '"') depth t).map (Split.prepend ['"']) := fun t => by
    simp [scan, isQuote, Split.cons_eq]
  have hclose : scan (some '"') depth ('"' :: rest) =
      (scan none depth rest).map (Split.prepend ['"']) := by
    rw [scan.eq_def]
    simp [Split.cons_eq]
  rw [Quoted.encodeChars, List.cons_append, hopen, List.append_assoc, scan_flatMap_escape,
    List.singleton_append, hclose, Option.map_map, Option.map_map, Split.prepend_comp,
    Split.prepend_comp]
  rfl

/-- A literal is flat, whatever its bytes are. -/
theorem flat_encode (bytes : List UInt8) : Flat (Quoted.encode bytes).toList := by
  rw [Quoted.encode, String.toList_ofList]
  exact ⟨fun depth => scan_encodeChars bytes (depth + 1), by rintro c ⟨⟩; rfl,
    fun rest _ => scan_encodeChars bytes 0 rest⟩

/-! ## Where a text is cut -/

/-- A flat text has no operator. -/
theorem split?_of_flat {text : String} (h : Flat text.toList) : split? text = none := by
  have hscan := h.passes [] nofun
  rwa [List.append_nil] at hscan

theorem operator?_symbol (op : Comparator) (rest : List Char) :
    operator? (op.symbol.toList ++ ' ' :: rest) = some (op, rest) := by
  cases op <;> simp [operator?, Comparator.all, Comparator.symbol]

/-- A comparison whose left side is flat is cut at its operator. -/
theorem split?_comparison {l r : String} (h : Flat l.toList) (op : Comparator) :
    split? (l ++ " " ++ op.symbol ++ " " ++ r) = some ⟨l.toList, op, r.toList⟩ := by
  have hlist : (l ++ " " ++ op.symbol ++ " " ++ r).toList =
      l.toList ++ ' ' :: (op.symbol.toList ++ ' ' :: r.toList) := by simp
  have hspace : Unmarked (' ' :: (op.symbol.toList ++ ' ' :: r.toList)) := by rintro c ⟨⟩; rfl
  rw [split?, hlist, h.passes _ hspace]
  simp [scan, isQuote, isOpening, isClosing, operator?_symbol, Split.prepend]

/-! ## Operands -/

/-- A text that does not become a negation, also when it is called. -/
def Unnegated (t : List Char) : Prop := ¬['n', 'o', 't', '('] <+: t ++ ['(']

instance (t : List Char) : Decidable (Unnegated t) := inferInstanceAs (Decidable ¬_)

theorem unnegated_of_head {t : List Char} (h : t.head? ≠ some 'n') : Unnegated t := by
  cases t with
  | nil => simp [Unnegated]
  | cons c t =>
    have hc : 'n' ≠ c := by
      rintro rfl
      exact h rfl
    simp [Unnegated, hc]

/-- What follows the text of an operand does not make it a negation. -/
theorem Unnegated.append {t : List Char} (h : Unnegated t) {c : Char}
    (hc : c ≠ 'n' ∧ c ≠ 'o' ∧ c ≠ 't') (rest : List Char) : Unnegated (t ++ c :: rest) := by
  obtain ⟨hn, ho, ht⟩ := hc
  unfold Unnegated at *
  rcases t with _ | ⟨d, _ | ⟨e, _ | ⟨f, _ | ⟨g, t⟩⟩⟩⟩
  · simp [hn.symm]
  · simp [ho.symm]
  · simp [ht.symm]
  · simp only [List.cons_append, List.nil_append, List.cons_prefix_cons] at h ⊢
    tauto
  · simp only [List.cons_append, List.cons_prefix_cons, List.nil_prefix] at h ⊢
    exact h

/-- A word other than `not` is no negation. -/
theorem unnegated_of_word {t : List Char} (h : '(' ∉ t) (hne : t ≠ ['n', 'o', 't']) :
    Unnegated t := by
  unfold Unnegated
  rcases t with _ | ⟨d, _ | ⟨e, _ | ⟨f, _ | ⟨g, t⟩⟩⟩⟩
  · simp
  · simp
  · simp
  · simp only [List.cons_append, List.nil_append, List.cons_prefix_cons]
    rintro ⟨rfl, rfl, rfl, -⟩
    exact hne rfl
  · simp only [List.cons_append, List.cons_prefix_cons]
    rintro ⟨-, -, -, rfl, -⟩
    simp at h

/-- A text that can stand on a side of a comparison and below `not`. -/
structure IsOperand (text : String) : Prop where
  flat : Flat text.toList
  unnegated : Unnegated text.toList

/-- The negation of an operand is put into brackets. -/
theorem IsOperand.negate_eq {text : String} (h : IsOperand text) :
    negate text = "not(" ++ text ++ ")" := by
  have hprefix : ¬['n', 'o', 't', '('] <+: text.toList := fun hp =>
    h.unnegated (hp.trans (List.prefix_append _ _))
  have hnegand : negand? text.toList = none := by
    rw [negand?, if_neg]
    rwa [List.isPrefixOf_iff_prefix]
  rw [negate, split?_of_flat h.flat, hnegand]

/-- The negation of a comparison flips its operator. -/
theorem negate_comparison {l r : String} (h : Flat l.toList) (op : Comparator) :
    negate (l ++ " " ++ op.symbol ++ " " ++ r) = l ++ " " ++ op.negate.symbol ++ " " ++ r := by
  rw [negate, split?_comparison h]
  simp [Split.text]

/-- Exchanging the sides of a comparison. -/
theorem swap_comparison {l r : String} (h : Flat l.toList) (op : Comparator) :
    swap (l ++ " " ++ op.symbol ++ " " ++ r) = r ++ " " ++ op.swap.symbol ++ " " ++ l := by
  rw [swap, split?_comparison h]
  simp [Split.text]

end ShortCircuit.Comparison
