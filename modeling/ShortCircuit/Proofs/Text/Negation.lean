import ShortCircuit.Proofs.Text.Comparison

/-!
# Negating a text twice

A comparison is negated by its opposite operator, any other text by `not(...)` around it. Both can
be taken back: the place where a text is cut depends only on what stands before it, so the operator
and the right side can be exchanged, and brackets around a text that is not cut hide the whole of
it, also when the text has quotes that nothing closes and brackets that nothing opens.

* `Comparison.Step`: how the scan goes over the next characters. `Comparison.scan_induction`: every
  scan is made of such steps, and of the place where it ends.
* `Comparison.scan_exchange`: with another operator and right side, a text is cut at the same place.
* `Comparison.scan_enclosed`: where nothing is cut, nothing is cut inside more brackets.
* `Comparison.negate_reverts`: negating twice gives the text back.
-/

namespace ShortCircuit.Comparison

/-! ## Operators -/

theorem space_notMem_symbol (op : Comparator) : ' ' ∉ op.symbol.toList := by
  cases op <;> decide

theorem operator?_eq_none_iff {cs : List Char} :
    operator? cs = none ↔ ∀ op : Comparator, ¬op.symbol.toList ++ [' '] <+: cs := by
  have hall : ∀ op, op ∈ Comparator.all := by rintro (_ | _ | _ | _ | _ | _) <;> decide
  simp [operator?, List.findSome?_eq_none_iff, hall]

theorem eq_of_operator? {cs right : List Char} {op : Comparator}
    (h : operator? cs = some (op, right)) : cs = op.symbol.toList ++ ' ' :: right := by
  obtain ⟨op', -, hop⟩ := List.exists_of_findSome?_eq_some h
  dsimp only at hop
  split at hop
  · next hprefix =>
    cases hop
    obtain ⟨rest, rfl⟩ := List.isPrefixOf_iff_prefix.1 hprefix
    simp
  · cases hop

/-- Of a word and the space after it, only what stands before the first space can be seen. -/
theorem prefix_before_space {w : List Char} (hw : ' ' ∉ w) (l r r' : List Char)
    (h : w ++ [' '] <+: l ++ ' ' :: r) : w ++ [' '] <+: l ++ ' ' :: r' := by
  induction l generalizing w with
  | nil =>
    cases w with
    | nil => simp
    | cons c w =>
      obtain ⟨rfl, -⟩ := List.cons_prefix_cons.1 h
      simp at hw
  | cons d l ih =>
    cases w with
    | nil =>
      obtain ⟨rfl, -⟩ := List.cons_prefix_cons.1 h
      simp
    | cons c w =>
      obtain ⟨rfl, htail⟩ := List.cons_prefix_cons.1 h
      exact List.cons_prefix_cons.2 ⟨rfl, ih (fun hmem => hw (by simp [hmem])) htail⟩

/-- Whether an operator stands in front is decided before the next space. -/
theorem operator?_before_space {l r : List Char} (h : operator? (l ++ ' ' :: r) = none)
    (r' : List Char) : operator? (l ++ ' ' :: r') = none := by
  rw [operator?_eq_none_iff] at h ⊢
  intro op hop
  exact h op (prefix_before_space (space_notMem_symbol op) l r' r hop)

/-- A closing bracket at the end completes no operator. -/
theorem operator?_concat {cs : List Char} (h : operator? cs = none) :
    operator? (cs ++ [')']) = none := by
  rw [operator?_eq_none_iff] at h ⊢
  intro op hop
  rcases List.prefix_concat_iff.1 hop with heq | hop
  · have hlast := congrArg List.getLast? heq
    simp at hlast
  · exact h op hop

/-! ## Steps of the scan -/

/-- From an open literal and a depth, the scan goes over some characters that `rest` follows, to
another literal and depth: an escape, a character of a literal, a quote that opens one, a bracket,
or another character, unless it is a space outside brackets that an operator follows. -/
inductive Step (rest : List Char) : Option Char → Nat → List Char → Option Char → Nat → Prop
  | escape (q e : Char) (depth : Nat) : Step rest (some q) depth ['\\', e] (some q) depth
  | literal {q c : Char} (hc : c ≠ '\\') (depth : Nat) :
      Step rest (some q) depth [c] (if c = q then none else some q) depth
  | quote {c : Char} (hc : isQuote c = true) (depth : Nat) :
      Step rest none depth [c] (some c) depth
  | opening {c : Char} (hc : isOpening c = true) (depth : Nat) :
      Step rest none depth [c] none (depth + 1)
  | closing {c : Char} (hc : isClosing c = true) (depth : Nat) :
      Step rest none depth [c] none (depth - 1)
  | neutral {c : Char} (hc : isNeutral c = true) {depth : Nat}
      (hspace : c = ' ' → depth = 0 → operator? rest = none) :
      Step rest none depth [c] none depth

section Step

variable {rest chunk : List Char} {q q' : Option Char} {d d' : Nat}
  (h : Step rest q d chunk q' d')

include h

theorem Step.scan_eq : scan q d (chunk ++ rest) = (scan q' d' rest).map (Split.prepend chunk) := by
  cases h with
  | escape q e => exact scan_escaped q e d rest
  | literal hc =>
    rw [List.singleton_append, scan.eq_def]
    simp [hc, Split.cons_eq]
  | quote hc => simp [scan, hc, Split.cons_eq]
  | opening hc => exact scan_opening hc d rest
  | closing hc => exact scan_closing hc d rest
  | @neutral c hc _ hspace =>
    by_cases hcut : c = ' ' ∧ d = 0
    · obtain ⟨rfl, rfl⟩ := hcut
      simp [scan, isQuote, isOpening, isClosing, hspace rfl rfl, Split.cons_eq]
    · exact scan_neutral hc (not_and_or.1 hcut) rest

/-- A step does not look further than for an operator. -/
theorem Step.exchange {rest' : List Char} (hrest : operator? rest = none → operator? rest' = none) :
    Step rest' q d chunk q' d' := by
  cases h with
  | escape q e => exact .escape q e d
  | literal hc => exact .literal hc d
  | quote hc => exact .quote hc d
  | opening hc => exact .opening hc d
  | closing hc => exact .closing hc d
  | neutral hc hspace => exact .neutral hc fun hc hd => hrest (hspace hc hd)

/-- Inside more brackets the scan makes the same steps, and stays inside as many. -/
theorem Step.deepen {e : Nat} (hde : d ≤ e) : ∃ e', d' ≤ e' ∧ Step rest q e chunk q' e' := by
  cases h with
  | escape q c => exact ⟨e, hde, .escape q c e⟩
  | literal hc => exact ⟨e, hde, .literal hc e⟩
  | quote hc => exact ⟨e, hde, .quote hc e⟩
  | opening hc => exact ⟨e + 1, by omega, .opening hc e⟩
  | closing hc => exact ⟨e - 1, by omega, .closing hc e⟩
  | neutral hc hspace => exact ⟨e, hde, .neutral hc fun hc he => hspace hc (by omega)⟩

end Step

/-- A scan is over at the end of the text, at a backslash that escapes nothing, or at an operator;
before that it makes steps. -/
@[elab_as_elim]
theorem scan_induction {motive : Option Char → Nat → List Char → Prop}
    (finish : ∀ quote depth, motive quote depth [])
    (backslash : ∀ q depth, motive (some q) depth ['\\'])
    (cut : ∀ (op : Comparator) right, motive none 0 (' ' :: (op.symbol.toList ++ ' ' :: right)))
    (step : ∀ {rest chunk q q' d d'}, Step rest q d chunk q' d' → motive q' d' rest →
      motive q d (chunk ++ rest))
    (quote : Option Char) (depth : Nat) (cs : List Char) : motive quote depth cs := by
  have hneutral : ∀ {c}, ¬isQuote c = true → ¬isOpening c = true → ¬isClosing c = true →
      isNeutral c = true := by
    intro c hq ho hc
    simp [isNeutral, hq, ho, hc]
  induction quote, depth, cs using scan.induct with
  | case1 quote depth => exact finish quote depth
  | case2 depth q => exact backslash q depth
  | case3 depth q e rest ih => exact step (.escape q e depth) ih
  | case4 depth c rest q hc ih => exact step (.literal hc depth) ih
  | case5 depth c rest hc ih => exact step (.quote hc depth) ih
  | case6 depth c rest _ hc ih => exact step (.opening hc depth) ih
  | case7 depth c rest _ _ hc ih => exact step (.closing hc depth) ih
  | case8 depth c rest _ _ _ hspace op right hop =>
    obtain ⟨rfl, rfl⟩ := hspace
    rw [eq_of_operator? hop]
    exact cut op right
  | case9 depth c rest hq ho hc _ hop ih =>
    exact step (.neutral (hneutral hq ho hc) fun _ _ => hop) ih
  | case10 depth c rest hq ho hc hspace ih =>
    exact step (.neutral (hneutral hq ho hc) fun hc hd => absurd ⟨hc, hd⟩ hspace) ih

theorem scan_cut (op : Comparator) (right : List Char) :
    scan none 0 (' ' :: (op.symbol.toList ++ ' ' :: right)) = some ⟨[], op, right⟩ := by
  simp [scan, isQuote, isOpening, isClosing, operator?_symbol]

/-! ## Exchanging what stands behind the cut -/

/-- The characters of a comparison. -/
def Split.chars (s : Split) : List Char := s.left ++ ' ' :: (s.op.symbol.toList ++ ' ' :: s.right)

theorem Split.toList_text (s : Split) : s.text.toList = s.chars := by simp [text, chars]

theorem eq_chars_of_scan {q : Option Char} {d : Nat} {cs : List Char} {s : Split}
    (h : scan q d cs = some s) : cs = s.chars := by
  induction q, d, cs using scan_induction generalizing s with
  | finish => cases h
  | backslash => cases h
  | cut op right =>
    rw [scan_cut] at h
    cases h
    rfl
  | step hstep ih =>
    rw [hstep.scan_eq, Option.map_eq_some_iff] at h
    obtain ⟨s, hs, rfl⟩ := h
    rw [ih hs]
    simp [Split.chars, Split.prepend]

/-- With another operator and right side, a text is cut at the same place. -/
theorem scan_exchange {q : Option Char} {d : Nat} {cs : List Char} {s : Split}
    (h : scan q d cs = some s) (op : Comparator) (right : List Char) :
    scan q d (Split.chars ⟨s.left, op, right⟩) = some ⟨s.left, op, right⟩ := by
  induction q, d, cs using scan_induction generalizing s with
  | finish => cases h
  | backslash => cases h
  | cut op' right' =>
    rw [scan_cut] at h
    cases h
    exact scan_cut op right
  | @step rest chunk q q' d d' hstep ih =>
    rw [hstep.scan_eq, Option.map_eq_some_iff] at h
    obtain ⟨s, hs, rfl⟩ := h
    -- Both texts go on with the left side and a space, so an operator follows in both or in none.
    have hstep' : Step (Split.chars ⟨s.left, op, right⟩) q d chunk q' d' := by
      refine hstep.exchange fun hnone => ?_
      rw [eq_chars_of_scan hs] at hnone
      exact operator?_before_space hnone _
    have hchars : Split.chars ⟨(Split.prepend chunk s).left, op, right⟩ =
        chunk ++ Split.chars ⟨s.left, op, right⟩ := by simp [Split.chars, Split.prepend]
    rw [hchars, hstep'.scan_eq, ih hs]
    rfl

theorem eq_text_of_split? {text : String} {s : Split} (h : split? text = some s) :
    text = s.text := by
  rw [← String.toList_inj, Split.toList_text]
  exact eq_chars_of_scan h

theorem split?_exchange {text : String} {s : Split} (h : split? text = some s) (op : Comparator) :
    split? (Split.text { s with op }) = some { s with op } := by
  rw [split?, Split.toList_text]
  exact scan_exchange h op s.right

/-! ## Putting brackets around a text -/

/-- Where nothing is cut, nothing is cut inside more brackets, up to the one that closes them. -/
theorem scan_enclosed {q : Option Char} {d e : Nat} {cs : List Char} (h : scan q d cs = none)
    (hde : d ≤ e) : scan q e (cs ++ [')']) = none := by
  induction q, d, cs using scan_induction generalizing e with
  -- When a literal is open at the end of the text, the bracket belongs to it.
  | finish q d => cases q <;> simp [scan, isQuote, isOpening, isClosing]
  | backslash q d => simp [scan]
  | cut op right =>
    rw [scan_cut] at h
    cases h
  | step hstep ih =>
    obtain ⟨e', hde', hstep'⟩ := hstep.deepen hde
    rw [hstep.scan_eq, Option.map_eq_none_iff] at h
    rw [List.append_assoc, (hstep'.exchange operator?_concat).scan_eq, ih h hde', Option.map_none]

theorem split?_not {text : String} (h : split? text = none) :
    split? ("not(" ++ text ++ ")") = none := by
  have hlist : ("not(" ++ text ++ ")").toList =
      ['n', 'o', 't'] ++ '(' :: (text.toList ++ [')']) := by simp
  have hword : Flat ['n', 'o', 't'] := flat_of_plain (by decide)
  rw [split?, hlist, hword.passes _ (by rintro c ⟨⟩; rfl), scan_opening (by decide),
    scan_enclosed h (Nat.zero_le 1)]
  rfl

theorem negand?_eq_some_iff {cs u : List Char} :
    negand? cs = some u ↔ cs = ['n', 'o', 't', '('] ++ u ++ [')'] ∧ isBalanced u = true := by
  unfold negand?
  constructor
  · intro h
    simp only at h
    split_ifs at h with hprefix hbody
    cases h
    obtain ⟨body, rfl⟩ := List.isPrefixOf_iff_prefix.1 hprefix
    rw [List.drop_left] at hbody ⊢
    obtain ⟨hlast, hbalanced⟩ := hbody
    obtain ⟨inner, rfl⟩ := List.getLast?_eq_some_iff.1 hlast
    rw [List.dropLast_concat] at hbalanced ⊢
    exact ⟨(List.append_assoc ..).symm, hbalanced⟩
  · rintro ⟨rfl, hu⟩
    simp [hu]

theorem negand?_not {text : String} (h : isBalanced text.toList = true) :
    negand? ("not(" ++ text ++ ")").toList = some text.toList := by
  rw [negand?_eq_some_iff]
  exact ⟨by simp, h⟩

/-! ## Negation -/

theorem negate_of_split? {text : String} {s : Split} (h : split? text = some s) :
    negate text = Split.text { s with op := s.op.negate } := by
  rw [negate, h]

theorem negate_of_negand? {text inner : String} (h : split? text = none)
    (hinner : negand? text.toList = some inner.toList) : negate text = inner := by
  rw [negate, h]
  simp [hinner]

theorem negate_of_plain {text : String} (h : split? text = none)
    (hnegand : negand? text.toList = none) : negate text = "not(" ++ text ++ ")" := by
  rw [negate, h]
  simp [hnegand]

/-- A text that is cut is the comparison of its sides, and the text of these sides with any operator
is cut in the same way; so its negation has the opposite operator, and negating that gives the text
back. A text that is not cut, with balanced round brackets, and that is not itself `not(...)` around
balanced ones, is put into `not(...)`, which the second negation takes off. -/
theorem negate_reverts (text : String) :
    (∀ s, split? text = some s →
      text = s.text ∧ (∀ op, split? (Split.text { s with op }) = some { s with op }) ∧
        negate text = Split.text { s with op := s.op.negate } ∧ negate (negate text) = text) ∧
    (split? text = none → isBalanced text.toList = true →
      (∀ u : String, isBalanced u.toList = true → text ≠ "not(" ++ u ++ ")") →
        negate text = "not(" ++ text ++ ")" ∧ negate (negate text) = text) := by
  constructor
  · intro s hs
    refine ⟨eq_text_of_split? hs, split?_exchange hs, negate_of_split? hs, ?_⟩
    rw [negate_of_split? hs, negate_of_split? (split?_exchange hs s.op.negate),
      Comparator.negate_negate]
    exact (eq_text_of_split? hs).symm
  · intro hnone hbalanced hnot
    have hnegand : negand? text.toList = none := by
      rw [Option.eq_none_iff_forall_ne_some]
      intro u hu
      obtain ⟨htext, hu⟩ := negand?_eq_some_iff.1 hu
      refine hnot (String.ofList u) (by simpa using hu) ?_
      rw [← String.toList_inj, htext]
      simp
    rw [negate_of_plain hnone hnegand]
    exact ⟨rfl, negate_of_negand? (split?_not hnone) (negand?_not hbalanced)⟩

/-- A comparison with a bracket that nothing opens, an escaped quote and an operator in a literal,
and a quote that nothing closes. -/
def unclosed : String := "p] \"\\\" < \" ~= \"b > c"

/-- A call whose argument holds a comparison, and brackets in a literal. -/
def enclosing : String := "f(x == \")(\")"

theorem negate_reverts_unclosed :
    negate unclosed = "p] \"\\\" < \" == \"b > c" ∧ negate (negate unclosed) = unclosed ∧
      negate enclosing = "not(f(x == \")(\"))" ∧ negate (negate enclosing) = enclosing := by
  obtain ⟨hcut, -⟩ := negate_reverts unclosed
  obtain ⟨-, hwhole⟩ := negate_reverts enclosing
  have hsplit : split? unclosed = some ⟨"p] \"\\\" < \"".toList, .ne, "\"b > c".toList⟩ := by
    decide +kernel
  obtain ⟨-, -, hnegate, hreverts⟩ := hcut _ hsplit
  refine ⟨hnegate.trans (by decide +kernel), hreverts, ?_⟩
  refine hwhole (by decide +kernel) (by decide +kernel) ?_
  intro u _ htext
  have hhead := congrArg (·.toList.head?) htext
  simp [enclosing] at hhead

end ShortCircuit.Comparison
