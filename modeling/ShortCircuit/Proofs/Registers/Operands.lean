import ShortCircuit.Proofs.Registers.Effects
import ShortCircuit.Proofs.Text.Comparison
import ShortCircuit.Proofs.Text.Name

/-!
# Operands stay whole

Every text in a register has closed brackets and literals, and one that binds tighter than a
comparison has no comparison outside them. Every instruction keeps this, if the names that are
written as they are, those of variables and methods, are names.

* `Literal.isOperand_render`: a constant is an operand, whatever its bytes are.
* `Rendered.Whole`: what holds of the text of an expression, by its strength.
* `Rendered.Whole.wrap`: in brackets where needed, it is an operand.
* `Frame.whole_of_effect`: what an instruction writes is whole.
-/

namespace ShortCircuit

open Comparison

/-! ## Names and constants -/

/-- The characters that mean something to a scan. -/
def special : List Char :=
  ['"', '\'', '(', '[', '\x7b', ')', ']', '\x7d', '=', '~', '<', '>', ' ']

theorem isPlain_of_not_mem_special {c : Char} (h : c ∉ special) : isPlain c = true := by
  simp only [special, List.mem_cons, List.not_mem_nil, or_false, not_or] at h
  simp [isPlain, isNeutral, isQuote, isOpening, isClosing, isComparing, h]

theorem Name.isPlain_of_isPart {c : Char} (h : Name.isPart c = true) : isPlain c = true := by
  have htable : (special.all fun d => !Name.isPart d) = true := by decide
  refine isPlain_of_not_mem_special fun hmem => ?_
  have hpart := List.all_eq_true.1 htable c hmem
  simp [h] at hpart

/-- A name is an operand. -/
theorem Name.isOperand {name : String} (h : Name.isName name.toList = true) : IsOperand name := by
  have hparts := Name.isPart_of_mem h
  refine ⟨flat_of_plain (List.all_eq_true.2 fun c hc => isPlain_of_isPart (hparts c hc)),
    unnegated_of_word ?_ ?_⟩
  · intro hmem
    exact nomatch hparts _ hmem
  · intro hnot
    have hkeyword := Name.not_mem_keywords h
    rw [hnot] at hkeyword
    exact hkeyword (by decide)

/-- A character of a number. -/
def isNumeric (c : Char) : Bool := c.isDigit || c == '-' || c == '.'

theorem isOperand_of_numeric {text : String} (h : ∀ c ∈ text.toList, isNumeric c = true) :
    IsOperand text := by
  have htable : (special.all fun d => !isNumeric d) = true := by decide
  refine ⟨flat_of_plain (List.all_eq_true.2 fun c hc =>
    isPlain_of_not_mem_special fun hmem => ?_), unnegated_of_head fun hhead => ?_⟩
  · have hnumeric := List.all_eq_true.1 htable c hmem
    simp [h c hc] at hnumeric
  · exact nomatch h _ (List.mem_of_head? hhead)

namespace Binary64

theorem isNumeric_of_mem_toString {n : Nat} {c : Char} (h : c ∈ (toString n).toList) :
    isNumeric c = true := by
  have hdigit : c.isDigit = true :=
    Nat.isDigit_of_mem_toDigits (by decide) (by decide) (Nat.toList_repr ▸ h)
  simp [isNumeric, hdigit]

theorem isNumeric_of_mem_int {n : Int} {c : Char} (h : c ∈ (toString n).toList) :
    isNumeric c = true := by
  cases n with
  | ofNat n => exact isNumeric_of_mem_toString h
  | negSucc n =>
    have hlist : (toString (Int.negSucc n)).toList = '-' :: (toString (n + 1)).toList := by
      change ("-" ++ (n + 1).repr).toList = _
      simp
    rw [hlist] at h
    rcases List.mem_cons.1 h with rfl | h
    · rfl
    · exact isNumeric_of_mem_toString h

theorem isNumeric_of_mem_positional {units : Nat} {c : Char} (h : c ∈ (positional units).toList) :
    isNumeric c = true := by
  unfold positional at h
  dsimp only at h
  split_ifs at h
  · exact isNumeric_of_mem_toString h
  · simp only [String.toList_append, String.toList_ofList, List.mem_append, List.mem_reverse] at h
    rcases h with (h | h) | h
    · exact isNumeric_of_mem_toString h
    · simp only [String.reduceToList, List.mem_singleton] at h
      subst h
      rfl
    · have hmem := List.mem_reverse.1 ((List.dropWhile_suffix _).subset h)
      rw [List.leftpad, List.mem_append] at hmem
      rcases hmem with hmem | hmem
      · rw [List.eq_of_mem_replicate hmem]
        rfl
      · exact isNumeric_of_mem_toString hmem

/-- The text of a number is an operand. -/
theorem isOperand_text (x : Binary64) : IsOperand x.text := by
  unfold text
  split_ifs with hnan hinf hneg hsmall hneg
  · exact ⟨(closed_of_neutral (t := ['0', '/', '0']) (by decide)).group (o := '(') (c := ')')
      rfl rfl, by decide⟩
  · exact ⟨flat_of_plain (by decide), by decide⟩
  · exact ⟨flat_of_plain (by decide), by decide⟩
  · exact isOperand_of_numeric fun c => isNumeric_of_mem_int
  · refine isOperand_of_numeric fun c hc => ?_
    rw [String.toList_append, List.mem_append] at hc
    rcases hc with hc | hc
    · simp only [String.reduceToList, List.mem_singleton] at hc
      subst hc
      rfl
    · exact isNumeric_of_mem_positional hc
  · rw [String.empty_append]
    exact isOperand_of_numeric fun c => isNumeric_of_mem_positional

end Binary64

namespace Literal

/-- A constant is an operand, whatever its bytes are. -/
theorem isOperand_render (l : Literal) : IsOperand l.render := by
  cases l with
  | nil => exact ⟨flat_of_plain (by decide), by decide⟩
  | bool b => cases b <;> exact ⟨flat_of_plain (by decide), by decide⟩
  | number x => exact x.isOperand_text
  | string bytes =>
    refine ⟨flat_encode bytes, unnegated_of_head ?_⟩
    simp [render, Quoted.encode, Quoted.encodeChars]

end Literal

/-! ## Rendered expressions -/

/-- More text behind an operand leaves it an operand, if it does not complete the word `not`. -/
theorem Comparison.IsOperand.append {l r : String} (hl : IsOperand l) (hr : Flat r.toList)
    (hhead : r.toList.head? ∉ [some 'n', some 'o', some 't']) : IsOperand (l ++ r) := by
  refine ⟨by rw [String.toList_append]; exact hl.flat.append hr, ?_⟩
  rw [String.toList_append]
  cases hcs : r.toList with
  | nil =>
    rw [List.append_nil]
    exact hl.unnegated
  | cons c cs =>
    rw [hcs] at hhead
    refine hl.unnegated.append ⟨?_, ?_, ?_⟩ cs <;> rintro rfl <;> exact hhead (by simp)

theorem Comparison.Closed.isOperand_group {text : String} (h : Closed text.toList) :
    IsOperand ("(" ++ text ++ ")") := by
  have hlist : ("(" ++ text ++ ")").toList = '(' :: (text.toList ++ [')']) := by simp
  exact ⟨by rw [hlist]; exact h.group rfl rfl, unnegated_of_head (by simp [hlist])⟩

namespace Rendered

/-- The brackets and literals of the text are closed, and a text that binds tighter than a
comparison is an operand. -/
structure Whole (e : Rendered) : Prop where
  closed : Closed e.text.toList
  isOperand : Precedence.comparison < e.precedence → IsOperand e.text

theorem whole_of_isOperand {text : String} (h : IsOperand text) (p : Precedence) :
    Whole ⟨text, p⟩ :=
  ⟨h.flat.closed, fun _ => h⟩

theorem whole_name {name : String} (h : Name.isName name.toList = true) : (atom name).Whole :=
  whole_of_isOperand (Name.isOperand h) _

theorem whole_constant (l : Literal) : (constant l.render).Whole :=
  whole_of_isOperand l.isOperand_render _

/-- In brackets where they are needed, the text is an operand. -/
theorem Whole.wrap {e : Rendered} (h : e.Whole) {least : Precedence}
    (hleast : Precedence.comparison < least) : IsOperand (e.wrap least) := by
  unfold Rendered.wrap
  split_ifs with hlt
  · exact h.closed.isOperand_group
  · exact h.isOperand (Nat.lt_of_lt_of_le hleast (Nat.le_of_not_lt hlt))

theorem Whole.wrapOperand {e : Rendered} (h : e.Whole) : IsOperand e.wrapOperand :=
  h.wrap (Nat.lt_succ_self _)

theorem Whole.binary {l r : Rendered} (hl : l.Whole) (hr : r.Whole) {op : Opcode} {sign : String}
    {p : Precedence} (h : op.arithmetic? = some (sign, p)) :
    (Rendered.binary sign p l r).Whole := by
  have hsign : Flat sign.toList ∧ Precedence.comparison < p := by
    unfold Opcode.arithmetic? at h
    split at h <;> cases h <;> exact ⟨flat_of_plain (by decide), by decide⟩
  have hsucc := Nat.lt_succ_of_lt hsign.2
  have hjoin : ∀ {x y : String}, IsOperand x → IsOperand y →
      IsOperand (x ++ " " ++ sign ++ " " ++ y) := by
    intro x y hx hy
    have hrest : Flat (" " ++ sign ++ " " ++ y).toList := by
      simp only [String.toList_append]
      exact ((flat_space.append hsign.1).append flat_space).append hy.flat
    simp only [String.append_assoc] at hrest ⊢
    exact hx.append hrest (by simp)
  unfold Rendered.binary
  split_ifs
  · exact whole_of_isOperand (hjoin (hl.wrap hsucc) (hr.wrap hsign.2)) _
  · exact whole_of_isOperand (hjoin (hl.wrap hsign.2) (hr.wrap hsucc)) _

theorem Whole.unary {e : Rendered} (h : e.Whole) {sign : String}
    (hsign : sign ∈ ["-", "not ", "#"]) : (Rendered.unary sign e).Whole := by
  have hwrap : Flat (e.wrap Precedence.unary).toList := (h.wrap (by decide)).flat
  have hgap : ∀ gap ∈ ["", " "], IsOperand (sign ++ gap ++ e.wrap Precedence.unary) := by
    intro gap hgap
    have hflat : Flat sign.toList ∧ Flat gap.toList := by
      have hnot : Flat "not ".toList :=
        (flat_of_plain (t := ['n', 'o', 't']) (by decide)).append flat_space
      simp only [List.mem_cons, List.not_mem_nil, or_false] at hsign hgap
      rcases hsign with rfl | rfl | rfl <;> rcases hgap with rfl | rfl <;>
        first
          | exact ⟨hnot, flat_nil⟩
          | exact ⟨hnot, flat_space⟩
          | exact ⟨flat_of_plain (by decide), flat_nil⟩
          | exact ⟨flat_of_plain (by decide), flat_space⟩
    refine ⟨?_, ?_⟩
    · simp only [String.toList_append]
      exact (hflat.1.append hflat.2).append hwrap
    · simp only [List.mem_cons, List.not_mem_nil, or_false] at hsign
      rcases hsign with rfl | rfl | rfl
      · exact unnegated_of_head (by simp)
      · simp [Unnegated]
      · exact unnegated_of_head (by simp)
  refine whole_of_isOperand (hgap _ ?_) _
  split_ifs <;> simp

theorem whole_concat {parts : List Rendered} (h : ∀ e ∈ parts, e.Whole) :
    (concat parts).Whole := by
  refine whole_of_isOperand ?_ _
  have hdots : Flat " .. ".toList := by
    exact (flat_space.append (flat_of_plain (t := ['.', '.']) (by decide))).append flat_space
  induction parts with
  | nil => exact ⟨flat_nil, by decide⟩
  | cons e parts ih =>
    have he : IsOperand (e.wrap (Precedence.concat + 1)) := (h e (by simp)).wrap (by decide)
    have hparts := ih fun d hd => h d (by simp [hd])
    cases parts with
    | nil => simpa using he
    | cons d parts =>
      rw [List.map_cons, List.map_cons, String.intercalate_cons_cons, String.append_assoc]
      refine he.append ?_ (by simp)
      rw [String.toList_append]
      exact hdots.append hparts.flat

end Rendered

/-! ## Frames -/

/-- The name of the method that an instruction selects is a name. -/
def Prototype.NamesMethod (function : Prototype) (i : Instruction) : Prop :=
  i.op = .self → ∀ index, Operand.ofField i.c = .constant index →
    ∀ name, function.constantText? index = some name → Name.isName name.toList = true

/-- The names of the variables of a function and of the methods that its code selects are names. -/
structure Prototype.WellNamed (function : Prototype) : Prop where
  locals : ∀ v ∈ function.locals, Name.isName v.name.toList = true
  upvalues : ∀ name ∈ function.upvalueNames, Name.isName name.toList = true
  methods : ∀ i ∈ function.code, function.NamesMethod i

/-- All known registers are whole. -/
def Registers.Whole (rs : Registers) : Prop :=
  ∀ r slot, rs.get r = some slot → slot.toRendered.Whole

theorem Registers.Whole.rendered {rs : Registers} (h : rs.Whole) (r : UInt8) :
    (rs.rendered r).Whole := by
  unfold Registers.rendered
  split
  · next slot hslot => exact h r slot hslot
  · exact Rendered.whole_name (Name.isName_numbered (by decide) r.toNat)

theorem Registers.Whole.put {rs : Registers} (h : rs.Whole) (r : UInt8) {slot : Option Slot}
    (hslot : ∀ x, slot = some x → x.toRendered.Whole) : (rs.put r slot).Whole := by
  intro q x hx
  rw [Registers.get_put] at hx
  split_ifs at hx
  · exact hslot x hx
  · exact h q x hx

namespace Frame

variable {f : Frame} (hnames : f.function.WellNamed) (h : f.registers.Whole)

include hnames

theorem isName_localName {r : UInt8} {name : String}
    (hname : f.function.localName? r f.pc = some name) : Name.isName name.toList = true := by
  unfold Prototype.localName? Prototype.alive at hname
  obtain ⟨v, hv, rfl⟩ := Option.map_eq_some_iff.1 hname
  exact hnames.locals v (List.mem_filter.1 (List.mem_of_getElem? hv)).1

theorem isName_upvalueName (index : Nat) : Name.isName (f.upvalueName index).toList = true := by
  unfold upvalueName
  cases hname : f.function.upvalueNames[index]? with
  | none => exact Name.isName_numbered (by decide) index
  | some name => exact hnames.upvalues name (List.mem_of_getElem? hname)

include h

theorem whole_register (r : UInt8) : (f.register r).Whole := by
  unfold register
  split
  · next name hname => exact Rendered.whole_name (isName_localName hnames hname)
  · exact h.rendered r

theorem whole_operand {field : UInt16} {e : Rendered} (he : f.operand field = .ok e) : e.Whole := by
  unfold operand at he
  split at he
  · cases he
    exact whole_register hnames h _
  · obtain ⟨l, -, rfl⟩ := exists_of_map_eq_ok he
    exact Rendered.whole_constant l

theorem isOperand_operandText (field : UInt16) : IsOperand (f.operandText field) := by
  unfold operandText
  split
  · next e he => exact (whole_operand hnames h he).wrapOperand
  · exact Name.isOperand (Name.isName_numbered (by decide) _)

omit hnames h in
/-- Closed text in square brackets behind an operand is an operand. -/
theorem isOperand_index {object key : String} (hobject : IsOperand object)
    (hkey : Closed key.toList) : IsOperand (object ++ "[" ++ key ++ "]") := by
  have hgroup : Flat ("[" ++ key ++ "]").toList := by
    have hlist : ("[" ++ key ++ "]").toList = '[' :: (key.toList ++ [']']) := by simp
    rw [hlist]
    exact hkey.group rfl rfl
  simp only [String.append_assoc] at hgroup ⊢
  exact hobject.append hgroup (by simp)

omit hnames h in
/-- A name behind an operand and a dot or colon is an operand. -/
theorem isOperand_select {object name dot : String} (hobject : IsOperand object)
    (hname : Name.isName name.toList = true) (hdot : dot ∈ [".", ":"]) :
    IsOperand (object ++ dot ++ name) := by
  have hflat : Flat (dot ++ name).toList := by
    rw [String.toList_append]
    refine (flat_of_plain ?_).append (Name.isOperand hname).flat
    revert dot
    decide
  rw [String.append_assoc]
  refine hobject.append hflat ?_
  simp only [List.mem_cons, List.not_mem_nil, or_false] at hdot
  rcases hdot with rfl | rfl <;> simp

theorem isOperand_element {table : Rendered} (htable : table.Whole) {key : UInt16} {text : String}
    (he : f.element table key = .ok text) : IsOperand text := by
  have hobject : IsOperand (table.wrap Precedence.suffix) := htable.wrap (by decide)
  unfold element at he
  dsimp only at he
  split at he
  · cases he
    exact isOperand_index hobject (whole_register hnames h _).closed
  · obtain ⟨l, -, rfl⟩ := exists_of_map_eq_ok he
    split
    · next name hname =>
      exact isOperand_select hobject (Literal.isName_of_identifier? hname) (by simp)
    · exact isOperand_index hobject l.isOperand_render.flat.closed

omit hnames h in
theorem isOperand_globalName {index : Nat} {text : String}
    (he : f.globalName index = .ok text) : IsOperand text := by
  obtain ⟨l, -, rfl⟩ := exists_of_map_eq_ok he
  split
  · next name hname => exact Name.isOperand (Literal.isName_of_identifier? hname)
  · have hglobals : IsOperand "_G" := Name.isOperand (by decide)
    exact isOperand_index hglobals l.isOperand_render.flat.closed

theorem isOperand_callee (r : UInt8) : IsOperand (f.callee r).1 := by
  unfold callee
  split
  · next slot hslot => exact (h r slot hslot).wrap (by decide)
  · next hslot =>
    -- An unknown register is written as a name.
    refine (whole_register hnames h r).isOperand ?_
    have hatom : Precedence.comparison < Precedence.atom := by decide
    unfold register Registers.rendered
    rw [hslot]
    split <;> exact hatom

omit hnames h in
theorem closed_intercalate {parts : List String} (hparts : ∀ t ∈ parts, Closed t.toList) :
    Closed (String.intercalate ", " parts).toList := by
  induction parts with
  | nil => exact closed_nil
  | cons t parts ih =>
    have ht := hparts t (by simp)
    have hrest := ih fun u hu => hparts u (by simp [hu])
    cases parts with
    | nil => simpa using ht
    | cons u parts =>
      rw [String.intercalate_cons_cons, String.toList_append, String.toList_append]
      exact (ht.append (closed_of_neutral (by decide))).append hrest

theorem isOperand_callText (i : Instruction) : IsOperand (f.callText i) := by
  have harguments : ∀ registers : List UInt8,
      Closed (String.intercalate ", " (registers.map fun r => (f.register r).text)).toList := by
    intro registers
    refine closed_intercalate fun t ht => ?_
    obtain ⟨r, -, rfl⟩ := List.mem_map.1 ht
    exact (whole_register hnames h r).closed
  have hcallee := isOperand_callee hnames h i.a
  unfold callText
  dsimp only
  have hgroup := (harguments (Registers.range (i.a.toNat + if (f.callee i.a).2 then 2 else 1)
    (f.lastArgument i))).isOperand_group.flat
  simp only [String.append_assoc] at hgroup ⊢
  exact hcallee.append hgroup (by simp)

theorem whole_selected {i : Instruction} (hi : f.function.NamesMethod i) (hop : i.op = .self)
    {object : Rendered} (hobject : object.Whole) {slot : Slot}
    (hs : f.selected i object = .ok slot) : slot.toRendered.Whole := by
  unfold selected at hs
  dsimp only at hs
  split at hs
  · -- The key is read when the object already stands in the register above.
    obtain ⟨text, htext, rfl⟩ := exists_of_map_eq_ok hs
    have hwhole : (f.registers.put (i.a + 1) (some { toRendered := object })).Whole :=
      h.put _ fun x hx => by
        cases hx
        exact hobject
    let g : Frame :=
      { f with registers := f.registers.put (i.a + 1) (some { toRendered := object }) }
    have htext : g.element object i.c = .ok text := htext
    exact Rendered.whole_of_isOperand (isOperand_element (f := g) hnames hwhole hobject htext) _
  · next index hindex =>
    cases hl : f.constant index with
    | error cause => simp [hl, Except.bind] at hs
    | ok l =>
      simp only [hl, Except.bind] at hs
      split at hs
      · next name hname =>
        cases hs
        have htext : f.function.constantText? index = some name := by
          unfold constant at hl
          split at hl
          · next l' hl' =>
            cases hl
            simp [Prototype.constantText?, hl', hname]
          · cases hl
        exact Rendered.whole_of_isOperand
          (isOperand_select (hobject.wrap (by decide)) (hi hop index hindex name htext) (by simp)) _
      · obtain ⟨text, htext, rfl⟩ := exists_of_map_eq_ok hs
        exact Rendered.whole_of_isOperand (isOperand_element hnames h hobject htext) _

omit hnames h in
theorem whole_of_mem_store {r : UInt8} {e : Rendered} (he : e.Whole) {w : Write}
    (hw : w ∈ [Write.store r e]) {slot : Slot} (hslot : w.slot = some slot) :
    slot.toRendered.Whole := by
  rw [List.mem_singleton.1 hw] at hslot
  cases hslot
  exact he

theorem whole_of_arithmetic {i : Instruction} {writes : List Write}
    (he : (match i.op.arithmetic? with
      | none => .error (.unsupported i.op f.pc)
      | some (sign, level) => do
        let left ← f.operand i.b
        let right ← f.operand i.c
        return [.store i.a (.binary sign level left right)] : Except ExecutionError (List Write)) =
          .ok writes)
    {w : Write} (hw : w ∈ writes) {slot : Slot} (hslot : w.slot = some slot) :
    slot.toRendered.Whole := by
  split at he
  · cases he
  · next sign level harith =>
    obtain ⟨left, hl, he⟩ := exists_of_bind_eq_ok he
    obtain ⟨right, hr, he⟩ := exists_of_bind_eq_ok he
    cases he
    exact whole_of_mem_store
      ((whole_operand hnames h hl).binary (whole_operand hnames h hr) harith) hw hslot

theorem whole_of_call {i : Instruction} {w : Write} (hw : w ∈ f.call i) {slot : Slot}
    (hslot : w.slot = some slot) : slot.toRendered.Whole := by
  rcases List.mem_append.1 hw with hw | hw
  · obtain ⟨r, -, rfl⟩ := List.mem_map.1 hw
    cases hslot
  · split_ifs at hw
    · cases hw
    · exact whole_of_mem_store
        (Rendered.whole_of_isOperand (isOperand_callText hnames h i) _) hw hslot

theorem whole_of_method {i : Instruction} (hi : f.function.NamesMethod i) (hop : i.op = .self)
    {writes : List Write} (he : f.method i = .ok writes) {w : Write} (hw : w ∈ writes) {slot : Slot}
    (hslot : w.slot = some slot) : slot.toRendered.Whole := by
  have hobject := whole_register hnames h i.b.toUInt8
  obtain ⟨selected, hselected, rfl⟩ := exists_of_map_eq_ok he
  simp only [List.mem_cons, List.not_mem_nil, or_false] at hw
  rcases hw with rfl | rfl
  · cases hslot
    exact hobject
  · cases hslot
    exact whole_selected hnames h hi hop hobject hselected

/-- What an instruction writes is whole. -/
theorem whole_of_effect {i : Instruction} (hi : f.function.NamesMethod i) {writes : List Write}
    (he : f.effect i = .ok writes) {w : Write} (hw : w ∈ writes) {slot : Slot}
    (hslot : w.slot = some slot) : slot.toRendered.Whole := by
  have hregister := whole_register hnames h
  have hatom : ∀ {text : String}, IsOperand text → (Rendered.atom text).Whole := fun ht =>
    Rendered.whole_of_isOperand ht _
  unfold effect at he
  dsimp only at he
  split at he
  · cases he
    exact whole_of_mem_store (hregister _) hw hslot
  · cases he
    exact whole_of_mem_store (hregister _) hw hslot
  · obtain ⟨l, -, rfl⟩ := exists_of_map_eq_ok he
    exact whole_of_mem_store (Rendered.whole_constant l) hw hslot
  · cases he
    refine whole_of_mem_store (hatom ?_) hw hslot
    split_ifs
    · exact (Literal.bool false).isOperand_render
    · exact (Literal.bool true).isOperand_render
  · cases he
    obtain ⟨r, -, rfl⟩ := List.mem_map.1 hw
    cases hslot
    exact hatom Literal.nil.isOperand_render
  · cases he
    exact whole_of_mem_store (Rendered.whole_name (isName_upvalueName hnames _)) hw hslot
  · obtain ⟨name, hname, rfl⟩ := exists_of_map_eq_ok he
    exact whole_of_mem_store (hatom (isOperand_globalName hname)) hw hslot
  · obtain ⟨text, htext, rfl⟩ := exists_of_map_eq_ok he
    exact whole_of_mem_store (Rendered.whole_of_isOperand
      (isOperand_element hnames h (hregister _) htext) _) hw hslot
  · cases he
    refine whole_of_mem_store (hatom ⟨?_, by decide⟩) hw hslot
    exact closed_nil.group (o := '\x7b') (c := '\x7d') rfl rfl
  · next hop => exact whole_of_method hnames h hi hop he hw hslot
  iterate 6 · exact whole_of_arithmetic hnames h he hw hslot
  · cases he
    exact whole_of_mem_store ((hregister _).unary (by simp)) hw hslot
  · cases he
    exact whole_of_mem_store ((hregister _).unary (by simp)) hw hslot
  · cases he
    exact whole_of_mem_store ((hregister _).unary (by simp)) hw hslot
  · cases he
    refine whole_of_mem_store (Rendered.whole_concat fun e he => ?_) hw hslot
    obtain ⟨r, -, rfl⟩ := List.mem_map.1 he
    exact hregister r
  · cases he
    exact whole_of_call hnames h hw hslot
  · cases he
    exact whole_of_mem_store (hatom ⟨flat_of_plain (by decide), by decide⟩) hw hslot
  all_goals cases he <;> cases hw

end Frame

end ShortCircuit
