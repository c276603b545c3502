import ShortCircuit.Proofs.Expression.Grammar
import ShortCircuit.Proofs.Number.Whole
import ShortCircuit.Proofs.Text.Name

/-!
# Tokens of a text

The tokens of the source text of an expression, read character by character. Names and keywords end
where a character follows that cannot belong to them, signs are as long as possible, and a comment
is refused.

* `Reading.step`: one character; `tokens`: a whole text.
* `tokens_append`: a text that is followed by a space or a closing bracket has the same tokens.
* `Expression.ofText?`: the expression of a text.
-/

namespace ShortCircuit

/-- An atom of an expression. A whole number is known by its value, other literals by their text. -/
inductive Atom where
  | name (text : String)
  | integer (value : Nat)
  | literal (text : String)
deriving DecidableEq, Repr

/-- What has been read of the token that comes next. A selector is a field or a method name. -/
inductive Reading where
  | blank
  | word (cs : List Char)
  | numeral (cs : List Char)
  | sign (cs : List Char)
  | selector (isMethod : Bool) (cs : List Char)
  | quoted (quote : Char) (cs : List Char) (escaped : Bool)
deriving DecidableEq, Repr

namespace Reading

/-- Space and line breaks. -/
def isBlank (c : Char) : Bool := c == ' ' || c == '\t' || c == '\n' || c == '\r'

/-- The token of a word; most keywords are none of an expression. -/
def word? (cs : List Char) : Option (Token Atom) :=
  let text := String.ofList cs
  if text = "and" then some (.binary (.logic .and))
  else if text = "or" then some (.binary (.logic .or))
  else if text = "not" then some .not
  else if text = "nil" ∨ text = "true" ∨ text = "false" then some (.atom (.literal text))
  else if Name.isName cs then some (.atom (.name text))
  else none

/-- Whether characters form a number with a point or an exponent, or a hexadecimal one. -/
def isNumeral (cs : List Char) : Bool :=
  match cs with
  | '0' :: 'x' :: digits | '0' :: 'X' :: digits =>
    !digits.isEmpty && digits.all fun c => c.isDigit || "abcdefABCDEF".toList.contains c
  | _ =>
    let mantissa := cs.takeWhile fun c => c != 'e' && c != 'E'
    let exponent := cs.dropWhile fun c => c != 'e' && c != 'E'
    let power := match exponent.tail with
      | '+' :: digits | '-' :: digits | digits => digits
    mantissa.any Char.isDigit && mantissa.all (fun c => c.isDigit || c == '.')
      && mantissa.count '.' ≤ 1
      && (exponent.isEmpty || (!power.isEmpty && power.all Char.isDigit))

/-- The token of a number. -/
def numeral? (cs : List Char) : Option (Token Atom) :=
  if cs.all Char.isDigit then some (.atom (.integer (nearestWhole (Nat.ofDigitChars 10 cs 0))))
  else if isNumeral cs then some (.atom (.literal (String.ofList cs)))
  else none

/-- The token of a sign. -/
def sign? : List Char → Option (Token Atom)
  | ['+'] => some (.binary .add)
  | ['-'] => some (.binary .sub)
  | ['*'] => some (.binary .mul)
  | ['/'] => some (.binary .div)
  | ['%'] => some (.binary .mod)
  | ['^'] => some (.binary .pow)
  | ['#'] => some .length
  | [','] => some (.binary .comma)
  | ['('] => some (.opening .round)
  | [')'] => some (.closing .round)
  | ['['] => some (.opening .square)
  | [']'] => some (.closing .square)
  | ['<'] => some (.binary (.compare .lt))
  | ['>'] => some (.binary (.compare .gt))
  | ['<', '='] => some (.binary (.compare .le))
  | ['>', '='] => some (.binary (.compare .ge))
  | ['=', '='] => some (.binary (.compare .eq))
  | ['~', '='] => some (.binary (.compare .ne))
  | ['.', '.'] => some (.binary .concat)
  | ['.', '.', '.'] => some (.atom (.literal "..."))
  | ['\x7b', '\x7d'] => some (.atom (.literal "\x7b\x7d"))
  | _ => none

/-- The characters that begin a sign. -/
def signStarts : List Char := "+-*/%^#,()[]<>=~.:\x7b".toList

/-- Whether a character makes a sign longer. -/
def extendsSign (cs : List Char) (c : Char) : Bool :=
  (c == '=' && (cs == ['<'] || cs == ['>'] || cs == ['='] || cs == ['~']))
    || (c == '.' && (cs == ['.'] || cs == ['.', '.']))
    || (c == '\x7d' && cs == ['\x7b'])

/-- Whether a character turns a sign into a comment or a long string, which are refused. -/
def isForeign (cs : List Char) (c : Char) : Bool :=
  (c == '-' && cs == ['-']) || ((c == '[' || c == '=') && cs == ['['])

/-- The tokens of what has been read, if it is complete. -/
def flush : Reading → Option (List (Token Atom))
  | .blank => some []
  | .word cs => (word? cs).map ([·])
  | .numeral cs => (numeral? cs).map ([·])
  | .sign cs => (sign? cs).map ([·])
  | .selector isMethod cs =>
    if Name.isName cs then
      some [if isMethod then .method (String.ofList cs) else .member (String.ofList cs)]
    else none
  | .quoted .. => none

/-- What a character begins. -/
def start (c : Char) : Option Reading :=
  if isBlank c then some .blank
  else if Name.isStart c then some (.word [c])
  else if c.isDigit then some (.numeral [c])
  else if c = '"' ∨ c = '\'' then some (.quoted c [] false)
  else if signStarts.contains c then some (.sign [c])
  else none

/-- Ends a token and begins the next one. -/
def restart (st : Reading) (c : Char) : Option (List (Token Atom) × Reading) :=
  st.flush.bind fun ts => (start c).map (ts, ·)

/-- Reads one character: the tokens that are complete and what has been read of the next one. -/
def step (st : Reading) (c : Char) : Option (List (Token Atom) × Reading) :=
  match st with
  | .blank => restart .blank c
  | .word cs => if Name.isPart c then some ([], .word (cs ++ [c])) else restart (.word cs) c
  | .numeral cs =>
    let inExponent := (c == '+' || c == '-') && (cs.getLast? == some 'e' || cs.getLast? == some 'E')
    if Name.isPart c || c == '.' || inExponent then some ([], .numeral (cs ++ [c]))
    else restart (.numeral cs) c
  | .sign cs =>
    if extendsSign cs c then some ([], .sign (cs ++ [c]))
    else if isForeign cs c then none
    else if cs = ['.'] ∧ c.isDigit then some ([], .numeral ['.', c])
    else if cs = ['.'] ∨ cs = [':'] then
      if isBlank c then some ([], .selector (cs = [':']) [])
      else if Name.isStart c then some ([], .selector (cs = [':']) [c])
      else none
    else restart (.sign cs) c
  | .selector isMethod cs =>
    if Name.isPart c then some ([], .selector isMethod (cs ++ [c]))
    else if isBlank c && cs.isEmpty then some ([], .selector isMethod [])
    else restart (.selector isMethod cs) c
  | .quoted quote cs escaped =>
    if escaped then some ([], .quoted quote (cs ++ [c]) false)
    else if c = '\\' then some ([], .quoted quote (cs ++ [c]) true)
    else if c = quote then some ([.atom (.literal (String.ofList (quote :: (cs ++ [c]))))], .blank)
    else if c = '\n' then none
    else some ([], .quoted quote (cs ++ [c]) false)

end Reading

/-- The tokens of a text, from what has been read before it. -/
def tokens (st : Reading) : List Char → Option (List (Token Atom))
  | [] => st.flush
  | c :: cs => (st.step c).bind fun (ts, st) => (tokens st cs).map (ts ++ ·)

/-- The expression of a text. -/
def Expression.ofText? (text : String) : Option (Expression Atom) :=
  (tokens .blank text.toList).bind Expression.parse

/-! ## Where a token ends -/

theorem tokens_of_step {st st' : Reading} {c : Char} {ts : List (Token Atom)}
    (h : st.step c = some (ts, st')) (cs : List Char) :
    tokens st (c :: cs) = (tokens st' cs).map (ts ++ ·) := by
  rw [tokens, h]
  rfl

theorem tokens_of_silent {st st' : Reading} {c : Char} (h : st.step c = some ([], st'))
    (cs : List Char) : tokens st (c :: cs) = tokens st' cs := by
  simp [tokens_of_step h]

/-- A dot or a colon alone is no token. -/
theorem Reading.ne_of_sign? {cs : List Char} {tok : Token Atom} (h : sign? cs = some tok) :
    ¬(cs = ['.'] ∨ cs = [':']) := by
  rintro (rfl | rfl) <;> exact nomatch h

/-- A space or a closing bracket ends every complete token. -/
theorem Reading.step_eq_restart {st : Reading} {ts : List (Token Atom)} (h : st.flush = some ts)
    {c : Char} (hc : c = ' ' ∨ c = ')') : st.step c = st.restart c := by
  cases st with
  | blank => rfl
  | word cs => rcases hc with rfl | rfl <;> rfl
  | numeral cs => rcases hc with rfl | rfl <;> rfl
  | sign cs =>
    obtain ⟨tok, htok, -⟩ := Option.map_eq_some_iff.1 h
    rcases hc with rfl | rfl <;> simp [step, extendsSign, isForeign, ne_of_sign? htok]
  | selector isMethod cs =>
    have hcs : cs ≠ [] := by
      rintro rfl
      cases h
    rcases hc with rfl | rfl <;> simp [step, Name.isPart, Name.isStart, isBlank, hcs]
  | quoted => cases h

/-- A token that ends leaves the next one to be read as from the start. -/
theorem tokens_of_restart {st : Reading} {ts : List (Token Atom)} (h : st.flush = some ts)
    {c : Char} (hstep : st.step c = st.restart c) (cs : List Char) :
    tokens st (c :: cs) = (tokens .blank (c :: cs)).map (ts ++ ·) := by
  have hblank : Reading.blank.step c = Reading.blank.restart c := rfl
  rw [tokens, tokens, hstep, hblank, Reading.restart, Reading.restart, h]
  cases Reading.start c <;> simp [Reading.flush]

/-- A text that is followed by a space or a closing bracket has the same tokens. -/
theorem tokens_append {st : Reading} {t : List Char} {ts : List (Token Atom)}
    (h : tokens st t = some ts) {c : Char} (hc : c = ' ' ∨ c = ')') (rest : List Char) :
    tokens st (t ++ c :: rest) = (tokens .blank (c :: rest)).map (ts ++ ·) := by
  induction t generalizing st ts with
  | nil => exact tokens_of_restart h (Reading.step_eq_restart h hc) rest
  | cons d t ih =>
    cases hstep : st.step d with
    | none => simp [tokens, hstep] at h
    | some p =>
      rw [tokens_of_step hstep, Option.map_eq_some_iff] at h
      obtain ⟨us, hus, rfl⟩ := h
      rw [List.cons_append, tokens_of_step hstep, ih hus, Option.map_map]
      congr 1
      funext vs
      simp

/-! ## Signs, names and numerals -/

@[simp]
theorem tokens_space (rest : List Char) : tokens .blank (' ' :: rest) = tokens .blank rest :=
  tokens_of_silent rfl rest

/-- A sign ends before everything that does not make it longer. -/
theorem tokens_sign {cs : List Char} {tok : Token Atom} (hsign : Reading.sign? cs = some tok)
    {t : List Char} (hhead : ∀ c, t.head? = some c →
      Reading.extendsSign cs c = false ∧ Reading.isForeign cs c = false) :
    tokens (.sign cs) t = (tokens .blank t).map (tok :: ·) := by
  have hflush : (Reading.sign cs).flush = some [tok] := by simp [Reading.flush, hsign]
  cases t with
  | nil => simpa [tokens, Reading.flush] using hflush
  | cons c t =>
    obtain ⟨hlonger, hforeign⟩ := hhead c rfl
    have hdot := Reading.ne_of_sign? hsign
    have hdigit : ¬(cs = ['.'] ∧ c.isDigit = true) := fun h => hdot (.inl h.1)
    exact tokens_of_restart hflush (by simp [Reading.step, hlonger, hforeign, hdot, hdigit]) t

theorem tokens_symbol (op : BinaryOperator) :
    tokens .blank op.symbol.toList = some [.binary op] := by
  cases op with
  | logic op => cases op <;> rfl
  | compare op => cases op <;> rfl
  | _ => rfl

/-- The tokens of two texts with an operator between them. -/
theorem tokens_binary (op : BinaryOperator) {l r : List Char} {ts us : List (Token Atom)}
    (hl : tokens .blank l = some ts) (hr : tokens .blank r = some us) :
    tokens .blank (l ++ ' ' :: (op.symbol.toList ++ ' ' :: r)) = some (ts ++ .binary op :: us) := by
  rw [tokens_append hl (.inl rfl), tokens_space, tokens_append (tokens_symbol op) (.inl rfl),
    tokens_space, hr]
  rfl

/-- The tokens of a text in brackets. -/
theorem tokens_group {t : List Char} {ts : List (Token Atom)} (h : tokens .blank t = some ts) :
    tokens .blank ('(' :: (t ++ [')'])) =
      some (.opening .round :: (ts ++ [.closing .round])) := by
  have hclose : tokens .blank [')'] = some [.closing .round] := rfl
  have hstep : Reading.blank.step '(' = some ([], .sign ['(']) := rfl
  have hopen : Reading.sign? ['('] = some (.opening .round) := rfl
  rw [tokens_of_silent hstep, tokens_sign hopen, tokens_append h (.inr rfl), hclose]
  · simp
  · intro c _
    simp [Reading.extendsSign, Reading.isForeign]

theorem tokens_word {cs t : List Char} (h : ∀ c ∈ t, Name.isPart c = true) :
    tokens (.word cs) t = (Reading.word? (cs ++ t)).map ([·]) := by
  induction t generalizing cs with
  | nil => simp [tokens, Reading.flush]
  | cons c t ih =>
    have hstep : (Reading.word cs).step c = some ([], .word (cs ++ [c])) := by
      simp [Reading.step, h c]
    rw [tokens_of_silent hstep, ih fun d hd => h d (by simp [hd])]
    simp

theorem tokens_digits {cs t : List Char} (h : ∀ c ∈ t, c.isDigit = true) :
    tokens (.numeral cs) t = (Reading.numeral? (cs ++ t)).map ([·]) := by
  induction t generalizing cs with
  | nil => simp [tokens, Reading.flush]
  | cons c t ih =>
    have hstep : (Reading.numeral cs).step c = some ([], .numeral (cs ++ [c])) := by
      simp [Reading.step, Name.isPart, h c]
    rw [tokens_of_silent hstep, ih fun d hd => h d (by simp [hd])]
    simp

theorem Reading.word?_of_isName {cs : List Char} (h : Name.isName cs = true) :
    word? cs = some (.atom (.name (String.ofList cs))) := by
  have hne : ∀ k ∈ Literal.keywords, String.ofList cs ≠ k := fun k hk heq =>
    Name.not_mem_keywords h (heq ▸ hk)
  simp [word?, h, hne "and" (by decide), hne "or" (by decide), hne "not" (by decide),
    hne "nil" (by decide), hne "true" (by decide), hne "false" (by decide)]

theorem Reading.isBlank_eq_false {c : Char} (h : Name.isPart c = true) : isBlank c = false := by
  rw [Bool.eq_false_iff]
  intro hblank
  simp only [isBlank, Bool.or_eq_true, beq_iff_eq] at hblank
  rcases hblank with ((rfl | rfl) | rfl) | rfl <;> exact nomatch h

theorem Name.isStart_eq_false {c : Char} (h : c.isDigit = true) : Name.isStart c = false := by
  simp only [Char.isDigit, Bool.and_eq_true, decide_eq_true_eq, ge_iff_le] at h
  rw [Bool.eq_false_iff]
  intro hstart
  have hletter : c.isAlpha = (decide ('A'.val ≤ c.val ∧ c.val ≤ 'Z'.val) ||
      (decide ('a'.val ≤ c.val) && decide (c.val ≤ 'z'.val))) := rfl
  simp only [Name.isStart, hletter, Bool.or_eq_true, Bool.and_eq_true, decide_eq_true_eq,
    beq_iff_eq] at hstart
  rcases hstart with hstart | rfl
  · simp only [UInt32.le_iff_toNat_le] at h hstart
    have hnine : '9'.val.toNat = 57 := rfl
    have hupper : 'A'.val.toNat = 65 := rfl
    have hlower : 'a'.val.toNat = 97 := rfl
    omega
  · exact absurd h (by decide)

/-- A name is one token. -/
theorem tokens_name {cs : List Char} (hname : Name.isName cs = true) :
    tokens .blank cs = some [.atom (.name (String.ofList cs))] := by
  cases cs with
  | nil => exact nomatch hname
  | cons c cs =>
    have h := Name.isPart_of_mem hname
    have hstart : Name.isStart c = true := by
      simp only [Name.isName, Bool.and_eq_true] at hname
      exact hname.1.1
    have hblank := Reading.isBlank_eq_false (h c (by simp))
    have hstep : Reading.blank.step c = some ([], .word [c]) := by
      simp [Reading.step, Reading.restart, Reading.flush, Reading.start, hblank, hstart]
    rw [tokens_of_silent hstep, tokens_word fun d hd => h d (by simp [hd])]
    simp [Reading.word?_of_isName hname]

/-- A numeral is one token, and stands for the nearest number. -/
theorem tokens_toString (n : Nat) :
    tokens .blank (toString n).toList = some [.atom (.integer (nearestWhole n))] := by
  have hlist : (toString n).toList = Nat.toDigits 10 n := Nat.toList_repr
  have hdigits : ∀ c ∈ Nat.toDigits 10 n, c.isDigit = true := fun c hc =>
    Nat.isDigit_of_mem_toDigits (by decide) (by decide) hc
  have hvalue : Nat.ofDigitChars 10 (Nat.toDigits 10 n) 0 = n := Nat.ofDigitChars_ten_toDigits
  rw [hlist]
  cases hcs : Nat.toDigits 10 n with
  | nil => exact absurd hcs Nat.toDigits_ne_nil
  | cons c cs =>
    rw [hcs] at hdigits hvalue
    have hc := hdigits c (by simp)
    have hblank := Reading.isBlank_eq_false (c := c) (by simp [Name.isPart, hc])
    have hword := Name.isStart_eq_false hc
    have hstep : Reading.blank.step c = some ([], .numeral [c]) := by
      simp [Reading.step, Reading.restart, Reading.flush, Reading.start, hblank, hword, hc]
    have hall : (c :: cs).all Char.isDigit = true := List.all_eq_true.2 hdigits
    rw [tokens_of_silent hstep, tokens_digits fun d hd => hdigits d (by simp [hd])]
    simp only [List.singleton_append, Reading.numeral?, hall, if_true, hvalue]
    rfl

end ShortCircuit
