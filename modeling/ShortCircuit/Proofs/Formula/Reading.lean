import ShortCircuit.Proofs.Expression.Grammar
import ShortCircuit.Proofs.Formula

/-!
# Reading a rendered formula

A formula is rendered with brackets only where the connective changes, so the brackets of a run of
equal connectives are lost. What is read back is the formula with its runs nested to the left. It
has the same leaves in the same order and the same value, whatever flags the nodes carry.

* `Formula.Leaf`, `Formula.leaves`: the leaves of a formula. The rendered text of a leaf is one
  token.
* `Formula.tokens`: the tokens of a rendered formula (`Formula.render_eq_spell`).
* `Formula.expression`: the formula as it is read back (`Formula.reads_tokens`).
* `Formula.parse_render`: rendering keeps value and leaves, and negation negates the value.
-/

namespace ShortCircuit

namespace Expression

variable {α : Type}

/-- The atoms of an expression from left to right. -/
def atoms : Expression α → List α
  | .atom a => [a]
  | .unary _ e | .select e _ => e.atoms
  | .binary _ l r | .apply _ l r => l.atoms ++ r.atoms

/-- The truth value of an expression, when it is determined by the truth of the atoms: the
expression consists of connectives and negations. -/
def truth (v : α → Bool) : Expression α → Option Bool
  | .atom a => some (v a)
  | .unary .not e => (e.truth v).map (!·)
  | .binary (.logic op) l r => (l.truth v).bind fun a => (r.truth v).map (op.apply a)
  | _ => none

/-- Joins two expressions by a connective. A run of the connective on the right continues the run on
the left. -/
def graft (op : Connective) (x : Expression α) : Expression α → Expression α
  | .binary o l r =>
    if o = .logic op then .binary o (graft op x l) r else .binary (.logic op) x (.binary o l r)
  | e => .binary (.logic op) x e

theorem graft_assoc (op : Connective) (x y z : Expression α) :
    graft op x (graft op y z) = graft op (graft op x y) z := by
  induction z with
  | binary o l r ihl ihr =>
    by_cases ho : o = .logic op
    · simp [graft, ho, ihl]
    · simp [graft, ho]
  | _ => simp [graft]

theorem atoms_graft (op : Connective) (x y : Expression α) :
    (graft op x y).atoms = x.atoms ++ y.atoms := by
  induction y with
  | binary o l r ihl ihr =>
    by_cases ho : o = .logic op
    · simp [graft, ho, atoms, ihl]
    · simp [graft, ho, atoms]
  | _ => simp [graft, atoms]

theorem apply_assoc (op : Connective) (a b c : Bool) :
    op.apply a (op.apply b c) = op.apply (op.apply a b) c := by
  cases op <;> cases a <;> cases b <;> rfl

/-- A connective is associative, so the value does not depend on the nesting of a run. -/
theorem truth_graft (v : α → Bool) (op : Connective) (x y : Expression α) :
    (graft op x y).truth v = (binary (.logic op) x y).truth v := by
  induction y with
  | binary o l r ihl ihr =>
    by_cases ho : o = .logic op
    · rw [graft, if_pos ho, ho, truth, ihl]
      simp only [truth]
      cases x.truth v <;> cases l.truth v <;> cases r.truth v <;> simp [apply_assoc]
    · simp [graft, ho]
  | _ => simp [graft]

end Expression

namespace Formula

open Expression

/-- A leaf of a formula. -/
structure Leaf where
  text : String
  negated : Bool
deriving DecidableEq, Repr

namespace Leaf

/-- The text of a leaf, negated on demand. -/
def render (l : Leaf) : String := if l.negated then Comparison.negate l.text else l.text

/-- The truth of a leaf under an assignment to the texts. -/
def eval (v : String → Bool) (l : Leaf) : Bool := v l.text ^^ l.negated

/-- The leaf with the other flag. -/
def negate (l : Leaf) : Leaf := { l with negated := !l.negated }

end Leaf

/-- The leaves of a formula from left to right. -/
def leaves : Formula → List Leaf
  | .atom text n => [⟨text, n⟩]
  | .join _ l r _ => l.leaves ++ r.leaves

/-- Brackets around tokens on demand. -/
def bracketTokens (on : Bool) (ts : List (Token Leaf)) : List (Token Leaf) :=
  if on then .opening .round :: (ts ++ [.closing .round]) else ts

/-- The tokens of a rendered formula. -/
def tokens : Formula → List (Token Leaf)
  | .atom text n => [.atom ⟨text, n⟩]
  | .join op l r n =>
    bracketTokens (l.needsBrackets (shown op n)) l.tokens
      ++ .binary (.logic (shown op n)) :: bracketTokens (r.needsBrackets (shown op n)) r.tokens

/-- The formula with runs of equal connectives nested to the left. -/
def expression : Formula → Expression Leaf
  | .atom text n => .atom ⟨text, n⟩
  | .join op l r n => graft (shown op n) l.expression r.expression

/-- What is written for the tokens of a formula: a leaf is one token. -/
def spelling : Token Leaf → String
  | .atom l => l.render
  | .binary op => " " ++ op.symbol ++ " "
  | .not => "not "
  | .length => "#"
  | .member name => "." ++ name
  | .method name => ":" ++ name
  | .opening .round => "(" | .closing .round => ")"
  | .opening .square => "[" | .closing .square => "]"

/-- What is written for a list of tokens. -/
def spell (ts : List (Token Leaf)) : String := String.join (ts.map spelling)

theorem spell_bracketTokens (on : Bool) (ts : List (Token Leaf)) :
    spell (bracketTokens on ts) = bracket on (spell ts) := by
  cases on with
  | false => rfl
  | true => simp [bracketTokens, bracket, spell, spelling, String.append_assoc]

/-- The tokens of a formula are those of its text. -/
theorem render_eq_spell (f : Formula) : f.render = spell f.tokens := by
  induction f with
  | atom text n => simp [render, tokens, spell, spelling, Leaf.render]
  | join op l r n ihl ihr =>
    have hsplit : ∀ (c : Connective) (ts us : List (Token Leaf)),
        spell (ts ++ .binary (.logic c) :: us) =
          spell ts ++ " " ++ c.symbol ++ " " ++ spell us := by
      intro c ts us
      have hsymbol : (BinaryOperator.logic c).symbol = c.symbol := by cases c <;> rfl
      simp [spell, spelling, hsymbol, String.append_assoc]
    rw [render_join, tokens, hsplit, spell_bracketTokens, spell_bracketTokens, ihl, ihr]

/-! ## The expression that is read -/

theorem graft_of_ne {c d : Connective} (h : d ≠ c) (x l r : Expression Leaf) :
    graft c x (graft d l r) = .binary (.logic c) x (graft d l r) := by
  have htop : ∃ a b, graft d l r = .binary (.logic d) a b := by
    unfold graft
    split
    · split_ifs with ho
      · exact ⟨_, _, by rw [ho]⟩
      · exact ⟨_, _, rfl⟩
    · exact ⟨_, _, rfl⟩
  obtain ⟨a, b, htop⟩ := htop
  rw [htop, graft, if_neg (by simpa using h)]

theorem logic_le_atom (c : Connective) :
    (BinaryOperator.logic c).level ≤ Level.atom ∧
      (BinaryOperator.logic c).rightLeast ≤ Level.atom := by
  cases c <;> decide

theorem or_le_logic (c : Connective) : Level.or ≤ (BinaryOperator.logic c).level := by
  cases c <;> decide

/-- An expression that never needs brackets joins any run. -/
theorem reads_run {c : Connective} {ts us : List (Token Leaf)} {x y : Expression Leaf}
    (hx : Reads (BinaryOperator.logic c).level ts x) (hy : Reads Level.atom us y) :
    Reads (BinaryOperator.logic c).level (ts ++ .binary (.logic c) :: us)
      (.binary (.logic c) x y) :=
  .binary _ hx (hy.weaken (logic_le_atom c).2)

/-- An operand of a connective is read as an expression of its level, and joins a run in front of
it. A formula that shows another connective is one operand in brackets; one that shows the same
connective stands without them and continues the run. -/
theorem reads_operand (f : Formula) (c : Connective) :
    Reads (BinaryOperator.logic c).level (bracketTokens (f.needsBrackets c) f.tokens)
        f.expression ∧
      ∀ ts x, Reads (BinaryOperator.logic c).level ts x →
        Reads (BinaryOperator.logic c).level
          (ts ++ .binary (.logic c) :: bracketTokens (f.needsBrackets c) f.tokens)
          (graft c x f.expression) := by
  induction f generalizing c with
  | atom text n =>
    have hatom : Reads Level.atom [.atom ⟨text, n⟩] (.atom (⟨text, n⟩ : Leaf)) := .atom _
    exact ⟨hatom.weaken (logic_le_atom c).1, fun ts x hx => reads_run hx hatom⟩
  | join op l r n ihl ihr =>
    have hjoin := (ihr (shown op n)).2 _ _ (ihl (shown op n)).1
    rw [← tokens, ← expression] at hjoin
    by_cases hc : shown op n = c
    · have hbare : (join op l r n).needsBrackets c = false := needsBrackets_of_connective? (by
        rw [connective?, hc])
      rw [hbare, bracketTokens, if_neg (by simp)]
      subst hc
      refine ⟨hjoin, fun ts x hx => ?_⟩
      have hrun := (ihr (shown op n)).2 _ _ ((ihl (shown op n)).2 ts x hx)
      rw [tokens, expression, graft_assoc]
      simpa using hrun
    · have hgroup : (join op l r n).needsBrackets c = true := by
        simp [needsBrackets, connective?, hc]
      rw [hgroup, bracketTokens, if_pos rfl]
      have hatom := Reads.group (hjoin.weaken (or_le_logic (shown op n)))
      refine ⟨hatom.weaken (logic_le_atom c).1, fun ts x hx => ?_⟩
      have hrun := reads_run hx hatom
      rwa [expression, graft_of_ne hc]

theorem reads_tokens (f : Formula) : Reads Level.or f.tokens f.expression := by
  cases f with
  | atom text n => exact (Reads.atom _).weaken (by decide)
  | join op l r n =>
    have hjoin := (reads_operand (join op l r n) (shown op n)).1
    rw [needsBrackets_of_connective? rfl, bracketTokens, if_neg (by simp)] at hjoin
    exact hjoin.weaken (or_le_logic _)

theorem truth_expression (v : String → Bool) (f : Formula) :
    f.expression.truth (Leaf.eval v) = some (f.eval v) := by
  induction f with
  | atom text n => rfl
  | join op l r n ihl ihr => rw [expression, truth_graft, truth, ihl, ihr]; rfl

theorem atoms_expression (f : Formula) : f.expression.atoms = f.leaves := by
  induction f with
  | atom text n => rfl
  | join op l r n ihl ihr => rw [expression, atoms_graft, ihl, ihr, leaves]

theorem leaves_negate (f : Formula) : f.negate.leaves = f.leaves.map Leaf.negate := by
  induction f with
  | atom text n => rfl
  | join op l r n ihl ihr => rw [negate, leaves, leaves, ihl, ihr, List.map_append]

/-- Rendering is faithful and negation is negation. The text of a formula is that of its tokens, and
what is read from them has the value of the formula under every assignment and the same leaves from
left to right. Negating a formula negates its value and keeps the order of the leaves, and negating
it twice gives the formula back. -/
theorem parse_render (f : Formula) :
    f.render = spell f.tokens ∧
      (∃ e, parse f.tokens = some e ∧ (∀ v, e.truth (Leaf.eval v) = some (f.eval v)) ∧
        e.atoms = f.leaves) ∧
      (∀ v, f.negate.eval v = !f.eval v) ∧ f.negate.leaves = f.leaves.map Leaf.negate ∧
      f.negate.negate = f := by
  refine ⟨f.render_eq_spell, ?_, fun v => eval_negate v f, leaves_negate f, negate_negate f⟩
  refine ⟨f.expression, f.reads_tokens.parse_eq, fun v => truth_expression v f, ?_⟩
  exact atoms_expression f

/-- A run of equal connectives is read from the left, wherever its flags are. -/
example : parse (tokens (.join .or (.atom "a" false) (.join .and (.atom "b" true) (.atom "c" false)
    true) false)) = some (.binary (.logic .or) (.binary (.logic .or) (.atom ⟨"a", false⟩)
      (.atom ⟨"b", true⟩)) (.atom ⟨"c", false⟩)) := by
  decide

end Formula

end ShortCircuit
