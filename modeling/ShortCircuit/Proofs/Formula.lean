import ShortCircuit.Formula.Basic
import Mathlib.Tactic.Common

/-!
# Theory of formulas

Facts about formulas that do not depend on where they come from.

* `Formula.IsPositive`: no node is negated.
* `Formula.value` is the value of a formula without negation when the texts stand for values of any
  kind: a connective selects one of its operands by the truth of the left one.
* `Formula.Alike`: two formulas render alike, and so do their negations. Joins respect this, however
  they are nested (`Formula.alike_assoc`) and wherever the negation is written
  (`Formula.alike_dual`).
-/

namespace ShortCircuit

/-- The value that a connective selects: `and` keeps a left value that does not hold, `or` one that
holds. -/
def Connective.select {α : Type*} (truthy : α → Bool) : Connective → α → α → α
  | .and, x, y => if truthy x then y else x
  | .or, x, y => if truthy x then x else y

namespace Formula

/-- No node is negated. -/
def IsPositive : Formula → Prop
  | .atom _ negated => negated = false
  | .join _ l r negated => negated = false ∧ l.IsPositive ∧ r.IsPositive

/-- The value of a formula without negation, when texts stand for values. -/
def value {α : Type*} (truthy : α → Bool) (v : String → α) : Formula → α
  | .atom text _ => v text
  | .join op l r _ => op.select truthy (l.value truthy v) (r.value truthy v)

theorem isPositive_combine {l r : Formula} {op : Connective} (hl : l.IsPositive)
    (hr : r.IsPositive) : (l.combine op r).IsPositive :=
  ⟨rfl, hl, hr⟩

/-! ## Rendering of joins -/

theorem render_combine (l : Formula) (op : Connective) (r : Formula) :
    (l.combine op r).render = bracket (l.needsBrackets op) l.render ++ " " ++ op.symbol ++ " "
      ++ bracket (r.needsBrackets op) r.render := rfl

theorem bracket_false (text : String) : bracket false text = text := rfl

theorem needsBrackets_of_connective? {f : Formula} {op : Connective}
    (h : f.connective? = some op) : f.needsBrackets op = false := by
  simp [needsBrackets, h]

theorem render_join (op : Connective) (l r : Formula) (n : Bool) :
    (join op l r n).render = bracket (l.needsBrackets (shown op n)) l.render ++ " "
      ++ (shown op n).symbol ++ " " ++ bracket (r.needsBrackets (shown op n)) r.render := rfl

theorem shown_dual (op : Connective) (n : Bool) : shown op.dual (!n) = shown op n := by
  cases n <;> simp [shown]

theorem connective?_negate (f : Formula) :
    f.negate.connective? = f.connective?.map Connective.dual := by
  cases f with
  | atom => rfl
  | join op l r n => simp [negate, connective?, dual_shown]

/-! ## Formulas that render alike -/

/-- Two formulas render alike in every place, and so do their negations. -/
structure Alike (f g : Formula) : Prop where
  render : f.render = g.render
  connective? : f.connective? = g.connective?
  negate : f.negate.render = g.negate.render

theorem Alike.refl (f : Formula) : f.Alike f := ⟨rfl, rfl, rfl⟩

theorem Alike.symm {f g : Formula} (h : f.Alike g) : g.Alike f :=
  ⟨h.render.symm, h.connective?.symm, h.negate.symm⟩

theorem Alike.trans {f g e : Formula} (h : f.Alike g) (h' : g.Alike e) : f.Alike e :=
  ⟨h.render.trans h'.render, h.connective?.trans h'.connective?, h.negate.trans h'.negate⟩

theorem Alike.negated {f g : Formula} (h : f.Alike g) : f.negate.Alike g.negate := by
  refine ⟨h.negate, ?_, ?_⟩
  · rw [connective?_negate, connective?_negate, h.connective?]
  · rw [negate_negate, negate_negate, h.render]

theorem Alike.needsBrackets {f g : Formula} (h : f.Alike g) (op : Connective) :
    f.needsBrackets op = g.needsBrackets op := by
  rw [Formula.needsBrackets, Formula.needsBrackets, h.connective?]

theorem Alike.join {l l' r r' : Formula} (hl : l.Alike l') (hr : r.Alike r') (op : Connective)
    (n : Bool) : (join op l r n).Alike (join op l' r' n) := by
  have hrender : ∀ {a a' b b' : Formula} (m : Bool), a.Alike a' → b.Alike b' →
      (Formula.join op a b m).render = (Formula.join op a' b' m).render := by
    intro a a' b b' m ha hb
    rw [render_join, render_join, ha.needsBrackets, hb.needsBrackets, ha.render, hb.render]
  exact ⟨hrender n hl hr, rfl, hrender (!n) hl.negated hr.negated⟩

theorem Alike.combine {l l' r r' : Formula} (hl : l.Alike l') (op : Connective)
    (hr : r.Alike r') : (l.combine op r).Alike (l'.combine op r') :=
  hl.join hr op false

/-- A run of equal connectives renders alike however it is nested. -/
theorem alike_assoc (a b c : Formula) (op : Connective) :
    ((a.combine op b).combine op c).Alike (a.combine op (b.combine op c)) := by
  have hrender : ∀ (a b c : Formula) (n : Bool),
      (join op (join op a b n) c n).render = (join op a (join op b c n) n).render := by
    intro a b c n
    have hinner : ∀ x y : Formula, (join op x y n).needsBrackets (shown op n) = false :=
      fun x y => needsBrackets_of_connective? rfl
    simp only [render_join, hinner, bracket_false, String.append_assoc]
  exact ⟨hrender a b c false, rfl, hrender a.negate b.negate c.negate true⟩

/-- A negated join renders as the join with the other connective. -/
theorem alike_dual (op : Connective) (l r : Formula) (n : Bool) :
    (join op l r n).Alike (join op.dual l r (!n)) := by
  have hrender : ∀ (l r : Formula) (n : Bool),
      (join op l r n).render = (join op.dual l r (!n)).render := by
    intro l r n
    rw [render_join, render_join, shown_dual]
  refine ⟨hrender l r n, ?_, ?_⟩
  · rw [connective?, connective?, shown_dual]
  · exact hrender l.negate r.negate (!n)

end Formula

end ShortCircuit
