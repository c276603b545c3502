import ShortCircuit.Proofs.Decision.Step
import ShortCircuit.Recovery.Exits

/-!
# Tables under a change of texts

Folds put statements together and never look into them, so replacing every text of a table by
another one and folding it can be done in either order. Two formulas are of one shape when they
differ in their texts only; erasing all texts decides that.

* `Formula.SameShape`, `Formula.sameShape_iff`: formulas of one shape have the same erasure.
* `Table.fold_relabel`: a change of texts commutes with one fold.
* `Table.reduce_relabel`, `Table.statement_relabel`: it commutes with the reduction and with reading
  the statement off the root.
-/

namespace ShortCircuit

/-! ## Formulas -/

namespace Formula

/-- Replaces every text. -/
def relabel (φ : String → String) : Formula → Formula
  | .atom text n => .atom (φ text) n
  | .join op l r n => .join op (l.relabel φ) (r.relabel φ) n

/-- Two formulas that differ in their texts only: connectives and flags agree at every node. -/
inductive SameShape : Formula → Formula → Prop
  | atom (a b : String) (n : Bool) : SameShape (.atom a n) (.atom b n)
  | join (op : Connective) {l l' r r' : Formula} (n : Bool) (hl : SameShape l l')
      (hr : SameShape r r') : SameShape (.join op l r n) (.join op l' r' n)

/-- The formula without its texts. -/
def erasure (f : Formula) : Formula := f.relabel fun _ => ""

theorem SameShape.erasure_eq {f g : Formula} (h : f.SameShape g) : f.erasure = g.erasure := by
  induction h with
  | atom => rfl
  | join op n _ _ hl hr => exact congrArg₂ (Formula.join op · · n) hl hr

theorem sameShape_of_erasure_eq {f g : Formula} (h : f.erasure = g.erasure) : f.SameShape g := by
  induction f generalizing g with
  | atom a n =>
    cases g with
    | atom b m =>
      injection h with _ hn
      exact hn ▸ .atom a b n
    | join => cases h
  | join op l r n hl hr =>
    cases g with
    | atom => cases h
    | join op' l' r' m =>
      injection h with hop hleft hright hn
      subst hop hn
      exact .join op n (hl hleft) (hr hright)

/-- Formulas are of one shape when they agree without their texts. -/
theorem sameShape_iff {f g : Formula} : f.SameShape g ↔ f.erasure = g.erasure :=
  ⟨SameShape.erasure_eq, sameShape_of_erasure_eq⟩

instance (f g : Formula) : Decidable (f.SameShape g) := decidable_of_iff _ sameShape_iff.symm

variable (φ : String → String)

@[simp]
theorem relabel_ofText (text : String) : (ofText text).relabel φ = ofText (φ text) := rfl

@[simp]
theorem relabel_combine (f : Formula) (op : Connective) (g : Formula) :
    (f.combine op g).relabel φ = (f.relabel φ).combine op (g.relabel φ) := rfl

@[simp]
theorem relabel_negate (f : Formula) : f.negate.relabel φ = (f.relabel φ).negate := by
  induction f with
  | atom => rfl
  | join op l r n hl hr => simp only [negate, relabel, hl, hr]

end Formula

/-! ## Nodes -/

/-- Replaces the text of a value. -/
def LeafValue.relabel (φ : String → String) : LeafValue → LeafValue
  | .bool b => .bool b
  | .nil => .nil
  | .text t => .text (φ t)

/-- Replaces the texts of the statement. -/
def Branch.relabel (φ : String → String) (b : Branch) : Branch :=
  { b with statement := b.statement.relabel φ }

/-- Replaces all texts. -/
def Content.relabel (φ : String → String) : Content → Content
  | .branch b => .branch (b.relabel φ)
  | .leaf value => .leaf (value.relabel φ)
  | .closed statement => .closed (statement.relabel φ)

/-- Replaces all texts. -/
def Node.relabel (φ : String → String) (n : Node) : Node :=
  { n with content := n.content.relabel φ }

/-- Replaces all texts. -/
def Contribution.relabel (φ : String → String) : Contribution → Contribution
  | .pending => .pending
  | .nothing => .nothing
  | .formula f => .formula (f.relabel φ)

/-- Replaces all texts. -/
def Site.relabel (φ : String → String) (s : Site) : Site :=
  { node := s.node.relabel φ
    parent := s.parent.relabel φ
    branch := s.branch.relabel φ
    side := s.side }

section Nodes

variable (φ : String → String)

@[simp]
theorem LeafValue.bool?_relabel (v : LeafValue) : (v.relabel φ).bool? = v.bool? := by
  cases v <;> rfl

@[simp]
theorem LeafValue.absorption?_relabel (v : LeafValue) (side : Side) :
    (v.relabel φ).absorption? side = v.absorption? side := by
  cases v <;> cases side <;> rfl

/-- Whether branches are merged depends on their successors only. -/
theorem Branch.merge?_relabel (b n : Branch) (side : Side) :
    (b.relabel φ).merge? (n.relabel φ) side = (b.merge? n side).map (Branch.relabel φ) := by
  cases side with
  | onTrue =>
    by_cases h : n.onFalse = b.onFalse <;> simp [Branch.merge?, Branch.relabel, h]
  | onFalse =>
    by_cases h : n.onTrue = b.onTrue <;> simp [Branch.merge?, Branch.relabel, h]

namespace Node

@[simp]
theorem successors_relabel (n : Node) : (n.relabel φ).successors = n.successors := by
  obtain ⟨key, _ | _ | _, parents, assigns⟩ := n <;> rfl

@[simp]
theorem leadsTo_relabel (n : Node) (key : Nat) : (n.relabel φ).leadsTo key = n.leadsTo key := by
  rw [leadsTo, leadsTo, successors_relabel]

theorem value?_relabel (n : Node) : (n.relabel φ).value? = n.value?.map (LeafValue.relabel φ) := by
  obtain ⟨key, _ | _ | _, parents, assigns⟩ := n <;> rfl

@[simp]
theorem bool?_relabel (n : Node) : (n.relabel φ).bool? = n.bool? := by
  rw [bool?, bool?, value?_relabel, Option.bind_map]
  congr 1
  funext v
  exact LeafValue.bool?_relabel φ v

@[simp]
theorem isBool_relabel (n : Node) : (n.relabel φ).isBool = n.isBool := by
  rw [isBool, isBool, bool?_relabel]

end Node

end Nodes

/-! ## Tables -/

namespace Table

theorem eq_of_nodes_eq {t u : Table} (hroot : t.root = u.root) (hnodes : t.nodes = u.nodes) :
    t = u := by
  cases t
  cases u
  cases hroot
  cases hnodes
  rfl

/-- Replaces all texts. -/
def relabel (φ : String → String) (t : Table) : Table :=
  t.mapNodes (Node.relabel φ) fun _ => rfl

variable (φ : String → String) (t : Table)

theorem nodes_relabel : (t.relabel φ).nodes = t.nodes.map (Node.relabel φ) := rfl

@[simp]
theorem keys_relabel : (t.relabel φ).keys = t.keys := by
  simp only [keys, nodes_relabel, List.map_map]
  rfl

@[simp]
theorem get?_relabel (key : Nat) : (t.relabel φ).get? key = (t.get? key).map (Node.relabel φ) :=
  get?_mapNodes _ _ _ _

@[simp]
theorem contains_relabel (key : Nat) : (t.relabel φ).contains key = t.contains key := by
  rw [contains, contains, get?_relabel, Option.isSome_map]

/-- A filter that does not look at texts commutes with a change of texts. -/
theorem filter_relabel {keep : Node → Bool} (h : ∀ n : Node, keep (n.relabel φ) = keep n) :
    (t.relabel φ).filter keep = (t.filter keep).relabel φ := by
  refine eq_of_nodes_eq rfl ?_
  show (t.nodes.map (Node.relabel φ)).filter keep = (t.nodes.filter keep).map (Node.relabel φ)
  rw [List.filter_map]
  congr 2
  funext n
  exact h n

theorem erase_relabel (key : Nat) : (t.relabel φ).erase key = (t.erase key).relabel φ :=
  filter_relabel φ t fun _ => rfl

theorem update_relabel (key : Nat) (content : Content) (assigns : Option UInt8) :
    (t.relabel φ).update key (content.relabel φ) assigns =
      (t.update key content assigns).relabel φ := by
  refine eq_of_nodes_eq rfl ?_
  simp only [update, mapNodes, relabel, List.map_map]
  congr 1
  funext n
  by_cases h : n.key = key <;> simp [Node.relabel, h]

theorem insert_relabel (n : Node) :
    (t.relabel φ).insert (n.relabel φ) = (t.insert n).relabel φ := by
  refine eq_of_nodes_eq rfl ?_
  simp only [insert, nodes_relabel, List.filter_map, List.map_append, List.map_cons]
  rfl

@[simp]
theorem targets_relabel : (t.relabel φ).targets = t.targets := by
  simp only [targets, nodes_relabel, List.flatMap_map, Node.successors_relabel]

@[simp]
theorem exits_relabel : (t.relabel φ).exits = t.exits := by
  simp only [exits, targets_relabel, contains_relabel]

@[simp]
theorem parentsOf_relabel (key : Nat) : (t.relabel φ).parentsOf key = t.parentsOf key := by
  simp only [parentsOf, nodes_relabel, List.filter_map, List.map_map, Function.comp_def,
    Node.leadsTo_relabel]
  rfl

theorem link_relabel : (t.relabel φ).link = t.link.relabel φ := by
  refine eq_of_nodes_eq rfl ?_
  simp only [link, mapNodes, parentsOf_relabel, nodes_relabel, List.map_map]
  rfl

theorem dropOrphans_relabel : (t.relabel φ).dropOrphans = t.dropOrphans.relabel φ :=
  filter_relabel φ t fun _ => rfl

theorem prune_relabel : (t.relabel φ).prune = t.prune.relabel φ := by
  have horphans (t : Table) :
      (t.relabel φ).nodes.any (t.relabel φ).isOrphan = t.nodes.any t.isOrphan := by
    rw [nodes_relabel, List.any_map]
    rfl
  induction t using prune.induct with
  | case1 t h ih =>
    rw [prune, dif_pos ((horphans t).trans h), dropOrphans_relabel, link_relabel, ih]
    conv_rhs => rw [prune, dif_pos h]
  | case2 t h =>
    rw [prune, dif_neg ((horphans t).symm ▸ h)]
    conv_rhs => rw [prune, dif_neg h]

@[simp]
theorem openCount_relabel : (t.relabel φ).openCount = t.openCount := by
  simp only [openCount, nodes_relabel, List.countP_map, Function.comp_def, Node.isBool_relabel]

/-! ## Folds -/

@[simp]
theorem bool?_relabel (key : Nat) : (t.relabel φ).bool? key = t.bool? key := by
  simp only [bool?, get?_relabel, Option.bind_map, Function.comp_def, Node.bool?_relabel]

theorem decided?_relabel (b : Branch) :
    (t.relabel φ).decided? (b.relabel φ) = (t.decided? b).map (Formula.relabel φ) := by
  simp only [decided?, Branch.relabel, bool?_relabel]
  split
  · rfl
  · simp
  · rfl

theorem contribution_relabel (n : Node) :
    (t.relabel φ).contribution (n.relabel φ) = (t.contribution n).relabel φ := by
  obtain ⟨key, content, parents, assigns⟩ := n
  cases content with
  | leaf v => cases v <;> rfl
  | closed f => rfl
  | branch b =>
    simp only [contribution, Node.relabel, Content.relabel, decided?_relabel]
    cases t.decided? b <;> rfl

theorem joined_relabel (f : Formula) (negated : Bool) (op : Connective) (c : Contribution) :
    joined (f.relabel φ) negated op (c.relabel φ) =
      (joined f negated op c).map (Formula.relabel φ) := by
  cases c <;> cases negated <;> simp [joined, Contribution.relabel]

theorem site?_relabel (key : Nat) :
    (t.relabel φ).site? key = (t.site? key).map (Site.relabel φ) := by
  unfold site?
  rw [get?_relabel]
  cases t.get? key with
  | none => rfl
  | some node =>
    simp only [Option.map_some, Node.isBool_relabel]
    by_cases hb : node.isBool = true
    · simp only [if_pos hb, Option.map_none]
    simp only [if_neg hb]
    obtain ⟨nodeKey, content, _ | ⟨p, _ | ⟨q, parents⟩⟩, assigns⟩ := node
    · rfl
    · simp only [Node.relabel, get?_relabel]
      rcases t.get? p with _ | ⟨parentKey, b | v | f, grandparents, parentAssigns⟩
      · rfl
      · have hside : (b.relabel φ).sideOf? key = b.sideOf? key := rfl
        simp only [Option.map_some, Node.relabel, Content.relabel, hside]
        cases b.sideOf? key <;> rfl
      · rfl
      · rfl
    · rfl

theorem replace_relabel (s : Site) (content : Content) (assigns : Option UInt8) :
    (t.relabel φ).replace (s.relabel φ) (content.relabel φ) assigns =
      (t.replace s content assigns).relabel φ := by
  show (((t.relabel φ).erase s.node.key).update s.parent.key _ _).link.prune = _
  rw [erase_relabel, update_relabel, link_relabel, prune_relabel]
  rfl

theorem merged?_relabel (s : Site) :
    (t.relabel φ).merged? (s.relabel φ) = (t.merged? s).map (relabel φ) := by
  have hcontent : (s.relabel φ).node.content = s.node.content.relabel φ := rfl
  have hmerge (n : Branch) : (s.relabel φ).branch.merge? (n.relabel φ) (s.relabel φ).side =
      (s.branch.merge? n s.side).map (Branch.relabel φ) :=
    Branch.merge?_relabel φ s.branch n s.side
  unfold merged?
  rw [hcontent]
  cases s.node.content with
  | leaf => rfl
  | closed => rfl
  | branch n =>
    simp only [Content.relabel, hmerge]
    cases s.branch.merge? n s.side with
    | none => rfl
    | some m => exact congrArg some (replace_relabel φ t s (.branch m) _)

theorem absorbed?_relabel (s : Site) :
    (t.relabel φ).absorbed? (s.relabel φ) = (t.absorbed? s).map (relabel φ) := by
  have hother : (s.branch.relabel φ).other s.side = s.branch.other s.side := by
    cases s.side <;> rfl
  simp only [absorbed?, Site.relabel, hother, get?_relabel]
  cases t.get? (s.branch.other s.side) with
  | none => rfl
  | some other =>
    simp only [Option.map_some, Node.value?_relabel]
    cases other.value? with
    | none => rfl
    | some value =>
      simp only [Option.map_some, LeafValue.absorption?_relabel]
      cases value.absorption? s.side with
      | none => rfl
      | some absorption =>
        obtain ⟨negated, op⟩ := absorption
        simp only [contribution_relabel, Branch.relabel, joined_relabel]
        cases joined s.branch.statement negated op (t.contribution s.node) with
        | none => rfl
        | some f => exact congrArg some (replace_relabel φ t s (.closed f) _)

/-- A change of texts commutes with one fold. -/
theorem fold_relabel (key : Nat) :
    (t.relabel φ).fold key = ((t.fold key).1, (t.fold key).2.relabel φ) := by
  simp only [fold, site?_relabel]
  cases t.site? key with
  | none => rfl
  | some s =>
    simp only [Option.map_some, merged?_relabel, absorbed?_relabel]
    show (if s.parent.key = key then _ else _) = _
    by_cases hself : s.parent.key = key
    · simp only [if_pos hself, erase_relabel]
    simp only [if_neg hself]
    cases t.merged? s with
    | some u => rfl
    | none => cases t.absorbed? s <;> rfl

theorem sweep_relabel (keys : List Nat) :
    (t.relabel φ).sweep keys = ((t.sweep keys).1, (t.sweep keys).2.relabel φ) := by
  induction keys generalizing t with
  | nil => rfl
  | cons key keys ih =>
    rw [sweep, sweep, fold_relabel]
    obtain ⟨folded, u⟩ := t.fold key
    cases folded with
    | true => rfl
    | false => exact ih u

/-- A change of texts commutes with the reduction, whose outcome does not depend on the texts. -/
theorem reduce_relabel : (t.relabel φ).reduce = (t.reduce.1, t.reduce.2.relabel φ) := by
  induction t using reduce.induct with
  | case1 t hle =>
    rw [reduce_of_openCount_le hle, reduce_of_openCount_le (by simpa using hle)]
  | case2 t hle u hu ih =>
    have hu' : (t.relabel φ).sweep (t.relabel φ).keys.reverse = (true, u.relabel φ) := by
      rw [sweep_relabel, keys_relabel, hu]
    rw [reduce_of_sweep hle hu, reduce_of_sweep (by simpa using hle) hu', ih]
  | case3 t hle u hu =>
    have hu' : (t.relabel φ).sweep (t.relabel φ).keys.reverse = (false, u.relabel φ) := by
      rw [sweep_relabel, keys_relabel, hu]
    rw [reduce_of_stuck hle hu, reduce_of_stuck (by simpa using hle) hu', openCount_relabel]

/-- A change of texts commutes with reading the statement off the root. -/
theorem statement_relabel :
    (t.relabel φ).statement = t.statement.map (Formula.relabel φ) := by
  have hroot : (t.relabel φ).root = t.root := rfl
  simp only [statement, hroot, get?_relabel]
  cases t.get? t.root with
  | none => rfl
  | some n =>
    obtain ⟨key, content, parents, assigns⟩ := n
    cases content with
    | leaf => rfl
    | closed => rfl
    | branch b =>
      simp only [Option.map_some, Node.relabel, Content.relabel, decided?_relabel]
      cases t.decided? b <;> rfl

end Table

end ShortCircuit
