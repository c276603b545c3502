import ShortCircuit.Decision.Table
import ShortCircuit.Obstacle

/-!
# Folding a decision table

A node with a single parent is folded into that parent when the two share a successor, which is the
shape of a short-circuit connective, or when the node has a value of its own. Folding goes on until
one node carries the whole condition.

* `Table.fold` folds one node, if it can.
* `Table.reduce` folds until at most one node is open; every successful fold removes a node.
* `Table.statement` reads the condition off the root.
-/

namespace ShortCircuit

/-- The edge by which a branch leads to a node. -/
inductive Side where
  | onTrue | onFalse
deriving DecidableEq, Repr

namespace Branch

/-- The edge that leads to `key`, when exactly one does. -/
def sideOf? (b : Branch) (key : Nat) : Option Side :=
  if b.onTrue = key ∧ b.onFalse ≠ key then some .onTrue
  else if b.onFalse = key ∧ b.onTrue ≠ key then some .onFalse
  else none

/-- The successor on the other side. -/
def other (b : Branch) : Side → Nat
  | .onTrue => b.onFalse
  | .onFalse => b.onTrue

/-- A branch followed by `n` on one side, as one branch: the two share the successor on the other
side, and the connective is `and` on the true side and `or` on the false side. -/
def merge? (b n : Branch) : Side → Option Branch
  | .onTrue =>
    if n.onFalse = b.onFalse then
      some ⟨b.statement.combine .and n.statement, n.onTrue, b.onFalse⟩
    else none
  | .onFalse =>
    if n.onTrue = b.onTrue then
      some ⟨b.statement.combine .or n.statement, b.onTrue, n.onFalse⟩
    else none

end Branch

/-- What a node adds to the statement of its parent. -/
inductive Contribution where
  | pending
  | nothing
  | formula (f : Formula)
deriving DecidableEq, Repr

/-- How a value on one side joins a branch whose other successor has the value `other`: whether the
branch is negated first, and the connective. -/
def LeafValue.absorption? (other : LeafValue) : Side → Option (Bool × Connective)
  | .onTrue =>
    match other with
    | .bool false | .nil => some (false, .and)
    | .bool true => some (true, .or)
    | .text _ => none
  | .onFalse =>
    match other with
    | .bool true | .nil => some (false, .or)
    | .bool false => some (true, .and)
    | .text _ => none

/-- A node with a single parent, and the edge between them. -/
structure Site where
  node : Node
  parent : Node
  branch : Branch
  side : Side
deriving DecidableEq, Repr

namespace Table

/-- The truth value of the boolean leaf at a key. -/
def bool? (t : Table) (key : Nat) : Option Bool := (t.get? key).bind Node.bool?

/-- The statement of a branch between opposite boolean leaves, so that it means the true one. -/
def decided? (t : Table) (b : Branch) : Option Formula :=
  match t.bool? b.onTrue, t.bool? b.onFalse with
  | some true, some false => some b.statement
  | some false, some true => some b.statement.negate
  | _, _ => none

/-- What a node adds to its parent: texts and folded tests add themselves, other leaves add nothing,
and a branch is pending unless it is decided. -/
def contribution (t : Table) (n : Node) : Contribution :=
  match n.content with
  | .leaf (.text text) => .formula (.ofText text)
  | .leaf _ => .nothing
  | .closed statement => .formula statement
  | .branch b =>
    match t.decided? b with
    | some f => .formula f
    | none => .pending

/-- The place at which a node can be folded: it is no boolean leaf, has one parent, and one edge
leads from there. -/
def site? (t : Table) (key : Nat) : Option Site :=
  match t.get? key with
  | none => none
  | some node =>
    if node.isBool then none
    else
      match node.parents with
      | [p] =>
        match t.get? p with
        | none => none
        | some parent =>
          match parent.content with
          | .branch branch =>
            match branch.sideOf? key with
            | some side => some { node, parent, branch, side }
            | none => none
          | _ => none
      | _ => none

/-- The table after the node of a site is gone and its parent has new content. -/
def replace (t : Table) (s : Site) (content : Content) (assigns : Option UInt8) : Table :=
  ((t.erase s.node.key).update s.parent.key content assigns).link.prune

/-- Joins two branches that share a successor. -/
def merged? (t : Table) (s : Site) : Option Table :=
  match s.node.content with
  | .branch n =>
    match s.branch.merge? n s.side with
    | some b => some (t.replace s (.branch b) (s.parent.assigns <|> s.node.assigns))
    | none => none
  | _ => none

/-- The statement of a parent with the contribution of a node. -/
def joined (statement : Formula) (negated : Bool) (op : Connective) : Contribution → Option Formula
  | .pending => none
  | .nothing => some (if negated then statement.negate else statement)
  | .formula f => some ((if negated then statement.negate else statement).combine op f)

/-- Takes a value into the statement of its parent, which becomes a folded test. -/
def absorbed? (t : Table) (s : Site) : Option Table :=
  match t.get? (s.branch.other s.side) with
  | none => none
  | some other =>
    match other.value? with
    | none => none
    | some value =>
      match value.absorption? s.side with
      | none => none
      | some (negated, op) =>
        match joined s.branch.statement negated op (t.contribution s.node) with
        | none => none
        | some statement => some (t.replace s (.closed statement) s.parent.assigns)

/-- Tries to fold a node into its parent, and says whether it did. A branch whose only parent is
itself is dropped, which does not count. -/
def fold (t : Table) (key : Nat) : Bool × Table :=
  match t.site? key with
  | none => (false, t)
  | some s =>
    if s.parent.key = key then (false, t.erase key)
    else
      match t.merged? s with
      | some t => (true, t)
      | none =>
        match t.absorbed? s with
        | some t => (true, t)
        | none => (false, t)

/-- Tries keys in order until one can be folded. -/
def sweep (t : Table) : List Nat → Bool × Table
  | [] => (false, t)
  | key :: keys =>
    match t.fold key with
    | (true, t) => (true, t)
    | (false, t) => t.sweep keys

/-! ## Every fold removes a node -/

theorem get?_of_site? {t : Table} {key : Nat} {s : Site} (h : t.site? key = some s) :
    t.get? key = some s.node ∧ s.node.key = key := by
  unfold site? at h
  split at h
  · cases h
  · next node hg =>
    have hk := (mem_of_get? hg).2
    split at h
    · cases h
    · split at h
      · split at h
        · cases h
        · split at h
          · split at h
            · cases h
              exact ⟨hg, hk⟩
            · cases h
          · cases h
      · cases h

theorem size_replace_lt {t : Table} {key : Nat} {s : Site} (h : t.site? key = some s)
    (content : Content) (assigns : Option UInt8) : (t.replace s content assigns).size < t.size := by
  obtain ⟨hg, hk⟩ := get?_of_site? h
  have hlt : (t.erase s.node.key).size < t.size := by
    rw [hk]
    exact size_erase_lt hg
  have hle := size_prune_le ((t.erase s.node.key).update s.parent.key content assigns).link
  rw [size_link, size_update] at hle
  exact Nat.lt_of_le_of_lt hle hlt

theorem size_merged?_lt {t : Table} {key : Nat} {s : Site} (h : t.site? key = some s) {u : Table}
    (hu : t.merged? s = some u) : u.size < t.size := by
  unfold merged? at hu
  split at hu
  · split at hu
    · cases hu
      exact size_replace_lt h _ _
    · cases hu
  · cases hu

theorem size_absorbed?_lt {t : Table} {key : Nat} {s : Site} (h : t.site? key = some s) {u : Table}
    (hu : t.absorbed? s = some u) : u.size < t.size := by
  unfold absorbed? at hu
  split at hu
  · cases hu
  · split at hu
    · cases hu
    · split at hu
      · cases hu
      · split at hu
        · cases hu
        · cases hu
          exact size_replace_lt h _ _

theorem size_fold (t : Table) (key : Nat) :
    ((t.fold key).1 = true → (t.fold key).2.size < t.size) ∧ (t.fold key).2.size ≤ t.size := by
  unfold fold
  split
  · simp
  · next s hs =>
    split
    · simpa using size_erase_le t key
    · split
      · next u hu =>
        have := size_merged?_lt hs hu
        exact ⟨fun _ => this, Nat.le_of_lt this⟩
      · split
        · next u hu =>
          have := size_absorbed?_lt hs hu
          exact ⟨fun _ => this, Nat.le_of_lt this⟩
        · simp

theorem size_sweep_lt {t u : Table} {keys : List Nat} (h : t.sweep keys = (true, u)) :
    u.size < t.size := by
  induction keys generalizing t with
  | nil => simp [sweep] at h
  | cons key keys ih =>
    have hf := size_fold t key
    unfold sweep at h
    split at h
    · next t' heq =>
      rw [heq] at hf
      cases h
      exact hf.1 rfl
    · next t' heq =>
      rw [heq] at hf
      exact Nat.lt_of_lt_of_le (ih h) hf.2

/-! ## Reduction -/

/-- Folds nodes, those with the largest keys first, until at most one is open. The table reached is
returned also when no node can be folded. -/
def reduce (t : Table) : Except Obstacle Unit × Table :=
  if t.openCount ≤ 1 then (.ok (), t)
  else
    match _h : t.sweep t.keys.reverse with
    | (true, u) => u.reduce
    | (false, u) => (.error (.stalled u.openCount), u)
termination_by t.size
decreasing_by exact size_sweep_lt _h

/-- The condition that the root carries, so that it means the true outcome. -/
def statement (t : Table) : Except Obstacle Formula :=
  match t.get? t.root with
  | none => .error (.unresolvedPath t.root)
  | some n =>
    match n.content with
    | .branch b => .ok ((t.decided? b).getD b.statement)
    | .closed s => .ok s
    | .leaf _ => .error (.unresolvedPath t.root)

end Table

end ShortCircuit
