import Variation.Diff.Path

/-!
# A diff at one time

At one time a diff is a tree of annotations and code, and every node has two conditions: its
mapping, under which its own annotation selects it, and its presence, under which it is part of the
file. Both are built as lists of clauses, from the node upwards. Walks take at most one step more
than the store has nodes.
-/

namespace Variation.Diff

/-- A node that must be there at a time. -/
def present (d : Diff) (n : Handle) (t : Time) : Outcome Node := do
  let x ← d.node n
  if x.existsAt t then return x else .fail (.absentAt n x.change t)

/-- The parent of a node at a time, which must itself be there. -/
def presentParent? (d : Diff) (n : Handle) (t : Time) : Outcome (Option Handle) := do
  match (← d.node n).parent.get t with
  | none => return none
  | some p =>
    let _ ← d.present p t
    return some p

/-- The children of a node at a time, which must all be there. -/
def presentChildren (d : Diff) (n : Handle) (t : Time) : Outcome (List Handle) := do
  let children ← d.children n t
  children.forM fun c => do let _ ← d.present c t
  return children

/-- The nearest opening condition, which must be there at the time. -/
def presentIf? (d : Diff) (n : Handle) (t : Time) : Outcome (Option Handle) := do
  match ← d.nearestIf n t with
  | none => return none
  | some opener =>
    let _ ← d.present opener t
    return some opener

/-- The parent that a node must have at a time. -/
def requiredParent (d : Diff) (n : Handle) (t : Time) : Outcome Handle := do
  match ← d.presentParent? n t with
  | some p => return p
  | none => .fail (.notRooted n)

/-- The condition that a node must carry. -/
def ownFormula (d : Diff) (n : Handle) : Outcome Formula := do
  let x ← d.node n
  match x.formula with
  | some f => return f
  | none => .fail (.formulaLaw n x.kind)

/-- The lines of the file at a time that a node covers. -/
def lineRange (d : Diff) (n : Handle) (t : Time) : Outcome LineRange := do
  let x ← d.node n
  return LineRange.atTime x.start x.stop t

/-- Walks from a branch up to the node that opens its chain; gives that node and the negated
conditions on the way, nearest first. -/
def chainAbove (d : Diff) (branch : Handle) (t : Time) :
    Nat → Handle → Outcome (List Formula × Handle)
  | 0, _ => .fail (.notRooted branch)
  | steps + 1, n => do
    let x ← d.node n
    if x.kind = .ifBranch then
      return ([(← d.ownFormula n).negate], n)
    else if x.kind = .elifBranch then
      let skipped := (← d.ownFormula n).negate
      let (clauses, opener) ← chainAbove d branch t steps (← d.requiredParent n t)
      return (skipped :: clauses, opener)
    else
      .fail (.misplacedBranch branch (← d.node branch).kind x.kind t)

/-- The clauses of the mapping of a branch, and the node that opens its chain. -/
def branchClauses (d : Diff) (n : Handle) (t : Time) : Outcome (List Formula × Handle) := do
  let own ← if (← d.node n).kind = .elifBranch then List.singleton <$> d.ownFormula n else pure []
  let (clauses, opener) ← d.chainAbove n t (d.size + 1) (← d.requiredParent n t)
  return (own ++ clauses, opener)

/-- The clauses of the mapping of a node, found within a number of steps. -/
def mappingClausesWithin (d : Diff) (t : Time) : Nat → Handle → Outcome (List Formula)
  | 0, n => .fail (.notRooted n)
  | steps + 1, n => do
    match (← d.node n).kind with
    | .root => return [.const true]
    | .artifact => mappingClausesWithin d t steps (← d.requiredParent n t)
    | .ifBranch | .endMark => return [← d.ownFormula n]
    | .elifBranch | .elseBranch => return (← d.branchClauses n t).1

/-- The clauses of the condition under which a node's own annotation selects it. -/
def mappingClauses (d : Diff) (n : Handle) (t : Time) : Outcome (List Formula) :=
  d.mappingClausesWithin t (d.size + 1) n

/-- The condition under which a node's own annotation selects it. -/
def mapping (d : Diff) (n : Handle) (t : Time) : Outcome Formula :=
  Formula.conj <$> d.mappingClauses n t

/-- The clauses of the presence of a node, found within a number of steps. -/
def presenceClausesWithin (d : Diff) (t : Time) : Nat → Handle → Outcome (List Formula)
  | 0, n => .fail (.notRooted n)
  | steps + 1, n => do
    match (← d.node n).kind with
    | .root => return []
    | .artifact => presenceClausesWithin d t steps (← d.requiredParent n t)
    | .elifBranch | .elseBranch =>
      let (clauses, opener) ← d.branchClauses n t
      match ← d.presentParent? opener t with
      | none => return clauses
      | some outer => return clauses ++ (← presenceClausesWithin d t steps outer)
    | .ifBranch | .endMark =>
      let outer ← match ← d.presentParent? n t with
        | none => pure []
        | some p => presenceClausesWithin d t steps p
      return outer ++ [← d.mapping n t]

/-- The clauses of the condition under which a node is part of the file at a time. -/
def presenceClauses (d : Diff) (n : Handle) (t : Time) : Outcome (List Formula) :=
  d.presenceClausesWithin t (d.size + 1) n

/-- The condition under which a node is part of the file at a time. -/
def presence (d : Diff) (n : Handle) (t : Time) : Outcome Formula :=
  Formula.conj <$> d.presenceClauses n t

end Variation.Diff
