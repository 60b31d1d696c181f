import Variation.Diff.Basic

/-!
# Paths to the root

Questions that follow parents at one time. A diff may hold loops, so each walk takes at most one
step more than the store has nodes; a walk that takes more has met a loop.
-/

namespace Variation.Diff

/-- The parent of a node that must be there and attached at a time. -/
def parentAt (d : Diff) (n : Handle) (t : Time) : Outcome Handle := do
  let x ← d.node n
  if !x.existsAt t then
    .fail (.absentAt n x.change t)
  else
    match x.parent.get t with
    | some p => return p
    | none => .fail (.notRooted n)

/-- Looks for a condition that opens a chain, within a number of steps. -/
def nearestIfWithin (d : Diff) (t : Time) (asked : Handle) : Nat → Handle → Outcome (Option Handle)
  | 0, _ => .fail (.notRooted asked)
  | steps + 1, n => do
    let x ← d.node n
    if x.kind = .ifBranch then return some n
    else if x.kind = .root then return none
    else nearestIfWithin d t asked steps (← d.parentAt n t)

/-- The nearest node at or above a node that opens a chain; none if the root comes first. -/
def nearestIf (d : Diff) (n : Handle) (t : Time) : Outcome (Option Handle) :=
  d.nearestIfWithin t n (d.size + 1) n

/-- Counts the edges up to the root, within a number of steps. -/
def depthWithin (d : Diff) (t : Time) (asked : Handle) : Nat → Handle → Outcome Nat
  | 0, _ => .fail (.notRooted asked)
  | steps + 1, n => do
    if (← d.node n).kind = .root then return 0
    else return (← depthWithin d t asked steps (← d.parentAt n t)) + 1

/-- The number of edges between a node and the root at a time. -/
def depth (d : Diff) (n : Handle) (t : Time) : Outcome Nat := d.depthWithin t n (d.size + 1) n

/-- Compares the parents at both times on the way up, within a number of steps. -/
def samePathWithin (d : Diff) (asked : Handle) : Nat → Handle → Outcome Bool
  | 0, _ => .fail (.notRooted asked)
  | steps + 1, n => do
    let x ← d.node n
    if x.parent.before ≠ x.parent.after then return false
    else
      match x.parent.before with
      | some p => samePathWithin d asked steps p
      | none => return true

/-- Whether the paths from a node to the root at both times are the same. -/
def samePath (d : Diff) (n : Handle) : Outcome Bool := d.samePathWithin n (d.size + 1) n

/-- Counts the changed annotations on the way up, within a number of steps. A changed branch stands
for its whole chain, so the walk goes on above the node that opens the chain. -/
def changedAnnotationsWithin (d : Diff) (t : Time) (asked : Handle) :
    Nat → Nat → Handle → Outcome Nat
  | 0, _, _ => .fail (.notRooted asked)
  | steps + 1, found, n => do
    let x ← d.node n
    if x.kind = .root then
      return found
    else if x.change = Change.onlyAt t ∧ x.kind.isContinuation then
      match ← d.nearestIf (← d.parentAt n t) t with
      | none => .fail (.notRooted n)
      | some opener => changedAnnotationsWithin d t asked steps (found + 1) (← d.parentAt opener t)
    else
      let found := if x.change = Change.onlyAt t ∧ x.kind = .ifBranch then found + 1 else found
      changedAnnotationsWithin d t asked steps found (← d.parentAt n t)

/-- The number of annotations above a node, itself included, that are there only at a time. -/
def changedAnnotations (d : Diff) (n : Handle) (t : Time) : Outcome Nat :=
  d.changedAnnotationsWithin t n (d.size + 1) 0 n

end Variation.Diff
