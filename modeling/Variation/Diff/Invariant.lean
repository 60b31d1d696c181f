import Variation.Diff.Basic

/-!
# The rules for one node

A node is in order if its edges are recorded at both ends, if it has a parent at exactly the times
its change asks for, if every parent is there at the time of the edge, if a branch hangs below a
condition, and if exactly the conditional kinds carry a formula. `check` tests the rules in this
order and reports the first one that is broken.
-/

namespace Variation.Diff

/-- Tests that the edges of a node at a time are recorded at both ends. -/
def checkEdges (d : Diff) (n : Handle) (x : Node) (t : Time) : Outcome Unit := do
  (x.children.get t).forM fun child => do
    if (← d.node child).parent.get t ≠ some n then .fail (.asymmetricEdge n child t)
  match x.parent.get t with
  | none => return ()
  | some p =>
    if !((← d.node p).children.get t).contains n then .fail (.asymmetricEdge p n t)

/-- Tests that a node has a parent at exactly the times its change asks for; a parent that is shared
by both times must itself be unchanged. -/
def checkArity (d : Diff) (n : Handle) (x : Node) : Outcome Unit := do
  let wrong (reason : String) : Outcome Unit := .fail (.wrongParents n x.change reason)
  if x.kind = .root then
    if x.parent.before.isSome || x.parent.after.isSome then wrong "the root has a parent"
  else
    match x.change, x.parent.before, x.parent.after with
    | .added, none, some _ => return ()
    | .removed, some _, none => return ()
    | .unchanged, some b, some a =>
      if b = a then
        if (← d.node b).change ≠ .unchanged then wrong "a shared parent must be unchanged"
    | .added, _, _ => wrong "expected only a parent after the edit"
    | .removed, _, _ => wrong "expected only a parent before the edit"
    | .unchanged, _, _ => wrong "expected a parent at both times"

/-- Tests that the parent of a node is there at the time of the edge, and that a branch hangs below
a condition. -/
def checkParent (d : Diff) (n : Handle) (x : Node) (t : Time) : Outcome Unit := do
  match x.parent.get t with
  | none => return ()
  | some p =>
    let y ← d.node p
    if !y.existsAt t then
      .fail (.wrongParents n x.change
        ("parent " ++ p.text ++ " does not exist " ++ t.name ++ " the edit"))
    else if x.kind.isContinuation && !y.kind.isConditional then
      .fail (.misplacedBranch n x.kind y.kind t)

/-- Tests all rules for a node. -/
def check (d : Diff) (n : Handle) : Outcome Unit := do
  let x ← d.node n
  Time.all.forM (d.checkEdges n x)
  d.checkArity n x
  Time.all.forM (d.checkParent n x)
  if !x.formulaLaw then .fail (.formulaLaw n x.kind)

/-- The given nodes that break a rule, each with the first rule it breaks. -/
def violations (d : Diff) (ns : List Handle) : List (Handle × Failure) :=
  ns.filterMap fun n =>
    match d.check n with
    | .ok _ => none
    | .error e => some (n, e)

end Variation.Diff
