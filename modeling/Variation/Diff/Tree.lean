import Variation.Diff.Copy

/-!
# Trees

A diff is a tree if nothing in it changed: every node below the root is unchanged and has the same
parent and the same children at both times.
-/

namespace Variation

/-- Why a node does not belong in a tree, if it does not. -/
def Node.editInTree? (x : Node) (n : Handle) : Option String :=
  if x.change ≠ .unchanged then some ("node " ++ n.text ++ " is " ++ x.change.name)
  else if x.parent.before ≠ x.parent.after ∨ x.children.before ≠ x.children.after then
    some ("node " ++ n.text ++ " has different edges before and after")
  else none

namespace Diff

/-- Tests the nodes that wait on a stack and all below them. Each step takes one node; more steps
than there are nodes mean that the children loop. -/
def checkTreeFrom (d : Diff) : Nat → List Handle → Outcome Unit
  | _, [] => return ()
  | 0, n :: _ => .fail (.notRooted n)
  | steps + 1, n :: rest => do
    let x ← d.node n
    match x.editInTree? n with
    | some reason => .fail (.notATree reason)
    | none => checkTreeFrom d steps (x.children.before ++ rest)

/-- Tests that nothing changed. -/
def checkTree (d : Diff) : Outcome Unit := d.checkTreeFrom (d.size + 1) [root]

/-- A tree as a diff of its own that changes nothing. -/
def unchanged (d : Diff) : Outcome Diff := do
  return { ← d.project .before with source := d.source }

end Diff

/-- A diff in which nothing changed. -/
structure Tree where
  diff : Diff
  isTree : diff.checkTree = .ok ()

/-- The diff as a tree, if nothing changed. -/
def Diff.asTree (d : Diff) : Outcome Tree :=
  match h : d.checkTree with
  | .ok _ => return ⟨d, h⟩
  | .error e => .error e

end Variation
