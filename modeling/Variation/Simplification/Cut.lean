import Variation.Simplification.Basic

/-!
# Cutting unedited parts

An unchanged leaf that has the same parent at both times says nothing about the edit. Cutting drops
such leaves from the bottom up, so that a node all of whose children are dropped may be dropped too.
-/

namespace Variation.Simplification

/-- Whether a node has no children and hangs below the given one at both times. -/
def isUneditedLeaf (parent child : Handle) (d : Diff) : Outcome Bool := do
  let x ← d.node child
  return (← d.isLeaf child) && x.parent.before == some parent && x.parent.after == some parent

/-- Drops the unedited leaves among some children of a node. -/
def dropUneditedLeaves (parent : Handle) (children : List Handle) : Edit Unit :=
  children.forM fun child => do
    if ← Edit.ask (isUneditedLeaf parent child) then Edit.drop child

/-- Cuts below a node that is not marked yet; gives the marks. Every level marks a node. -/
def cutBelow : Nat → Marks → Handle → Edit Marks
  | 0, marks, _ => return marks
  | levels + 1, marks, n => do
    if marks.has n then
      return marks
    else
      let marks ← (← Edit.ask (·.allChildren n)).foldlM (cutBelow levels) (marks.mark n)
      dropUneditedLeaves n (← Edit.ask (·.allChildren n))
      return marks

/-- Cuts every subtree without edits. -/
def cut : Simplification where
  name := "CutNonEditedSubtrees"
  run := do
    let size := (← get).size
    let _ ← cutBelow (size + 1) (Marks.none size) Diff.root

end Variation.Simplification
