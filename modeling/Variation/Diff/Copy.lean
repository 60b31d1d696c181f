import Variation.Diff.Edit
import Variation.Diff.Walk

/-!
# Copies

`compact` copies what hangs below the root into a store without gaps. `project` copies the tree at
one time into a diff that changes nothing, in which every line number is the one at that time.
-/

namespace Variation.Diff

/-- Looks up the new handle of a node; the given node is blamed if there is none. -/
def renamed (names : Array (Option Handle)) (blamed n : Handle) : Outcome Handle :=
  match names[n]? with
  | some (some k) => return k
  | _ => .fail (.notRooted blamed)

/-- The node with all its edges renamed. -/
def renameEdges (names : Array (Option Handle)) (n : Handle) (x : Node) : Outcome Node := do
  let side (t : Time) : Outcome (Option Handle × List Handle) := do
    let parent ← match x.parent.get t with
      | some p => some <$> renamed names n p
      | none => pure none
    let children ← (x.children.get t).mapM fun c => renamed names c c
    return (parent, children)
  let before ← side .before
  let after ← side .after
  return { x with parent := ⟨before.1, after.1⟩, children := ⟨before.2, after.2⟩ }

/-- The place of each node in a list, for a store of a size. -/
def placesOf (size : Nat) (ns : List Handle) : Array (Option Handle) :=
  (ns.zipIdx).foldl (fun names (n, i) => names.setIfInBounds n (some i)) (Array.replicate size none)

/-- The diff with only the nodes below the root, in preorder. -/
def compact (d : Diff) : Outcome Diff := do
  let order ← d.preorder
  let names := placesOf d.size order
  let nodes ← order.mapM fun n => do renameEdges names n (← d.node n)
  return ⟨nodes.toArray, d.source⟩

end Variation.Diff

namespace Variation

/-- The line that closed a chain at a time, seen as unchanged. -/
def ClosingLine.collapse (c : ClosingLine) (t : Time) : ClosingLine :=
  ⟨.unchanged, c.line.collapse t, c.label⟩

/-- A node without edges as it is at a time, seen as unchanged. -/
def Node.collapse (x : Node) (t : Time) : Node :=
  { x.detached with
    change := .unchanged
    start := x.start.collapse t
    stop := x.stop.collapse t
    closing := Sides.both ((x.closing.get t).map (·.collapse t)) }

namespace Diff

/-- Copies children below a node of the new diff and gives the children with their copies, the last
one first. -/
def copyChildren (d : Diff) (t : Time) (copy : Handle) :
    List Handle → List (Handle × Handle) → Edit (List (Handle × Handle))
  | [], done => return done
  | child :: rest, done => do
    let x ← Edit.ask fun _ => d.node child
    let k ← Edit.append (x.collapse t)
    Time.all.forM (Edit.attachLast copy k)
    copyChildren d t copy rest ((child, k) :: done)

/-- Copies what hangs below the waiting nodes. Each step takes one node; more steps than there are
nodes mean that the children loop. -/
def projectFrom (d : Diff) (t : Time) : Nat → List (Handle × Handle) → Edit Unit
  | _, [] => return ()
  | 0, (n, _) :: _ => Edit.fail (.notRooted n)
  | steps + 1, (n, k) :: rest => do
    let children ← Edit.ask fun _ => d.children n t
    projectFrom d t steps ((← copyChildren d t k children []) ++ rest)

/-- The tree at a time as a diff that changes nothing. -/
def project (d : Diff) (t : Time) : Outcome Diff := do
  let x ← d.node root
  let start : Diff := ⟨#[x.collapse t], .projected d.source t⟩
  return (← (d.projectFrom t (d.size + 1) [(root, root)]).result start).2

end Diff

end Variation
