import Variation.Diff.Consistency
import Variation.Matching.Basic

/-!
# Building a diff from two trees

Two trees and a matching between them make a diff. A paired node whose counterpart has the same
label is kept and becomes unchanged; every other node of the first tree becomes removed and every
other node of the second tree added. The edges after the edit are then built anew along the second
tree, and the diff lines are numbered in the order in which a walk from the root meets the nodes.
-/

namespace Variation.Construction

open Matching (Snapshot)

/-- The destination that a source keeps: the one it is paired with, if their labels are equal. -/
def kept? (src dst : Snapshot) (m : Matching) (s : Nat) : Option Nat := do
  let d ← m.dst? s
  if (← src.get? s).label = (← dst.get? d).label then some d else none

/-- The source that a destination is kept by. -/
def keptBy? (src dst : Snapshot) (m : Matching) (d : Nat) : Option Matching.Entry := do
  let s ← m.src? d
  if kept? src dst m s = some d then src.get? s else none

/-- A node as it is after it was removed. -/
def asRemoved (x : Node) : Node :=
  { x with
    change := .removed
    start := x.start.restrict .removed
    stop := x.stop.restrict .removed
    closing := ⟨x.closing.before.map fun c => { c with change := .removed }, none⟩ }

/-- Turns every source below the root that is not kept into a removed node. -/
def removeUnkept (src dst : Snapshot) (m : Matching) : Edit Unit :=
  (src.entries.toList.zipIdx.drop 1).forM fun (e, s) => do
    if (kept? src dst m s).isNone then
      Edit.dropAt e.origin .after
      Edit.update e.origin asRemoved

/-- A place that is only there after the edit. -/
def addedPosition (line : Int) : Position := ⟨invalidLine, invalidLine, line⟩

/-- Adds a node of the second tree to the diff. -/
def addCopy (y : Node) : Edit Handle := do
  let n ← Edit.addNode .added y.kind (addedPosition y.start.after) (addedPosition y.stop.after)
    y.formula y.label
  Edit.update n fun x =>
    { x with
      closing := x.closing.set .after
        (y.closing.after.map fun c => ⟨.added, c.line.restrict .added, c.label⟩) }
  return n

/-- Takes a kept node from its place after the edit and gives it the lines of its counterpart. -/
def reuse (n : Handle) (y : Node) : Edit Unit := do
  Edit.dropAt n .after
  Edit.update n fun x =>
    { x with start := x.start.set y.start.after .after, stop := x.stop.set y.stop.after .after }

/-- Puts a destination and everything below it below a node after the edit, at most a number of
levels deep. -/
def attachDestination (after : Diff) (src dst : Snapshot) (m : Matching) :
    Nat → Handle → Nat → Edit Unit
  | 0, _, d => Edit.fail (.badMatching ("destination index " ++ toString d ++ " out of range"))
  | levels + 1, parent, d => do
    match dst.get? d with
    | none => Edit.fail (.badMatching ("destination index " ++ toString d ++ " out of range"))
    | some e =>
      let y ← Edit.ask fun _ => after.node e.origin
      let n ← match keptBy? src dst m d with
        | some s => do
          reuse s.origin y
          pure s.origin
        | none => addCopy y
      Edit.attachLast parent n .after
      let _ ← Edit.detachChildren n .after
      e.children.forM (attachDestination after src dst m levels n)

/-- Builds the edges after the edit along the second tree. -/
def attachDestinations (after : Diff) (src dst : Snapshot) (m : Matching) : Edit Unit := do
  let _ ← Edit.detachChildren Diff.root .after
  match dst.get? 0 with
  | none => return ()
  | some e => e.children.forM (attachDestination after src dst m dst.size Diff.root)

/-- A line number in an edit. -/
def inRange {α : Type} (x : Option α) : Edit α := Edit.ask fun _ => Outcome.inRange x

/-- Ends a node: an annotation at the next free line, which its closing lines take, and code behind
its own lines. Gives the line that is free then. -/
def numberEnd (n : Handle) (past free : Int) : Edit Int := do
  let x ← Edit.ask (·.node n)
  if x.kind.annotates then
    let closes := x.kind = .ifBranch ∧ (x.closing.before.isSome ∨ x.closing.after.isSome)
    Edit.update n fun x =>
      { x with
        stop := x.stop.setDiff free
        closing :=
          if closes then x.closing.map (·.map fun c => { c with line := c.line.setDiff free })
          else x.closing }
    if closes then inRange (lineNumber? (free + 1)) else return free
  else
    Edit.update n fun x => { x with stop := x.stop.setDiff past }
    return free

/-- Numbers a node that is not marked yet and everything below it; gives the next free line and the
marks. -/
def numberBelow : Nat → Int × Marks → Handle → Edit (Int × Marks)
  | 0, state, _ => return state
  | levels + 1, (free, marks), n => do
    if marks.has n then
      return (free, marks)
    else
      let x ← Edit.ask (·.node n)
      Edit.update n fun x => { x with start := x.start.setDiff free }
      let next ← inRange (lineNumber? (free + max x.label.lines.length 1))
      let children ← Edit.ask (·.allChildren n)
      let (last, marks) ← children.foldlM (numberBelow levels) (next, marks.mark n)
      return (← numberEnd n next last, marks)

/-- Numbers the diff lines from one on, in the order of a walk from the root. -/
def number : Edit Unit := do
  let size := (← get).size
  let children ← Edit.ask (·.allChildren Diff.root)
  let _ ← children.foldlM (numberBelow size) (1, (Marks.none size).mark Diff.root)

/-- Turns the first tree, as a diff that changes nothing, into the diff to the second tree. -/
def rebuild (after : Diff) (src dst : Snapshot) (m : Matching) : Edit Unit := do
  removeUnkept src dst m
  attachDestinations after src dst m
  number

/-- The diff between two trees under a matcher. -/
def diff (before after : Tree) (matcher : Matcher) : Outcome Diff := do
  let start :=
    { ← before.diff.unchanged with source := .compared before.diff.source after.diff.source }
  let src ← Snapshot.ofDiff start .before
  let dst ← Snapshot.ofTree after
  let m ← matcher.run src dst .empty
  let (_, d) ← (rebuild after.diff src dst m).result start
  d.checkConsistency
  return d

end Variation.Construction
