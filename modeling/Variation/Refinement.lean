import Variation.Diff.Consistency
import Variation.Matching.Basic

/-!
# Refining a diff

An unchanged node can be split into a removed and an added one, and a removed node can be joined
with an added one; neither shows in the source at any time. Refinement runs a matcher between the
trees at both times, starting from the pairs that the unchanged nodes form, and splits and joins
nodes until exactly the pairs with equal labels are unchanged.
-/

namespace Variation.Refinement

open Matching (Snapshot)

/-- Fails unless a node has a change. -/
def expect (n : Handle) (change : Change) : Edit Unit := do
  let actual := (← Edit.ask (·.node n)).change
  if actual ≠ change then Edit.fail (.unexpectedChange n change actual)

/-- The parent of a node after the edit, and its place among the children. -/
def slotAfter (n : Handle) : Edit (Handle × Nat) := do
  match ← Edit.ask (·.parent n .after) with
  | none => Edit.fail (.notRooted n)
  | some parent =>
    match ← Edit.ask (·.indexOfChild? parent n .after) with
    | none => Edit.fail (.asymmetricEdge parent n .after)
    | some index => return (parent, index)

/-- Splits an unchanged node: it becomes removed, and an added copy, whose handle is given, takes
its place and its children after the edit. -/
def split (n : Handle) : Edit Handle := do
  expect n .unchanged
  let (parent, index) ← slotAfter n
  let copy ← Edit.copyNode n
  Edit.update copy fun x => { x with change := .added, closing := x.closing.set .before none }
  let children ← Edit.detachChildren n .after
  Edit.attachAll copy children .after
  Edit.dropAt n .after
  Edit.update n fun x => { x with change := .removed, closing := x.closing.set .after none }
  Edit.attach parent copy index .after
  Edit.ask (·.check n)
  Edit.ask (·.check copy)
  return copy

/-- Joins a removed node with an added one: the first becomes unchanged and takes the place, the
children and the closing line of the second after the edit. -/
def join (removed added : Handle) : Edit Unit := do
  expect removed .removed
  expect added .added
  let (parent, index) ← slotAfter added
  let children ← Edit.detachChildren added .after
  Edit.dropAt added .after
  let closing := (← Edit.ask (·.node added)).closing.after
  Edit.update added fun x => { x with closing := x.closing.set .after none }
  Edit.update removed fun x =>
    { x with change := .unchanged, closing := x.closing.set .after closing }
  Edit.attachAll removed children .after
  Edit.attach parent removed index .after

/-- The pairs that unchanged nodes form with themselves. -/
def ownPairs (d : Diff) (src dst : Snapshot) : Outcome Matching := do
  let places := dst.entries.toList.zipIdx.foldl (fun m (e, i) => m.insert e.origin i)
    ({} : Std.TreeMap Handle Nat)
  src.entries.toList.zipIdx.foldlM
    (fun (m : Matching) (e, s) => do
      if (← d.node e.origin).change = .unchanged then
        match places[e.origin]? with
        | none => .fail (.notRooted e.origin)
        | some i =>
          if m.admits s i then return m.add s i
          else .fail (.badMatching ("node " ++ e.origin.text ++ " is reachable twice"))
      else return m)
    .empty

/-- The added copies of nodes that were split. -/
abbrev Copies := Std.TreeMap Handle Handle

/-- Splits a node if it is unchanged, and remembers the copy. -/
def splitIfUnchanged (n : Handle) (copies : Copies) : Edit Copies := do
  if (← Edit.ask (·.node n)).change = .unchanged then
    return copies.insert n (← split n)
  else return copies

/-- Brings a source into its final state: unchanged if it is paired with an equally labelled
destination, which it is joined with if that is another node, and removed otherwise. -/
def settle (dst : Snapshot) (m : Matching) (copies : Copies) (e : Matching.Entry) (s : Nat) :
    Edit Copies := do
  let n := e.origin
  let counterpart := do
    let target ← dst.get? (← m.dst? s)
    if target.label = e.label then some target.origin else none
  let copies ← match counterpart with
    | none => do
      let copies ← splitIfUnchanged n copies
      expect n .removed
      pure copies
    | some target =>
      if target = n then do
        expect n .unchanged
        pure copies
      else do
        let copies ← splitIfUnchanged n copies
        let twin := copies.getD target target
        let copies ← splitIfUnchanged twin copies
        join n (copies.getD twin twin)
        expect n .unchanged
        pure copies
  Edit.ask (·.check n)
  return copies

/-- Settles every source in order. -/
def settleAll (dst : Snapshot) (m : Matching) : Copies → List (Matching.Entry × Nat) → Edit Unit
  | _, [] => return ()
  | copies, (e, s) :: rest => do settleAll dst m (← settle dst m copies e s) rest

/-- The refined diff. -/
def refine (d : Diff) (matcher : Matcher) : Outcome Diff := do
  let src ← Snapshot.ofDiff d .before
  let dst ← Snapshot.ofDiff d .after
  let m ← matcher.run src dst (← ownPairs d src dst)
  let (_, d) ← (settleAll dst m {} src.entries.toList.zipIdx).result d
  d.checkConsistency
  return d

end Variation.Refinement
