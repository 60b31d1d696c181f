import Variation.Diff.Invariant
import Variation.Diff.Walk

/-!
# Consistency of a whole diff

A diff is consistent if every node below the root is in order and if, at each time, the parents of
every such node lead to the root. The second part is tested in two ways: `parentLoops` finds the
loops among the parents at one time, and `endsAtRoot` follows the parents at both times and
remembers every verdict.
-/

namespace Variation.Diff

/-- Follows the parents of a node at a time until they end or a marked node comes. If that node lies
on the way just taken, it is the entry of a loop. The walk marks a node with every step, so it takes
at most as many steps as there are nodes. -/
def climb (d : Diff) (t : Time) : Nat → Marks → List Handle → Handle → Option Handle × Marks
  | 0, marks, _, _ => (none, marks)
  | steps + 1, marks, path, n =>
    if marks.has n then
      (if path.contains n then some n else none, marks)
    else
      match d.nodes[n]? with
      | none => (none, marks)
      | some x =>
        match x.parent.get t with
        | none => (none, marks.mark n)
        | some p => climb d t steps (marks.mark n) (n :: path) p

/-- The loops that the given nodes lead to at a time, each by its entry. -/
def parentLoopsAt (d : Diff) (t : Time) : Marks → List Handle → List Handle
  | _, [] => []
  | marks, n :: rest =>
    match d.climb t (d.size + 1) marks [] n with
    | (some entry, marks) => entry :: parentLoopsAt d t marks rest
    | (none, marks) => parentLoopsAt d t marks rest

/-- The loops among the parents that the given nodes lead to, by time. -/
def parentLoops (d : Diff) (ns : List Handle) : List (Handle × Time) :=
  Time.all.flatMap fun t => (d.parentLoopsAt t (Marks.none d.size) ns).map (·, t)

/-- What is known about the ancestors of a node. -/
inductive Verdict where
  /-- Nothing yet. -/
  | unknown
  /-- The question is being answered. -/
  | pending
  /-- All ancestors lead to the root. -/
  | rooted
  /-- Some ancestors do not lead to the root. -/
  | unrooted
  deriving DecidableEq, Inhabited

/-- The verdict on every node of a store. -/
abbrev Verdicts := Array Verdict

/-- No verdict on any node. -/
def Verdicts.none (size : Nat) : Verdicts := Array.replicate size .unknown

/-- Whether the parents of a node at both times lead to the root, as far as `steps` parents up; a
node on the way that is still being answered counts as if it did. Every step answers for a node
about which nothing was known. -/
def endsAtRootWithin (d : Diff) : Nat → Handle → EStateM Failure Verdicts Bool
  | 0, _ => return true
  | steps + 1, n => do
    match (← get)[n]? with
    | none => throw (.fault (.unknownNode n))
    | some .rooted | some .pending => return true
    | some .unrooted => return false
    | some .unknown =>
      modify (·.setIfInBounds n .pending)
      let answer ← (do
        if n = root then
          return true
        else
          match d.node n with
          | .error e => throw e
          | .ok x =>
            match x.parent.before, x.parent.after with
            | none, none => return false
            | some p, none => endsAtRootWithin d steps p
            | none, some q => endsAtRootWithin d steps q
            | some p, some q =>
              if ← endsAtRootWithin d steps p then endsAtRootWithin d steps q else return false)
      modify (·.setIfInBounds n (if answer then .rooted else .unrooted))
      return answer

/-- Whether all ancestors of a node lead to the root. -/
def endsAtRoot (d : Diff) (n : Handle) : EStateM Failure Verdicts Bool :=
  d.endsAtRootWithin (d.size + 1) n

/-- Tests that the ancestors of every given node lead to the root. -/
def checkRooted (d : Diff) : List Handle → EStateM Failure Verdicts Unit
  | [] => return ()
  | n :: rest => do
    if ← d.endsAtRoot n then checkRooted d rest else throw (.fault (.notRooted n))

/-- Tests the given nodes: each is in order, no parents loop, and all lead to the root. -/
def checkNodes (d : Diff) (ns : List Handle) : Outcome Unit := do
  ns.forM d.check
  match d.parentLoops ns with
  | (n, _) :: _ => .fail (.notRooted n)
  | [] =>
    match (d.checkRooted ns).run (Verdicts.none d.size) with
    | .ok _ _ => return ()
    | .error e _ => .error e

/-- Tests the whole diff and reports the first rule that is broken. -/
def checkConsistency (d : Diff) : Outcome Unit := do
  d.checkNodes (← d.preorder)

/-- Whether the whole diff is consistent. -/
def isConsistent (d : Diff) : Bool := d.checkConsistency.isOk

end Variation.Diff
