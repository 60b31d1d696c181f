import Variation.Diff.Basic

/-!
# Walks from the root

`preorder` lists every node that hangs below the root at some time, each once, children before the
edit first. `preorderAt` lists the tree at one time. Nodes that were seen are kept in `Marks`, one
mark for each place of the store.
-/

namespace Variation

/-- A mark for each node of a store. -/
abbrev Marks := Array Bool

/-- No node is marked. -/
def Marks.none (size : Nat) : Marks := Array.replicate size false

/-- Marks a node. -/
def Marks.mark (m : Marks) (n : Handle) : Marks := m.setIfInBounds n true

/-- Whether a node is marked. -/
def Marks.has (m : Marks) (n : Handle) : Bool := m[n]? == some true

theorem Marks.has_mark {m : Marks} {n k : Handle} :
    (m.mark n).has k = ((n == k && decide (n < m.size)) || m.has k) := by
  simp only [mark, has, Array.getElem?_setIfInBounds]
  by_cases h : n = k
  · subst h
    by_cases hn : n < m.size
    · simp [hn]
    · simp [hn]
  · simp [h]

@[simp] theorem Marks.size_mark (m : Marks) (n : Handle) : (m.mark n).size = m.size := by
  simp [mark]

namespace Diff

/-- Visits the nodes that wait on a stack and, each time one is seen first, its children. Every step
takes one node from the stack, and at most `steps` nodes are ever put there. -/
def preorderFrom (d : Diff) : Nat → Marks → List Handle → List Handle → Outcome (List Handle)
  | _, _, [], seen => .ok seen.reverse
  | 0, _, _ :: _, seen => .ok seen.reverse
  | steps + 1, marks, n :: rest, seen =>
    if marks.has n then preorderFrom d steps marks rest seen
    else do
      let children ← d.allChildren n
      preorderFrom d steps (marks.mark n) (children ++ rest) (n :: seen)

/-- Every node that hangs below the root at some time, in order of the first encounter. -/
def preorder (d : Diff) : Outcome (List Handle) :=
  d.preorderFrom (d.edgeCount + 1) (Marks.none d.size) [root] []

/-- Visits the nodes that wait on a stack and their children at a time, as long as `room` nodes more
may follow; a longer walk has met a loop. -/
def preorderAtFrom (d : Diff) (t : Time) :
    Nat → List Handle → List Handle → Outcome (List Handle)
  | _, [], seen => .ok seen.reverse
  | room, n :: rest, seen => do
    let children ← d.children n t
    match room with
    | 0 => .fail (.notRooted n)
    | room + 1 => preorderAtFrom d t room (children ++ rest) (n :: seen)

/-- The nodes of the tree at a time, in preorder. -/
def preorderAt (d : Diff) (t : Time) : Outcome (List Handle) := d.preorderAtFrom t d.size [root] []

/-- The given handles with their nodes. -/
def withNodes (d : Diff) (ns : List Handle) : Outcome (List (Handle × Node)) :=
  ns.mapM fun n => do return (n, ← d.node n)

/-- The nodes below the root with their handles, in preorder. -/
def reachable (d : Diff) : Outcome (List (Handle × Node)) := do d.withNodes (← d.preorder)

/-- The nodes of the tree at a time with their handles, in preorder. -/
def reachableAt (d : Diff) (t : Time) : Outcome (List (Handle × Node)) := do
  d.withNodes (← d.preorderAt t)

/-- The nodes below the root that satisfy a condition, in preorder. -/
def nodesWith (d : Diff) (p : Node → Bool) : Outcome (List Handle) := do
  return ((← d.reachable).filter (p ·.2)).map (·.1)

/-- Whether some node below the root satisfies a condition. -/
def anyNode (d : Diff) (p : Node → Bool) : Outcome Bool := do
  return (← d.reachable).any (p ·.2)

/-- Whether every node below the root satisfies a condition. -/
def allNodes (d : Diff) (p : Node → Bool) : Outcome Bool := do
  return !(← d.anyNode fun x => !p x)

/-- Whether no node below the root satisfies a condition. -/
def noNode (d : Diff) (p : Node → Bool) : Outcome Bool := do
  return !(← d.anyNode p)

/-- The number of nodes below the root, itself included. -/
def reachableCount (d : Diff) : Outcome Nat := do
  return (← d.preorder).length

/-- The first node below the root with a packed identifier. -/
def findStableId? (d : Diff) (id : Nat) : Outcome (Option Handle) := do
  return ((← d.reachable).find? (·.2.stableId == id)).map (·.1)

end Diff

end Variation
