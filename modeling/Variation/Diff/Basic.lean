import Variation.Fault
import Variation.Source

/-!
# Diffs

A diff owns all its nodes in one store. Handle `0` is the root; nodes without a parent may lie in
the store, and nothing that walks from the root sees them. `Diff.update` is the only way in which a
node in the store changes, `Diff.append` the only way in which one is added, and the lemmas here say
what either does to every look-up.
-/

namespace Variation

/-- Two trees, one before and one after the edit, that share nodes. -/
structure Diff where
  nodes : Array Node
  source : Source
  deriving DecidableEq, Inhabited

namespace Diff

/-- The handle of the root. -/
def root : Handle := 0

/-- The diff that has only a root. -/
def empty (source : Source) : Diff := ⟨#[Node.rootNode], source⟩

/-- The number of nodes in the store, whether they hang below the root or not. -/
def size (d : Diff) : Nat := d.nodes.size

/-- Whether a handle belongs to a node. -/
def contains (d : Diff) (n : Handle) : Bool := n < d.size

/-- The node of a handle. -/
def node (d : Diff) (n : Handle) : Outcome Node :=
  match d.nodes[n]? with
  | some x => .ok x
  | none => .fail (.unknownNode n)

/-- The parent of a node at a time. -/
def parent (d : Diff) (n : Handle) (t : Time) : Outcome (Option Handle) := do
  return (← d.node n).parent.get t

/-- The children of a node at a time, in order. -/
def children (d : Diff) (n : Handle) (t : Time) : Outcome (List Handle) := do
  return (← d.node n).children.get t

/-- The children before the edit and then those that a node has only after it. -/
def allChildren (d : Diff) (n : Handle) : Outcome (List Handle) := do
  let x ← d.node n
  return x.children.before ++
    (x.children.after.filter fun c => !x.children.before.contains c).eraseDups

/-- The place of a child in the list of its parent. -/
def indexOfChild? (d : Diff) (parent child : Handle) (t : Time) : Outcome (Option Nat) := do
  return (← d.node parent).children.get t |>.idxOf? child

/-- Whether a node names another one as its parent at a time. -/
def isChild (d : Diff) (parent child : Handle) (t : Time) : Outcome Bool := do
  return (← d.node child).parent.get t == some parent

/-- Whether a node names another one as its parent at some time. -/
def isChildAtSomeTime (d : Diff) (parent child : Handle) : Outcome Bool := do
  let x ← d.node child
  return Time.all.any fun t => x.parent.get t == some parent

/-- Whether a node has no child at either time. -/
def isLeaf (d : Diff) (n : Handle) : Outcome Bool := do
  let x ← d.node n
  return Time.all.all fun t => (x.children.get t).isEmpty

/-- Whether nothing hangs below the root. -/
def isBare (d : Diff) : Outcome Bool := d.isLeaf root

/-- The number of entries in the children lists of the whole store. -/
def edgeCount (d : Diff) : Nat :=
  d.nodes.toList.foldr (fun x count => x.children.before.length + x.children.after.length + count) 0

/-- The written form of a diff. -/
def text (d : Diff) : String := "VariationDiff of " ++ d.source.text

/-- Replaces a node by a function of it; a handle without node changes nothing. -/
def update (d : Diff) (n : Handle) (f : Node → Node) : Diff :=
  { d with nodes := d.nodes.modify n f }

/-- Puts a node at the end of the store. -/
def append (d : Diff) (x : Node) : Diff := { d with nodes := d.nodes.push x }

theorem node_eq_ok_iff {d : Diff} {n : Handle} {x : Node} :
    d.node n = .ok x ↔ d.nodes[n]? = some x := by
  unfold node
  cases d.nodes[n]? with
  | none => simp [Outcome.fail]
  | some y => simp

theorem node_eq_error_iff {d : Diff} {n : Handle} {e : Failure} :
    d.node n = .error e ↔ d.size ≤ n ∧ e = .fault (.unknownNode n) := by
  unfold node size
  cases h : d.nodes[n]? with
  | none =>
    rw [Array.getElem?_eq_none_iff] at h
    constructor
    · intro e; cases e; exact ⟨h, rfl⟩
    · rintro ⟨-, rfl⟩; rfl
  | some x =>
    obtain ⟨hlt, -⟩ := Array.getElem?_eq_some_iff.1 h
    constructor
    · intro e; cases e
    · rintro ⟨hle, -⟩; omega

@[simp] theorem size_update (d : Diff) (n : Handle) (f : Node → Node) :
    (d.update n f).size = d.size := by
  simp [update, size]

@[simp] theorem size_append (d : Diff) (x : Node) : (d.append x).size = d.size + 1 := by
  simp [append, size]

@[simp] theorem source_update (d : Diff) (n : Handle) (f : Node → Node) :
    (d.update n f).source = d.source := rfl

theorem getElem?_update (d : Diff) (n m : Handle) (f : Node → Node) :
    (d.update n f).nodes[m]? = if n = m then d.nodes[m]?.map f else d.nodes[m]? := by
  simp only [update, Array.getElem?_modify]

theorem getElem?_append (d : Diff) (x : Node) (m : Handle) :
    (d.append x).nodes[m]? = if m = d.size then some x else d.nodes[m]? := by
  simp only [append, size, Array.getElem?_push]
  rfl

end Diff

end Variation
