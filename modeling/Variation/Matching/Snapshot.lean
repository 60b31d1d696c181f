import Variation.Diff.Tree

/-!
# Snapshots

A snapshot is the tree of a diff at one time as an ordered labelled tree. Its entries are indexed in
preorder, so the root has index `0` and every child a larger index than its parent.
-/

namespace Variation.Matching

/-- A node of a snapshot. -/
structure Entry where
  kind : Kind
  /-- The text by which nodes are compared. -/
  label : String
  parent : Option Nat
  children : List Nat
  /-- The node of the diff. -/
  origin : Handle
  deriving DecidableEq, Inhabited

/-- What entries must share to be paired on their own account. -/
def Entry.key (e : Entry) : Kind × String := (e.kind, e.label)

/-- An ordered labelled tree, indexed in preorder. -/
structure Snapshot where
  entries : Array Entry
  deriving DecidableEq, Inhabited

namespace Snapshot

/-- The number of entries. -/
def size (s : Snapshot) : Nat := s.entries.size

/-- The entry of an index. -/
def get? (s : Snapshot) (i : Nat) : Option Entry := s.entries[i]?

/-- The entry of an index that must be in the snapshot. -/
def get (s : Snapshot) (i : Nat) : Outcome Entry :=
  match s.entries[i]? with
  | some e => .ok e
  | none => .error .outsideTree

/-- The index of the first entry that stands for a node. -/
def indexOf? (s : Snapshot) (n : Handle) : Option Nat :=
  s.entries.findIdx? (·.origin == n)

/-- Appends the entry of a node as the last child of an entry. -/
def push (s : Snapshot) (x : Node) (n : Handle) (parent : Option Nat) : Snapshot :=
  let entries := s.entries.push ⟨x.kind, x.matchingText, parent, [], n⟩
  match parent with
  | none => ⟨entries⟩
  | some p => ⟨entries.modify p fun e => { e with children := e.children ++ [s.entries.size] }⟩

/-- Takes the nodes that wait on a stack, and those below them. There is room for one node more than
the store has; a walk that needs more has met a loop. -/
def takeFrom (d : Diff) (t : Time) :
    Nat → Snapshot → List (Handle × Option Nat) → Outcome Snapshot
  | _, s, [] => return s
  | 0, _, (n, _) :: _ => .fail (.notRooted n)
  | room + 1, s, (n, parent) :: rest => do
    let x ← d.node n
    takeFrom d t room (s.push x n parent) ((x.children.get t).map (·, some s.size) ++ rest)

/-- The snapshot of a diff at a time. -/
def ofDiff (d : Diff) (t : Time) : Outcome Snapshot :=
  takeFrom d t (d.size + 1) ⟨#[]⟩ [(Diff.root, none)]

/-- The snapshot of a tree. -/
def ofTree (t : Tree) : Outcome Snapshot := ofDiff t.diff .before

end Snapshot

end Variation.Matching
