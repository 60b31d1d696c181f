import Variation.Formula
import Variation.Label
import Variation.StableId

/-!
# Nodes

A node stands for an annotation or a run of code. It has a parent and an ordered list of children at
each time, held as handles into the store of the diff that owns it. A node that opens a chain of
branches also remembers, for each time, the line that closed the chain.
-/

namespace Variation

/-- The place of a node in the store of its diff. -/
abbrev Handle := Nat

/-- The written form of a handle. -/
def Handle.text (n : Handle) : String := "#" ++ toString n

/-- The line that closed a chain of branches at one time. -/
structure ClosingLine where
  change : Change
  line : Position
  label : Label
  deriving DecidableEq, Inhabited

/-- A node with its edges at both times. -/
structure Node where
  change : Change
  kind : Kind
  /-- The first line. -/
  start : Position
  /-- The line after the last one. -/
  stop : Position
  formula : Option Formula
  label : Label
  parent : Sides (Option Handle) := Sides.both none
  children : Sides (List Handle) := Sides.both []
  closing : Sides (Option ClosingLine) := Sides.both none
  deriving DecidableEq, Inhabited

namespace Node

/-- The root of a diff: it is there at both times and covers no line of its own. -/
def rootNode : Node where
  change := .unchanged
  kind := .root
  start := .start
  stop := .invalid
  formula := none
  label := {}

/-- The node without its edges. -/
def detached (n : Node) : Node :=
  { n with parent := Sides.both none, children := Sides.both [] }

/-- Whether the node is there at a time. -/
def existsAt (n : Node) (t : Time) : Bool := n.change.existsAt t

/-- The identifier of a node across runs. -/
def stableId (n : Node) : Nat := StableId.encode n.start.diff n.change n.kind

/-- The text by which nodes are compared: the condition if the kind has one, else the label. -/
def matchingText (n : Node) : String :=
  match n.formula, n.kind.isConditional with
  | some f, true => f.text
  | _, _ => n.label.text

/-- Whether exactly the conditional kinds carry a formula. -/
def formulaLaw (n : Node) : Bool := n.formula.isSome == n.kind.isConditional

/-- The written form of a node. -/
def text (n : Node) : String :=
  n.change.name ++ "_" ++ n.kind.name ++ " from line " ++ toString n.start.diff ++ " to " ++
    toString n.stop.diff ++
    match n.formula with
    | some f => " with formula " ++ f.text
    | none => if n.kind = .artifact then " with label \"" ++ n.label.text ++ "\"" else ""

@[simp] theorem parent_detached (n : Node) (t : Time) : n.detached.parent.get t = none := by
  simp [detached]

@[simp] theorem children_detached (n : Node) (t : Time) : n.detached.children.get t = [] := by
  simp [detached]

end Node

end Variation
