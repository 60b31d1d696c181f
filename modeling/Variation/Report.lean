import Variation.Fault

/-!
# Reports

A `Report` files a failure under a classification with a stable code. It may name the operation, the
node and the diff line, and its written form gives whatever of these is there.
-/

namespace Variation

/-- The classification of failures. -/
inductive FaultClass where
  | absentAt
  | alreadyAttached
  | notAChild
  | indexPastEnd
  | unknownNode
  | rootRemoval
  | invariant
  | formulaLaw
  | loop
  | notATree
  | parse
  | badMatching
  | unmetDependency
  | io
  | serialization
  | inner
  deriving DecidableEq, Inhabited

namespace FaultClass

/-- All classes. -/
def all : List FaultClass :=
  [absentAt, alreadyAttached, notAChild, indexPastEnd, unknownNode, rootRemoval, invariant,
    formulaLaw, loop, notATree, parse, badMatching, unmetDependency, io, serialization, inner]

/-- The name of a class. -/
def name : FaultClass → String
  | absentAt => "ChildNotAtTime"
  | alreadyAttached => "AlreadyHasParent"
  | notAChild => "NotAChild"
  | indexPastEnd => "IndexOutOfBounds"
  | unknownNode => "UnknownNode"
  | rootRemoval => "CannotRemoveRoot"
  | invariant => "InvariantViolation"
  | formulaLaw => "FormulaMismatch"
  | loop => "CycleDetected"
  | notATree => "NotAVariationTree"
  | parse => "Parse"
  | badMatching => "MatchingContract"
  | unmetDependency => "TransformerDependency"
  | io => "Io"
  | serialization => "Serialization"
  | inner => "Internal"

/-- The stable code of a class. -/
def code : FaultClass → String
  | absentAt => "ERR_CHILD_NOT_AT_TIME"
  | alreadyAttached => "ERR_ALREADY_HAS_PARENT"
  | notAChild => "ERR_NOT_A_CHILD"
  | indexPastEnd => "ERR_INDEX_OUT_OF_BOUNDS"
  | unknownNode => "ERR_UNKNOWN_NODE"
  | rootRemoval => "ERR_CANNOT_REMOVE_ROOT"
  | invariant => "ERR_INVARIANT_VIOLATION"
  | formulaLaw => "ERR_FORMULA_MISMATCH"
  | loop => "ERR_CYCLE_DETECTED"
  | notATree => "ERR_NOT_A_VARIATION_TREE"
  | parse => "ERR_PARSE"
  | badMatching => "ERR_MATCHING_CONTRACT"
  | unmetDependency => "ERR_TRANSFORMER_DEPENDENCY"
  | io => "ERR_IO"
  | serialization => "ERR_SERIALIZATION"
  | inner => "ERR_INTERNAL"

/-- Whether a failure of this class points to a mistake in the program and not in its input. -/
def isFatal : FaultClass → Bool
  | parse | io | serialization => false
  | _ => true

end FaultClass

/-- A filed failure. -/
structure Report where
  fileUnder : FaultClass
  operation : Option String := none
  node : Option String := none
  line : Option Int := none
  message : String := ""
  deriving DecidableEq, Inhabited

namespace Report

/-- The stable code of a report. -/
def code (r : Report) : String := r.fileUnder.code

/-- The written form of a report. -/
def text (r : Report) : String :=
  "[" ++ r.code ++ "]" ++
    (match r.operation with
      | some op => " in operation '" ++ op ++ "'"
      | none => "") ++
    (if r.message.isEmpty then "" else ": " ++ r.message) ++
    (match r.node with
      | some n => " (node: " ++ n ++ ")"
      | none => "") ++
    (match r.line with
      | some n => " (line: " ++ toString n ++ ")"
      | none => "")

end Report

/-- Files a failure. -/
def Fault.report : Fault → Report
  | absentAt child change time =>
    { fileUnder := .absentAt, node := some child.text,
      message := change.name ++ " node does not exist " ++ time.name }
  | alreadyAttached child parent time =>
    { fileUnder := .alreadyAttached, node := some child.text,
      message := "already a child of " ++ parent.text ++ " " ++ time.name }
  | notAChild child parent time =>
    { fileUnder := .notAChild, node := some child.text,
      message := "not a child of " ++ parent.text ++ " " ++ time.name }
  | indexPastEnd parent index length =>
    { fileUnder := .indexPastEnd, node := some parent.text,
      message := "index " ++ toString index ++ " for " ++ toString length ++ " children" }
  | unknownNode node => { fileUnder := .unknownNode, node := some node.text }
  | rootRemoval => { fileUnder := .rootRemoval, message := "The root node cannot be removed" }
  | formulaLaw node kind =>
    { fileUnder := .formulaLaw, node := some node.text,
      message := kind.name ++ " node violates the formula law" }
  | asymmetricEdge parent child time =>
    { fileUnder := .invariant, node := some child.text,
      message := "inconsistent " ++ time.name ++ " edge to parent " ++ parent.text }
  | wrongParents node change reason =>
    { fileUnder := .invariant, node := some node.text,
      message := change.name ++ " node: " ++ reason }
  | misplacedBranch node kind parentKind time =>
    { fileUnder := .invariant, node := some node.text,
      message := kind.name ++ " below " ++ parentKind.name ++ " " ++ time.name ++ " the edit" }
  | notRooted node =>
    { fileUnder := .loop, node := some node.text,
      message := "Not all ancestors are descendants of the root" }
  | unexpectedChange node expected actual =>
    { fileUnder := .invariant, node := some node.text,
      message := "expected " ++ expected.name ++ " but found " ++ actual.name }
  | notATree reason => { fileUnder := .notATree, message := reason }
  | parse cause line =>
    { fileUnder := .parse, line := some line.diff, message := cause.message }
  | badMatching reason => { fileUnder := .badMatching, message := reason }
  | unmetDependency step required =>
    { fileUnder := .unmetDependency,
      message := step ++ " requires " ++ required ++ " to run first" }
  | io message => { fileUnder := .io, message }
  | serialization message => { fileUnder := .serialization, message }
  | inner message => { fileUnder := .inner, message }

/-- A report never names an operation by itself; whoever runs one adds it. -/
@[simp] theorem Fault.operation_report (f : Fault) : f.report.operation = none := by
  cases f <;> rfl

end Variation
