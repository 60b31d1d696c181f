import Variation.Node

/-!
# Causes of failure

`Fault` lists every cause for which an operation can fail, with the nodes and values that a reader
needs to find it, and `Fault.message` words it. `Report` is the short form under which failures are
filed: a classification with a stable code, and where the failure happened.

An operation can also stop without a fault: because a line number left the 32-bit range, or because
a matching points outside the trees it was made for. `Failure` adds these two.
-/

namespace Variation

/-- Why a text is no diff of annotated source. -/
inductive ParseFault where
  /-- A line opens with none of the three symbols. -/
  | invalidLine
  /-- The last logical line stays open. -/
  | openLine
  /-- A chain of branches is never closed. -/
  | unclosedChain
  /-- A closing annotation closes nothing. -/
  | endifWithoutIf
  /-- A branch continues no chain. -/
  | branchWithoutIf
  /-- A branch follows an else branch. -/
  | branchAfterElse
  /-- A conditional annotation has no condition. -/
  | missingCondition
  /-- A condition cannot be read. -/
  | malformedFormula (reason : String)
  /-- An annotation is not conditional. -/
  | unknownMacro (name : String)
  deriving DecidableEq, Inhabited

/-- The wording of a reading failure. -/
def ParseFault.message : ParseFault → String
  | invalidLine => "invalid diff line"
  | openLine => "line continuation but no more lines"
  | unclosedChain => "not all annotations closed"
  | endifWithoutIf => "#endif without #if"
  | branchWithoutIf => "#else or #elif without #if"
  | branchAfterElse => "#else after #else"
  | missingCondition => "conditional macro without expression"
  | malformedFormula reason => "unparseable formula: " ++ reason
  | unknownMacro name => "invalid macro name: " ++ name

/-- The cause for which an operation fails. -/
inductive Fault where
  /-- A node is used at a time at which it is not there. -/
  | absentAt (child : Handle) (change : Change) (time : Time)
  /-- A node that has a parent is attached once more. -/
  | alreadyAttached (child parent : Handle) (time : Time)
  /-- A node is not below the named parent. -/
  | notAChild (child parent : Handle) (time : Time)
  /-- A position lies past the end of a list of children. -/
  | indexPastEnd (parent : Handle) (index length : Nat)
  /-- A handle belongs to no node. -/
  | unknownNode (node : Handle)
  /-- The root is to be removed. -/
  | rootRemoval
  /-- A formula is missing, or is where none belongs. -/
  | formulaLaw (node : Handle) (kind : Kind)
  /-- A parent and its child disagree about their edge. -/
  | asymmetricEdge (parent child : Handle) (time : Time)
  /-- The parents of a node do not suit its change. -/
  | wrongParents (node : Handle) (change : Change) (reason : String)
  /-- A branch hangs below a node that opens no chain. -/
  | misplacedBranch (node : Handle) (kind parentKind : Kind) (time : Time)
  /-- The ancestors of a node do not end at the root. -/
  | notRooted (node : Handle)
  /-- A node has another change than an operation needs. -/
  | unexpectedChange (node : Handle) (expected actual : Change)
  /-- A diff with edits is used as a tree. -/
  | notATree (reason : String)
  /-- A text cannot be read. -/
  | parse (cause : ParseFault) (line : Position)
  /-- A matcher breaks its contract. -/
  | badMatching (reason : String)
  /-- A simplification step runs before one it builds on. -/
  | unmetDependency (step required : String)
  /-- A file cannot be used. -/
  | io (message : String)
  /-- A value cannot be written. -/
  | serialization (message : String)
  /-- A value is out of the library's own rules. -/
  | inner (message : String)
  deriving DecidableEq, Inhabited

/-- The wording of a failure. -/
def Fault.message : Fault → String
  | absentAt child change time =>
    "Node " ++ child.text ++ " (" ++ change.name ++ ") does not exist " ++ time.name
  | alreadyAttached child parent time =>
    "Node " ++ child.text ++ " already has a parent " ++ time.name ++ " the edit (" ++
      parent.text ++ ")"
  | notAChild child parent time =>
    "Node " ++ child.text ++ " is not a child of " ++ parent.text ++ " " ++ time.name ++ " the edit"
  | indexPastEnd parent index length =>
    "Index " ++ toString index ++ " out of bounds for " ++ toString length ++ " children of " ++
      parent.text
  | unknownNode node => "Unknown node: " ++ node.text
  | rootRemoval => "The root node cannot be removed"
  | formulaLaw node kind =>
    "Node " ++ node.text ++ " of type " ++ kind.name ++ " violates the formula law"
  | asymmetricEdge parent child time =>
    "Inconsistent " ++ time.name ++ " edge between " ++ parent.text ++ " and " ++ child.text
  | wrongParents node change reason =>
    "Node " ++ node.text ++ " (" ++ change.name ++ ") has an invalid parent configuration: " ++
      reason
  | misplacedBranch node kind parentKind time =>
    kind.name ++ " node " ++ node.text ++ " has a " ++ parentKind.name ++ " parent " ++ time.name ++
      " the edit"
  | notRooted node => "Not all ancestors of " ++ node.text ++ " are descendants of the root"
  | unexpectedChange node expected actual =>
    "Node " ++ node.text ++ " is " ++ actual.name ++ " but " ++ expected.name ++ " was required"
  | notATree reason => "Not a variation tree: " ++ reason
  | parse cause line => "Parse error: " ++ cause.message ++ " at " ++ line.text
  | badMatching reason => "Matching contract violation: " ++ reason
  | unmetDependency step required =>
    "Transformer " ++ step ++ " requires " ++ required ++ " to run first"
  | io message => "I/O error: " ++ message
  | serialization message => "Serialization error: " ++ message
  | inner message => "Internal error: " ++ message

/-- How an operation can stop short of a result. -/
inductive Failure where
  /-- There is a cause to report. -/
  | fault (cause : Fault)
  /-- A line number left the 32-bit range. -/
  | overflow
  /-- A matching points outside the trees it was made for. -/
  | outsideTree
  deriving DecidableEq, Inhabited

/-- The wording of a failure of any kind. -/
def Failure.message : Failure → String
  | fault cause => cause.message
  | overflow => "A line number is out of range"
  | outsideTree => "A matching points outside its trees"

/-- The result of a question to a diff. -/
abbrev Outcome (α : Type) := Except Failure α

/-- Fails for a cause. -/
def Outcome.fail {α : Type} (cause : Fault) : Outcome α := .error (.fault cause)

/-- A line number or a place, if it stays in range. -/
def Outcome.inRange {α : Type} : Option α → Outcome α
  | some x => .ok x
  | none => .error .overflow

@[simp] theorem Outcome.inRange_some {α : Type} (x : α) : Outcome.inRange (some x) = .ok x := rfl

@[simp] theorem Outcome.inRange_none {α : Type} :
    Outcome.inRange (none : Option α) = .error .overflow := rfl

end Variation
