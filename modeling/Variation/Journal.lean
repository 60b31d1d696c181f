import Variation.Construction
import Variation.Printing.Document
import Variation.Reading
import Variation.Refinement
import Variation.Report
import Variation.Simplification.Basic

/-!
# The journal

The large operations are recorded: each leaves an event when it starts and one when it ends or
fails, and reading a source text also leaves a warning for every line that looks like an edit. A
`Recorded` value is a result together with the events that led to it.
-/

namespace Variation

/-- How serious an event is. -/
inductive Level where
  | info
  | warning
  | error
  deriving DecidableEq, Inhabited

/-- The written form of a level. -/
def Level.name : Level → String
  | info => "INFO"
  | warning => "WARN"
  | error => "ERROR"

/-- The operations that are recorded. -/
inductive Operation where
  | readDiff
  | readTree
  | printDiff
  | construct
  | refine
  | simplify
  deriving DecidableEq, Inhabited

/-- All operations that are recorded. -/
def Operation.all : List Operation := [readDiff, readTree, printDiff, construct, refine, simplify]

/-- The written form of an operation. -/
def Operation.name : Operation → String
  | readDiff => "parse_diff"
  | readTree => "parse_variation_tree"
  | printDiff => "unparse_diff"
  | construct => "diff_using_matching"
  | refine => "improve_matching"
  | simplify => "apply_transformers"

/-- What an event says about its operation. -/
inductive Phase where
  | start
  | finish
  | failure
  deriving DecidableEq, Inhabited

/-- The written form of a phase. -/
def Phase.name : Phase → String
  | start => "start"
  | finish => "end"
  | failure => "end_error"

/-- An entry of the journal. -/
structure Event where
  level : Level
  operation : Option Operation := none
  phase : Option Phase := none
  fields : List (String × String)
  deriving DecidableEq, Inhabited

namespace Event

/-- The text of a field. -/
def field? (e : Event) (name : String) : Option String := e.fields.lookup name

/-- Says that an operation starts. -/
def start (op : Operation) (fields : List (String × String)) : Event :=
  ⟨.info, some op, some .start, fields⟩

/-- Says that an operation ended. -/
def finish (op : Operation) (fields : List (String × String)) : Event :=
  ⟨.info, some op, some .finish, fields⟩

/-- Says that an operation failed, and how the failure is filed. -/
def failure (op : Operation) (r : Report) : Event where
  level := .error
  operation := some op
  phase := some .failure
  fields :=
    [("err_kind", r.fileUnder.name), ("err_code", r.code)] ++
      (r.node.map fun n => ("node_id", n)).toList ++
      (r.line.map fun n => ("line", toString n)).toList

/-- Warns about a line of source that looks like an edit. -/
def suspiciousLine (number : Nat) : Event where
  level := .warning
  fields :=
    [("message", "source line starts with a diff symbol; the input may be a diff"),
      ("line", toString number)]

end Event

/-- A result with the events that led to it. -/
structure Recorded (α : Type) where
  outcome : Outcome α
  events : List Event

namespace Recorded

/-- The number of nodes as a field. -/
def nodeCount (d : Diff) : List (String × String) := [("node_count", toString d.size)]

/-- The number of lines as a field. -/
def lineCount (text : String) : List (String × String) :=
  [("line_count", toString (Text.lines text).length)]

/-- Records an operation: its start, what happened on the way, and how it ended. An operation that
stops without a fault leaves no last event. -/
def record {α : Type} (op : Operation) (start : List (String × String)) (outcome : Outcome α)
    (finish : α → List (String × String)) (between : List Event := []) : Recorded α where
  outcome
  events :=
    Event.start op start :: between ++
      match outcome with
      | .ok x => [Event.finish op (finish x)]
      | .error (.fault cause) => [Event.failure op cause.report]
      | .error _ => []

/-- Goes on with the value of a recorded operation, if it has one. -/
def andThen {α β : Type} (r : Recorded α) (next : α → Recorded β) : Recorded β :=
  match r.outcome with
  | .ok x => { next x with events := r.events ++ (next x).events }
  | .error e => ⟨.error e, r.events⟩

/-- Reads a line diff. -/
def readDiff (text : String) (options : Reading.Options) (source : Source) (dialect : Dialect) :
    Recorded Diff :=
  record .readDiff (lineCount text) (Reading.diff text options source dialect) nodeCount

/-- Reads a source text. -/
def readTree (text : String) (options : Reading.Options) (source : Source) (dialect : Dialect) :
    Recorded Tree :=
  record .readTree (lineCount text) (Reading.tree text options source dialect)
    (nodeCount ·.diff) ((Reading.suspiciousLines text options dialect).map Event.suspiciousLine)

/-- Prints a line diff. -/
def printDiff (d : Diff) : Recorded String :=
  record .printDiff (nodeCount d) (Printing.lineDiff d) lineCount

/-- Prints a document; its digest is that of the line diff, which is printed once the nodes are
found. -/
def printDocument (d : Diff) : Recorded String :=
  ⟨Printing.document d, if d.reachable.isOk then (printDiff d).events else []⟩

/-- Builds a diff from two trees. -/
def construct (before after : Tree) (matcher : Matcher) : Recorded Diff :=
  record .construct [] (Construction.diff before after matcher) nodeCount

/-- Refines a diff. -/
def refine (d : Diff) (matcher : Matcher) : Recorded Diff :=
  record .refine (nodeCount d) (Refinement.refine d matcher) nodeCount

/-- Simplifies a diff. -/
def simplify (steps : List Simplification) (d : Diff) : Recorded Diff :=
  record .simplify (nodeCount d) (Simplification.apply steps d) nodeCount

end Recorded

/-- The stable codes of the failures of an operation, in order. -/
def Event.failureCodes (op : Operation) (es : List Event) : List String :=
  (es.filter fun e => e.operation == some op && e.phase == some .failure).filterMap
    (·.field? "err_code")

/-- How often an operation started. -/
def Event.startCount (op : Operation) (es : List Event) : Nat :=
  es.countP fun e => e.operation == some op && e.phase == some .start

end Variation
