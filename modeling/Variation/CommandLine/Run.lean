import Variation.CommandLine.Command
import Variation.CommandLine.Files
import Variation.Matching.Greedy
import Variation.Printing.Document
import Variation.Printing.Listing
import Variation.Printing.LineDiff
import Variation.Printing.Source
import Variation.Reading
import Variation.Reading.Settings
import Variation.Refinement
import Variation.Simplification.Collapse
import Variation.Simplification.Cut
import Variation.Simplification.Moved
import Variation.Construction

/-!
# Running a command

A command reads its files, makes a text of them and writes the text, or names the first trouble it
meets. Nothing is written unless the whole text could be made.
-/

namespace Variation.CommandLine

/-- What stops a command. -/
inductive Trouble where
  | unreadable (path : String) (cause : FileFault)
  | unreadableConfig (path : String) (cause : FileFault)
  | invalidConfig (path : String)
  | unwritable (path : String) (cause : FileFault)
  | inconsistent (cause : Failure)
  | failed (cause : Failure)
  deriving DecidableEq, Inhabited

namespace Trouble

/-- The wording of a trouble. -/
def message : Trouble → String
  | unreadable path cause => "cannot read " ++ path ++ ": " ++ cause.message
  | unreadableConfig path cause => "cannot read config " ++ path ++ ": " ++ cause.message
  | invalidConfig path => "invalid config " ++ path
  | unwritable path cause => "cannot write " ++ path ++ ": " ++ cause.message
  | inconsistent cause => "inconsistent: " ++ cause.message
  | failed cause => cause.message

/-- The status with which a command ends. -/
def status : Trouble → Nat
  | failed .overflow | failed .outsideTree => 101
  | _ => 1

end Trouble

/-- The status for arguments that make up no command. -/
def refusedStatus : Nat := 2

/-- The end of a command: what it prints, or what stopped it. -/
abbrev Ending := Except Trouble String

namespace Ending

/-- The status with which a command ends. -/
def status : Ending → Nat
  | .ok _ => 0
  | .error trouble => trouble.status

/-- What a command prints. -/
def printed : Ending → String
  | .ok text => text
  | .error _ => ""

/-- What a command complains about. -/
def complaint : Ending → String
  | .ok _ => ""
  | .error trouble => "Error: " ++ trouble.message ++ "\n"

end Ending

/-- The simplification steps that are switched on, in the order in which they run. -/
def simplifications (moved cut collapseNested : Bool) : List Simplification :=
  (if moved then [Simplification.moved] else []) ++ (if cut then [Simplification.cut] else []) ++
    if collapseNested then [Simplification.collapse] else []

/-- The text that a task makes of a diff. -/
def Task.text (d : Diff) : Task → Outcome String
  | list => Printing.listing d
  | document => return (← Printing.document d) ++ "\n"
  | check => return "consistent\n"
  | print => Printing.lineDiff d
  | source t => Printing.source d t
  | refine => do Printing.lineDiff (← Refinement.refine d Matcher.greedy)
  | simplify moved cut collapseNested => do
    Printing.lineDiff (← Simplification.apply (simplifications moved cut collapseNested) d)

/-- Does a task on a diff. -/
def Task.run (d : Diff) (task : Task) : Except Trouble String := do
  if task = .check then
    d.checkConsistency.mapError Trouble.inconsistent
  (task.text d).mapError Trouble.failed

namespace Command

variable {m : Type → Type} [Monad m]

/-- Reads a file. -/
def readFile (files : Files m) (path : String) : ExceptT Trouble m String := do
  match ← files.read path with
  | .ok text => return text
  | .error cause => throw (.unreadable path cause)

/-- The options of reading, from the settings file and the switches. -/
def options (files : Files m) (c : Command) : ExceptT Trouble m Reading.Options := do
  match c.config with
  | none => return Reading.Options.switchOn {} c.collapse c.skipBlank
  | some path =>
    match ← files.read path with
    | .error cause => throw (.unreadableConfig path cause)
    | .ok text =>
      match Reading.Options.ofDocument? text with
      | none => throw (.invalidConfig path)
      | some options => return options.switchOn c.collapse c.skipBlank

/-- Reads a diff without its frame. -/
def readDiff (files : Files m) (c : Command) (path : String) : ExceptT Trouble m Diff := do
  let text := Reading.withoutHeaders (← readFile files path)
  let options ← c.options files
  match Reading.diff text options (.named path) Dialect.preprocessor with
  | .ok d => return d
  | .error cause => throw (.failed cause)

/-- Reads a source file. -/
def readTree (files : Files m) (c : Command) (path : String) : ExceptT Trouble m Tree := do
  let text ← readFile files path
  let options ← c.options files
  match Reading.tree text options (.named path) Dialect.preprocessor with
  | .ok tree => return tree
  | .error cause => throw (.failed cause)

/-- The text that a command makes. -/
def text (files : Files m) (c : Command) : ExceptT Trouble m String := do
  match c.job with
  | .diff path task => do
    let d ← c.readDiff files path
    ExceptT.mk (pure (task.run d))
  | .compare before after => do
    let b ← c.readTree files before
    let a ← c.readTree files after
    let d : Outcome Diff := Construction.diff b a Matcher.greedy
    ExceptT.mk (pure ((d >>= Printing.lineDiff).mapError .failed))

/-- Runs a command. -/
def run (files : Files m) (c : Command) : m Ending := ExceptT.run do
  let text ← c.text files
  match c.output with
  | none => return text
  | some path =>
    match ← files.write path text with
    | .ok _ => return ""
    | .error cause => throw (.unwritable path cause)

end Command

end Variation.CommandLine
