import Variation.Diff.Tree
import Variation.Reading.Outline
import Variation.Reading.PhysicalLine
import Variation.Text.Blank

/-!
# Reading diffs and sources

A line diff is read in one run for both times. Each time has its own logical line, which takes the
physical lines that are there at that time. As long as both take the same unchanged lines they are
one line, and its node is unchanged; otherwise what is complete before the edit becomes removed and
what is complete after it becomes added.
-/

namespace Variation.Reading

/-- The state of a run: the logical lines that are being read, whether they are one and the same,
the place of the last physical line, and the diff made so far. -/
structure Run where
  pending : Sides LogicalLine
  shared : Bool
  place : Position
  outline : Outline

namespace Run

/-- The state before the first line. -/
def start (source : Source) : Run := ⟨.both {}, false, .start, .start source⟩

/-- Puts the logical line of a time into the diff if it is complete. -/
def flush (options : Options) (dialect : Dialect) (r : Run) (t : Time) : Outcome Run := do
  let line := r.pending.get t
  if line.isComplete then
    let outline ← r.outline.put options dialect line (Change.onlyAt t) r.place
    return { r with outline, pending := r.pending.set t {} }
  else
    return r

/-- Puts what is complete into the diff. -/
def flushAll (options : Options) (dialect : Dialect) (r : Run) : Outcome Run := do
  if r.shared && r.pending.before.isComplete && r.pending.after.isComplete then
    let outline ← r.outline.put options dialect r.pending.before .unchanged r.place
    return { r with outline, pending := .both {} }
  else
    (← r.flush options dialect .before).flush options dialect .after

/-- Lets the logical lines of the times of a change take a physical line. -/
def take (r : Run) (change : Change) (content : String) : Run :=
  { r with
    shared := change == .unchanged &&
      (r.shared || (!r.pending.before.hasStarted && !r.pending.after.hasStarted))
    pending := change.times.foldl
      (fun pending t => pending.set t ((pending.get t).consume content r.place)) r.pending }

/-- Reads a physical line. -/
def step (options : Options) (dialect : Dialect) (r : Run) (line : PhysicalLine) : Outcome Run := do
  match line.change with
  | none => Outline.fail .invalidLine (← Outcome.inRange (r.place.add? 1))
  | some change =>
    let r := { r with place := ← Outcome.inRange (r.place.shift? 1 change) }
    if options.skipBlank && (Text.trimStart line.content.toList).isEmpty then
      return r
    else
      (r.take change line.content).flushAll options dialect

/-- Ends the run after the last line. -/
def finish (r : Run) : Outcome Diff :=
  if r.pending.before.hasStarted || r.pending.after.hasStarted then
    Outline.fail .openLine r.place
  else r.outline.finish

/-- How many of the given lines are looked at: all up to the first one that cannot be read. -/
def looksAt (options : Options) (dialect : Dialect) : Run → List PhysicalLine → Nat
  | _, [] => 0
  | r, line :: rest =>
    match r.step options dialect line with
    | .ok r => looksAt options dialect r rest + 1
    | .error _ => 1

end Run

/-- Reads physical lines into a diff. -/
def ofLines (options : Options) (dialect : Dialect) (source : Source) (lines : List PhysicalLine) :
    Outcome Diff := do
  (← lines.foldlM (Run.step options dialect) (Run.start source)).finish

/-- Reads a line diff. -/
def diff (text : String) (options : Options) (source : Source) (dialect : Dialect) : Outcome Diff :=
  ofLines options dialect source (PhysicalLine.ofDiff text)

/-- Reads a plain source text. -/
def tree (text : String) (options : Options) (source : Source) (dialect : Dialect) :
    Outcome Tree := do
  (← ofLines options dialect source (PhysicalLine.ofSource text)).asTree

/-- The numbers of the lines of a source text that look like edits, as far as it is looked at. -/
def suspiciousLines (text : String) (options : Options) (dialect : Dialect) : List Nat :=
  let lines := Text.lines text
  let seen := Run.looksAt options dialect (Run.start .unknown) (lines.map PhysicalLine.ofSourceLine)
  ((lines.take seen).zipIdx 1).filterMap fun (line, number) =>
    match line.toList with
    | '+' :: _ | '-' :: _ => some number
    | _ => none

end Variation.Reading
