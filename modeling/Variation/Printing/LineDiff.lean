import Variation.Diff.Walk
import Variation.Printing.Order
import Variation.Printing.Source

/-!
# Printing a line diff

Every line of a label is placed at the diff line of its node, and every recorded closing line at its
own; a node that lacks a closing line gets a plain one behind everything below it. The lines are
then put in order of their places. Lines with the same place keep the order in which the walk from
the root meets them, which lists a node, what is below it, and its closing line.
-/

namespace Variation.Printing

/-- A line of the diff with its place. -/
structure Entry where
  /-- The diff line. -/
  line : Int
  /-- Whether the line was not recorded; such lines come behind the recorded ones. -/
  added : Bool
  /-- The order among lines of the same diff line. -/
  order : Int
  change : Change
  text : String
  deriving DecidableEq, Inhabited

namespace Entry

/-- Whether the place of a line is not behind the place of another one. -/
def before (a b : Entry) : Bool :=
  if a.line ≠ b.line then a.line < b.line
  else if a.added ≠ b.added then b.added
  else a.order ≤ b.order

/-- The line as it is written. -/
def written (e : Entry) : String := e.change.symbol.toString ++ e.text

end Entry

/-- The entries of the lines of a label that begins at a diff line. -/
def labelEntries (line : Int) (change : Change) (l : Label) : List Entry :=
  l.lines.zipIdx.map fun (text, k) => ⟨line, false, k, change, text⟩

/-- The last diff line of the nodes for which it is known. -/
abbrev Ends := Array (Option Int)

/-- The last diff line that a node itself occupies. -/
def ownEnd (x : Node) : Outcome Int := do
  let past ← Outcome.inRange (lineNumber? (x.start.diff + max x.label.lines.length 1))
  return Time.all.foldl
    (fun last t =>
      match x.closing.get t with
      | some closing => max last closing.line.diff
      | none => last)
    (past - 1)

/-- The last diff line of a node and of all below it, at most a number of levels deep. -/
def endBelow (d : Diff) : Nat → Handle → Ends → Outcome (Int × Ends)
  | levels, n, ends =>
    match ends[n]? with
    | some (some last) => return (last, ends)
    | _ =>
      match levels with
      | 0 => .fail (.notRooted n)
      | levels + 1 => do
        let own ← ownEnd (← d.node n)
        let (last, ends) ← (← d.allChildren n).foldlM
          (fun (last, ends) c => do
            let (below, ends) ← endBelow d levels c ends
            return (max last below, ends))
          (own, ends)
        return (last, ends.setIfInBounds n (some last))

/-- What the walk has met so far. -/
structure Sheet where
  entries : Array Entry
  visited : Marks
  /-- The diff lines of the closing lines that are written. -/
  closed : List Int
  ends : Ends

namespace Sheet

/-- Nothing is met yet. -/
def blank (size : Nat) : Sheet := ⟨#[], Marks.none size, [], Array.replicate size none⟩

/-- Writes lines. -/
def write (s : Sheet) (es : List Entry) : Sheet := { s with entries := s.entries ++ es.toArray }

/-- Writes a recorded closing line unless one was written for the same diff line. -/
def writeClosing (s : Sheet) (c : ClosingLine) : Sheet :=
  if s.closed.contains c.line.diff then s
  else
    { s.write (labelEntries c.line.diff c.change c.label) with
      closed := c.line.diff :: s.closed }

/-- The changes of the plain closing lines for the times at which none was recorded. -/
def plainChanges (missing : List Time) : List Change :=
  match Change.ofTimes? missing with
  | some .unchanged => [.unchanged]
  | _ => missing.map Change.onlyAt

/-- Writes the lines that close what a node opened. -/
def close (d : Diff) (n : Handle) (x : Node) (depth : Nat) (s : Sheet) : Outcome Sheet := do
  let times := x.change.times
  let s := (times.filterMap x.closing.get).foldl writeClosing s
  let missing := times.filter fun t => (x.closing.get t).isNone
  if missing.isEmpty then
    return s
  else
    let (last, ends) ← endBelow d (d.size + 1) n s.ends
    return { s with ends }.write
      ((plainChanges missing).map fun change => ⟨last, true, -depth, change, plainClosing⟩)

/-- Writes a node, what is below it, and its closing line, unless it was met before. -/
def visit (d : Diff) : Nat → Nat → Sheet → Handle → Outcome Sheet
  | 0, _, _, n => .fail (.notRooted n)
  | levels + 1, depth, s, n => do
    if s.visited.has n then
      return s
    else
      let x ← d.node n
      let s := { s with visited := s.visited.mark n }
      let s := if x.kind = .root then s else s.write (labelEntries x.start.diff x.change x.label)
      let s ← (← d.allChildren n).foldlM (visit d levels (depth + 1)) s
      if x.kind = .ifBranch then s.close d n x depth else return s

end Sheet

/-- The lines of the diff in order. -/
def entries (d : Diff) : Outcome (List Entry) := do
  let s ← Sheet.visit d (d.size + 1) 0 (.blank d.size) Diff.root
  return inOrder Entry.before s.entries.toList

/-- The line diff. -/
def lineDiff (d : Diff) : Outcome String := do
  return Text.unlines ((← entries d).map Entry.written)

end Variation.Printing
