import Variation.Diff.Walk
import Variation.Text.Blank

/-!
# Listings

A listing has one line for each node below the root, in the order in which a walk first meets it,
with two spaces for each level.
-/

namespace Variation.Printing

/-- A node with its depth in a listing. -/
structure Row where
  depth : Nat
  node : Handle
  deriving DecidableEq, Inhabited

/-- Lists a node and what is below it, unless it was met before. -/
def rowsBelow (d : Diff) : Nat → Nat → Marks × Array Row → Handle → Outcome (Marks × Array Row)
  | 0, _, _, n => .fail (.notRooted n)
  | levels + 1, depth, (marks, rows), n => do
    if marks.has n then
      return (marks, rows)
    else
      (← d.allChildren n).foldlM (rowsBelow d levels (depth + 1))
        (marks.mark n, rows.push ⟨depth, n⟩)

/-- The rows of a listing. -/
def rows (d : Diff) : Outcome (List Row) := do
  return (← rowsBelow d (d.size + 1) 0 (Marks.none d.size, #[]) Diff.root).2.toList

/-- What a listing says about a node: its condition, or the first line of its label. -/
def summary (x : Node) : String :=
  match x.formula with
  | some f => f.text
  | none => ((x.label.lines.head?).map Text.trimText).getD ""

/-- The line for a node at a depth. -/
def rowText (depth : Nat) (x : Node) : String :=
  String.ofList (List.replicate (2 * depth) ' ') ++ x.change.symbol.toString ++ x.kind.name ++
    " " ++ toString x.stableId ++ " " ++ summary x

/-- The listing of a diff. -/
def listing (d : Diff) : Outcome String := do
  return Text.unlines (← (← rows d).mapM fun r => do return rowText r.depth (← d.node r.node))

end Variation.Printing
