import Variation.Diff.Basic

/-!
# Printing the source at one time

The source at a time consists of the labels of the tree at that time, in preorder. A chain of
branches ends with the closing line that was recorded for the time, or with a plain one.
-/

namespace Variation.Printing

/-- The closing line that is written where none was recorded. -/
def plainClosing : String := "#endif"

/-- The lines that close what a node opened at a time. -/
def closingLines (x : Node) (t : Time) : List String :=
  if x.kind = .ifBranch then
    match x.closing.get t with
    | some closing => closing.label.lines
    | none => [plainClosing]
  else []

/-- The lines with which a node begins; the root has none. -/
def ownLines (x : Node) : List String := if x.kind = .root then [] else x.label.lines

/-- The lines of a subtree at a time, at most a number of levels deep. -/
def linesBelow (d : Diff) (t : Time) : Nat → Handle → Outcome (List String)
  | 0, n => .fail (.notRooted n)
  | levels + 1, n => do
    let x ← d.node n
    let inner ← (x.children.get t).mapM (linesBelow d t levels)
    return ownLines x ++ inner.flatten ++ closingLines x t

/-- The lines of the source at a time. -/
def sourceLines (d : Diff) (t : Time) : Outcome (List String) :=
  linesBelow d t (d.size + 1) Diff.root

/-- The source at a time. -/
def source (d : Diff) (t : Time) : Outcome String := do
  return Text.unlines (← sourceLines d t)

end Variation.Printing
