import Variation.Printing.LineDiff
import Variation.Text.Json

/-!
# Documents

A document is a diff as a JSON value: its origin, the digest of its line diff, and the nodes below
the root in preorder with all their edges.
-/

namespace Variation.Printing

open Text (Json)

/-- A place as an object. -/
def positionJson (p : Position) : Json :=
  .object [("in_diff", .number p.diff), ("before_edit", .number p.before),
    ("after_edit", .number p.after)]

/-- A handle as a number. -/
def handleJson (n : Handle) : Json := .number n

/-- A node with its handle as an object; the condition is left out where there is none. -/
def nodeJson (n : Handle) (x : Node) : Json :=
  .object (
    [("stable_id", .number x.stableId), ("index", handleJson n),
      ("diff_type", .string x.change.name), ("node_type", .string x.kind.name),
      ("from", positionJson x.start), ("to", positionJson x.stop)] ++
    (match x.formula with
      | some f => [("formula", .string f.text)]
      | none => []) ++
    [("label", .list (x.label.lines.map .string)),
      ("parent_before", .ofOption handleJson x.parent.before),
      ("parent_after", .ofOption handleJson x.parent.after),
      ("children_before", .list (x.children.before.map handleJson)),
      ("children_after", .list (x.children.after.map handleJson))])

/-- A diff as a value. -/
def documentJson (d : Diff) : Outcome Json := do
  let nodes ← d.reachable
  let text ← lineDiff d
  return .object [("source", .string d.source.text),
    ("content_digest", .string (Text.Digest.ofText text)),
    ("nodes", .list (nodes.map fun (n, x) => nodeJson n x))]

/-- The written form of a diff as a value. -/
def document (d : Diff) : Outcome String := do
  return (← documentJson d).text

end Variation.Printing
