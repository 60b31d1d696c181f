import Variation.Diff.Walk
import Variation.Simplification.Basic
import Variation.Text.Blank

/-!
# Merging moved code

Code that was removed in one place and added with the same text in another one was moved. Merging
turns each such pair into one unchanged node that has the place of the removed code before the edit
and the place of the added code after it.
-/

namespace Variation.Simplification

/-- The text of a node's label without blanks at its ends. -/
def labelText (x : Node) : String := Text.trimText x.label.text

/-- Whether a node is the opposite edit of the same text. -/
def isTwin (x y : Node) : Bool := y.change == x.change.inverse && labelText y == labelText x

/-- Pairs the last of the given nodes with the first of the others that is its twin, and so on with
what remains; each pair has the removed node first. -/
def twinsAmong : Nat → List (Handle × Node) → List (Handle × Handle)
  | 0, _ => []
  | steps + 1, nodes =>
    match nodes.getLast? with
    | none => []
    | some (n, x) =>
      let others := nodes.dropLast
      if x.change = .unchanged ∨ (labelText x).isEmpty then twinsAmong steps others
      else
        match others.findIdx? (isTwin x ·.2) with
        | none => twinsAmong steps others
        | some i =>
          let twin := (others.map (·.1)).getD i n
          (if x.change = .removed then (n, twin) else (twin, n)) ::
            twinsAmong steps (others.eraseIdx i)

/-- The pairs of removed and added code with the same text, the removed one first. -/
def twins (d : Diff) : Outcome (List (Handle × Handle)) := do
  let code := (← d.reachable).filter (·.2.kind == .artifact)
  return twinsAmong code.length code

/-- Merges removed code with added code. -/
def mergeMoved (removed added : Handle) : Edit Unit := do
  let slots : Sides _ := ⟨← slot? removed .before, ← slot? added .after⟩
  let x ← Edit.ask (·.node removed)
  let y ← Edit.ask (·.node added)
  let merged ← Edit.addArtifact .unchanged
    ⟨min x.start.diff y.start.diff, x.start.before, y.start.after⟩
    ⟨max x.stop.diff y.stop.diff, x.stop.before, y.stop.after⟩
    y.label.lines
  Edit.drop removed
  Edit.drop added
  Edit.stealChildren merged removed
  Edit.stealChildren merged added
  place merged slots

/-- Merges all code that was only moved. -/
def moved : Simplification where
  name := "NaiveMovedArtifactDetection"
  run := do (← Edit.ask twins).forM fun (removed, added) => mergeMoved removed added

end Variation.Simplification
