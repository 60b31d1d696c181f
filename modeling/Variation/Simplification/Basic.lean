import Variation.Diff.Consistency
import Variation.Diff.Edit

/-!
# Simplification steps

A step simplifies a whole diff and may build on other steps, which then have to come before it.
`apply` runs steps in order and gives a diff only if all of them succeed and the result is
consistent.
-/

namespace Variation

/-- A step that simplifies a diff. -/
structure Simplification where
  name : String
  /-- The names of the steps that must come before. -/
  needs : List String := []
  run : Edit Unit

namespace Simplification

/-- Tests that every step comes after those it needs, given the names of the earlier steps. -/
def checkOrderAfter : List String → List Simplification → Outcome Unit
  | _, [] => return ()
  | earlier, step :: rest =>
    match step.needs.find? fun name => !earlier.contains name with
    | some name => .fail (.unmetDependency step.name name)
    | none => checkOrderAfter (step.name :: earlier) rest

/-- Tests that every step comes after those it needs. -/
def checkOrder (steps : List Simplification) : Outcome Unit := checkOrderAfter [] steps

/-- Runs steps in order, without any test. -/
def runAll (steps : List Simplification) : Edit Unit := steps.forM (·.run)

/-- The diff that steps make of a diff. -/
def apply (steps : List Simplification) (d : Diff) : Outcome Diff := do
  checkOrder steps
  let (_, d) ← (runAll steps).result d
  d.checkConsistency
  return d

/-- The place of a node below its parent at a time, if it has one. -/
def slot? (n : Handle) (t : Time) : Edit (Option (Handle × Nat)) := do
  match ← Edit.ask (·.parent n t) with
  | none => return none
  | some parent =>
    match ← Edit.ask (·.indexOfChild? parent n t) with
    | none => Edit.fail (.asymmetricEdge parent n t)
    | some index => return some (parent, index)

/-- Attaches a node at places, for the times at which it is there. -/
def place (n : Handle) (slots : Sides (Option (Handle × Nat))) : Edit Unit := do
  (← Edit.ask (·.node n)).change.times.forM fun t =>
    match slots.get t with
    | some (parent, index) => Edit.attach parent n index t
    | none => return ()

end Simplification

end Variation
