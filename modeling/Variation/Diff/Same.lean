import Variation.Diff.Walk

/-!
# Diffs that say the same

Two diffs are the same if their graphs below the roots agree in all that a node holds, apart from
handles and closing lines. A node of the first diff that is met once more counts as agreeing, so
shared nodes are compared once.
-/

namespace Variation

/-- Whether two nodes agree in all but their edges and closing lines. -/
def Node.agrees (x y : Node) : Bool :=
  x.change == y.change && x.kind == y.kind && x.start == y.start && x.stop == y.stop &&
    x.formula == y.formula && x.label == y.label

namespace Diff

/-- Runs a comparison along pairs; the first disagreement or failure ends it. -/
def agreeAll (compare : Handle → Handle → Marks → Outcome (Option Marks)) :
    List (Handle × Handle) → Marks → Outcome (Option Marks)
  | [], marks => return some marks
  | (l, r) :: rest, marks => do
    match ← compare l r marks with
    | none => return none
    | some marks => agreeAll compare rest marks

/-- Compares the graphs below two nodes; the answer holds the nodes compared so far, or nothing if
there was a disagreement. Every level marks a node of the first diff. -/
def agreeBelow (a b : Diff) : Nat → Handle → Handle → Marks → Outcome (Option Marks)
  | 0, _, _, marks => return some marks
  | levels + 1, l, r, marks => do
    if marks.has l then
      return some marks
    else
      let x ← a.node l
      let y ← b.node r
      if !x.agrees y then
        return none
      else
        let ls ← a.allChildren l
        let rs ← b.allChildren r
        if ls.length ≠ rs.length then
          return none
        else
          agreeAll (agreeBelow a b levels) (ls.zip rs) (marks.mark l)

/-- Whether two diffs say the same. -/
def saysSame (a b : Diff) : Outcome Bool := do
  return (← agreeBelow a b (a.size + 1) root root (Marks.none a.size)).isSome

end Diff

end Variation
