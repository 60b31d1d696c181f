import Variation.Diff.View
import Variation.Simplification.Cut

/-!
# Collapsing chains of annotations

After cutting, an edit may be left below several unchanged annotations of which each is the only
child of the one above. Such a chain is replaced by a single annotation whose condition says what
the whole chain said.
-/

namespace Variation.Simplification

/-- Whether a node has one parent at both times and is its only child. -/
def continuesChain (d : Diff) (n : Handle) : Outcome Bool := do
  let x ← d.node n
  match x.parent.before, x.parent.after with
  | some p, some q => if p = q then return (← d.allChildren p).length == 1 else return false
  | _, _ => return false

/-- Whether a chain ends at a node: a child is edited, or there is not exactly one child. -/
def endsChain (d : Diff) (n : Handle) : Outcome Bool := do
  if ← continuesChain d n then
    let children ← d.allChildren n
    let edited ← children.mapM fun c => do return (← d.node c).change != .unchanged
    return edited.any id || children.length != 1
  else return false

/-- Whether a chain begins at a node. -/
def beginsChain (d : Diff) (n : Handle) : Outcome Bool := do
  let belowRoot := (← d.node n).parent.before == some Diff.root
  if !(← continuesChain d n) || belowRoot then return !(← endsChain d n) else return false

/-- Chains found so far, each with its last node first: those that may go on, and those that are
complete, the latest first. -/
structure Chains where
  growing : List (List Handle) := []
  complete : List (List Handle) := []

/-- Appends a node to the chain at a place. -/
def Chains.extend (cs : Chains) (i : Nat) (n : Handle) (ends : Bool) : Chains :=
  let chain := n :: cs.growing.getD i []
  if ends then ⟨cs.growing.eraseIdx i, chain :: cs.complete⟩
  else { cs with growing := cs.growing.set i chain }

/-- Lets a node begin a chain or continue one. -/
def Chains.add (d : Diff) (cs : Chains) (n : Handle) : Outcome Chains := do
  let x ← d.node n
  if x.kind = .root ∨ x.change ≠ .unchanged ∨ ¬ x.kind.annotates then
    return cs
  else if ← beginsChain d n then
    return { cs with growing := cs.growing ++ [[n]] }
  else if ← continuesChain d n then
    match cs.growing.findIdx? (·.head? == x.parent.before) with
    | none => return cs
    | some i => return cs.extend i n (← endsChain d n)
  else
    return cs

/-- The complete chains of a diff in the order in which they end, each with its last node first. -/
def chains (d : Diff) : Outcome (List (List Handle)) := do
  return (← (← d.preorder).foldlM (Chains.add d) {}).complete.reverse

/-- The conditions along a chain, last node first. The condition of a branch speaks for the nodes
above it up to the one that opens its chain of branches; these are skipped. -/
def chainConditions (d : Diff) : Bool → List Handle → Outcome (List Formula)
  | _, [] => return []
  | true, n :: rest => do
    chainConditions d ((← d.node n).kind != .ifBranch) rest
  | false, n :: rest => do
    let x ← d.present n .after
    let f ← d.mapping n .after
    return f :: (← chainConditions d x.kind.isContinuation rest)

/-- Replaces a chain by a single annotation. -/
def collapseChain (chain : List Handle) : Edit Unit := do
  match chain.getLast?, chain.head? with
  | some first, some last =>
    let conditions ← Edit.ask (chainConditions · false chain)
    let condition := Formula.conj conditions.reverse
    let x ← Edit.ask (·.node first)
    let merged ← Edit.addNode .unchanged .ifBranch x.start x.stop (some condition)
      (.single ("#if " ++ condition.text))
    Edit.update merged fun y => { y with closing := x.closing }
    let slots : Sides _ := ⟨← slot? first .before, ← slot? first .after⟩
    Edit.drop first
    Edit.stealChildren merged last
    place merged slots
  | _, _ => return ()

/-- Collapses every chain of unedited annotations. -/
def collapse : Simplification where
  name := "CollapseNestedNonEditedAnnotations"
  needs := [cut.name]
  run := do (← Edit.ask chains).forM collapseChain

end Variation.Simplification
