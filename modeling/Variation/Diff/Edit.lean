import Variation.Diff.Basic

/-!
# Edits

An edit is a program that changes a diff. When it fails, the diff keeps what was done until then, so
that every statement about edits also covers the ones that fail. Both directions of an edge are
written together: `attach` and `detach` are the only edits that touch a parent or a list of
children, and everything else is built from them and from `detachChildren`.
-/

namespace Variation

/-- A program that changes a diff and may fail half way. -/
abbrev Edit (α : Type) := EStateM Failure Diff α

namespace Edit

/-- Asks a question to the diff as it is now. -/
def ask {α : Type} (question : Diff → Outcome α) : Edit α := fun d =>
  match question d with
  | .ok x => .ok x d
  | .error e => .error e d

/-- Fails for a cause. -/
def fail {α : Type} (cause : Fault) : Edit α := throw (.fault cause)

/-- Changes a node that is in the store. -/
def update (n : Handle) (f : Node → Node) : Edit Unit := do
  let _ ← ask (·.node n)
  modify (·.update n f)

/-- Puts a node at the end of the store and gives its handle. -/
def append (x : Node) : Edit Handle := do
  let n := (← get).size
  modify (·.append x)
  return n

/-- Runs an edit; the diff is given back whether the edit succeeded or not. -/
def perform {α : Type} (e : Edit α) (d : Diff) : Outcome α × Diff :=
  match e.run d with
  | .ok x d => (.ok x, d)
  | .error err d => (.error err, d)

/-- The diff that an edit makes, if it succeeds. -/
def result {α : Type} (e : Edit α) (d : Diff) : Outcome (α × Diff) :=
  match e.run d with
  | .ok x d => .ok (x, d)
  | .error err _ => .error err

/-- Why a node cannot be attached below another one at a position. -/
def attachable (parent child : Handle) (index : Nat) (t : Time) (d : Diff) : Outcome Unit := do
  let length := (← d.children parent t).length
  let x ← d.node child
  if !x.existsAt t then
    .fail (.absentAt child x.change t)
  else
    match x.parent.get t with
    | some current => .fail (.alreadyAttached child current t)
    | none => if length < index then .fail (.indexPastEnd parent index length) else return ()

/-- Attaches a node below another one, at a position in its list of children. -/
def attach (parent child : Handle) (index : Nat) (t : Time) : Edit Unit := do
  ask (attachable parent child index t)
  modify (·.update parent fun x =>
    { x with children := x.children.set t ((x.children.get t).insertIdx index child) })
  modify (·.update child fun x => { x with parent := x.parent.set t (some parent) })

/-- Attaches a node as the last child of another one. -/
def attachLast (parent child : Handle) (t : Time) : Edit Unit := do
  let length := (← ask (·.children parent t)).length
  attach parent child length t

/-- Attaches several nodes in order behind the children that are there; the first one that cannot be
attached ends the edit. -/
def attachAll (parent : Handle) (children : List Handle) (t : Time) : Edit Unit :=
  children.forM fun child => attachLast parent child t

/-- Detaches a node from its parent. -/
def detach (parent child : Handle) (t : Time) : Edit Unit := do
  let _ ← ask (·.node parent)
  if !(← ask (·.isChild parent child t)) then
    fail (.notAChild child parent t)
  else
    modify (·.update parent fun x =>
      { x with children := x.children.set t ((x.children.get t).filter (· != child)) })
    modify (·.update child fun x => { x with parent := x.parent.set t none })

/-- Detaches all children of a node at a time and gives them in order. -/
def detachChildren (n : Handle) (t : Time) : Edit (List Handle) := do
  let children ← ask (·.children n t)
  modify (·.update n fun x => { x with children := x.children.set t [] })
  children.forM fun child => update child fun x => { x with parent := x.parent.set t none }
  return children

/-- Detaches a node from its parent at a time, if it has one. -/
def dropAt (n : Handle) (t : Time) : Edit Unit := do
  match ← ask (·.parent n t) with
  | some parent => detach parent n t
  | none => return ()

/-- Detaches a node from its parents at both times. -/
def drop (n : Handle) : Edit Unit := Time.all.forM (dropAt n)

/-- Attaches a node below the given parents at the times at which it is there, and tells whether any
edge was made. -/
def attachBelow (n : Handle) (parents : Sides (Option Handle)) : Edit Bool := do
  let change := (← ask (·.node n)).change
  change.times.forM fun t =>
    match parents.get t with
    | some parent => attachLast parent n t
    | none => return ()
  return change.times.any fun t => (parents.get t).isSome

/-- Moves all children of one node behind the children of another one, at both times. -/
def stealChildren (taker giver : Handle) : Edit Unit := do
  let _ ← ask (·.node taker)
  Time.all.forM fun t => do
    let children ← detachChildren giver t
    attachAll taker children t

/-- Attaches several nodes in order from a position on. -/
def attachFrom (parent : Handle) (t : Time) : Nat → List Handle → Edit Unit
  | _, [] => return ()
  | index, child :: rest => do
    attach parent child index t
    attachFrom parent t (index + 1) rest

/-- Puts the children of a node in its place below its parent at a time. -/
def liftAt (n : Handle) (t : Time) : Edit Unit := do
  match ← ask (·.parent n t) with
  | none => return ()
  | some parent =>
    match ← ask (·.indexOfChild? parent n t) with
    | none => fail (.asymmetricEdge parent n t)
    | some index =>
      detach parent n t
      let children ← detachChildren n t
      attachFrom parent t index children

/-- Removes a node other than the root and leaves its children in its place. -/
def lift (n : Handle) : Edit Unit := do
  if n = Diff.root then
    fail .rootRemoval
  else if (← ask (·.node n)).kind = .root then
    fail .rootRemoval
  else
    Time.all.forM (liftAt n)

/-- Adds a run of code without edges. -/
def addArtifact (change : Change) (start stop : Position) (lines : List String) : Edit Handle :=
  append { change, kind := .artifact, start, stop, formula := none, label := ⟨lines⟩ }

/-- Adds a node of any kind but the root, without edges. -/
def addNode (change : Change) (kind : Kind) (start stop : Position) (formula : Option Formula)
    (label : Label) : Edit Handle := do
  if kind = .root ∨ formula.isSome ≠ kind.isConditional then
    fail (.formulaLaw (← get).size kind)
  else
    append { change, kind, start, stop, formula, label }

/-- Adds a node of which only the packed identifier and the label are known. -/
def addFromStableId (id : Nat) (label : String) : Edit Handle := do
  match StableId.decode? id with
  | none => fail (.inner ("stable id " ++ toString id ++ " does not decode"))
  | some (line, change, kind) =>
    append {
      change, kind
      start := ⟨line, invalidLine, invalidLine⟩
      stop := .invalid
      formula := if kind.isConditional then some (.const true) else none
      label := Label.ofText label }

/-- Appends lines to the label of a node. -/
def addLines (n : Handle) (lines : List String) : Edit Unit :=
  update n fun x => { x with label := x.label.append lines }

/-- Adds a copy of a node without edges. -/
def copyNode (n : Handle) : Edit Handle := do
  append (← ask (·.node n)).detached

end Edit

end Variation
