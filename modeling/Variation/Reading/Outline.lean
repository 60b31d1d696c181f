import Variation.Dialect
import Variation.Diff.Consistency
import Variation.Diff.Edit
import Variation.Reading.LogicalLine

/-!
# The diff under construction

While a text is read, an `Outline` holds the diff made so far and, for each time, the annotations
that are still open, the innermost first and the root last. Complete logical lines are put into it
one by one: a closing annotation closes the innermost chain, anything else becomes a node below the
innermost open annotation of each time.
-/

namespace Variation.Reading

/-- How a text is read. -/
structure Options where
  /-- Code lines that follow each other become one node. -/
  collapse : Bool := false
  /-- Blank lines are left out. -/
  skipBlank : Bool := false
  deriving DecidableEq, Inhabited

/-- The diff made so far, the open annotations, and the code that was read last. -/
structure Outline where
  diff : Diff
  opened : Sides (List Handle)
  lastCode : Option Handle

namespace Outline

/-- The outline before anything was read. -/
def start (source : Source) : Outline := ⟨.empty source, .both [Diff.root], none⟩

/-- Fails because of the text. -/
def fail {α : Type} (cause : ParseFault) (p : Position) : Outcome α := .fail (.parse cause p)

/-- Closes the open annotations at a time up to the one that opened the chain. Each of them ends
where the next one starts, and the one that opened the chain remembers the closing line. -/
def closeChain (t : Time) (closing : ClosingLine) :
    Position → Diff → List Handle → Outcome (Diff × List Handle)
  | _, _, [] => fail .endifWithoutIf closing.line
  | next, d, top :: rest =>
    if top = Diff.root then
      fail .endifWithoutIf closing.line
    else do
      let x ← d.node top
      let opens := x.kind == .ifBranch
      let d := d.update top fun x =>
        { x with
          stop := (x.stop.setDiff (max next.diff x.stop.diff)).set (next.get t) t
          closing := if opens then x.closing.set t (some closing) else x.closing }
      if opens then return (d, rest) else closeChain t closing x.start d rest

/-- Closes the innermost chain at every time of a change. -/
def closeChains (closing : ClosingLine) (o : Outline) : Outcome Outline :=
  closing.change.times.foldlM
    (fun o t => do
      let (diff, rest) ← closeChain t closing closing.line o.diff (o.opened.get t)
      return { o with diff, opened := o.opened.set t rest })
    { o with lastCode := none }

/-- Tests that a chain is open at a time which another branch may continue. -/
def checkBranch (o : Outline) (p : Position) (t : Time) : Outcome Unit := do
  match o.opened.get t with
  | [] | [_] => fail .branchWithoutIf p
  | top :: _ :: _ =>
    if (← o.diff.node top).kind = .elseBranch then fail .branchAfterElse p

/-- Adds a node below the innermost open annotations and opens it if it is an annotation. -/
def push (change : Change) (kind : Kind) (start stop : Position) (formula : Option Formula)
    (label : Label) (o : Outline) : Outcome Outline := do
  let (n, diff) ← (Edit.addNode change kind start stop formula label).result o.diff
  let o := { o with diff }
  if kind.isContinuation then
    change.times.forM (o.checkBranch start)
  let (_, diff) ← (Edit.attachBelow n (o.opened.map List.head?)).result o.diff
  let opened :=
    if kind.annotates then
      change.times.foldl (fun opened t => opened.set t (n :: opened.get t)) o.opened
    else o.opened
  return { diff, opened, lastCode := if kind = .artifact then some n else none }

/-- The code that a further code line may join: it has the same change and ends where the line
starts. -/
def joinable? (o : Outline) (change : Change) (start : Position) : Outcome (Option Handle) := do
  match o.lastCode with
  | none => return none
  | some n =>
    let x ← o.diff.node n
    return if x.change = change ∧ x.stop.diff = start.diff then some n else none

/-- Puts a complete logical line into the outline; `last` is the place of its last physical line. -/
def put (options : Options) (dialect : Dialect) (line : LogicalLine) (change : Change)
    (last : Position) (o : Outline) : Outcome Outline := do
  let start := (line.start.getD last).restrict change
  let stop := (← Outcome.inRange (last.add? 1)).restrict change
  let reading {α : Type} : Except ParseFault α → Outcome α
    | .ok x => return x
    | .error cause => fail cause start
  let text := line.text
  let kind? ← reading (dialect.classify text)
  if kind? = some .endMark then
    o.closeChains ⟨change, start, ⟨line.lines⟩⟩
  else
    let into ← if options.collapse && kind?.isNone then o.joinable? change start else pure none
    match into with
    | some n =>
      return { o with
        diff := o.diff.update n fun x => { x with label := x.label.append line.lines, stop } }
    | none =>
      let kind := kind?.getD .artifact
      let formula ←
        if kind.isConditional then some <$> reading (dialect.condition text) else pure none
      o.push change kind start stop formula ⟨line.lines⟩

/-- The finished diff; no annotation may be open, and the diff must be consistent. -/
def finish (o : Outline) : Outcome Diff := do
  Time.all.forM fun t =>
    match o.opened.get t with
    | [] | [_] => return ()
    | top :: _ :: _ => do fail .unclosedChain (← o.diff.node top).start
  o.diff.checkConsistency
  return o.diff

end Outline

end Variation.Reading
