import Variation.Proofs.History
import Variation.Proofs.Numbering
import Variation.Proofs.Removing
import Variation.Simplification.Collapse
import Variation.Simplification.Moved

/-!
# What the large operations keep

Cutting, collapsing, merging, refining, building and projecting are sequences of a few kinds of steps:
an edge is linked or unlinked, a node gets other lines, a node changes its times, or a node is added.
A property of diffs is `Durable` if every such step keeps it, also a step that fails. The lemmas below
carry a durable property through each large operation, wherever that stops.
-/

namespace Variation

/-- A function that changes nothing of a node but the lines where it starts, stops and is closed. -/
structure Node.Relines (f : Node → Node) : Prop where
  change : ∀ x, (f x).change = x.change
  kind : ∀ x, (f x).kind = x.kind
  formula : ∀ x, (f x).formula = x.formula
  label : ∀ x, (f x).label = x.label
  parent : ∀ x, (f x).parent = x.parent
  children : ∀ x, (f x).children = x.children

/-- Other lines of the diff are other lines. -/
theorem Node.Relines.of_undated {f : Node → Node}
    (edges : ∀ x : Node, (f x).children = x.children ∧ (f x).parent = x.parent)
    (same : ∀ x : Node, (f x).undated = x.undated) : Node.Relines f where
  change x := by
    have change := congrArg Node.change (same x)
    exact change
  kind x := by
    have kind := congrArg Node.kind (same x)
    exact kind
  formula x := by
    have formula := congrArg Node.formula (same x)
    exact formula
  label x := by
    have label := congrArg Node.label (same x)
    exact label
  parent x := (edges x).2
  children x := (edges x).1

namespace Edit

open Diff

/-- A property that the steps of all large operations keep, whatever their arguments are. -/
structure Durable (P : Diff → Prop) : Prop where
  attach {p c i t} : Keeps P (attach p c i t)
  detach {p c t} : Keeps P (detach p c t)
  detachChildren {n t} : Keeps P (detachChildren n t)
  reline {n f} : Node.Relines f → Keeps P (update n f)
  addArtifact {change start stop lines} : Keeps P (addArtifact change start stop lines)
  remove {n} : Keeps P (Construction.remove n)
  split {n} : Keeps P (Refinement.split n)
  join {removed added} : Keeps P (Refinement.join removed added)

variable {P : Diff → Prop} {n p c taker giver : Handle} {cs : List Handle} {t : Time}

theorem run_of_result {α : Type} {e : Edit α} {a : α} {d d' : Diff} (h : e.result d = .ok (a, d')) :
    e.run d = .ok a d' := by
  unfold result at h
  cases run : e.run d with
  | ok b d'' =>
    rw [run] at h
    cases h
    rfl
  | error cause d'' =>
    rw [run] at h
    cases h

theorem Keeps.ask_bind {α β : Type} {q : Diff → Outcome α} {f : α → Edit β}
    (h : ∀ d a, q d = .ok a → Keeps P (f a)) : Keeps P (Edit.ask q >>= f) := by
  refine (Keeps.ask q).bind_of fun d a d' hd run => ?_
  cases answer : q d with
  | ok b =>
    rw [run_ask_ok answer] at run
    cases run
    exact h d a answer d hd
  | error cause =>
    rw [run_ask_error answer] at run
    cases run

theorem Keeps.result {α : Type} {e : Edit α} {a : α} {d d' : Diff} (h : Keeps P e) (hd : P d)
    (he : e.result d = .ok (a, d')) : P d' :=
  h.ok hd (run_of_result he)

namespace Durable

theorem attachLast (h : Durable P) : Keeps P (attachLast p c t) :=
  (Keeps.ask _).bind fun _ => h.attach

theorem attachAll (h : Durable P) : Keeps P (attachAll p cs t) := .forM (fun _ => h.attachLast) cs

theorem dropAt (h : Durable P) : Keeps P (dropAt n t) := by
  refine (Keeps.ask _).bind fun p => ?_
  cases p with
  | none => exact .pure ()
  | some p => exact h.detach

theorem drop (h : Durable P) : Keeps P (drop n) := .forM (fun _ => h.dropAt) _

theorem stealChildren (h : Durable P) : Keeps P (stealChildren taker giver) :=
  (Keeps.ask _).bind fun _ => .forM (fun _ => h.detachChildren.bind fun _ => h.attachAll) _

end Durable

end Edit

/-! ## Simplifying -/

namespace Simplification

open Edit

variable {P : Diff → Prop} {n parent : Handle} {t : Time} {children : List Handle} {levels : Nat}
  {marks : Marks} {slots : Sides (Option (Handle × Nat))}

theorem keeps_slot : Keeps P (slot? n t) := by
  refine (Keeps.ask _).bind fun p => ?_
  cases p with
  | none => exact .pure _
  | some p =>
    refine (Keeps.ask _).bind fun i => ?_
    cases i with
    | none => exact .fail _
    | some i => exact .pure _

theorem keeps_place (h : Durable P) : Keeps P (place n slots) := by
  refine (Keeps.ask _).bind fun x => .forM (fun t => ?_) _
  cases slots.get t with
  | none => exact .pure ()
  | some slot => exact h.attach

theorem keeps_dropUneditedLeaves (h : Durable P) : Keeps P (dropUneditedLeaves parent children) :=
  .forM (fun _ => (Keeps.ask _).bind fun _ => .ite h.drop (.pure ())) children

theorem keeps_cutBelow (h : Durable P) : Keeps P (cutBelow levels marks n) := by
  induction levels generalizing marks n with
  | zero => exact .pure marks
  | succ levels ih =>
    refine .ite (.pure marks) ((Keeps.ask _).bind fun children => ?_)
    exact (Keeps.foldlM (fun _ _ => ih) _ children).bind fun marks => (Keeps.ask _).bind fun rest =>
      (keeps_dropUneditedLeaves h).bind fun _ => .pure marks

theorem keeps_cut (h : Durable P) : Keeps P cut.run :=
  Keeps.get.bind fun _ => (keeps_cutBelow h).bind fun _ => .pure ()

/-- Collapsing adds annotations besides, whose labels say their conditions. -/
theorem keeps_collapse (h : Durable P)
    (merged : ∀ {start stop f}, Keeps P
      (addNode .unchanged .ifBranch start stop (some f) (.single ("#if " ++ f.text)))) :
    Keeps P collapse.run := by
  refine (Keeps.ask _).bind fun chains => .forM (fun chain => ?_) chains
  unfold collapseChain
  split
  · refine (Keeps.ask _).bind fun conditions => (Keeps.ask _).bind fun x => merged.bind fun n => ?_
    refine Keeps.bind (h.reline ⟨fun _ => rfl, fun _ => rfl, fun _ => rfl, fun _ => rfl, fun _ => rfl,
      fun _ => rfl⟩) fun _ => ?_
    exact keeps_slot.bind fun before => keeps_slot.bind fun after => h.drop.bind fun _ =>
      h.stealChildren.bind fun _ => keeps_place h
  · exact .pure ()

theorem keeps_moved (h : Durable P) : Keeps P moved.run := by
  refine (Keeps.ask _).bind fun twins => .forM (fun ⟨removed, added⟩ => ?_) twins
  refine keeps_slot.bind fun before => keeps_slot.bind fun after => ?_
  refine (Keeps.ask _).bind fun x => (Keeps.ask _).bind fun y => h.addArtifact.bind fun merged => ?_
  exact h.drop.bind fun _ => h.drop.bind fun _ => h.stealChildren.bind fun _ =>
    h.stealChildren.bind fun _ => keeps_place h

end Simplification

/-! ## Refining -/

namespace Refinement

open Edit

variable {P : Diff → Prop} {n : Handle} {copies : Copies} {s : Nat}
  {dst : Matching.Snapshot} {m : Matching} {e : Matching.Entry}
  {entries : List (Matching.Entry × Nat)}

theorem keeps_splitIfUnchanged (h : Durable P) : Keeps P (splitIfUnchanged n copies) :=
  (Keeps.ask _).bind fun _ => .ite (h.split.bind fun _ => .pure _) (.pure _)

theorem keeps_settle (h : Durable P) : Keeps P (settle dst m copies e s) := by
  unfold settle
  extract_lets n counterpart checked
  have last (copies : Copies) : Keeps P (checked copies) := (Keeps.ask _).bind fun _ => .pure copies
  cases counterpart
  · exact (keeps_splitIfUnchanged h).bind fun copies => keeps_expect.bind fun _ => last copies
  · refine .ite (keeps_expect.bind fun _ => last copies) ?_
    refine (keeps_splitIfUnchanged h).bind fun copies =>
      (keeps_splitIfUnchanged h).bind fun copies => ?_
    exact h.join.bind fun _ => keeps_expect.bind fun _ => last copies

theorem keeps_settleAll (h : Durable P) : Keeps P (settleAll dst m copies entries) := by
  induction entries generalizing copies with
  | nil => exact .pure ()
  | cons entry entries ih => exact (keeps_settle h).bind fun copies => ih

/-- A diff that was refined has every durable property it had before. -/
theorem of_refine {d d' : Diff} {matcher : Matcher} (h : Durable P) (hd : P d)
    (run : refine d matcher = .ok d') : P d' := by
  obtain ⟨src, -, run⟩ := Outcome.bind_eq_ok_iff.1 run
  obtain ⟨dst, -, run⟩ := Outcome.bind_eq_ok_iff.1 run
  obtain ⟨pairs, -, run⟩ := Outcome.bind_eq_ok_iff.1 run
  obtain ⟨m, -, run⟩ := Outcome.bind_eq_ok_iff.1 run
  obtain ⟨⟨_, e⟩, result, run⟩ := Outcome.bind_eq_ok_iff.1 run
  obtain ⟨-, last⟩ := Outcome.seq_eq_ok_iff.1 run
  obtain rfl := Outcome.pure_eq_ok_iff.1 last
  exact (keeps_settleAll h).result hd result

end Refinement

/-! ## Building -/

namespace Construction

open Edit
open Matching (Snapshot)

variable {P : Diff → Prop} {after : Diff} {src dst : Snapshot} {m : Matching} {levels d : Nat}
  {n parent : Handle} {y : Node}

theorem keeps_removeUnkept (h : Durable P) : Keeps P (removeUnkept src dst m) := by
  rw [removeUnkept_eq]
  exact .forM (fun _ => h.remove) _

theorem keeps_reuse (h : Durable P) : Keeps P (reuse n y) :=
  h.dropAt.bind fun _ => h.reline ⟨fun _ => rfl, fun _ => rfl, fun _ => rfl, fun _ => rfl,
    fun _ => rfl, fun _ => rfl⟩

/-- A durable property with which every node of the second tree may be added. -/
structure Admits (P : Diff → Prop) (after : Diff) : Prop extends Durable P where
  copy {y n start stop} : after.node n = .ok y →
    Keeps P (addNode .added y.kind start stop y.formula y.label)

theorem keeps_addCopy (h : Admits P after) (hy : after.node n = .ok y) : Keeps P (addCopy y) :=
  (h.copy hy).bind fun _ => Keeps.bind (h.reline ⟨fun _ => rfl, fun _ => rfl, fun _ => rfl,
    fun _ => rfl, fun _ => rfl, fun _ => rfl⟩) fun _ => .pure _

theorem keeps_attachDestination (h : Admits P after) :
    Keeps P (attachDestination after src dst m levels parent d) := by
  induction levels generalizing parent d with
  | zero => exact .fail _
  | succ levels ih =>
    unfold attachDestination
    cases dst.get? d with
    | none => exact .fail _
    | some e =>
      refine Keeps.ask_bind fun _ y hy => ?_
      have below (n : Handle) : Keeps P (do
          Edit.attachLast parent n .after
          let _ ← Edit.detachChildren n .after
          e.children.forM (attachDestination after src dst m levels n)) :=
        h.attachLast.bind fun _ => h.detachChildren.bind fun _ => .forM (fun _ => ih) _
      cases keptBy? src dst m d with
      | some s => exact (keeps_reuse h.toDurable).bind fun _ => below s.origin
      | none => exact (keeps_addCopy h hy).bind below

theorem keeps_attachDestinations (h : Admits P after) :
    Keeps P (attachDestinations after src dst m) := by
  refine h.detachChildren.bind fun _ => ?_
  cases dst.get? 0 with
  | none => exact .pure ()
  | some e => exact .forM (fun _ => keeps_attachDestination h) _

theorem keeps_rebuild (h : Admits P after) : Keeps P (rebuild after src dst m) :=
  (keeps_removeUnkept h.toDurable).bind fun _ => (keeps_attachDestinations h).bind fun _ =>
    keeps_numbering fun edges same => h.reline (.of_undated edges same)

/-- A diff that was built has every durable property that the copy of its first tree had. -/
theorem of_diff {before after : Tree} {matcher : Matcher} {d : Diff} (h : Admits P after.diff)
    (start : ∀ p, before.diff.project .before = .ok p →
      P ⟨p.nodes, .compared before.diff.source after.diff.source⟩)
    (run : diff before after matcher = .ok d) : P d := by
  obtain ⟨_, unchanged, run⟩ := Outcome.bind_eq_ok_iff.1 run
  obtain ⟨p, project, last⟩ := Outcome.bind_eq_ok_iff.1 unchanged
  obtain rfl := Outcome.pure_eq_ok_iff.1 last
  obtain ⟨src, -, run⟩ := Outcome.bind_eq_ok_iff.1 run
  obtain ⟨dst, -, run⟩ := Outcome.bind_eq_ok_iff.1 run
  obtain ⟨m, -, run⟩ := Outcome.bind_eq_ok_iff.1 run
  obtain ⟨⟨_, e⟩, result, run⟩ := Outcome.bind_eq_ok_iff.1 run
  obtain ⟨-, last⟩ := Outcome.seq_eq_ok_iff.1 run
  obtain rfl := Outcome.pure_eq_ok_iff.1 last
  exact (keeps_rebuild h).result (start p project) result

end Construction

/-! ## Projecting -/

namespace Diff

open Edit

variable {P : Diff → Prop} {d e : Diff} {t : Time} {steps : Nat} {copy : Handle}
  {children : List Handle} {done waiting : List (Handle × Handle)}

/-- A durable property with which every node of a diff may be added as it is at a time. -/
structure Pictures (P : Diff → Prop) (d : Diff) (t : Time) : Prop extends Durable P where
  copy {n x} : d.node n = .ok x → Keeps P (Edit.append (x.collapse t))

theorem keeps_copyChildren (h : Pictures P d t) : Keeps P (copyChildren d t copy children done) := by
  induction children generalizing done with
  | nil => exact .pure done
  | cons child rest ih =>
    refine Keeps.ask_bind fun _ x hx => ?_
    exact (h.copy hx).bind fun k => (Keeps.forM (fun _ => h.attachLast) _).bind fun _ => ih

theorem keeps_projectFrom (h : Pictures P d t) : Keeps P (d.projectFrom t steps waiting) := by
  induction steps generalizing waiting with
  | zero =>
    cases waiting with
    | nil => exact .pure ()
    | cons pair rest => exact .fail _
  | succ steps ih =>
    cases waiting with
    | nil => exact .pure ()
    | cons pair rest =>
      exact (Keeps.ask _).bind fun children => (keeps_copyChildren h).bind fun _ => ih

/-- A projection has every durable property that the copy of the root had. -/
theorem of_project {p : Diff} (h : Pictures P d t)
    (start : ∀ x, d.node root = .ok x → P ⟨#[x.collapse t], .projected d.source t⟩)
    (run : d.project t = .ok p) : P p := by
  obtain ⟨x, hx, run⟩ := Outcome.bind_eq_ok_iff.1 run
  obtain ⟨⟨_, e⟩, result, last⟩ := Outcome.bind_eq_ok_iff.1 run
  obtain rfl := Outcome.pure_eq_ok_iff.1 last
  exact (keeps_projectFrom h).result (start x hx) result

end Diff

end Variation
