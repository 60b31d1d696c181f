import Variation.Proofs.Edits

/-!
# Diffs with a history

A `Call` names an operation on the graph of a diff together with all its arguments, and a diff is
`Built` if it comes from a bare one by any sequence of calls, those included that fail half way. The
main statement says that every such diff is regular.
-/

namespace Variation

namespace Edit

open Diff

variable {d : Diff} {n : Handle} {f : Node → Node}

/-- A node may change in all but its kind and its edges, as long as it stays there at the times at
which it has a parent. -/
theorem regular_update (hd : d.Regular) (hk : ∀ x : Node, (f x).kind = x.kind)
    (hc : ∀ x : Node, (f x).children = x.children) (hp : ∀ x : Node, (f x).parent = x.parent)
    (hl : ∀ t, (d.above t n).isSome = true → ∀ x : Node, (f x).existsAt t = true) :
    ((Edit.update n f).perform d).2.Regular :=
  perform_update hd fun _ _ => hd.update hk hc hp fun y t hy hs _ =>
    hl t (by rw [above_of_node hy]; exact hs) y

/-- The payload of a node has no part in its edges. -/
theorem keeps_update (hk : ∀ x : Node, (f x).kind = x.kind)
    (hc : ∀ x : Node, (f x).children = x.children) (hp : ∀ x : Node, (f x).parent = x.parent)
    (hl : ∀ x : Node, (f x).change = x.change) : Keeps Regular (Edit.update n f) := fun d hd =>
  perform_update hd fun _ _ => hd.update hk hc hp fun y t _ _ h => by rwa [Node.existsAt, hl]

theorem keeps_addNode {change : Change} {kind : Kind} {start stop : Position}
    {formula : Option Formula} {label : Label} :
    Keeps Regular (addNode change kind start stop formula label) := by
  unfold addNode
  split
  · exact Keeps.get.bind fun _ => .fail _
  · exact keeps_append (fun _ => Sides.get_both ..) fun _ => Sides.get_both ..

theorem keeps_addFromStableId {id : Nat} {label : String} :
    Keeps Regular (addFromStableId id label) := by
  unfold addFromStableId
  split
  · exact .fail _
  · exact keeps_append (fun _ => Sides.get_both ..) fun _ => Sides.get_both ..

theorem keeps_copyNode : Keeps Regular (copyNode n) :=
  (Keeps.ask _).bind fun x => keeps_append x.children_detached x.parent_detached

/-- A copy is a new node without parents. -/
theorem above_of_copyNode {c : Handle} {d' : Diff} (h : (copyNode n).run d = .ok c d') (t : Time) :
    d'.above t c = none := by
  cases hx : d.node n with
  | error e =>
    have he : (ask (·.node n)).run d = .error e d := run_ask_error hx
    simp [copyNode, EStateM.run_bind, he] at h
  | ok x =>
    have hq : (ask (·.node n)).run d = .ok x d := run_ask_ok hx
    simp only [copyNode, EStateM.run_bind, hq, Edit.append, EStateM.run_get, EStateM.run_modify,
      EStateM.run_pure, EStateM.Result.ok.injEq] at h
    obtain ⟨rfl, rfl⟩ := h
    rw [above_append x.parent_detached]
    exact above_eq_none (Nat.lt_irrefl _)

theorem above_of_dropAt {t : Time} {d' : Diff} (hd : d.Symmetric)
    (h : (dropAt n t).run d = .ok () d') : d'.above t n = none := by
  by_cases hn : n < d.size
  · rw [run_dropAt hd hn] at h
    cases hp : d.above t n with
    | none => simp only [hp, EStateM.Result.ok.injEq, true_and] at h; rw [← h, hp]
    | some p =>
      simp only [hp, EStateM.Result.ok.injEq, true_and] at h
      rw [← h, above_unlink, if_pos ⟨rfl, rfl⟩]
  · have he : (ask (·.parent n t)).run d = .error (.fault (.unknownNode n)) d :=
      run_ask_error (by
        simp [Diff.parent, node_eq_error_iff.2 ⟨Nat.le_of_not_lt hn, rfl⟩, bind, Except.bind])
    simp [dropAt, EStateM.run_bind, he] at h

end Edit

namespace Refinement

open Edit Diff

variable {P : Diff → Prop} {n removed added : Handle}

theorem keeps_expect {change : Change} : Keeps P (expect n change) :=
  (Keeps.ask _).bind fun _ => .ite (.fail _) (.pure _)

theorem keeps_slotAfter : Keeps P (slotAfter n) := by
  refine (Keeps.ask _).bind fun p => ?_
  cases p with
  | none => exact .fail _
  | some p =>
    refine (Keeps.ask _).bind fun i => ?_
    cases i with
    | none => exact .fail _
    | some i => exact .pure _

/-- A detached node may change at the times at which it has no parent. -/
theorem regular_update_of_free {d : Diff} {f : Node → Node} (hd : d.Regular)
    (hk : ∀ x : Node, (f x).kind = x.kind) (hc : ∀ x : Node, (f x).children = x.children)
    (hp : ∀ x : Node, (f x).parent = x.parent)
    (hl : ∀ t, d.above t n = none ∨ ∀ x : Node, (f x).existsAt t = true) :
    ((Edit.update n f).perform d).2.Regular :=
  regular_update hd hk hc hp fun t ht x => by
    rcases hl t with h | h
    · rw [h] at ht; cases ht
    · exact h x

theorem keeps_split : Keeps Regular (split n) := by
  refine keeps_expect.bind fun _ => keeps_slotAfter.bind fun ⟨p, i⟩ => ?_
  refine keeps_copyNode.bind_of fun d c d₁ hd hc => ?_
  -- the copy has no parent yet, so it may be added whatever the node was
  have first : ((Edit.update c fun x =>
      { x with change := .added, closing := x.closing.set .before none }).perform d₁).2.Regular :=
    regular_update_of_free (keeps_copyNode.ok hd hc) (fun _ => rfl) (fun _ => rfl) (fun _ => rfl)
      fun t => .inl (above_of_copyNode hc t)
  refine perform_bind first fun _ d₂ h₂ => ?_
  rw [perform_of_run h₂] at first
  refine (keeps_detachChildren.bind fun cs => keeps_attachAll.bind fun _ => ?_) d₂ first
  refine keeps_dropAt.bind_of fun d a d₃ hd h₃ => ?_
  -- the node has lost its parent after the edit, so it may be removed
  have second : ((Edit.update n fun x =>
      { x with change := .removed, closing := x.closing.set .after none }).perform d₃).2.Regular :=
    regular_update_of_free (keeps_dropAt.ok hd h₃) (fun _ => rfl) (fun _ => rfl) (fun _ => rfl)
      fun t => by
        cases t with
        | before => exact .inr fun _ => rfl
        | after => exact .inl (above_of_dropAt hd.toSymmetric h₃)
  refine perform_bind second fun _ d₄ h₄ => ?_
  rw [perform_of_run h₄] at second
  exact (keeps_attach.bind fun _ => (Keeps.ask _).bind fun _ => (Keeps.ask _).bind fun _ =>
    Keeps.pure c) d₄ second

theorem keeps_join : Keeps Regular (join removed added) := by
  refine keeps_expect.bind fun _ => keeps_expect.bind fun _ => keeps_slotAfter.bind fun ⟨p, i⟩ => ?_
  refine keeps_detachChildren.bind fun cs => keeps_dropAt.bind fun _ => ?_
  refine (Keeps.ask _).bind fun x => ?_
  refine Keeps.bind (keeps_update (fun _ => rfl) (fun _ => rfl) (fun _ => rfl) fun _ => rfl)
    fun _ => Keeps.bind (fun d hd => ?_) fun _ => keeps_attachAll.bind fun _ => keeps_attach
  -- an unchanged node may have any parents
  exact regular_update_of_free hd (fun _ => rfl) (fun _ => rfl) (fun _ => rfl)
    fun _ => .inr fun _ => rfl

end Refinement

/-- An operation on the graph of a diff with all its arguments. -/
inductive Call where
  | addNode (change : Change) (kind : Kind) (start stop : Position) (formula : Option Formula)
      (label : Label)
  | addArtifact (change : Change) (start stop : Position) (lines : List String)
  | addFromStableId (id : Nat) (label : String)
  | copyNode (n : Handle)
  | addLines (n : Handle) (lines : List String)
  | setRange (n : Handle) (start stop : Position)
  | setClosing (n : Handle) (t : Time) (closing : Option ClosingLine)
  | attach (parent child : Handle) (index : Nat) (t : Time)
  | attachLast (parent child : Handle) (t : Time)
  | attachAll (parent : Handle) (children : List Handle) (t : Time)
  | detach (parent child : Handle) (t : Time)
  | detachChildren (n : Handle) (t : Time)
  | dropAt (n : Handle) (t : Time)
  | drop (n : Handle)
  | attachBelow (n : Handle) (parents : Sides (Option Handle))
  | stealChildren (taker giver : Handle)
  | lift (n : Handle)
  | split (n : Handle)
  | join (removed added : Handle)

namespace Call

/-- What a call does; its answer is left out. -/
def run : Call → Edit Unit
  | addNode change kind start stop formula label =>
    discard (Edit.addNode change kind start stop formula label)
  | addArtifact change start stop lines => discard (Edit.addArtifact change start stop lines)
  | addFromStableId id label => discard (Edit.addFromStableId id label)
  | copyNode n => discard (Edit.copyNode n)
  | addLines n lines => Edit.addLines n lines
  | setRange n start stop => Edit.update n fun x => { x with start, stop }
  | setClosing n t closing => Edit.update n fun x => { x with closing := x.closing.set t closing }
  | attach parent child index t => Edit.attach parent child index t
  | attachLast parent child t => Edit.attachLast parent child t
  | attachAll parent children t => Edit.attachAll parent children t
  | detach parent child t => Edit.detach parent child t
  | detachChildren n t => discard (Edit.detachChildren n t)
  | dropAt n t => Edit.dropAt n t
  | drop n => Edit.drop n
  | attachBelow n parents => discard (Edit.attachBelow n parents)
  | stealChildren taker giver => Edit.stealChildren taker giver
  | lift n => Edit.lift n
  | split n => discard (Refinement.split n)
  | join removed added => Refinement.join removed added

/-- The diff after a call, whether the call succeeds or not. -/
def apply (c : Call) (d : Diff) : Diff := (c.run.perform d).2

theorem keeps_run (c : Call) : Edit.Keeps Diff.Regular c.run := by
  cases c with
  | addNode => exact Edit.keeps_addNode.bind fun _ => .pure ()
  | addArtifact =>
    exact (Edit.keeps_append (fun _ => Sides.get_both ..) fun _ => Sides.get_both ..).bind
      fun _ => .pure ()
  | addFromStableId => exact Edit.keeps_addFromStableId.bind fun _ => .pure ()
  | copyNode => exact Edit.keeps_copyNode.bind fun _ => .pure ()
  | addLines => exact Edit.keeps_update (fun _ => rfl) (fun _ => rfl) (fun _ => rfl) fun _ => rfl
  | setRange => exact Edit.keeps_update (fun _ => rfl) (fun _ => rfl) (fun _ => rfl) fun _ => rfl
  | setClosing =>
    exact Edit.keeps_update (fun _ => rfl) (fun _ => rfl) (fun _ => rfl) fun _ => rfl
  | attach => exact Edit.keeps_attach
  | attachLast => exact Edit.keeps_attachLast
  | attachAll => exact Edit.keeps_attachAll
  | detach => exact Edit.keeps_detach
  | detachChildren => exact Edit.keeps_detachChildren.bind fun _ => .pure ()
  | dropAt => exact Edit.keeps_dropAt
  | drop => exact Edit.keeps_drop
  | attachBelow => exact Edit.keeps_attachBelow.bind fun _ => .pure ()
  | stealChildren => exact Edit.keeps_stealChildren
  | lift => exact Edit.keeps_lift
  | split => exact Refinement.keeps_split.bind fun _ => .pure ()
  | join => exact Refinement.keeps_join

end Call

/-- A diff that comes from a bare one by any sequence of calls. -/
inductive Diff.Built : Diff → Prop where
  | empty (source : Source) : Built (.empty source)
  | call (c : Call) {d : Diff} (h : Built d) : Built (c.apply d)

/-- Whatever is done to a diff, its edges agree at both ends and its first node is the root. -/
theorem Diff.Built.regular {d : Diff} (h : d.Built) : d.Regular := by
  induction h with
  | empty source => exact .empty source
  | call c _ ih => exact c.keeps_run _ ih

end Variation
