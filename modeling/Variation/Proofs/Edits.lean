import Variation.Proofs.Edges

/-!
# What edits keep

An edit `Keeps` a property of diffs if the property still holds after it, also when the edit fails
half way. Every edit keeps a diff regular, whatever its arguments are. For edits that link and
unlink edges, the lemmas whose names begin with `run` say what they do when nothing stands in their
way.
-/

namespace Variation.Edit

variable {α β : Type} {d : Diff}

/-- A property still holds after an edit, also when the edit fails half way. -/
def Keeps (P : Diff → Prop) (e : Edit α) : Prop := ∀ d, P d → P (e.perform d).2

section Keeps

variable {P : Diff → Prop}

theorem perform_of_run {e : Edit α} {a : α} {d' : Diff} (h : e.run d = .ok a d') :
    e.perform d = (.ok a, d') := by
  simp only [perform, h]

theorem perform_congr {e e' : Edit α} {d' : Diff} (h : e.run d = e'.run d') :
    e.perform d = e'.perform d' := by
  simp only [perform, h]

theorem Keeps.ok {e : Edit α} (h : Keeps P e) {d d' : Diff} {a : α} (hd : P d)
    (he : e.run d = .ok a d') : P d' := by
  have := h d hd
  rwa [perform_of_run he] at this

theorem Keeps.pure (a : α) : Keeps P (Pure.pure a : Edit α) := fun _ hd => hd

theorem Keeps.fail (cause : Fault) : Keeps P (Edit.fail cause : Edit α) := fun _ hd => hd

theorem Keeps.get : Keeps P (MonadState.get : Edit Diff) := fun _ hd => hd

theorem Keeps.ask (q : Diff → Outcome α) : Keeps P (Edit.ask q) := by
  intro d hd
  unfold perform
  simp only [EStateM.run, Edit.ask]
  cases q d <;> exact hd

/-- What comes behind a successful edit may rely on what that edit achieved. -/
theorem perform_bind {e : Edit α} {f : α → Edit β} (he : P (e.perform d).2)
    (hf : ∀ a d', e.run d = .ok a d' → P ((f a).perform d').2) : P ((e >>= f).perform d).2 := by
  unfold perform at he ⊢
  rw [EStateM.run_bind]
  cases h : e.run d with
  | ok a d' => exact hf a d' h
  | error err d' => rwa [h] at he

/-- What a sequence of edits gives is given by its last part. -/
theorem run_bind_eq_ok {e : Edit α} {f : α → Edit β} {b : β} {d'' : Diff}
    (h : (e >>= f).run d = .ok b d'') :
    ∃ a d', e.run d = .ok a d' ∧ (f a).run d' = .ok b d'' := by
  rw [EStateM.run_bind] at h
  cases run : e.run d with
  | ok a d' =>
    rw [run] at h
    exact ⟨a, d', rfl, h⟩
  | error cause d' =>
    rw [run] at h
    cases h

theorem Keeps.bind_of {e : Edit α} {f : α → Edit β} (he : Keeps P e)
    (hf : ∀ d a d', P d → e.run d = .ok a d' → P ((f a).perform d').2) : Keeps P (e >>= f) :=
  fun d hd => perform_bind (he d hd) fun a d' => hf d a d' hd

theorem Keeps.bind {e : Edit α} {f : α → Edit β} (he : Keeps P e) (hf : ∀ a, Keeps P (f a)) :
    Keeps P (e >>= f) :=
  he.bind_of fun _ a d' hd h => hf a d' (he.ok hd h)

theorem Keeps.modify {f : Diff → Diff} (h : ∀ d, P d → P (f d)) :
    Keeps P (modify f : Edit PUnit) := h

theorem Keeps.forM {f : α → Edit PUnit} (h : ∀ a, Keeps P (f a)) (as : List α) :
    Keeps P (as.forM f) := by
  induction as with
  | nil => exact .pure ()
  | cons a as ih => exact (h a).bind fun _ => ih

theorem Keeps.foldlM {f : β → α → Edit β} (h : ∀ b a, Keeps P (f b a)) (b : β) (as : List α) :
    Keeps P (as.foldlM f b) := by
  induction as generalizing b with
  | nil => exact .pure b
  | cons a as ih => exact (h b a).bind fun b => ih b

theorem Keeps.ite {c : Prop} [Decidable c] {e f : Edit α} (he : Keeps P e) (hf : Keeps P f) :
    Keeps P (if c then e else f) := by
  split
  · exact he
  · exact hf

end Keeps

/-! ## Linking -/

section Link

open Diff

variable {p c n : Handle} {i : Nat} {t : Time}

theorem run_ask_ok {q : Diff → Outcome α} {a : α} (h : q d = .ok a) :
    (ask q).run d = .ok a d := by
  simp [EStateM.run, ask, h]

theorem run_ask_error {q : Diff → Outcome α} {e : Failure} (h : q d = .error e) :
    (ask q).run d = .error e d := by
  simp [EStateM.run, ask, h]

theorem run_ask_node {x : Node} (h : d.nodes[n]? = some x) : (ask (·.node n)).run d = .ok x d :=
  run_ask_ok (node_of_getElem? h)

theorem run_ask_children (h : n < d.size) : (ask (·.children n t)).run d = .ok (d.below t n) d :=
  run_ask_ok (children_eq h t)

theorem run_ask_parent (h : n < d.size) : (ask (·.parent n t)).run d = .ok (d.above t n) d :=
  run_ask_ok (parent_eq h t)

theorem attachable_eq_ok_iff :
    attachable p c i t d = .ok () ↔
      p < d.size ∧ d.lives t c = true ∧ d.above t c = none ∧ i ≤ (d.below t p).length := by
  by_cases hp : p < d.size
  · cases hc : d.nodes[c]? with
    | none =>
      have he : d.node c = .error (.fault (.unknownNode c)) :=
        node_eq_error_iff.2 ⟨Array.getElem?_eq_none_iff.1 hc, rfl⟩
      simp [attachable, children_eq hp, he, bind, Except.bind, Diff.lives, hc]
    | some x =>
      simp only [attachable, children_eq hp, node_of_getElem? hc, bind, Except.bind,
        lives_of_node hc, above_of_node hc, hp, true_and]
      cases hl : x.existsAt t with
      | false => simp [Outcome.fail]
      | true =>
        cases ha : x.parent.get t with
        | some q => simp [Outcome.fail]
        | none =>
          by_cases hi : (d.below t p).length < i
          · simp [hi, Outcome.fail]
          · simp [hi, Nat.le_of_not_lt hi]; rfl
  · have he : d.node p = .error (.fault (.unknownNode p)) :=
      node_eq_error_iff.2 ⟨Nat.le_of_not_lt hp, rfl⟩
    simp [attachable, Diff.children, he, bind, Except.bind, hp]

theorem run_attach (h : attachable p c i t d = .ok ()) :
    (attach p c i t).run d = .ok () (d.link p c i t) := by
  simp only [attach, EStateM.run_bind, run_ask_ok h, EStateM.run_modify]
  rfl

theorem run_attach_error {e : Failure} (h : attachable p c i t d = .error e) :
    (attach p c i t).run d = .error e d := by
  simp only [attach, EStateM.run_bind, run_ask_error h]

theorem run_attachLast (hp : p < d.size) :
    (attachLast p c t).run d = (attach p c (d.below t p).length t).run d := by
  simp only [attachLast, EStateM.run_bind, run_ask_children hp]

theorem run_attachLast_ok (hp : p < d.size) (hc : d.lives t c = true) (free : d.above t c = none) :
    (attachLast p c t).run d = .ok () (d.linkLast p c t) := by
  rw [run_attachLast hp, run_attach (attachable_eq_ok_iff.2 ⟨hp, hc, free, Nat.le_refl _⟩)]
  rfl

theorem run_attachTimes {tops : Time → Handle} {ts : List Time} (once : ts.Nodup) (hn : n < d.size)
    (tops_lt : ∀ t, tops t < d.size) (lives : ∀ t ∈ ts, d.lives t n = true)
    (free : ∀ t ∈ ts, d.above t n = none) :
    (ts.forM fun t => attachLast (tops t) n t).run d = .ok () (d.linkAll tops n ts) := by
  induction ts generalizing d with
  | nil => rfl
  | cons t ts ih =>
    obtain ⟨new, once⟩ := List.nodup_cons.1 once
    obtain ⟨here, lives⟩ := List.forall_mem_cons.1 lives
    obtain ⟨freeHere, free⟩ := List.forall_mem_cons.1 free
    change EStateM.run (attachLast (tops t) n t >>= fun _ => ts.forM _) d = _
    rw [EStateM.run_bind]
    simp only [run_attachLast_ok (tops_lt t) here freeHere]
    refine ih once ?_ ?_ ?_ ?_
    · rw [linkLast, size_link]
      exact hn
    · intro u
      rw [linkLast, size_link]
      exact tops_lt u
    · intro u hu
      rw [linkLast, lives_link]
      exact lives u hu
    · intro u hu
      have other : ¬ (u = t ∧ n = n) := fun h => new (h.1 ▸ hu)
      rw [above_linkLast hn, if_neg other]
      exact free u hu

/-- A node without parents can be attached below nodes of the times at which it is there. -/
theorem run_attachBelow {ps : Sides (Option Handle)} {tops : Time → Handle}
    (hps : ∀ t, ps.get t = some (tops t)) (hn : n < d.size) (tops_lt : ∀ t, tops t < d.size)
    (free : ∀ t, d.above t n = none) :
    (attachBelow n ps).run d = .ok true (d.linkAll tops n (d.look n).change.times) := by
  have once : (d.look n).change.times.Nodup := by cases (d.look n).change <;> decide
  have run := run_attachTimes once hn tops_lt
    (fun t ht => by rw [lives_look hn]; exact Change.mem_times.1 ht) fun t _ => free t
  have some : ((d.look n).change.times.any fun t => (ps.get t).isSome) = true := by
    simp only [hps, Option.isSome_some]
    cases (d.look n).change <;> rfl
  simp only [attachBelow, EStateM.run_bind, run_ask_node (getElem?_look hn), some]
  simp only [hps, run]
  rfl

theorem run_detach (hp : p < d.size) (hc : d.above t c = some p) :
    (detach p c t).run d = .ok () (d.unlink p c t) := by
  obtain ⟨x, hx⟩ := exists_node hp
  obtain ⟨y, hy⟩ := exists_node (lt_size_of_above hc)
  rw [above_of_node hy] at hc
  have hq : (ask (·.isChild p c t)).run d = .ok true d :=
    run_ask_ok (by simp [isChild, node_of_getElem? hy, bind, Except.bind, pure, Except.pure, hc])
  simp only [detach, EStateM.run_bind, run_ask_node hx, hq]
  rfl

theorem run_update {x : Node} (h : d.nodes[n]? = some x) (f : Node → Node) :
    (Edit.update n f).run d = .ok () (d.update n f) := by
  simp only [Edit.update, EStateM.run_bind, run_ask_node h, EStateM.run_modify]

/-- A node that is not in the store is not updated. -/
theorem perform_update {P : Diff → Prop} {f : Node → Node} (hd : P d)
    (h : ∀ x, d.nodes[n]? = some x → P (d.update n f)) : P ((Edit.update n f).perform d).2 := by
  unfold perform
  cases hx : d.nodes[n]? with
  | none =>
    have he : (ask (·.node n)).run d = .error (.fault (.unknownNode n)) d :=
      run_ask_error (node_eq_error_iff.2 ⟨Array.getElem?_eq_none_iff.1 hx, rfl⟩)
    simp only [Edit.update, EStateM.run_bind, he]
    exact hd
  | some x =>
    rw [run_update hx]
    exact h x hx

theorem run_orphan {cs : List Handle} (h : ∀ c ∈ cs, c < d.size) :
    (cs.forM fun c => Edit.update c fun x => { x with parent := x.parent.set t none }).run d =
      .ok () (d.orphan cs t) := by
  induction cs generalizing d with
  | nil => rfl
  | cons c cs ih =>
    obtain ⟨x, hx⟩ := exists_node (h c List.mem_cons_self)
    have rest : ∀ m ∈ cs, m < (d.reparent c t none).size := fun m hm => by
      rw [size_reparent]
      exact h m (List.mem_cons_of_mem _ hm)
    change EStateM.run (Edit.update c _ >>= fun _ => cs.forM _) d = _
    rw [EStateM.run_bind, run_update hx]
    exact ih rest

theorem run_detachChildren (h : d.Symmetric) (hn : n < d.size) :
    (detachChildren n t).run d = .ok (d.below t n) (d.unlinkAll n t) := by
  have inStore : ∀ c ∈ d.below t n, c < (d.relist n t fun _ => []).size := fun c hc => by
    rw [size_relist]
    exact h.child_lt hc
  have orphaned := run_orphan (t := t) inStore
  simp only [relist] at orphaned
  simp only [detachChildren, EStateM.run_bind, run_ask_children hn, EStateM.run_modify, orphaned]
  rfl

theorem run_dropAt (h : d.Symmetric) (hn : n < d.size) :
    (dropAt n t).run d =
      .ok () (match d.above t n with | some p => d.unlink p n t | none => d) := by
  simp only [dropAt, EStateM.run_bind, run_ask_parent hn]
  cases hp : d.above t n with
  | none => rfl
  | some p => exact run_detach (h.parent_lt hp) hp

end Link

/-! ## Every edit keeps a diff regular -/

section Regular

open Diff

variable {p c n : Handle} {i : Nat} {t : Time}

theorem keeps_attach : Keeps Regular (attach p c i t) := by
  intro d hd
  unfold perform
  cases h : attachable p c i t d with
  | error e => rw [run_attach_error h]; exact hd
  | ok _ =>
    rw [run_attach h]
    obtain ⟨hp, hc, free, hi⟩ := attachable_eq_ok_iff.1 h
    exact hd.link hp hc free hi

theorem keeps_attachLast : Keeps Regular (attachLast p c t) :=
  (Keeps.ask _).bind fun _ => keeps_attach

theorem keeps_attachAll {cs : List Handle} : Keeps Regular (attachAll p cs t) :=
  .forM (fun _ => keeps_attachLast) cs

theorem keeps_detach : Keeps Regular (detach p c t) := by
  intro d hd
  by_cases hp : p < d.size
  · by_cases hc : d.above t c = some p
    · unfold perform
      rw [run_detach hp hc]
      exact hd.unlink hc
    · have stays : ((detach p c t).perform d).2 = d := by
        obtain ⟨x, hx⟩ := exists_node hp
        unfold perform
        cases hy : d.nodes[c]? with
        | none =>
          have he : (ask (·.isChild p c t)).run d = .error (.fault (.unknownNode c)) d :=
            run_ask_error (by
              simp [isChild, node_eq_error_iff.2 ⟨Array.getElem?_eq_none_iff.1 hy, rfl⟩, bind,
                Except.bind])
          simp only [detach, EStateM.run_bind, run_ask_node hx, he]
        | some y =>
          rw [above_of_node hy] at hc
          have hq : (ask (·.isChild p c t)).run d = .ok false d :=
            run_ask_ok (by
              simp [isChild, node_of_getElem? hy, bind, Except.bind, pure, Except.pure, hc])
          simp only [detach, EStateM.run_bind, run_ask_node hx, hq]
          rfl
      rw [stays]
      exact hd
  · have he : (ask (·.node p)).run d = .error (.fault (.unknownNode p)) d :=
      run_ask_error (node_eq_error_iff.2 ⟨Nat.le_of_not_lt hp, rfl⟩)
    unfold perform
    simp only [detach, EStateM.run_bind, he]
    exact hd

theorem keeps_detachChildren : Keeps Regular (detachChildren n t) := by
  intro d hd
  unfold perform
  by_cases hn : n < d.size
  · rw [run_detachChildren hd.toSymmetric hn]
    exact hd.unlinkAll n t
  · have he : (ask (·.children n t)).run d = .error (.fault (.unknownNode n)) d :=
      run_ask_error (by
        simp [Diff.children, node_eq_error_iff.2 ⟨Nat.le_of_not_lt hn, rfl⟩, bind, Except.bind])
    simp only [detachChildren, EStateM.run_bind, he]
    exact hd

theorem keeps_dropAt : Keeps Regular (dropAt n t) := by
  refine (Keeps.ask _).bind fun p => ?_
  cases p with
  | none => exact .pure ()
  | some p => exact keeps_detach

theorem keeps_drop : Keeps Regular (drop n) := .forM (fun _ => keeps_dropAt) _

theorem keeps_attachBelow {ps : Sides (Option Handle)} : Keeps Regular (attachBelow n ps) := by
  refine (Keeps.ask _).bind fun x => .bind (.forM (fun t => ?_) _) fun _ => .pure _
  cases ps.get t with
  | none => exact .pure ()
  | some p => exact keeps_attachLast

theorem keeps_stealChildren {taker giver : Handle} : Keeps Regular (stealChildren taker giver) :=
  (Keeps.ask _).bind fun _ =>
    .forM (fun _ => keeps_detachChildren.bind fun _ => keeps_attachAll) _

theorem keeps_attachFrom {cs : List Handle} : Keeps Regular (attachFrom p t i cs) := by
  induction cs generalizing i with
  | nil => exact .pure ()
  | cons c cs ih => exact keeps_attach.bind fun _ => ih

theorem keeps_liftAt : Keeps Regular (liftAt n t) := by
  refine (Keeps.ask _).bind fun p => ?_
  cases p with
  | none => exact .pure ()
  | some p =>
    refine (Keeps.ask _).bind fun i => ?_
    cases i with
    | none => exact .fail _
    | some i => exact keeps_detach.bind fun _ => keeps_detachChildren.bind fun _ => keeps_attachFrom

theorem keeps_lift : Keeps Regular (lift n) :=
  .ite (.fail _) ((Keeps.ask _).bind fun _ => .ite (.fail _) (.forM (fun _ => keeps_liftAt) _))

/-- A new node has no edges. -/
theorem keeps_append {x : Node} (hc : ∀ t, x.children.get t = [])
    (hp : ∀ t, x.parent.get t = none) : Keeps Regular (Edit.append x) :=
  Keeps.get.bind fun _ => (Keeps.modify fun _ hd => hd.append hc hp).bind fun _ => .pure _

end Regular

end Variation.Edit

namespace Variation.Diff

theorem Regular.linkAll {d : Diff} {tops : Time → Handle} {c : Handle} {ts : List Time}
    (h : d.Regular) (once : ts.Nodup) (hc : c < d.size) (inStore : ∀ t, tops t < d.size)
    (there : ∀ t ∈ ts, d.lives t c = true) (free : ∀ t ∈ ts, d.above t c = none) :
    (d.linkAll tops c ts).Regular :=
  (Edit.Keeps.forM (fun _ => Edit.keeps_attachLast) ts).ok h
    (Edit.run_attachTimes once hc inStore there free)

end Variation.Diff
