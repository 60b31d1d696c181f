import Variation.Proofs.Standalone
import Variation.Proofs.Trimmed

/-!
# Removing a node and leaving its children in its place

At each time the children of the node take its place in the list of its parent, so the tree at that time
loses one place and keeps the order of all others. This never fails for a node that hangs below the root
of a sound diff. A child gets the parent of the node as its new parent, which exists at the same times;
the only rule that can break is the one for branches, since the parent of the node need not be a
condition. The node itself stays in the store without edges.
-/

namespace Variation

/-! ## Lists and forests with the children in place of a node -/

/-- A node that comes once is found behind what comes before it. -/
theorem idxOf?_append_cons {as bs : List Handle} {n : Handle} (new : n ∉ as) :
    (as ++ n :: bs).idxOf? n = some as.length := by
  induction as with
  | nil => rw [List.nil_append, List.idxOf?_cons, beq_self_eq_true, if_pos rfl, List.length_nil]
  | cons a as ih =>
    obtain ⟨other, new⟩ := not_or.1 (List.mem_cons.not.1 new)
    rw [List.cons_append, List.idxOf?_cons, if_neg fun e => other (beq_iff_eq.1 e).symm, ih new]
    rfl

theorem insertIdx_append (as bs : List Handle) (c : Handle) :
    (as ++ bs).insertIdx as.length c = as ++ c :: bs := by
  induction as with
  | nil => rfl
  | cons a as ih => rw [List.cons_append, List.length_cons, List.insertIdx_succ_cons, ih]; rfl

theorem filter_append_cons {as bs : List Handle} {n : Handle} (new : n ∉ as) (new' : n ∉ bs) :
    (as ++ n :: bs).filter (· != n) = as ++ bs := by
  have keeps (cs : List Handle) (h : n ∉ cs) : cs.filter (· != n) = cs :=
    List.filter_eq_self.2 fun m hm => bne_iff_ne.2 fun e => h (e ▸ hm)
  rw [List.filter_append, List.filter_cons_of_neg (by simp), keeps as new, keeps bs new']

namespace Forest

variable {α : Type} [DecidableEq α] {n : α} {f : Forest α}

/-- The forest in which what hangs below a node takes its place. -/
def lift (n : α) : Forest α → Forest α
  | nil => nil
  | cons a below rest =>
    if a = n then below.lift n ++ rest.lift n else cons a (below.lift n) (rest.lift n)

/-- A forest loses the node and keeps the order of all others. -/
theorem flatten_lift (n : α) (f : Forest α) : (f.lift n).flatten = f.flatten.filter (· != n) := by
  induction f with
  | nil => rfl
  | cons a below rest ihb ihr =>
    rw [lift, flatten]
    by_cases here : a = n
    · rw [if_pos here, flatten_append, ihb, ihr, List.filter_cons_of_neg (by simpa using here),
        List.filter_append]
    · rw [if_neg here, flatten, ihb, ihr, List.filter_cons_of_pos (by simpa using here),
        List.filter_append]

theorem lift_of_not_mem (h : n ∉ f.flatten) : f.lift n = f := by
  induction f with
  | nil => rfl
  | cons a below rest ihb ihr =>
    simp only [flatten, List.mem_cons, List.mem_append, not_or] at h
    rw [lift, if_neg (Ne.symm h.1), ihb h.2.1, ihr h.2.2]

end Forest

namespace Diff

/-! ## Linking several nodes -/

/-- Links several nodes in order from a position on. -/
def linkFrom (d : Diff) (p : Handle) (t : Time) (i : Nat) : List Handle → Diff
  | [] => d
  | c :: cs => (d.link p c i t).linkFrom p t (i + 1) cs

section LinkFrom

variable {d : Diff} {p m : Handle} {t u : Time} {i : Nat} {as bs cs : List Handle}

@[simp] theorem size_linkFrom : (d.linkFrom p t i cs).size = d.size := by
  induction cs generalizing d i with
  | nil => rfl
  | cons c cs ih => exact ih.trans size_link

@[simp] theorem payload_linkFrom : (d.linkFrom p t i cs).payload m = d.payload m := by
  induction cs generalizing d i with
  | nil => rfl
  | cons c cs ih => exact ih.trans payload_link

/-- A node that is linked between the children of another one. -/
theorem below_link_append {c : Handle} (hp : p < d.size) (split : d.below t p = as ++ bs) :
    (d.link p c as.length t).below t p = as ++ [c] ++ bs := by
  rw [below_link hp, if_pos ⟨rfl, rfl⟩, split, insertIdx_append, List.append_assoc]
  rfl

theorem below_linkFrom (hp : p < d.size) (split : d.below t p = as ++ bs) :
    (d.linkFrom p t as.length cs).below u m =
      if u = t ∧ m = p then as ++ cs ++ bs else d.below u m := by
  induction cs generalizing d as with
  | nil =>
    rw [linkFrom, List.append_nil]
    split
    · next h => rw [h.1, h.2, split]
    · rfl
  | cons c cs ih =>
    have inStore : p < (d.link p c as.length t).size := by rwa [size_link]
    have rest := ih inStore (below_link_append hp split)
    rw [List.length_append, List.length_singleton] at rest
    rw [linkFrom, rest, below_link hp]
    by_cases here : u = t ∧ m = p
    · simp [here]
    · simp [here]

theorem above_linkFrom (inStore : ∀ c ∈ cs, c < d.size) :
    (d.linkFrom p t i cs).above u m = if u = t ∧ m ∈ cs then some p else d.above u m := by
  induction cs generalizing d i with
  | nil => simp [linkFrom]
  | cons c cs ih =>
    obtain ⟨here, others⟩ := List.forall_mem_cons.1 inStore
    rw [linkFrom, ih (by simpa using others), above_link here]
    by_cases first : m = c
    · by_cases hu : u = t <;> simp [first, hu]
    · simp [first]

end LinkFrom

end Diff

namespace Edit

open Diff

variable {d : Diff} {n p : Handle} {t : Time} {as bs cs : List Handle}

theorem run_attachFrom (hp : p < d.size) (split : d.below t p = as ++ bs)
    (there : ∀ c ∈ cs, d.lives t c = true) (free : ∀ c ∈ cs, d.above t c = none) (once : cs.Nodup) :
    (attachFrom p t as.length cs).run d = .ok () (d.linkFrom p t as.length cs) := by
  induction cs generalizing d as with
  | nil => rfl
  | cons c cs ih =>
    obtain ⟨new, once⟩ := List.nodup_cons.1 once
    obtain ⟨thereHere, there⟩ := List.forall_mem_cons.1 there
    obtain ⟨freeHere, free⟩ := List.forall_mem_cons.1 free
    have fits : as.length ≤ (d.below t p).length := by
      rw [split, List.length_append]
      exact Nat.le_add_right _ _
    have first : (attach p c as.length t).run d = .ok () (d.link p c as.length t) :=
      run_attach (attachable_eq_ok_iff.2 ⟨hp, thereHere, freeHere, fits⟩)
    have free (m) (hm : m ∈ cs) : (d.link p c as.length t).above t m = none := by
      have other : ¬ (t = t ∧ m = c) := fun e => new (e.2 ▸ hm)
      rw [above_link (lt_size_of_lives thereHere), if_neg other]
      exact free m hm
    have rest := ih (by rwa [size_link]) (below_link_append hp split)
      (fun m hm => by rw [lives_link]; exact there m hm) free once
    rw [List.length_append, List.length_singleton] at rest
    rw [attachFrom, EStateM.run_bind, first]
    exact rest

end Edit

namespace Diff

/-! ## The edges afterwards -/

/-- What stands for a child after a node has left its place to its own children. -/
def inPlace (d : Diff) (t : Time) (n c : Handle) : List Handle :=
  if c = n then d.below t n else [c]

/-- At a time the children of a node stand in its place, and the node has no edges. -/
structure LiftsAt (d d' : Diff) (n : Handle) (t : Time) : Prop where
  below : ∀ m, d'.below t m = if m = n then [] else (d.below t m).flatMap (d.inPlace t n)
  above : ∀ m, d'.above t m =
    if m = n then none else if d.above t m = some n then d.above t n else d.above t m

/-- At a time both diffs have the same edges. -/
structure SameAt (d d' : Diff) (t : Time) : Prop where
  below : ∀ m, d'.below t m = d.below t m
  above : ∀ m, d'.above t m = d.above t m

section Lifts

variable {d d' d'' : Diff} {n m c p : Handle} {t u : Time} {f : Forest Handle}

theorem LiftsAt.trans_same (h : d.LiftsAt d' n t) (same : d'.SameAt d'' t) : d.LiftsAt d'' n t :=
  ⟨fun m => (same.below m).trans (h.below m), fun m => (same.above m).trans (h.above m)⟩

theorem SameAt.trans_lifts (same : d.SameAt d' t) (h : d'.LiftsAt d'' n t) : d.LiftsAt d'' n t := by
  have places : d'.inPlace t n = d.inPlace t n := by
    funext c
    rw [inPlace, inPlace, same.below]
  exact ⟨fun m => by rw [h.below, same.below, places],
    fun m => by rw [h.above, same.above, same.above]⟩

theorem flatMap_inPlace_of_not_mem {cs : List Handle} (h : n ∉ cs) :
    cs.flatMap (d.inPlace t n) = cs := by
  have alone : cs.flatMap (d.inPlace t n) = cs.flatMap fun c => [c] := by
    refine List.flatMap_congr fun c hc => if_neg ?_
    rintro rfl
    exact h hc
  rw [alone, List.flatMap_singleton']

/-- A node without edges has nothing to leave. -/
theorem liftsAt_self (hd : d.Symmetric) (top : d.above t n = none) (leaf : d.below t n = []) :
    d.LiftsAt d n t := by
  refine ⟨fun m => ?_, fun m => ?_⟩
  · have out : n ∉ d.below t m := fun h => by
      rw [hd.above_of_mem h] at top
      cases top
    split
    · next e => rw [e, leaf]
    · exact (flatMap_inPlace_of_not_mem out).symm
  · split
    · next e => rw [e, top]
    · next other =>
      have out : d.above t m ≠ some n := fun h => by
        have := hd.mem_of_above h
        rw [leaf] at this
        cases this
      rw [if_neg out]

/-- A diff in which a node has left its place to its children at a time. -/
def liftedAt (d : Diff) (n p : Handle) (t : Time) (i : Nat) : Diff :=
  ((d.unlink p n t).unlinkAll n t).linkFrom p t i (d.below t n)

section LiftedAt

variable {as bs : List Handle} (hd : d.Symmetric) (hp : d.above t n = some p) (apart : n ≠ p)
  (split : d.below t p = as ++ n :: bs)

include hd split in
/-- The other children of a parent are not the node. -/
theorem not_mem_of_split : n ∉ as ∧ n ∉ bs := by
  have once := hd.once t p
  rw [split, List.nodup_append, List.nodup_cons] at once
  exact ⟨fun h => once.2.2 n h n List.mem_cons_self rfl, once.2.1.1⟩

include hd hp

theorem below_unlinked : ((d.unlink p n t).unlinkAll n t).below u m =
    if u = t ∧ m = n then [] else
      if u = t ∧ m = p then (d.below t p).filter (· != n) else d.below u m := by
  rw [below_unlinkAll, below_unlink (hd.parent_lt hp)]

include apart

theorem below_unlink_self : (d.unlink p n t).below t n = d.below t n := by
  rw [below_unlink (hd.parent_lt hp), if_neg fun e => apart e.2]

theorem above_unlinked : ((d.unlink p n t).unlinkAll n t).above u m =
    if u = t ∧ (m ∈ d.below t n ∨ m = n) then none else d.above u m := by
  rw [above_unlinkAll, above_unlink]
  by_cases hu : u = t
  · subst hu
    rw [below_unlink_self hd hp apart]
    by_cases child : m ∈ d.below u n <;> simp [child]
  · simp [hu]

include split

/-- The list that the node leaves. -/
theorem below_parent_unlinked : ((d.unlink p n t).unlinkAll n t).below t p = as ++ bs := by
  obtain ⟨new, new'⟩ := not_mem_of_split hd split
  rw [below_unlinked hd hp, if_neg fun e => apart e.2.symm, if_pos ⟨rfl, rfl⟩, split,
    filter_append_cons new new']

theorem below_liftedAt : (d.liftedAt n p t as.length).below u m =
    if u = t ∧ m = p then as ++ d.below t n ++ bs
    else if u = t ∧ m = n then [] else d.below u m := by
  have inStore : p < ((d.unlink p n t).unlinkAll n t).size := by
    rw [size_unlinkAll, size_unlink]
    exact hd.parent_lt hp
  rw [liftedAt, below_linkFrom inStore (below_parent_unlinked hd hp apart split),
    below_unlinked hd hp]
  by_cases parent : u = t ∧ m = p
  · rw [if_pos parent, if_pos parent]
  · rw [if_neg parent, if_neg parent, if_neg parent]

omit split in
theorem above_liftedAt {i : Nat} : (d.liftedAt n p t i).above u m =
    if u = t ∧ m ∈ d.below t n then some p
    else if u = t ∧ m = n then none else d.above u m := by
  rw [liftedAt, above_linkFrom (fun c hc => by simpa using hd.child_lt hc),
    above_unlinked hd hp apart]
  by_cases here : u = t
  · by_cases child : m ∈ d.below t n <;> simp [here, child]
  · simp [here]

theorem liftsAt_liftedAt : d.LiftsAt (d.liftedAt n p t as.length) n t := by
  obtain ⟨new, new'⟩ := not_mem_of_split hd split
  refine ⟨fun m => ?_, fun m => ?_⟩
  · rw [below_liftedAt hd hp apart split]
    by_cases here : m = n
    · subst here
      simp [apart]
    · by_cases parent : m = p
      · subst parent
        have self : d.inPlace t n n = d.below t n := if_pos rfl
        simp only [and_self, if_true, if_neg here, split, List.flatMap_append, List.flatMap_cons,
          flatMap_inPlace_of_not_mem new, flatMap_inPlace_of_not_mem new', self, List.append_assoc]
      · have out : n ∉ d.below t m := fun h =>
          parent (Option.some.inj ((hd.above_of_mem h).symm.trans hp))
        simp [here, parent, flatMap_inPlace_of_not_mem out]
  · rw [above_liftedAt hd hp apart]
    by_cases here : m = n
    · subst here
      have loose : m ∉ d.below t m := fun h =>
        apart (Option.some.inj ((hd.above_of_mem h).symm.trans hp))
      simp [loose]
    · by_cases child : m ∈ d.below t n
      · simp [here, child, hd.above_of_mem child, hp]
      · have other : d.above t m ≠ some n := fun h => child (hd.mem_of_above h)
        simp [here, child, other]

theorem sameAt_liftedAt (other : u ≠ t) : d.SameAt (d.liftedAt n p t as.length) u :=
  ⟨fun m => by simp [below_liftedAt hd hp apart split, other],
    fun m => by simp [above_liftedAt hd hp apart, other]⟩

end LiftedAt

end Lifts

end Diff

namespace Edit

open Diff

variable {d : Diff} {n p : Handle} {t : Time}

/-- At a time a node leaves its place to its children, and the other time stays as it is. -/
theorem run_liftAt (hd : d.Symmetric) (hn : n < d.size) (apart : d.above t n ≠ some n)
    (leaf : d.above t n = none → d.below t n = []) : ∃ d', (liftAt n t).run d = .ok () d' ∧
      d'.size = d.size ∧ (∀ m, d'.payload m = d.payload m) ∧ d.LiftsAt d' n t ∧
      ∀ u, u ≠ t → d.SameAt d' u := by
  rw [liftAt, EStateM.run_bind, run_ask_parent hn]
  cases hp : d.above t n with
  | none =>
    exact ⟨d, rfl, rfl, fun _ => rfl, liftsAt_self hd hp (leaf hp), fun _ _ => ⟨fun _ => rfl, fun _ => rfl⟩⟩
  | some p =>
    have apart : n ≠ p := fun e => apart (hp.trans (congrArg some e.symm))
    have inStore := hd.parent_lt hp
    obtain ⟨as, bs, split⟩ := List.append_of_mem (hd.mem_of_above hp)
    have place : (ask (·.indexOfChild? p n t)).run d = .ok (some as.length) d := by
      refine run_ask_ok ?_
      rw [indexOfChild?, node_look inStore, Outcome.ok_bind, ← below_look inStore, split,
        idxOf?_append_cons (not_mem_of_split hd split).1]
      rfl
    have taken : (detachChildren n t).run (d.unlink p n t) =
        .ok (d.below t n) ((d.unlink p n t).unlinkAll n t) := by
      rw [run_detachChildren (hd.unlink hp) (by rwa [size_unlink]), below_unlink_self hd hp apart]
    have put : (attachFrom p t as.length (d.below t n)).run ((d.unlink p n t).unlinkAll n t) =
        .ok () (d.liftedAt n p t as.length) := by
      refine run_attachFrom (by rwa [size_unlinkAll, size_unlink])
        (below_parent_unlinked hd hp apart split) (fun c hc => ?_) (fun c hc => ?_) (hd.once t n)
      · rw [lives_unlinkAll, lives_unlink]
        exact hd.lives t c n (hd.above_of_mem hc)
      · rw [above_unlinked hd hp apart, if_pos ⟨rfl, .inl hc⟩]
    refine ⟨d.liftedAt n p t as.length, ?_, by simp [liftedAt], fun m => by simp [liftedAt],
      liftsAt_liftedAt hd hp apart split, fun u other => sameAt_liftedAt hd hp apart split other⟩
    dsimp only
    rw [EStateM.run_bind, place]
    dsimp only
    rw [EStateM.run_bind, run_detach inStore hp]
    dsimp only
    rw [EStateM.run_bind, taken]
    exact put

end Edit

namespace Diff

/-- A node has left its place to its children at both times. -/
structure Lifts (d d' : Diff) (n : Handle) : Prop extends Regular d' where
  size : d'.size = d.size
  payload : ∀ m, d'.payload m = d.payload m
  edges : ∀ t, d.LiftsAt d' n t

end Diff

namespace Edit

open Diff

variable {d : Diff} {n : Handle}

/-- A node that is not the root, that is not its own parent and that has children only where it has a
parent leaves its place to its children. -/
theorem run_lift (hd : d.Regular) (hn : n < d.size) (below : n ≠ root)
    (kind : (d.look n).kind ≠ .root) (apart : ∀ t, d.above t n ≠ some n)
    (leaf : ∀ t, d.above t n = none → d.below t n = []) :
    ∃ d', (lift n).run d = .ok () d' ∧ d.Lifts d' n := by
  obtain ⟨d₁, run₁, size₁, payload₁, lifts₁, same₁⟩ :=
    run_liftAt hd.toSymmetric hn (apart .before) (leaf .before)
  have regular₁ := keeps_liftAt.ok hd run₁
  have same := same₁ .after (by decide)
  obtain ⟨d₂, run₂, size₂, payload₂, lifts₂, same₂⟩ :=
    run_liftAt (n := n) (t := .after) regular₁.toSymmetric (by rwa [size₁])
      (by rw [same.above]; exact apart .after)
      (by rw [same.above, same.below]; exact leaf .after)
  refine ⟨d₂, ?_, keeps_liftAt.ok regular₁ run₂, size₂.trans size₁,
    fun m => (payload₂ m).trans (payload₁ m), fun t => ?_⟩
  · rw [lift, if_neg below, EStateM.run_bind, run_ask_node (getElem?_look hn)]
    dsimp only
    rw [if_neg kind]
    change EStateM.run (liftAt n .before >>= fun _ => liftAt n .after >>= fun _ => pure ()) d = _
    rw [EStateM.run_bind, run₁]
    dsimp only
    rw [EStateM.run_bind, run₂]
    rfl
  · cases t with
    | before => exact lifts₁.trans_same (same₂ .before (by decide))
    | after => exact same.trans_lifts lifts₂

end Edit

namespace Diff

/-! ## The trees afterwards -/

/-- A node has no branches below it at the times at which its own parent is not a condition. -/
def Shelters (d : Diff) (n : Handle) : Prop :=
  ∀ t c, c ∈ d.below t n → (d.look c).kind.isContinuation = true →
    ∃ p, d.above t n = some p ∧ (d.look p).kind.isConditional = true

section Trees

variable {d d' : Diff} {n m c p : Handle} {t : Time} {f : Forest Handle} {s : Sides (Forest Handle)}

/-- The roots of a spanning forest once the children of a node stand in its place. -/
theorem Spans.roots_lift (h : d.Spans t f) (once : f.flatten.Nodup) :
    (f.lift n).roots = f.roots.flatMap (d.inPlace t n) := by
  induction f with
  | nil => rfl
  | cons a below rest _ ihr =>
    obtain ⟨-, children, -, hr⟩ := h
    rw [Forest.flatten, List.nodup_cons, List.nodup_append, List.mem_append, not_or] at once
    obtain ⟨⟨new, -⟩, -, onceRest, -⟩ := once
    rw [Forest.lift, Forest.roots, List.flatMap_cons, inPlace, ← ihr hr onceRest]
    by_cases here : a = n
    · subst here
      rw [if_pos rfl, if_pos rfl, Forest.roots_append, Forest.lift_of_not_mem new, children]
    · rw [if_neg here, if_neg here, Forest.roots]
      rfl

namespace Twofold

/-- What has a child at a time is in the tree at that time. -/
theorem mem_of_below (two : d.Twofold s) (hn : d.Reaches n) (other : n ≠ root)
    (hc : c ∈ d.below t n) : n ∈ (s.get t).flatten := by
  obtain ⟨u, hu⟩ := two.exists_mem_iff.2 hn
  exact (List.mem_cons.1 (two.here u t n hu (two.there u t n c hu hc))).resolve_left other

theorem above_ne_self (two : d.Twofold s) (hn : d.Reaches n) : d.above t n ≠ some n := by
  intro loop
  obtain ⟨u, hu⟩ := two.exists_mem_iff.2 hn
  have here := two.here u t n hu (two.lives t n n loop)
  have ends := (((two.shape t).mem_iff two.toSymmetric).1 here).ends (two.free t)
  exact ends.not_above (.parent loop)

end Twofold

namespace Lifts

theorem spans (h : d.Lifts d' n) (spans : d.Spans t f) (once : f.flatten.Nodup) :
    d'.Spans t (f.lift n) := by
  induction f with
  | nil => trivial
  | cons a below rest ihb ihr =>
    obtain ⟨ha, children, hb, hr⟩ := spans
    rw [Forest.flatten, List.nodup_cons, List.nodup_append] at once
    obtain ⟨-, onceBelow, onceRest, -⟩ := once
    have inner := ihb hb onceBelow
    have behind := ihr hr onceRest
    rw [Forest.lift]
    by_cases here : a = n
    · rw [if_pos here, spans_append]
      exact ⟨inner, behind⟩
    · rw [if_neg here]
      refine ⟨by rwa [h.size], ?_, inner, behind⟩
      rw [(h.edges t).below, if_neg here, children, hb.roots_lift onceBelow]

/-- The tree at a time loses the node, and nothing else changes its place. -/
theorem shape (h : d.Lifts d' n) (shape : d.Shape t f) (other : n ≠ root) :
    d'.Shape t (f.lift n) := by
  obtain ⟨new, once⟩ := List.nodup_cons.1 shape.once
  refine ⟨?_, h.spans shape.spans once, ?_⟩
  · rw [(h.edges t).below, if_neg other.symm, shape.below, shape.spans.roots_lift once]
  · rw [Forest.flatten_lift]
    exact List.nodup_cons.2 ⟨fun hr => new (List.mem_of_mem_filter hr), once.filter _⟩

theorem mem_lift (other : n ≠ root) :
    m ∈ root :: (f.lift n).flatten ↔ m ∈ root :: f.flatten ∧ m ≠ n := by
  rw [Forest.flatten_lift, List.mem_cons, List.mem_filter, List.mem_cons, bne_iff_ne]
  constructor
  · rintro (rfl | ⟨hm, apart⟩)
    · exact ⟨.inl rfl, other.symm⟩
    · exact ⟨.inr hm, apart⟩
  · rintro ⟨hm, apart⟩
    exact hm.imp_right fun hm => ⟨hm, apart⟩

theorem lives_eq (h : d.Lifts d' n) (hm : m < d.size) : d'.lives t m = d.lives t m := by
  rw [lives_payload (h.size ▸ hm), h.payload, ← lives_payload hm]

theorem kind_eq (h : d.Lifts d' n) (m : Handle) : (d'.look m).kind = (d.look m).kind :=
  kind_of_payload (h.payload m)

/-- If the branches below the node find a condition above it, all rules still hold. -/
theorem twofold (h : d.Lifts d' n) (two : d.Twofold s) (other : n ≠ root)
    (shelters : Shelters d n) : d'.Twofold (s.map (Forest.lift n)) := by
  have old {t m} (hm : m ∈ root :: ((s.map (Forest.lift n)).get t).flatten) :
      m ∈ root :: (s.get t).flatten ∧ m ≠ n := by
    rw [Sides.get_map] at hm
    exact (mem_lift other).1 hm
  have old' {t m} (hm : m ∈ ((s.map (Forest.lift n)).get t).flatten) :
      m ∈ (s.get t).flatten ∧ m ≠ n := by
    rw [Sides.get_map, Forest.flatten_lift, List.mem_filter, bne_iff_ne] at hm
    exact hm
  refine ⟨h.toRegular, fun t => ?_, fun t => ?_, fun u t m hm there => ?_, fun u t m c hm hc => ?_,
    fun t m hm => ?_, fun t m p hm hp branch => ?_, fun t m hm => ?_⟩
  · rw [(h.edges t).above, if_neg other.symm, two.free, if_neg (by simp)]
  · rw [Sides.get_map]
    exact h.shape (two.shape t) other
  · obtain ⟨hm, apart⟩ := old hm
    rw [h.lives_eq (two.lt_size hm)] at there
    rw [Sides.get_map]
    exact (mem_lift other).2 ⟨two.here u t m hm there, apart⟩
  · obtain ⟨hm, apart⟩ := old hm
    rw [(h.edges t).below, if_neg apart] at hc
    obtain ⟨b, hb, -⟩ := List.mem_flatMap.1 hc
    rw [h.lives_eq (two.lt_size hm)]
    exact two.there u t m b hm hb
  · rw [h.kind_eq]
    exact two.kind t m (old' hm).1
  · obtain ⟨hm, apart⟩ := old' hm
    rw [(h.edges t).above, if_neg apart] at hp
    rw [h.kind_eq] at branch ⊢
    split at hp
    · next child =>
      obtain ⟨q, hq, conditional⟩ := shelters t m (two.mem_of_above child) branch
      obtain rfl := Option.some.inj (hq.symm.trans hp)
      exact conditional
    · exact two.branch t m p hm hp branch
  · rw [h.kind_eq, formula_of_payload (h.payload m)]
    exact two.formula t m (old hm).1

/-- If all rules still hold, the branches below the node find a condition above it. -/
theorem shelters (h : d.Lifts d' n) (two : d.Twofold s) (hn : d.Reaches n) (other : n ≠ root)
    (sound : d'.Sound) : Shelters d n := by
  obtain ⟨s', two'⟩ := sound.exists_twofold h.toRegular
  intro t c hc branch
  have here := two.mem_of_below hn other hc
  obtain ⟨p, hp, -⟩ := (two.shape t).exists_above two.toSymmetric here
  have below : c ∈ (s.get t).flatten := two.mem_below (List.mem_cons_of_mem _ here) hc
  have apart : c ≠ n := by
    rintro rfl
    exact two.above_ne_self hn (two.above_of_mem hc)
  have inTree : c ∈ root :: (s'.get t).flatten := by
    refine ((two'.shape t).mem_iff h.toSymmetric).2 (((h.shape (two.shape t) other).mem_iff
      h.toSymmetric).1 ((mem_lift other).2 ⟨List.mem_cons_of_mem _ below, apart⟩))
  have notRoot : c ≠ root := fun e => (two.shape t).root_not_mem (e ▸ below)
  have edge : d'.above t c = some p := by
    rw [(h.edges t).above, if_neg apart, if_pos (two.above_of_mem hc), hp]
  have conditional := two'.branch t c p ((List.mem_cons.1 inTree).resolve_left notRoot) edge
    (by rw [h.kind_eq]; exact branch)
  rw [h.kind_eq] at conditional
  exact ⟨p, hp, conditional⟩

end Lifts

/-- Removing a node leaves its children in its place: for every node but the root that hangs below the
root of a sound diff this succeeds; the tree at each time lists the same nodes in the same order, without
that one; and the diff is still sound exactly if, at each time at which an alternative hangs below the
node, the node itself hangs below a condition. -/
theorem lift_spec (hd : d.Regular) (sound : d.Sound) (hn : d.Reaches n) (other : n ≠ root) :
    ∃ d', (Edit.lift n).run d = .ok () d' ∧ d'.Regular ∧
      (∀ t, ∃ ns, d.preorderAt t = .ok ns ∧ d'.preorderAt t = .ok (ns.filter (· != n))) ∧
      (d'.Sound ↔ ∀ t c, c ∈ d.below t n → (d.look c).kind.isContinuation = true →
        ∃ p, d.above t n = some p ∧ (d.look p).kind.isConditional = true) := by
  obtain ⟨s, two⟩ := sound.exists_twofold hd
  have kind : (d.look n).kind ≠ .root := by
    obtain ⟨u, hu⟩ := two.exists_mem_iff.2 hn
    exact two.kind u n ((List.mem_cons.1 hu).resolve_left other)
  have leaf (t) (top : d.above t n = none) : d.below t n = [] := by
    refine List.eq_nil_iff_forall_not_mem.2 fun c hc => ?_
    obtain ⟨p, hp, -⟩ := (two.shape t).exists_above hd.toSymmetric (two.mem_of_below hn other hc)
    rw [top] at hp
    cases hp
  obtain ⟨d', run, lifts⟩ :=
    Edit.run_lift hd (hn.lt_size hd) other kind (fun t => two.above_ne_self hn) leaf
  refine ⟨d', run, lifts.toRegular, fun t => ⟨_, (two.shape t).preorderAt_eq hd, ?_⟩,
    lifts.shelters two hn other, fun shelters => (lifts.twofold two other shelters).sound⟩
  rw [(lifts.shape (two.shape t) other).preorderAt_eq lifts.toRegular, Forest.flatten_lift,
    List.filter_cons_of_pos (by simpa using other.symm)]

/-- A condition with an alternative that hangs below another condition only before the edit: afterwards
the alternative hangs below the root. -/
theorem lift_spec_condition : ∃ d,
    Reading.diff "-#if A\n #if B\n x\n #else\n y\n #endif\n-#endif\n" {} .unknown .preprocessor =
      .ok d ∧
    d.Regular ∧ d.Sound ∧ d.Reaches 2 ∧ 2 ≠ root ∧ ∃ d', (Edit.lift 2).run d = .ok () d' ∧
      d'.preorderAt .before = .ok [0, 1, 3, 4, 5] ∧ ¬ d'.Sound := by
  have run : (do
      let d ← Reading.diff "-#if A\n #if B\n x\n #else\n y\n #endif\n-#endif\n" {} .unknown
        .preprocessor
      let ns ← d.preorderAt .before
      return (d.below .after 0, d.below .after 2, d.above .after 2, (d.look 4).kind, ns) :
        Outcome _).toOption = some ([2], [3, 4], some 0, .elseBranch, [0, 1, 2, 3, 4, 5]) := by
    decide +kernel
  obtain ⟨d, read, rest⟩ := Outcome.bind_eq_ok_iff.1 (Outcome.eq_ok_of_toOption run)
  obtain ⟨ns, listed, rest⟩ := Outcome.bind_eq_ok_iff.1 rest
  simp only [Outcome.pure_eq_ok_iff, Prod.mk.injEq] at rest
  obtain ⟨first, below, above, kind, rfl⟩ := rest
  have orderly := (Reading.ofLines_seems read).1
  have reached : d.Reaches 2 := Reaches.root.child (first ▸ by decide : 2 ∈ d.below .after 0)
  obtain ⟨d', lifted, -, lists, sound⟩ :=
    lift_spec orderly.toRegular orderly.sound reached (by decide)
  obtain ⟨ns, listed', lists⟩ := lists .before
  obtain rfl := Except.ok.inj (listed.symm.trans listed')
  refine ⟨d, read, orderly.toRegular, orderly.sound, reached, by decide, d', lifted, lists, fun h => ?_⟩
  obtain ⟨p, hp, conditional⟩ :=
    sound.1 h .after 4 (below ▸ by decide : 4 ∈ d.below .after 2) (by rw [kind]; rfl)
  obtain rfl := Option.some.inj (above.symm.trans hp)
  have root : (d.look 0).kind = .root := look_root_kind orderly.toRegular
  rw [root] at conditional
  cases conditional

end Trees

end Diff

end Variation
