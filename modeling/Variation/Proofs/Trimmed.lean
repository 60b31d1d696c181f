import Variation.Proofs.Removing
import Variation.Proofs.Selection
import Variation.Simplification.Cut

/-!
# Dropping a leaf

Cutting drops unedited leaves one by one. A leaf has nothing below it, so all other nodes keep their
place, and what is dropped is there at both times, so it is unchanged. The main statement says that
a diff from which such a leaf is dropped is sound still, and that what is left below the root is what
was there, edits included.
-/

namespace Variation

/-! ## Edits that succeed -/

namespace Edit

variable {α β : Type} {P : Diff → Prop}

/-- From every diff with a property an edit succeeds, and the property holds again. -/
def Carries (P : Diff → Prop) (e : Edit α) : Prop :=
  ∀ d, P d → ∃ a d', e.run d = .ok a d' ∧ P d'

namespace Carries

theorem pure (a : α) : Carries P (Pure.pure a : Edit α) := fun d hd => ⟨a, d, rfl, hd⟩

theorem bind {e : Edit α} {f : α → Edit β} (he : Carries P e) (hf : ∀ a, Carries P (f a)) :
    Carries P (e >>= f) := by
  intro d hd
  obtain ⟨a, d₁, run, hd₁⟩ := he d hd
  obtain ⟨b, d₂, run₂, hd₂⟩ := hf a d₁ hd₁
  exact ⟨b, d₂, by rw [EStateM.run_bind, run]; exact run₂, hd₂⟩

/-- What comes behind a question may rely on the diff to which it was put. -/
theorem of_ask {q : Diff → Outcome α} {f : α → Edit β}
    (h : ∀ d, P d → ∃ a, q d = .ok a ∧ ∃ b d', (f a).run d = .ok b d' ∧ P d') :
    Carries P (Edit.ask q >>= f) := by
  intro d hd
  obtain ⟨a, answer, b, d', run, hd'⟩ := h d hd
  exact ⟨b, d', by rw [EStateM.run_bind, run_ask_ok answer]; exact run, hd'⟩

theorem forM {f : α → Edit PUnit} {as : List α} (h : ∀ a ∈ as, Carries P (f a)) :
    Carries P (as.forM f) := by
  induction as with
  | nil => exact .pure ()
  | cons a as ih =>
    obtain ⟨here, h⟩ := List.forall_mem_cons.1 h
    exact here.bind fun _ => ih h

theorem foldlM {f : β → α → Edit β} {as : List α} (h : ∀ b, ∀ a ∈ as, Carries P (f b a)) (b : β) :
    Carries P (as.foldlM f b) := by
  induction as generalizing b with
  | nil => exact .pure b
  | cons a as ih =>
    exact (h b a List.mem_cons_self).bind fun b =>
      ih (fun b a ha => h b a (List.mem_cons_of_mem _ ha)) b

end Carries

end Edit

namespace Diff

/-! ## Nodes in their places -/

/-- The rules for a node whose edges agree at both ends, told by its parents. -/
structure Fits (d : Diff) (n : Handle) : Prop where
  root : (d.look n).kind = .root → ∀ t, d.above t n = none
  arity : (d.look n).kind ≠ .root → ∀ t, (d.above t n).isSome = (d.look n).existsAt t
  shared : ∀ p, (∀ t, d.above t n = some p) → (d.look p).change = .unchanged
  there : ∀ t p, d.above t n = some p → (d.look p).existsAt t = true
  branch : ∀ t p, d.above t n = some p → d.continues n = true →
    (d.look p).kind.isConditional = true
  formula : (d.look n).formula.isSome = (d.look n).kind.isConditional

section Fits

variable {d d' : Diff} {n m p c : Handle} {t : Time}

theorem kind_of_payload (h : d'.payload m = d.payload n) : (d'.look m).kind = (d.look n).kind := by
  have kind := congrArg Node.kind h
  exact kind

theorem change_of_payload (h : d'.payload m = d.payload n) :
    (d'.look m).change = (d.look n).change := by
  have change := congrArg Node.change h
  exact change

theorem existsAt_of_payload (h : d'.payload m = d.payload n) :
    (d'.look m).existsAt t = (d.look n).existsAt t := by
  rw [Node.existsAt, Node.existsAt, change_of_payload h]

theorem formula_of_payload (h : d'.payload m = d.payload n) :
    (d'.look m).formula = (d.look n).formula := by
  have formula := congrArg Node.formula h
  exact formula

theorem annotates_of_payload (h : d'.payload n = d.payload n) :
    d'.annotates n = d.annotates n := by
  rw [annotates, kind_of_payload h, annotates]

theorem continues_of_payload (h : d'.payload n = d.payload n) :
    d'.continues n = d.continues n := by
  rw [continues, kind_of_payload h, continues]

theorem own_of_payload {v : String → Bool} (h : d'.payload n = d.payload n) :
    d'.own v n = d.own v n := by
  rw [own, formula_of_payload h, own]

theorem lawful_iff_fits (hd : d.Regular) (hn : n < d.size) : d.Lawful n (d.look n) ↔ d.Fits n := by
  have parent (t : Time) : (d.look n).parent.get t = d.above t n := (above_look hn).symm
  have node {p : Handle} (t : Time) (hp : d.above t n = some p) : d.nodes[p]? = some (d.look p) :=
    getElem?_look (hd.parent_lt hp)
  constructor
  · intro h
    refine ⟨fun kind t => ?_, fun kind t => ?_, fun p hp => ?_, fun t p hp => ?_,
      fun t p hp continued => ?_, h.formula⟩
    · rw [← parent, h.root kind t]
    · rw [← parent, h.arity kind t]
    · obtain ⟨y, hy, unchanged⟩ := h.shared p fun t => (parent t).trans (hp t)
      rw [look_of_node hy]
      exact unchanged
    · rw [← lives_look (hd.parent_lt hp)]
      exact h.lives t p ((parent t).trans hp)
    · obtain ⟨y, hy, conditional⟩ := h.branch t p ((parent t).trans hp) continued
      rw [look_of_node hy]
      exact conditional
  · intro h
    refine ⟨fun t c hc => ?_, fun t p hp => ?_, fun kind t => ?_, fun kind t => ?_, fun p hp => ?_,
      fun t p hp => ?_, fun t p hp continued => ?_, h.formula⟩
    · exact hd.above_of_mem (below_look hn ▸ hc)
    · exact hd.mem_of_above ((parent t).symm.trans hp)
    · rw [parent, h.root kind t]
    · rw [parent, h.arity kind t]
    · have above (t : Time) : d.above t n = some p := (parent t).symm.trans (hp t)
      exact ⟨_, node .before (above .before), h.shared p above⟩
    · have above := (parent t).symm.trans hp
      rw [lives_look (hd.parent_lt above)]
      exact h.there t p above
    · have above := (parent t).symm.trans hp
      exact ⟨_, node t above, h.branch t p above continued⟩

/-- A regular diff is sound exactly if every node below the root fits and its parents lead to the root
at each time at which it is there. -/
theorem sound_iff_fits (hd : d.Regular) : d.Sound ↔ ∀ n, d.Reaches n → d.Fits n ∧
    ∀ t, (d.look n).existsAt t = true → d.Ascends t n := by
  refine forall_congr' fun n => imp_congr_right fun hn => ?_
  have inStore := hn.lt_size hd
  simp only [getElem?_look inStore, Option.some.injEq, exists_eq_left', lawful_iff_fits hd inStore]

/-- Whether a node fits depends on its parents and on what it and they say. -/
theorem Fits.congr (h : d.Fits n) (above : ∀ t, d'.above t n = d.above t n)
    (same : ∀ m, d'.payload m = d.payload m) : d'.Fits n := by
  have kind (m : Handle) : (d'.look m).kind = (d.look m).kind := kind_of_payload (same m)
  have change (m : Handle) : (d'.look m).change = (d.look m).change := change_of_payload (same m)
  have formula : (d'.look n).formula = (d.look n).formula := formula_of_payload (same n)
  obtain ⟨root, arity, shared, there, branch, law⟩ := h
  refine ⟨?_, ?_, ?_, ?_, ?_, ?_⟩
  · simpa only [kind, above] using root
  · simpa only [kind, above, Node.existsAt, change] using arity
  · simpa only [above, change] using shared
  · simpa only [above, Node.existsAt, change] using there
  · simpa only [above, continues, kind] using branch
  · simpa only [formula, kind] using law

end Fits

/-! ## One leaf -/

/-- Takes a node from its parents at both times. -/
def pruned (d : Diff) (ps : Time → Handle) (c : Handle) : Diff :=
  (d.unlink (ps .before) c .before).unlink (ps .after) c .after

/-- What hangs below the root of a diff after parts of it were dropped: it has the place it had, and
what is gone is unchanged. -/
structure Trims (d d' : Diff) : Prop where
  regular : d'.Regular
  sound : d'.Sound
  size : d'.size = d.size
  payload : ∀ n, d'.payload n = d.payload n
  reaches : ∀ n, d'.Reaches n → d.Reaches n
  above : ∀ n, d'.Reaches n → ∀ t, d'.above t n = d.above t n
  edited : ∀ n, d.Reaches n → (d.look n).change ≠ .unchanged → d'.Reaches n

section Prune

variable {d d' d'' : Diff} {n p c : Handle} {ps : Time → Handle} {t : Time}

theorem Trims.refl (hd : d.Regular) (sound : d.Sound) : d.Trims d :=
  ⟨hd, sound, rfl, fun _ => rfl, fun _ h => h, fun _ _ _ => rfl, fun _ h _ => h⟩

theorem Trims.change (h : d.Trims d') (n : Handle) : (d'.look n).change = (d.look n).change :=
  change_of_payload (h.payload n)

theorem above_pruned : (d.pruned ps c).above t n = if n = c then none else d.above t n := by
  rw [pruned, above_unlink, above_unlink]
  cases t <;> by_cases hn : n = c <;> simp [hn]

theorem below_pruned (hps : ∀ t, ps t < d.size) : (d.pruned ps c).below t n =
    if n = ps t then (d.below t n).filter (· != c) else d.below t n := by
  rw [pruned, below_unlink (by simpa using hps .after)]
  simp only [below_unlink (hps .before)]
  cases t with
  | before =>
    by_cases hn : n = ps .before
    · rw [if_neg (by simp), if_pos ⟨rfl, hn⟩, if_pos hn, hn]
    · rw [if_neg (by simp), if_neg fun h => hn h.2, if_neg hn]
  | after =>
    by_cases hn : n = ps .after
    · rw [if_pos ⟨rfl, hn⟩, if_neg (by simp), if_pos hn, hn]
    · rw [if_neg fun h => hn h.2, if_neg (by simp), if_neg hn]

theorem regular_pruned (hd : d.Regular) (hp : ∀ t, d.above t c = some (ps t)) :
    (d.pruned ps c).Regular := by
  refine (hd.unlink (hp .before)).unlink ?_
  rw [above_unlink, if_neg (by simp)]
  exact hp .after

theorem payload_pruned : (d.pruned ps c).payload n = d.payload n := by
  simp [pruned]

section Leaf

variable (hd : d.Regular) (hp : ∀ t, d.above t c = some (ps t)) (leaf : ∀ t, d.below t c = [])

include hd leaf

/-- Nobody hangs below a leaf. -/
theorem parent_ne_of_leaf (hn : d.above t n = some p) : p ≠ c := fun e => by
  have mem := hd.mem_of_above hn
  rw [e, leaf] at mem
  cases mem

theorem ascends_pruned (h : d.Ascends t n) (other : n ≠ c) : (d.pruned ps c).Ascends t n := by
  induction h with
  | root => exact .root
  | step hp _ ih =>
    exact .step (above_pruned.trans ((if_neg other).trans hp)) (ih (parent_ne_of_leaf hd leaf hp))

include hp

/-- Once a leaf is dropped, all is reached that was reached, except for the leaf. -/
theorem reaches_pruned_iff (rootStays : root ≠ c) :
    (d.pruned ps c).Reaches n ↔ d.Reaches n ∧ n ≠ c := by
  have hd' := regular_pruned hd hp
  constructor
  · intro h
    induction h with
    | root => exact ⟨.root, rootStays⟩
    | @child t q n _ hn ih =>
      have up := hd'.above_of_mem hn
      have other : n ≠ c := fun e => by
        rw [above_pruned, if_pos e] at up
        cases up
      rw [above_pruned, if_neg other] at up
      exact ⟨ih.1.child (hd.mem_of_above up), other⟩
  · rintro ⟨h, other⟩
    induction h with
    | root => exact .root
    | @child t q n _ hn ih =>
      have up := hd.above_of_mem hn
      refine (ih (parent_ne_of_leaf hd leaf up)).child (t := t) (hd'.mem_of_above ?_)
      rw [above_pruned, if_neg other, up]

end Leaf

/-- Who has a parent at both times is unchanged. -/
theorem Fits.unchanged (h : d.Fits n) (parents : ∀ t, (d.above t n).isSome = true) :
    (d.look n).change = .unchanged := by
  have kind : (d.look n).kind ≠ .root := fun kind => by
    have parents := parents .before
    rw [h.root kind] at parents
    cases parents
  exact (Change.eq_unchanged_iff _).2 fun t => (h.arity kind t).symm.trans (parents t)

/-- Dropping a leaf that hangs at one place at both times trims a diff. -/
theorem trims_pruned (hd : d.Regular) (sound : d.Sound) (hp : ∀ t, d.above t c = some p)
    (leaf : ∀ t, d.below t c = []) : d.Trims (d.pruned (fun _ => p) c) := by
  have hd' := regular_pruned hd hp
  have rootStays : root ≠ c := (ne_root_of_above hd.root sound (hp .before)).symm
  have reaches (n : Handle) := reaches_pruned_iff (n := n) hd hp leaf rootStays
  have above {n : Handle} (other : n ≠ c) (t : Time) :
      (d.pruned (fun _ => p) c).above t n = d.above t n := by
    rw [above_pruned, if_neg other]
  have fits := (sound_iff_fits hd).1 sound
  refine ⟨hd', (sound_iff_fits hd').2 fun n hn => ?_, by simp [pruned], fun _ => payload_pruned,
    fun n hn => ((reaches n).1 hn).1, fun n hn => above ((reaches n).1 hn).2,
    fun n hn changed => (reaches n).2 ⟨hn, fun e => changed ?_⟩⟩
  · obtain ⟨hn, other⟩ := (reaches n).1 hn
    obtain ⟨law, rooted⟩ := fits n hn
    refine ⟨law.congr (above other) fun _ => payload_pruned, fun t there => ?_⟩
    rw [existsAt_of_payload payload_pruned] at there
    exact ascends_pruned hd leaf (rooted t there) other
  · exact (fits n hn).1.unchanged fun t => by rw [e, hp]; rfl

theorem Trims.trans (h : d.Trims d') (h' : d'.Trims d'') : d.Trims d'' where
  regular := h'.regular
  sound := h'.sound
  size := h'.size.trans h.size
  payload n := (h'.payload n).trans (h.payload n)
  reaches n hn := h.reaches n (h'.reaches n hn)
  above n hn t := (h'.above n hn t).trans (h.above n (h'.reaches n hn) t)
  edited n hn changed := h'.edited n (h.edited n hn changed) (by rwa [h.change])

end Prune

end Diff

/-! ## The edit -/

namespace Simplification

open Diff Edit

variable {d : Diff} {p c : Handle} {ps : Time → Handle}

theorem run_drop (hd : d.Regular) (hp : ∀ t, d.above t c = some (ps t)) :
    (drop c).run d = .ok () (d.pruned ps c) := by
  have inStore := lt_size_of_above (hp .before)
  have half := hd.toSymmetric.unlink (hp .before)
  have after : (d.unlink (ps .before) c .before).above .after c = some (ps .after) := by
    rw [above_unlink, if_neg (by simp)]
    exact hp .after
  have size : c < (d.unlink (ps .before) c .before).size := by
    rw [size_unlink]
    exact inStore
  change EStateM.run (dropAt c .before >>= fun _ => dropAt c .after >>= fun _ => pure ()) d = _
  rw [EStateM.run_bind, run_dropAt hd.toSymmetric inStore, hp]
  simp only [EStateM.run_bind, run_dropAt half size, after]
  rfl

/-- The test for an unedited leaf answers, and accepts the leaves with that parent. -/
theorem isUneditedLeaf_spec (hc : c < d.size) : ∃ b, isUneditedLeaf p c d = .ok b ∧
    (b = true ↔ (∀ t, d.below t c = []) ∧ ∀ t, d.above t c = some p) := by
  refine ⟨_, by rw [isUneditedLeaf, isLeaf, node_look hc]; rfl, ?_⟩
  have both {q : Time → Prop} : (∀ t, q t) ↔ q .before ∧ q .after :=
    ⟨fun h => ⟨h .before, h .after⟩, fun h t => by cases t; exacts [h.1, h.2]⟩
  simp only [Time.all, List.all_cons, List.all_nil, Bool.and_true, Bool.and_eq_true, beq_iff_eq,
    List.isEmpty_iff, both, below_look hc, above_look hc, Sides.get, and_assoc]

end Simplification

end Variation
