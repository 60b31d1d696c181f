import Variation.Construction
import Variation.Proofs.Edits
import Variation.Proofs.Joining

/-!
# Taking nodes from their places

A construction first removes every node of the first tree that is not kept: the node loses its parent
after the edit. What hangs below it stays linked to it until it is removed or taken over itself.
-/

namespace Variation

namespace Diff

variable {d d' d'' : Diff} {n m p c : Handle} {t : Time} {f : Node → Node}

/-- No edge before the edit is changed. -/
structure SameBefore (d d' : Diff) : Prop where
  below : ∀ n, d'.below .before n = d.below .before n
  above : ∀ n, d'.above .before n = d.above .before n

theorem SameBefore.refl (d : Diff) : d.SameBefore d := ⟨fun _ => rfl, fun _ => rfl⟩

theorem SameBefore.trans (h : d.SameBefore d') (h' : d'.SameBefore d'') : d.SameBefore d'' :=
  ⟨fun n => (h'.below n).trans (h.below n), fun n => (h'.above n).trans (h.above n)⟩

theorem lives_congr (size : n < d.size → n < d'.size) (same : d'.payload n = d.payload n)
    (there : d.lives t n = true) : d'.lives t n = true := by
  have old := lt_size_of_lives there
  rw [lives_payload (size old), same, ← lives_payload old]
  exact there

/-! ## Taking a node from its parent -/

/-- Takes a node from its parent after the edit, if it has one. -/
def freed (d : Diff) (n : Handle) : Diff :=
  match d.above .after n with
  | some p => d.unlink p n .after
  | none => d

theorem size_freed : (d.freed n).size = d.size := by
  unfold freed
  split
  · exact size_unlink
  · rfl

theorem payload_freed : (d.freed n).payload m = d.payload m := by
  unfold freed
  split
  · exact payload_unlink
  · rfl

theorem lives_freed : (d.freed n).lives t m = d.lives t m := by
  unfold freed
  split
  · exact lives_unlink
  · rfl

theorem above_freed : (d.freed n).above t m =
    if t = .after ∧ m = n then none else d.above t m := by
  unfold freed
  split
  · exact above_unlink
  · next free =>
    split
    · next here => rw [here.1, here.2, free]
    · rfl

theorem below_freed (hd : d.Symmetric) : (d.freed n).below t m =
    if t = .after then (d.below t m).filter (· != n) else d.below t m := by
  -- where the node is not a child, leaving it out changes nothing
  have spared (other : n ∉ d.below .after m) :
      (d.below .after m).filter (· != n) = d.below .after m := by
    rw [List.filter_eq_self]
    intro c hc
    exact bne_iff_ne.2 fun e => other (e ▸ hc)
  unfold freed
  split
  · next p hp =>
    rw [below_unlink (hd.parent_lt hp)]
    by_cases ht : t = .after
    · subst ht
      by_cases hm : m = p
      · simp [hm]
      · have other : n ∉ d.below .after m := fun hn => by
          rw [hd.above_of_mem hn] at hp
          exact hm (Option.some.inj hp)
        simp [hm, spared other]
    · simp [ht]
  · next free =>
    split
    · next ht =>
      subst ht
      refine (spared fun hn => ?_).symm
      rw [hd.above_of_mem hn] at free
      cases free
    · rfl

theorem sameBefore_freed (hd : d.Symmetric) : d.SameBefore (d.freed n) := by
  refine ⟨fun m => ?_, fun m => ?_⟩
  · rw [below_freed hd, if_neg (by decide)]
  · rw [above_freed, if_neg fun h => nomatch h.1]

theorem Regular.freed (hd : d.Regular) : (d.freed n).Regular := by
  unfold Diff.freed
  split
  · next p hp => exact hd.unlink hp
  · exact hd

theorem run_dropAt_after (hd : d.Symmetric) (hn : n < d.size) :
    (Edit.dropAt n .after).run d = .ok () (d.freed n) := by
  rw [Edit.run_dropAt hd hn]
  rfl

/-! ## Removing nodes -/

/-- Removes a node after the edit. -/
def removed (d : Diff) (n : Handle) : Diff := (d.freed n).update n Construction.asRemoved

theorem size_removed : (d.removed n).size = d.size := (size_update ..).trans size_freed

theorem below_removed : (d.removed n).below t m = (d.freed n).below t m :=
  below_update_of fun _ => rfl

theorem above_removed : (d.removed n).above t m = (d.freed n).above t m :=
  above_update_of fun _ => rfl

theorem payload_removed (hn : n < d.size) : (d.removed n).payload m =
    if m = n then Construction.asRemoved (d.payload m) else d.payload m := by
  rw [removed, payload_update (by rw [size_freed]; exact hn), payload_freed]
  by_cases hm : m = n
  · subst hm
    have same : (d.freed m).payload m = d.payload m := payload_freed
    have asRemoved : (Construction.asRemoved ((d.freed m).look m)).detached =
        Construction.asRemoved ((d.freed m).payload m) := rfl
    rw [if_pos rfl, if_pos rfl, asRemoved, same]
  · rw [if_neg fun e => hm e.symm, if_neg hm]

theorem Regular.removed (hd : d.Regular) : (d.removed n).Regular := by
  refine hd.freed.update (fun _ => rfl) (fun _ => rfl) (fun _ => rfl) fun x t hx parent _ => ?_
  cases t with
  | before => rfl
  | after =>
    have free : (d.freed n).above .after n = none := by rw [above_freed, if_pos ⟨rfl, rfl⟩]
    rw [above_of_node hx] at free
    rw [free] at parent
    cases parent

/-- What removing nodes does. -/
structure Prunes (d d' : Diff) (gone : List Handle) : Prop where
  regular : d'.Regular
  size : d'.size = d.size
  before : d.SameBefore d'
  above : ∀ n, d'.above .after n = if n ∈ gone then none else d.above .after n
  below : ∀ n, d'.below .after n ⊆ d.below .after n
  payload : ∀ n, d'.payload n = if n ∈ gone then Construction.asRemoved (d.payload n) else d.payload n

theorem prunes_nil (hd : d.Regular) : d.Prunes d [] :=
  ⟨hd, rfl, .refl d, fun _ => (if_neg List.not_mem_nil).symm, fun _ => List.Subset.refl _,
    fun _ => (if_neg List.not_mem_nil).symm⟩

theorem Prunes.cons {gone : List Handle} (hd : d.Regular) (hn : n < d.size) (new : n ∉ gone)
    (h : (d.removed n).Prunes d' gone) : d.Prunes d' (n :: gone) := by
  have same : d.SameBefore (d.removed n) :=
    (sameBefore_freed hd.toSymmetric).trans ⟨fun _ => below_removed, fun _ => above_removed⟩
  refine ⟨h.regular, h.size.trans size_removed, same.trans h.before,
    fun m => ?_, fun m => ?_, fun m => ?_⟩
  · rw [h.above, above_removed, above_freed]
    by_cases hm : m = n <;> by_cases hg : m ∈ gone <;> simp [hm, hg]
  · refine List.Subset.trans (h.below m) ?_
    rw [below_removed, below_freed hd.toSymmetric, if_pos rfl]
    exact List.filter_subset_self _
  · rw [h.payload, payload_removed hn]
    by_cases hm : m = n
    · subst hm
      simp [new]
    · simp [hm]

end Diff

namespace Construction

open Diff
open Matching (Snapshot Entry)

variable {d : Diff} {gone : List Handle}

/-- Removes a node. -/
def remove (n : Handle) : Edit Unit := do
  Edit.dropAt n .after
  Edit.update n asRemoved

theorem run_remove {n : Handle} (hd : d.Symmetric) (hn : n < d.size) :
    (remove n).run d = .ok () (d.removed n) := by
  obtain ⟨x, hx⟩ := exists_node (d := d.freed n) (n := n) (by rw [size_freed]; exact hn)
  simp only [remove, EStateM.run_bind, run_dropAt_after hd hn, Edit.run_update hx]
  rfl

theorem run_removeAll (hd : d.Regular) (once : gone.Nodup) (hgone : ∀ n ∈ gone, n < d.size) :
    ∃ d', (gone.forM remove).run d = .ok () d' ∧ d.Prunes d' gone := by
  induction gone generalizing d with
  | nil => exact ⟨d, rfl, prunes_nil hd⟩
  | cons n gone ih =>
    obtain ⟨new, once⟩ := List.nodup_cons.1 once
    obtain ⟨hn, hgone⟩ := List.forall_mem_cons.1 hgone
    obtain ⟨d', run, prunes⟩ := ih (hd.removed (n := n)) once fun m hm => by
      rw [size_removed]
      exact hgone m hm
    refine ⟨d', ?_, prunes.cons hd hn new⟩
    change EStateM.run (remove n >>= fun _ => gone.forM remove) d = _
    rw [EStateM.run_bind, run_remove hd.toSymmetric hn]
    exact run

/-- The nodes of the sources below the root that are not kept. -/
def forsaken (src dst : Snapshot) (m : Matching) : List Handle :=
  ((src.entries.toList.zipIdx.drop 1).filter fun p => (kept? src dst m p.2).isNone).map (·.1.origin)

/-- Only what is not kept is removed. -/
theorem removeUnkept_eq (src dst : Snapshot) (m : Matching) :
    removeUnkept src dst m = (forsaken src dst m).forM remove := by
  let gone (p : Entry × Nat) : Bool := (kept? src dst m p.2).isNone
  have step (ps : List (Entry × Nat)) :
      (ps.forM fun p => if gone p then remove p.1.origin else pure ()) =
        ((ps.filter gone).map (·.1.origin)).forM remove := by
    induction ps with
    | nil => rfl
    | cons p ps ih =>
      change ((if gone p then remove p.1.origin else pure ()) >>= fun _ => ps.forM _) = _
      rw [ih]
      by_cases none : gone p = true
      · rw [List.filter_cons_of_pos none, if_pos none]
        rfl
      · rw [List.filter_cons_of_neg none, if_neg none]
        rfl
  exact step _

end Construction

end Variation
