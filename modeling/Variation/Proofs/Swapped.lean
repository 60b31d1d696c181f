import Variation.Proofs.Collapsed
import Variation.Simplification.Moved

/-!
# Merging one pair

Removed and added code that is merged gives way to one new node: before the edit it stands in the
place of the removed node, after it in that of the added one, each time with the same children. Seen
as a whole, each tree is the former one with the new node put for another.
-/

namespace Variation

/-- A node of unchanged code. -/
structure Node.StillCode (y : Node) : Prop where
  change : y.change = .unchanged
  kind : y.kind = .artifact
  formula : y.formula = none

namespace Diff

variable {d d' : Diff} {n m c p taker giver : Handle} {ps : Time → Handle} {is : Time → Nat}
  {w : Sides Handle} {t u : Time}

/-! ## Edits around a pair -/

theorem below_handedAt_eq (hk : taker < d.size) : (d.handedAt taker giver t).below u n =
    if u = t then
      (if n = giver then [] else d.below t n) ++ if n = taker then d.below t giver else []
    else d.below u n := by
  rw [handedAt, below_adopt (by simpa using hk), below_unlinkAll]
  by_cases hu : u = t
  · subst hu
    by_cases hn : n = taker <;> simp [hn]
  · simp [hu]

theorem below_handed_eq (hk : taker < d.size) : (d.handed taker giver).below t n =
    (if n = giver then [] else d.below t n) ++ if n = taker then d.below t giver else [] := by
  rw [handed, below_handedAt_eq (by simpa using hk)]
  simp only [below_handedAt_eq hk]
  cases t <;> simp

theorem below_placed (hps : ∀ t, ps t < d.size) : (d.placed ps is n).below t m =
    if m = ps t then (d.below t m).insertIdx (is t) n else d.below t m := by
  rw [placed, below_link (by simpa using hps .after)]
  simp only [below_link (hps .before)]
  cases t with
  | before => by_cases hm : m = ps .before <;> simp [hm]
  | after => by_cases hm : m = ps .after <;> simp [hm]

/-- A removed node and an added one, each with its parent. -/
structure Partners (d : Diff) (w : Sides Handle) (ps : Time → Handle) : Prop extends Regular d where
  change : ∀ t, (d.look (w.get t)).change = .onlyAt t
  parent : ∀ t, d.above t (w.get t) = some (ps t)
  leaf : ∀ t u, u ≠ t → d.below u (w.get t) = []
  loop : ∀ t, ps t ≠ w.get t

namespace Partners

variable (h : d.Partners w ps)

include h

theorem inStore (t : Time) : w.get t < d.size := lt_size_of_above (h.parent t)

theorem parent_lt (t : Time) : ps t < d.size := h.toSymmetric.parent_lt (h.parent t)

theorem other (t : Time) : w.get t ≠ w.get t.other := fun e => by
  have change := (h.change t).symm.trans ((congrArg (fun n => (d.look n).change) e).trans (h.change _))
  cases t <;> cases change

theorem free (t : Time) : d.above t.other (w.get t) = none := by
  cases hp : d.above t.other (w.get t) with
  | none => rfl
  | some p =>
    have there := h.lives _ _ _ hp
    rw [lives_look (h.inStore t), Node.existsAt, h.change, Change.existsAt_onlyAt] at there
    exact absurd (beq_iff_eq.1 there) t.other_ne

theorem not_mem (t : Time) : w.get t ∉ d.below t (w.get t) := fun mem => by
  have up := h.above_of_mem mem
  rw [h.parent] at up
  exact h.loop t (Option.some.inj up)

/-- No node is a child of either one at a time at which that is not there. -/
theorem parent_ne {t : Time} (hp : d.above t n = some p) : p ≠ w.get t.other := fun e => by
  have mem := h.mem_of_above hp
  rw [e, h.leaf t.other t t.other_ne.symm] at mem
  cases mem

end Partners

/-- A diff in which a new node stands in for another one at each time. -/
structure Swaps (d d' : Diff) (w : Sides Handle) (y : Node) : Prop where
  regular : d'.Regular
  size : d'.size = d.size + 1
  payload : ∀ n, n ≠ d.size → d'.payload n = d.payload n
  new : d'.payload d.size = y.detached
  above : ∀ t n, n ≠ d.size →
    d'.above t (standIn (w.get t) d.size n) = (d.above t n).map (standIn (w.get t) d.size)
  below : ∀ t n, n ≠ d.size →
    d'.below t (standIn (w.get t) d.size n) = (d.below t n).map (standIn (w.get t) d.size)

namespace Swaps

variable {y : Node} (h : d.Swaps d' w y)

include h

/-- The new node is as it was made, but for its edges. -/
theorem told {α : Type} (f : Node → α) (detached : ∀ x : Node, f x.detached = f x) :
    f (d'.look d.size) = f y := by
  rw [← detached, ← Diff.payload, h.new, detached]

theorem kind_new (code : y.StillCode) : (d'.look d.size).kind = .artifact :=
  (h.told Node.kind fun _ => rfl).trans code.kind

theorem change_new (code : y.StillCode) : (d'.look d.size).change = .unchanged :=
  (h.told Node.change fun _ => rfl).trans code.change

theorem formula_new (code : y.StillCode) : (d'.look d.size).formula = none :=
  (h.told Node.formula fun _ => rfl).trans code.formula

theorem payload_old (hn : n < d.size) : d'.payload n = d.payload n := h.payload n hn.ne

theorem lives_new (code : y.StillCode) : d'.lives t d.size = true :=
  (unchanged_iff (h.size ▸ Nat.lt_succ_self _)).1 (h.change_new code) t

theorem lives_old (hn : n < d.size) : d'.lives t n = d.lives t n := by
  have inStore : n < d'.size := h.size ▸ Nat.lt_succ_of_lt hn
  rw [lives_look inStore, lives_look hn, existsAt_of_payload (h.payload_old hn)]

end Swaps

end Diff

namespace Simplification

open Diff Edit

variable {d d' : Diff} {ps : Time → Handle} {w : Sides Handle} {n : Handle} {t : Time}

/-- What is left of a diff when the pair was dropped. -/
structure Vacates (d d' : Diff) (w : Sides Handle) (ps : Time → Handle) : Prop where
  regular : d'.Regular
  size : d'.size = d.size
  payload : ∀ n, d'.payload n = d.payload n
  above : ∀ t n, d'.above t n = if n = w.get t then none else d.above t n
  below : ∀ t n, d'.below t n =
    if n = ps t then (d.below t n).filter (· != w.get t) else d.below t n

/-- A node that hangs somewhere at one time only is dropped there. -/
theorem run_drop_once {p : Handle} (hd : d.Regular) (hp : d.above t n = some p)
    (free : d.above t.other n = none) : (drop n).run d = .ok () (d.unlink p n t) := by
  have inStore := lt_size_of_above hp
  have inStore' : n < (d.unlink p n t).size := by simpa using inStore
  have run (u : Time) := run_dropAt (t := u) hd.toSymmetric inStore
  have run' (u : Time) := run_dropAt (t := u) (hd.unlink hp).toSymmetric inStore'
  change EStateM.run (dropAt n .before >>= fun _ => dropAt n .after >>= fun _ => pure ()) d = _
  rw [EStateM.run_bind, run .before]
  cases t with
  | before =>
    have free' : (d.unlink p n .before).above .after n = none := by
      rw [above_unlink, if_neg (by simp)]
      exact free
    rw [hp]
    dsimp only
    rw [EStateM.run_bind, run' .after, free']
    rfl
  | after =>
    have free : d.above .before n = none := free
    rw [free]
    dsimp only
    rw [EStateM.run_bind, run .after, hp]
    rfl

theorem run_dropBoth (h : d.Partners w ps) : ∃ d',
    (do drop w.before; drop w.after : Edit Unit).run d = .ok () d' ∧ Vacates d d' w ps := by
  have hd := h.toRegular
  have parent := h.parent
  let half := d.unlink (ps .before) w.before .before
  have hhalf : half.Regular := hd.unlink (parent .before)
  have after : half.above .after w.after = some (ps .after) := by
    rw [above_unlink, if_neg (by simp)]
    exact parent .after
  have free : half.above .before w.after = none := by
    rw [above_unlink]
    split
    · rfl
    · exact h.free .after
  refine ⟨half.unlink (ps .after) w.after .after, ?_, ?_⟩
  · have first : (drop w.before).run d = .ok () half :=
      run_drop_once hd (parent .before) (h.free .before)
    rw [EStateM.run_bind, first]
    exact run_drop_once hhalf after free
  · refine ⟨hhalf.unlink after, by simp [half], fun n => by simp [half], fun t n => ?_, fun t n => ?_⟩
    · rw [above_unlink, above_unlink]
      cases t
      · by_cases hn : n = w.before <;> simp [hn, Sides.get]
      · by_cases hn : n = w.after <;> simp [hn, Sides.get]
    · rw [below_unlink (by simpa [half] using h.parent_lt .after)]
      simp only [half, below_unlink (h.parent_lt .before)]
      cases t
      · by_cases hn : n = ps .before <;> simp [hn, Sides.get]
      · by_cases hn : n = ps .after <;> simp [hn, Sides.get]

/-- What is left when a new node took all children of the pair. -/
structure Adopts (d d' : Diff) (w : Sides Handle) (ps : Time → Handle) : Prop where
  regular : d'.Regular
  size : d'.size = d.size + 1
  payload : ∀ n, n ≠ d.size → d'.payload n = d.payload n
  above : ∀ t n, d'.above t n =
    if n = w.get t then none else (d.above t n).map (standIn (w.get t) d.size)
  below : ∀ t n, n ≠ d.size → n ≠ w.get t → d'.below t n =
    if n = ps t then (d.below t n).filter (· != w.get t) else d.below t n
  new : ∀ t, d'.below t d.size = d.below t (w.get t)

namespace Vacates

variable {d₀ d₁ : Diff} {y : Node} (h : d.Partners w ps) (gains : d.Gains d₀ y)
  (vacates : Vacates d₀ d₁ w ps)

include gains vacates

theorem size_eq : d₁.size = d.size + 1 := vacates.size.trans gains.size

theorem new_lt : d.size < d₁.size := vacates.size_eq gains ▸ Nat.lt_succ_self _

theorem below_eq : d₁.below t n =
    if n = ps t then (d.below t n).filter (· != w.get t) else d.below t n := by
  rw [vacates.below, gains.below]

include h

theorem before_lt : w.before < d₁.size :=
  vacates.size_eq gains ▸ Nat.lt_succ_of_lt (h.inStore .before)

theorem after_lt : w.after < d₁.size :=
  vacates.size_eq gains ▸ Nat.lt_succ_of_lt (h.inStore .after)

/-- Each of the pair has children at its own time only. -/
theorem below_other : d₁.below t (w.get t.other) = [] := by
  rw [vacates.below_eq gains, h.leaf t.other t t.other_ne.symm]
  simp

/-- The parents of the children of the pair are the new node. -/
theorem above_handed_both (regular : (d₁.handed d.size w.before).Regular) :
    ((d₁.handed d.size w.before).handed d.size w.after).above t n =
      if n = w.get t then none else (d.above t n).map (standIn (w.get t) d.size) := by
  have hk := vacates.new_lt gains
  rw [above_handed regular (by simpa using hk) (by simpa using vacates.after_lt h gains)]
  simp only [regular.edge, above_handed vacates.regular hk (vacates.before_lt h gains),
    vacates.regular.edge, vacates.above, gains.above]
  by_cases gone : n = w.get t
  · simp [gone]
  · cases hp : d.above t n with
    | none => simp [gone]
    | some p =>
      have apart := h.parent_ne hp
      have old : w.after ≠ d.size := (h.inStore .after).ne
      simp only [if_neg gone, Option.map_some, standIn]
      cases t with
      | before =>
        have apart : p ≠ w.after := apart
        by_cases here : p = w.before <;> simp [here, apart, old.symm, Sides.get]
      | after =>
        have apart : p ≠ w.before := apart
        obtain rfl | here := eq_or_ne p w.after
        · simp [apart, Sides.get]
        · simp [here, apart, Sides.get]

theorem below_handed_of_ne (new : n ≠ d.size) (out : n ≠ w.get t) :
    ((d₁.handed d.size w.before).handed d.size w.after).below t n = d₁.below t n := by
  have hk := vacates.new_lt gains
  have kept : n = w.get t.other → d₁.below t n = [] := by
    rintro rfl
    exact vacates.below_other h gains
  simp only [below_handed_eq (by simpa using hk : d.size < (d₁.handed d.size w.before).size),
    below_handed_eq hk, if_neg new, List.append_nil]
  cases t with
  | before =>
    rw [if_neg (show n ≠ w.before from out)]
    exact ite_eq_right_iff.2 fun e => (kept e).symm
  | after =>
    rw [if_neg (show n ≠ w.after from out)]
    exact ite_eq_right_iff.2 fun e => (kept e).symm

/-- The new node has the children of the pair. -/
theorem below_handed_new :
    ((d₁.handed d.size w.before).handed d.size w.after).below t d.size = d.below t (w.get t) := by
  have hk := vacates.new_lt gains
  have none : d₁.below t d.size = [] := by
    rw [vacates.below_eq gains, below_eq_nil (Nat.lt_irrefl _)]
    simp
  have own : d₁.below t (w.get t) = d.below t (w.get t) := by
    rw [vacates.below_eq gains, if_neg (h.loop t).symm]
  have other : d₁.below t (w.get t.other) = [] := vacates.below_other h gains
  have apart : w.after ≠ w.before := (h.other .before).symm
  have old : d.size ≠ w.after := (h.inStore .after).ne'
  rw [← own]
  simp only [below_handed_eq (by simpa using hk : d.size < (d₁.handed d.size w.before).size),
    below_handed_eq hk, none, if_neg apart, if_neg old, if_neg old.symm, ite_self, if_true,
    List.nil_append, List.append_nil]
  cases t with
  | before =>
    have other : d₁.below .before w.after = [] := other
    rw [other, List.append_nil]
    rfl
  | after =>
    have other : d₁.below .after w.before = [] := other
    rw [other]
    rfl

theorem adopts (regular : (d₁.handed d.size w.before).Regular)
    (regular' : ((d₁.handed d.size w.before).handed d.size w.after).Regular) :
    Adopts d ((d₁.handed d.size w.before).handed d.size w.after) w ps where
  regular := regular'
  size := by simpa using vacates.size_eq gains
  payload n hn := by simp [vacates.payload, gains.payload n hn]
  above t n := vacates.above_handed_both h gains regular
  below t n new out := by rw [vacates.below_handed_of_ne h gains new out, vacates.below_eq gains]
  new t := vacates.below_handed_new h gains

end Vacates

theorem run_adopt {d' : Diff} {y : Node} (h : d.Partners w ps) (gains : d.Gains d' y) :
    ∃ d'', (do
        drop w.before; drop w.after
        stealChildren d.size w.before; stealChildren d.size w.after : Edit Unit).run d' =
          .ok () d'' ∧ Adopts d d'' w ps ∧ d''.payload d.size = y.detached := by
  have partners : d'.Partners w ps := by
    refine ⟨gains.regular, fun t => ?_, fun t => ?_, fun t u hu => ?_, h.loop⟩
    · rw [← change_payload, gains.payload _ (h.inStore t).ne]
      exact h.change t
    · rw [gains.above]
      exact h.parent t
    · rw [gains.below]
      exact h.leaf t u hu
  obtain ⟨d₁, dropped, vacates⟩ := run_dropBoth partners
  obtain ⟨_, d₀, first, second⟩ := run_bind_eq_ok dropped
  have hk := vacates.new_lt gains
  have stolen := run_stealChildren vacates.regular hk (vacates.before_lt h gains)
  have regular := keeps_stealChildren.ok vacates.regular stolen
  have hk' : d.size < (d₁.handed d.size w.before).size := by simpa using hk
  have after' : w.after < (d₁.handed d.size w.before).size := by
    simpa using vacates.after_lt h gains
  have stolen' := run_stealChildren regular hk' after'
  have regular' := keeps_stealChildren.ok regular stolen'
  refine ⟨_, ?_, vacates.adopts h gains regular regular', by simp [vacates.payload, gains.new]⟩
  rw [EStateM.run_bind, first]
  dsimp only
  rw [EStateM.run_bind, second]
  dsimp only
  rw [EStateM.run_bind, stolen]
  exact stolen'

/-- Once the new node has the places of the pair, it stands in for them. -/
theorem Adopts.swaps {is : Time → Nat} {y : Node} (h : d.Partners w ps) (adopts : Adopts d d' w ps)
    (new : d'.payload d.size = y.detached) (hps : ∀ t, ps t < d'.size)
    (places : ∀ t, (d.below t (ps t)).idxOf? (w.get t) = some (is t))
    (regular : (d'.placed ps is d.size).Regular) : d.Swaps (d'.placed ps is d.size) w y := by
  have hk : d.size < d'.size := adopts.size ▸ Nat.lt_succ_self _
  refine ⟨regular, by simpa using adopts.size, fun n hn => payload_placed.trans (adopts.payload n hn),
    payload_placed.trans new, fun t n hn => ?_, fun t n hn => ?_⟩
  · rw [above_placed hk]
    by_cases here : n = w.get t
    · subst here
      rw [standIn_self, if_pos rfl, h.parent, Option.map_some, standIn_of_ne (h.loop t)]
    · rw [standIn_of_ne here, if_neg hn, adopts.above, if_neg here]
  · rw [below_placed hps]
    by_cases here : n = w.get t
    · subst here
      rw [standIn_self, if_neg (h.parent_lt t).ne', adopts.new, map_standIn_of_not_mem (h.not_mem t)]
    · rw [standIn_of_ne here, adopts.below t n hn here]
      by_cases top : n = ps t
      · subst top
        rw [if_pos rfl, if_pos rfl]
        exact (insertIdx_filter (h.once t (ps t)) (places t)).2
      · rw [if_neg top, if_neg top, map_standIn_of_not_mem]
        intro mem
        have up := h.above_of_mem mem
        rw [h.parent] at up
        exact top (Option.some.inj up).symm

theorem gains_appended {x : Node} (hd : d.Regular) (hc : ∀ t, x.children.get t = [])
    (hp : ∀ t, x.parent.get t = none) : d.Gains (d.append x) x where
  regular := hd.append hc hp
  size := by simp
  above t n := above_append hp
  below t n := below_append hc
  payload n other := by rw [payload_append, if_neg other]
  new := by rw [payload_append, if_pos rfl]

/-- Removed and added code can be merged. -/
theorem run_mergeMoved (h : d.Partners w ps) : ∃ d' y,
    (mergeMoved w.before w.after).run d = .ok () d' ∧ d.Swaps d' w y ∧ y.StillCode ∧
      y.label = (d.look w.after).label := by
  choose is slots places using fun t => run_slot h.toRegular (h.parent t)
  let x := d.look w.before
  let z := d.look w.after
  let y : Node :=
    { change := .unchanged, kind := .artifact, formula := none, label := ⟨z.label.lines⟩,
      start := ⟨min x.start.diff z.start.diff, x.start.before, z.start.after⟩,
      stop := ⟨max x.stop.diff z.stop.diff, x.stop.before, z.stop.after⟩ }
  have gains : d.Gains (d.append y) y :=
    gains_appended h.toRegular (fun t => by cases t <;> rfl) fun t => by cases t <;> rfl
  obtain ⟨d₁, taken, adopts, new⟩ := run_adopt h gains
  have hk : d.size < d₁.size := adopts.size ▸ Nat.lt_succ_self _
  have hps (t : Time) : ps t < d₁.size := adopts.size ▸ Nat.lt_succ_of_lt (h.parent_lt t)
  have change : (d₁.look d.size).change = .unchanged := by
    rw [← change_payload, new]
    rfl
  have free (t : Time) : d₁.above t d.size = none := by
    rw [adopts.above, if_neg (h.inStore t).ne', above_eq_none (Nat.lt_irrefl _)]
    rfl
  have fits (t : Time) : is t ≤ (d₁.below t (ps t)).length := by
    rw [adopts.below t _ (h.parent_lt t).ne (h.loop t), if_pos rfl]
    exact (insertIdx_filter (n := d.size) (h.once t (ps t)) (places t)).1
  have stands := run_place hk change free hps fits
  have regular := (keeps_place durable_regular).ok adopts.regular stands
  refine ⟨_, y, ?_, adopts.swaps h new hps places regular, ⟨rfl, rfl, rfl⟩, rfl⟩
  have added : (addArtifact .unchanged y.start y.stop z.label.lines).run d =
      .ok d.size (d.append y) := rfl
  obtain ⟨_, e₁, first, taken⟩ := run_bind_eq_ok taken
  obtain ⟨_, e₂, second, taken⟩ := run_bind_eq_ok taken
  obtain ⟨_, e₃, third, fourth⟩ := run_bind_eq_ok taken
  have slot : (slot? w.before .before).run d = _ := slots .before
  have slot' : (slot? w.after .after).run d = _ := slots .after
  have asked : (ask (·.node w.before)).run d = .ok x d :=
    run_ask_node (getElem?_look (h.inStore .before))
  have asked' : (ask (·.node w.after)).run d = .ok z d :=
    run_ask_node (getElem?_look (h.inStore .after))
  simp only [mergeMoved, EStateM.run_bind, slot, slot', asked, asked']
  rw [added]
  simp only [first, second, third, fourth, stands]

end Simplification

/-! ## The trees of the merged diff -/

namespace Diff

/-- The trees in which one node stands in for another one at each time. -/
def standIns (s : Sides (Forest Handle)) (w : Sides Handle) (m : Handle) : Sides (Forest Handle) :=
  ⟨s.before.map (standIn w.before m), s.after.map (standIn w.after m)⟩

theorem get_standIns {s : Sides (Forest Handle)} {w : Sides Handle} {m : Handle} {t : Time} :
    (standIns s w m).get t = (s.get t).map (standIn (w.get t) m) := by cases t <;> rfl

/-- Code of the tree before the edit that was removed, and code of the tree after it that was added. -/
structure Movable (d : Diff) (s : Sides (Forest Handle)) (w : Sides Handle) : Prop where
  inTree : ∀ t, w.get t ∈ (s.get t).flatten
  change : ∀ t, (d.look (w.get t)).change = .onlyAt t
  code : ∀ t, (d.look (w.get t)).kind = .artifact

namespace Movable

variable {d d' : Diff} {s : Sides (Forest Handle)} {w : Sides Handle} {y : Node} {n m p c : Handle}
  {t u : Time}

theorem inStore (h : d.Movable s w) (twofold : d.Twofold s) (t : Time) : w.get t < d.size :=
  (twofold.shape t).spans.lt_size (h.inTree t)

/-- Each of the two is in one tree only. -/
theorem not_mem (h : d.Movable s w) (twofold : d.Twofold s) (other : u ≠ t)
    (hn : n ∈ root :: (s.get u).flatten) : n ≠ w.get t := by
  rintro rfl
  have there : d.lives u (w.get t) = true := by
    refine twofold.lives_of_mem (List.mem_of_ne_of_mem (fun e => ?_) hn)
    exact (twofold.shape t).root_not_mem (e ▸ h.inTree t)
  rw [lives_look (h.inStore twofold t), Node.existsAt, h.change, Change.existsAt_onlyAt] at there
  exact other (beq_iff_eq.1 there)

theorem partners (h : d.Movable s w) (twofold : d.Twofold s) : ∃ ps, d.Partners w ps := by
  choose ps hps top using fun t => (twofold.shape t).exists_above twofold.toSymmetric (h.inTree t)
  refine ⟨ps, twofold.toRegular, h.change, hps, fun t u other => ?_,
    fun t => twofold.parent_ne (h.inTree t) (hps t)⟩
  rw [List.eq_nil_iff_forall_not_mem]
  intro c hc
  have there := twofold.there t u _ c (List.mem_cons_of_mem _ (h.inTree t)) hc
  have mem := twofold.here t u _ (List.mem_cons_of_mem _ (h.inTree t)) there
  exact h.not_mem twofold other mem rfl

variable (h : d.Movable s w) (twofold : d.Twofold s)

include h twofold

theorem root_ne (t : Time) : root ≠ w.get t := fun e =>
  (twofold.shape t).root_not_mem (e ▸ h.inTree t)

theorem mem_standIns : n ∈ root :: ((standIns s w d.size).get t).flatten ↔
    ∃ x ∈ root :: (s.get t).flatten, standIn (w.get t) d.size x = n := by
  have top : standIn (w.get t) d.size root = root := standIn_of_ne (h.root_ne twofold t)
  rw [get_standIns, ← List.mem_map, List.map_cons, top, Forest.flatten_map]

/-- What is in one of the new trees is the new node, or was in the tree and is none of the two. -/
theorem mem_cases (hn : n ∈ root :: ((standIns s w d.size).get t).flatten) :
    n = d.size ∨ (n < d.size ∧ n ∈ root :: (s.get t).flatten ∧ ∀ u, n ≠ w.get u) := by
  obtain ⟨x, hx, rfl⟩ := (h.mem_standIns twofold).1 hn
  by_cases here : x = w.get t
  · exact .inl (here ▸ standIn_self)
  · rw [standIn_of_ne here]
    refine .inr ⟨twofold.lt_size hx, hx, fun u => ?_⟩
    by_cases same : t = u
    · exact same ▸ here
    · exact h.not_mem twofold same hx

/-- The new node is in both trees, and what was in a tree is there still if it is none of the two. -/
theorem new_mem : d.size ∈ root :: ((standIns s w d.size).get t).flatten :=
  (h.mem_standIns twofold).2 ⟨_, List.mem_cons_of_mem _ (h.inTree t), standIn_self⟩

theorem old_mem (hn : n ∈ root :: (s.get t).flatten) (other : ∀ u, n ≠ w.get u) :
    n ∈ root :: ((standIns s w d.size).get t).flatten :=
  (h.mem_standIns twofold).2 ⟨n, hn, standIn_of_ne (other t)⟩

variable (swaps : d.Swaps d' w y)

include swaps

/-- The new node has the place of the pair in each tree. -/
theorem renamed (code : y.StillCode) :
    Renamed d d' s (standIns s w d.size) fun t => standIn (w.get t) d.size := by
  have old {t : Time} {n : Handle} (hn : n ∈ root :: (s.get t).flatten) : n < d.size :=
    twofold.lt_size hn
  have kind := swaps.kind_new code
  refine ⟨swaps.regular, fun t => ?_, fun t => get_standIns,
    fun t => standIn_of_ne (h.root_ne twofold t),
    fun t m hm k hk e => standIn_inj (old hm).ne (old hk).ne e, fun t m hm => ?_,
    fun t m hm => swaps.below t m (old hm).ne, fun t m hm => ?_, fun t m hm => ?_,
    fun u t n hn there => ?_, fun u t n c hn hc => ?_⟩
  · have top := swaps.above t root twofold.root_lt.ne
    rwa [standIn_of_ne (h.root_ne twofold t), twofold.free] at top
  · rw [swaps.size]
    exact standIn_lt (Nat.lt_succ_self _) (Nat.lt_succ_of_lt (old hm))
  · by_cases here : m = w.get t
    · rw [here, standIn_self, kind, h.code]
    · rw [standIn_of_ne here]
      exact kind_of_payload (swaps.payload_old (old hm))
  · by_cases here : m = w.get t
    · subst here
      rw [standIn_self, swaps.formula_new code, twofold.formula t _ hm, h.code]
      rfl
    · rw [standIn_of_ne here, formula_of_payload (swaps.payload_old (old hm))]
  · obtain rfl | ⟨old, mem, other⟩ := h.mem_cases twofold hn
    · exact h.new_mem twofold
    · rw [swaps.lives_old old] at there
      exact h.old_mem twofold (twofold.here u t n mem there) other
  · obtain rfl | ⟨old, mem, other⟩ := h.mem_cases twofold hn
    · exact swaps.lives_new code
    · have children := swaps.below t n old.ne
      rw [standIn_of_ne (other t)] at children
      rw [children] at hc
      obtain ⟨c', hc', -⟩ := List.mem_map.1 hc
      rw [swaps.lives_old old]
      exact twofold.there u t n c' mem hc'

theorem swapped (code : y.StillCode) : d'.Twofold (standIns s w d.size) :=
  (h.renamed twofold swaps code).twofold twofold

end Movable

end Diff

end Variation
