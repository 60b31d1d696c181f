import Variation.Proofs.Tour
import Variation.Proofs.Trimmed

/-!
# What cutting drops

A node is idle if nothing was edited at or below it and none of these nodes was moved: it has one
parent at both times, and all that hangs below it is idle. Cutting goes along the tour. When it leaves
a node all its idle children are leaves, and these it drops. The main statements say that cutting drops
the idle nodes and no others, and that it leaves a diff without idle nodes alone.
-/

namespace Variation

namespace Diff

/-- A node that has one parent at both times, as has everything below it. -/
inductive Idle (d : Diff) : Handle → Prop
  | intro {n p : Handle} (parent : ∀ t, d.above t n = some p)
    (children : ∀ t c, d.above t c = some n → Idle d c) : Idle d n

/-- Every node below the root that has one parent at both times has a child. -/
def Pruned (d : Diff) : Prop :=
  ∀ n p, d.Reaches n → (∀ t, d.above t n = some p) → ∃ t c, d.above t c = some n

section Idle

variable {d d' d'' : Diff} {n p c : Handle} {t u : Time} {seen ns done : List Handle}
  {f : Forest Handle}

theorem Idle.child (h : d.Idle n) (hc : d.above t c = some n) : d.Idle c := by
  obtain ⟨-, children⟩ := h
  exact children t c hc

/-- The parent of an idle node is its parent at both times. -/
theorem Idle.parent (h : d.Idle n) (hp : d.above t n = some p) (u : Time) :
    d.above u n = some p := by
  obtain ⟨parent, -⟩ := h
  rw [parent] at hp
  rw [parent, hp]

/-- No idle node hangs below itself. -/
theorem Idle.not_self (h : d.Idle n) : d.above t n ≠ some n := by
  induction h with
  | intro parent children ih => exact fun loop => ih t _ loop loop

theorem not_idle_root (free : d.above t root = none) : ¬ d.Idle root := by
  rintro ⟨parent, -⟩
  rw [parent] at free
  cases free

/-- The parents of the given idle nodes are met. -/
def Upward (d : Diff) (ns seen : List Handle) : Prop :=
  ∀ n ∈ ns, d.Idle n → ∀ t p, d.above t n = some p → p ∈ seen

theorem Upward.mono {seen' : List Handle} (h : d.Upward ns seen) (sub : seen ⊆ seen') :
    d.Upward ns seen' :=
  fun n hn idle t p hp => sub (h n hn idle t p hp)

/-- A node that waits may be met. -/
theorem Upward.visit (met : d.Upward seen seen) (waiting : d.Upward (n :: ns) seen) :
    d.Upward (n :: seen) (n :: seen) := by
  have more := List.subset_cons_self n seen
  refine List.forall_mem_cons.2 ⟨?_, met.mono more⟩
  exact waiting.mono more n List.mem_cons_self

theorem Upward.tail (h : d.Upward (n :: ns) seen) : d.Upward ns seen :=
  (List.forall_mem_cons.1 h).2

/-- An idle node comes below its parent only. -/
theorem upward_belowBoth (hd : d.Symmetric) : d.Upward (d.belowBoth n) (n :: seen) := by
  intro c hc idle t p hp
  obtain ⟨u, up⟩ := hd.exists_above hc
  rw [idle.parent up t] at hp
  exact Option.some.inj hp ▸ List.mem_cons_self

/-! ## Dropping some nodes -/

/-- A diff from which some idle nodes were taken. -/
structure Drops (d d' : Diff) (gone : Handle → Prop) : Prop where
  trims : d.Trims d'
  idle : ∀ n, gone n → d.Idle n
  kept : ∀ n, ¬ gone n → ∀ t, d'.above t n = d.above t n
  free : ∀ n, gone n → ∀ t, d'.above t n = none
  below : ∀ n, (∀ t c, d.above t c = some n → ¬ gone c) → ∀ t, d'.below t n = d.below t n
  order : ∀ n t, (d'.below t n).Sublist (d.below t n)

namespace Drops

variable {gone gone' : Handle → Prop}

theorem refl (hd : d.Regular) (sound : d.Sound) : d.Drops d fun _ => False :=
  ⟨.refl hd sound, fun _ h => h.elim, fun _ _ _ => rfl, fun _ h => h.elim, fun _ _ _ => rfl,
    fun _ _ => .refl _⟩

theorem congr (h : d.Drops d' gone) (same : ∀ n, gone' n ↔ gone n) : d.Drops d' gone' := by
  obtain rfl : gone' = gone := funext fun n => propext (same n)
  exact h

/-- A parent that a node still has is the one it had. -/
theorem above_old (h : d.Drops d' gone) (hp : d'.above t n = some p) :
    ¬ gone n ∧ d.above t n = some p := by
  have here : ¬ gone n := fun out => by
    rw [h.free n out] at hp
    cases hp
  exact ⟨here, h.kept n here t ▸ hp⟩

/-- A leaf that hangs at one place at both times is idle, if what hung below it was, and can be
dropped. -/
theorem drop (h : d.Drops d' gone) (leaf : ∀ t, d'.below t c = []) (hp : ∀ t, d'.above t c = some p) :
    d.Drops (d'.pruned (fun _ => p) c) fun n => gone n ∨ n = c := by
  have hd' := h.trims.regular
  have parent (t : Time) : d.above t c = some p := (h.above_old (hp t)).2
  have idle : d.Idle c := by
    refine .intro parent fun t m hm => ?_
    by_contra busy
    have up : d'.above t m = some c := by
      rw [h.kept m fun out => busy (h.idle m out), hm]
    have mem := hd'.mem_of_above up
    rw [leaf] at mem
    cases mem
  refine ⟨h.trims.trans (trims_pruned hd' h.trims.sound hp leaf), ?_, fun n hn t => ?_, ?_,
    fun n full t => ?_, fun n t => ?_⟩
  · rintro n (out | rfl)
    · exact h.idle n out
    · exact idle
  · rw [not_or] at hn
    rw [above_pruned, if_neg hn.2, h.kept n hn.1]
  · rintro n (out | rfl) t
    · rw [above_pruned, h.free n out, ite_self]
    · rw [above_pruned, if_pos rfl]
  · have other : n ≠ p := fun e => full t c (e ▸ parent t) (.inr rfl)
    rw [below_pruned fun t => hd'.parent_lt (hp t), if_neg other]
    exact h.below n (fun u m hm out => full u m hm (.inl out)) t
  · rw [below_pruned fun t => hd'.parent_lt (hp t)]
    split
    · exact List.filter_sublist.trans (h.order n t)
    · exact h.order n t

/-- What is not idle is reached still. -/
theorem reaches (h : d.Drops d' gone) (hd : d.Regular) (hn : d.Reaches n)
    (busy : ¬ d.Idle n) : d'.Reaches n := by
  induction hn with
  | root => exact .root
  | @child t p c hp hc ih =>
    have up := hd.above_of_mem hc
    have here : ¬ gone c := fun out => busy (h.idle c out)
    refine (ih fun idle => busy (idle.child up)).child (t := t) (h.trims.regular.mem_of_above ?_)
    rw [h.kept c here, up]

end Drops

end Idle

end Diff

namespace Simplification

open Diff Edit

variable {d d' : Diff} {n p c : Handle} {t : Time} {seen ns done : List Handle}
  {f : Forest Handle} {gone : Handle → Prop} {marks : Marks} {levels : Nat}

/-- The unedited leaves among the children of a node are dropped; these are the idle ones, if nothing
hangs below idle children any more. -/
theorem run_dropUneditedLeaves {cs : List Handle} (h : d.Drops d' gone) (hcs : ∀ c ∈ cs, c < d.size)
    (hp : ∀ c ∈ cs, ∃ t, d.above t c = some p)
    (bare : ∀ c ∈ cs, d.Idle c → ∀ t m, d.above t m = some c → gone m) :
    ∃ d'', (dropUneditedLeaves p cs).run d' = .ok () d'' ∧
      d.Drops d'' fun n => gone n ∨ (n ∈ cs ∧ d.Idle n) := by
  induction cs generalizing d' gone with
  | nil => exact ⟨d', rfl, h.congr fun n => by simp⟩
  | cons c cs ih =>
    obtain ⟨hc, hcs⟩ := List.forall_mem_cons.1 hcs
    obtain ⟨⟨u, up⟩, hp⟩ := List.forall_mem_cons.1 hp
    obtain ⟨below, bare⟩ := List.forall_mem_cons.1 bare
    obtain ⟨b, answer, told⟩ := isUneditedLeaf_spec (p := p) (d := d') (c := c) (h.trims.size ▸ hc)
    have step : ∃ d₁, (do if ← ask (isUneditedLeaf p c) then drop c : Edit Unit).run d' = .ok () d₁ ∧
        d.Drops d₁ fun n => gone n ∨ (n = c ∧ d.Idle n) := by
      rw [EStateM.run_bind, run_ask_ok answer]
      cases b with
      | true =>
        obtain ⟨leaf, parent⟩ := told.1 rfl
        have dropped := h.drop leaf parent
        refine ⟨_, run_drop h.trims.regular parent, dropped.congr fun n => ?_⟩
        exact or_congr_right (and_iff_left_of_imp fun e => dropped.idle n (.inr e))
      | false =>
        refine ⟨d', rfl, h.congr fun n => or_iff_left_of_imp ?_⟩
        rintro ⟨rfl, idle⟩
        by_contra here
        have parent (t : Time) : d'.above t n = some p := by
          rw [h.kept n here, idle.parent up]
        refine Bool.false_ne_true (told.2 ⟨fun t => List.eq_nil_iff_forall_not_mem.2 fun m hm => ?_,
          parent⟩)
        obtain ⟨inside, hm⟩ := h.above_old (h.trims.regular.above_of_mem hm)
        exact inside (below idle t m hm)
    obtain ⟨d₁, run₁, drops₁⟩ := step
    obtain ⟨d₂, run₂, drops₂⟩ := ih drops₁ hcs hp fun c hc idle t m hm => .inl (bare c hc idle t m hm)
    refine ⟨d₂, ?_, drops₂.congr fun n => ?_⟩
    · change EStateM.run (_ >>= fun _ => dropUneditedLeaves p cs) d' = _
      rw [EStateM.run_bind, run₁]
      exact run₂
    · rw [List.mem_cons]
      tauto

/-- What is dropped once some nodes were left: their idle children. -/
def Left (d : Diff) (done : List Handle) (c : Handle) : Prop :=
  d.Idle c ∧ ∃ p ∈ done, ∃ t, d.above t c = some p

theorem left_congr {done' : List Handle} (same : ∀ p, p ∈ done' ↔ p ∈ done) :
    Left d done' c ↔ Left d done c := by
  simp only [Left, same]

theorem left_cons : Left d (n :: done) c ↔
    Left d done c ∨ (∃ t, d.above t c = some n) ∧ d.Idle c := by
  simp only [Left, List.exists_mem_cons_iff]
  exact and_or_left.trans (or_comm.trans (or_congr_right and_comm))

/-- The state of a cut: some nodes were met, and the idle children of those that were left are
gone. -/
structure Cuts (d d' : Diff) (marks : Marks) (seen done : List Handle) : Prop where
  size : marks.size = d.size
  marked : ∀ n, marks.has n = true ↔ n ∈ seen
  met : d.Upward seen seen
  sub : done ⊆ seen
  drops : d.Drops d' (Left d done)

namespace Cuts

theorem visit (h : Cuts d d' marks seen done) (waiting : d.Upward (n :: ns) seen) (hn : n < d.size) :
    Cuts d d' (marks.mark n) (n :: seen) done := by
  refine ⟨by rw [Marks.size_mark, h.size], fun m => ?_, h.met.visit waiting,
    List.subset_cons_of_subset n h.sub, h.drops⟩
  rw [Marks.has_mark, h.size]
  simp only [hn, decide_true, Bool.and_true, Bool.or_eq_true, beq_iff_eq, h.marked, List.mem_cons,
    eq_comm (a := n)]

/-- A node that was not left has all its children. -/
theorem allChildren_eq (h : Cuts d d' marks seen done) (hn : n < d.size) (here : n ∉ done) :
    d'.allChildren n = .ok (d.belowBoth n) := by
  have full : ∀ t c, d.above t c = some n → ¬ Left d done c := by
    rintro t c hc ⟨idle, q, hq, u, up⟩
    rw [idle.parent hc u] at up
    exact here (Option.some.inj up ▸ hq)
  rw [Diff.allChildren_eq (h.drops.trims.size ▸ hn), belowBoth, h.drops.below n full,
    h.drops.below n full]
  rfl

/-- A node is left: its idle children are leaves by now, and are dropped. -/
theorem leave (h : Cuts d d' marks seen done) (hd : d.Regular) (hn : n ∈ seen) (here : n ∉ done)
    (inner : ∀ c ∈ d.belowBoth n, d.Idle c → c ∈ done) :
    ∃ d'', (do dropUneditedLeaves n (← ask (·.allChildren n)) : Edit Unit).run d' = .ok () d'' ∧
      Cuts d d'' marks seen (n :: done) := by
  have inStore : n < d.size := by
    have marked := (h.marked n).2 hn
    rw [Marks.has, beq_iff_eq] at marked
    exact h.size ▸ (Array.getElem?_eq_some_iff.1 marked).1
  obtain ⟨d'', run, drops⟩ := run_dropUneditedLeaves h.drops
    (fun c hc => hd.lt_size_of_mem_belowBoth hc) (fun c hc => hd.exists_above hc)
    fun c hc idle t m hm => ⟨idle.child hm, c, inner c hc idle, t, hm⟩
  refine ⟨d'', ?_, h.size, h.marked, h.met, List.cons_subset.2 ⟨hn, h.sub⟩, drops.congr fun m => ?_⟩
  · rw [EStateM.run_bind, run_ask_ok (h.allChildren_eq inStore here)]
    exact run
  · rw [left_cons, mem_belowBoth]
    simp only [hd.edge]

/-- A tour that is followed. Every node takes one level, so there are enough levels if there are more
of them than nodes that were not met. -/
theorem run_tours (h : Cuts d d' marks seen done) (hd : d.Regular) (tours : d.Tours seen ns f)
    (hns : ∀ n ∈ ns, n < d.size) (waiting : d.Upward ns seen)
    (room : (d.unseen seen).length < levels) :
    ∃ marks' d'', (ns.foldlM (cutBelow levels) marks).run d' = .ok marks' d'' ∧
      Cuts d d'' marks' (f.flatten.reverse ++ seen) (f.flatten.reverse ++ done) := by
  induction tours generalizing done marks levels d' with
  | nil seen => exact ⟨marks, d', rfl, h⟩
  | @skip seen ns n f old rest ih =>
    obtain ⟨marks', d'', run, spec⟩ := ih h (List.forall_mem_cons.1 hns).2 waiting.tail room
    refine ⟨marks', d'', ?_, spec⟩
    obtain ⟨k, rfl⟩ : ∃ k, levels = k + 1 := ⟨levels - 1, by omega⟩
    have stays : (cutBelow (k + 1) marks n).run d' = .ok marks d' := by
      rw [cutBelow, if_pos ((h.marked n).2 old)]
      rfl
    rw [List.foldlM_cons, EStateM.run_bind, stays]
    exact run
  | @visit seen ns n below rest new inner outer ihb ihr =>
    obtain ⟨hn, hns⟩ := List.forall_mem_cons.1 hns
    obtain ⟨k, rfl⟩ : ∃ k, levels = k + 1 := ⟨levels - 1, by omega⟩
    have here : n ∉ done := fun hn => new (h.sub hn)
    have children : ∀ c ∈ d.belowBoth n, c < d.size := fun c hc => hd.lt_size_of_mem_belowBoth hc
    have start := h.visit waiting hn
    have less := length_unseen_lt hn new (List.Subset.refl (n :: seen))
    have room₁ : (d.unseen (n :: seen)).length < k := by omega
    have less' := length_unseen_lt hn new (List.subset_append_right below.flatten.reverse _)
    have room₂ : (d.unseen (below.flatten.reverse ++ n :: seen)).length < k + 1 := by omega
    obtain ⟨marks₁, d₁, run₁, cuts₁⟩ := ihb start children (upward_belowBoth hd.toSymmetric) room₁
    -- an idle child is met below its parent only, so it was met just now
    have bare : ∀ c ∈ d.belowBoth n, d.Idle c → c ∈ below.flatten.reverse ++ done := by
      intro c hc idle
      obtain ⟨t, up⟩ := hd.exists_above hc
      obtain old | met := inner.mem_of_mem c hc
      · obtain rfl | old := List.mem_cons.1 old
        · exact absurd up idle.not_self
        · exact absurd (h.met c old idle t n up) new
      · exact List.mem_append_left _ (List.mem_reverse.2 met)
    have out : n ∉ below.flatten.reverse ++ done := by
      rw [List.mem_append, List.mem_reverse, not_or]
      exact ⟨fun hn => inner.nodup.2 n hn List.mem_cons_self, here⟩
    obtain ⟨d₂, run₂, cuts₂⟩ :=
      cuts₁.leave hd (List.mem_append_right _ List.mem_cons_self) out bare
    obtain ⟨marks', d'', run', cuts'⟩ := ihr cuts₂ hns
      (waiting.tail.mono (List.subset_append_of_subset_right _ (List.subset_cons_self n seen))) room₂
    have order := Forest.reverse_flatten_cons n below rest
    have same (p : Handle) : p ∈ (Forest.cons n below rest).flatten.reverse ++ done ↔
        p ∈ rest.flatten.reverse ++ n :: (below.flatten.reverse ++ done) := by
      rw [order]
      simp only [List.mem_append, List.mem_cons]
      tauto
    refine ⟨marks', d'', ?_, cuts'.size, order seen ▸ cuts'.marked, order seen ▸ cuts'.met,
      fun p hp => order seen ▸ cuts'.sub ((same p).1 hp), cuts'.drops.congr fun c => left_congr same⟩
    have visited : (cutBelow (k + 1) marks n).run d' = .ok marks₁ d₂ := by
      rw [cutBelow, if_neg fun marked => new ((h.marked n).1 marked), EStateM.run_bind,
        run_ask_ok (h.allChildren_eq hn here)]
      dsimp only
      rw [EStateM.run_bind, run₁]
      dsimp only
      rw [← bind_assoc, EStateM.run_bind, run₂]
      rfl
    rw [List.foldlM_cons, EStateM.run_bind, visited]
    exact run'

end Cuts

/-- Cutting drops idle nodes only, and those below the root all. -/
theorem run_cut_drops (hd : d.Regular) (sound : d.Sound) :
    ∃ d' gone, cut.run.run d = .ok () d' ∧ d.Drops d' gone ∧
      ∀ n, d.Reaches n → (d'.Reaches n ↔ ¬ d.Idle n) := by
  obtain ⟨f, tour⟩ := Tour.exists_tour hd
  have start : Cuts d d (Marks.none d.size) [] [] := by
    refine ⟨by simp [Marks.none], by simp [Marks.none, Marks.has, Array.getElem?_replicate],
      fun n hn => absurd hn List.not_mem_nil, List.Subset.refl _, (Drops.refl hd sound).congr ?_⟩
    simp [Left]
  have free := root_free hd.root sound
  have waiting : d.Upward [root] [] :=
    List.forall_mem_singleton.2 fun idle => absurd idle (not_idle_root (free .before))
  have room : (d.unseen []).length < d.size + 1 := by simp [unseen]
  obtain ⟨marks, d', run, cuts⟩ :=
    start.run_tours hd tour.tours (List.forall_mem_singleton.2 hd.root_lt) waiting room
  have met {n : Handle} (hn : d.Reaches n) : n ∈ (Forest.tree root f).flatten.reverse ++ [] := by
    simpa [or_comm] using tour.mem_iff.2 hn
  refine ⟨d', _, ?_, cuts.drops, fun n hn => ⟨fun reached idle => ?_, cuts.drops.reaches hd hn⟩⟩
  · rw [List.foldlM_cons] at run
    obtain ⟨_, _, visited, done⟩ := run_bind_eq_ok run
    cases done
    change EStateM.run (cutBelow (d.size + 1) (Marks.none d.size) root >>= fun _ => pure ()) d = _
    rw [EStateM.run_bind, visited]
    rfl
  · -- the root is not idle, and what hangs below something is gone
    cases hn with
    | root => exact not_idle_root (free .before) idle
    | child hp hc =>
      have up := hd.above_of_mem hc
      have gone := cuts.drops.free n ⟨idle, _, met hp, _, up⟩
      cases reached with
      | root => exact not_idle_root (free .before) idle
      | child _ hc =>
        have up := cuts.drops.trims.regular.above_of_mem hc
        rw [gone] at up
        cases up

/-- Cutting drops the idle nodes below the root and leaves everything else. -/
theorem run_cut (hd : d.Regular) (sound : d.Sound) :
    ∃ d', cut.run.run d = .ok () d' ∧ d.Trims d' ∧
      ∀ n, d.Reaches n → (d'.Reaches n ↔ ¬ d.Idle n) := by
  obtain ⟨d', gone, run, drops, reaches⟩ := run_cut_drops hd sound
  exact ⟨d', run, drops.trims, reaches⟩

/-- What is left below the root after a cut has no unedited leaves. -/
theorem pruned_of_cut (hd : d.Regular) (trims : d.Trims d')
    (reaches : ∀ n, d.Reaches n → (d'.Reaches n ↔ ¬ d.Idle n)) : d'.Pruned := by
  intro n p hn hp
  have reached := trims.reaches n hn
  have busy := (reaches n reached).1 hn
  by_contra! bare
  refine busy (.intro (fun t => trims.above n hn t ▸ hp t) fun t c hc => ?_)
  -- a child that is not idle would be there still
  by_contra other
  have below := (reaches c (reached.child (hd.mem_of_above hc))).2 other
  exact bare t c ((trims.above c below t).trans hc)

theorem carries_dropUneditedLeaves (hd : d.Regular) (pruned : d.Pruned) {cs : List Handle}
    (hcs : ∀ c ∈ cs, d.Reaches c) : Carries (· = d) (dropUneditedLeaves p cs) := by
  refine .forM fun c hc => .of_ask fun e same => ?_
  subst same
  obtain ⟨b, answer, told⟩ := isUneditedLeaf_spec (p := p) ((hcs c hc).lt_size hd)
  refine ⟨b, answer, ?_⟩
  cases b with
  | false => exact ⟨(), e, rfl, rfl⟩
  | true =>
    obtain ⟨leaf, parent⟩ := told.1 rfl
    obtain ⟨t, m, up⟩ := pruned c p (hcs c hc) parent
    have mem := hd.mem_of_above up
    rw [leaf] at mem
    cases mem

theorem carries_cutBelow (hd : d.Regular) (pruned : d.Pruned) (hn : d.Reaches n) :
    Carries (· = d) (cutBelow levels marks n) := by
  induction levels generalizing n marks with
  | zero => exact .pure marks
  | succ levels ih =>
    have children : ∀ c ∈ d.belowBoth n, d.Reaches c := fun c hc => hn.of_mem_belowBoth hc
    have answer := allChildren_eq (hn.lt_size hd)
    rw [cutBelow]
    split
    · exact .pure marks
    · have descend : Carries (· = d) ((d.belowBoth n).foldlM (cutBelow levels) (marks.mark n)) :=
        .foldlM (fun _ c hc => ih (children c hc)) _
      have spare := carries_dropUneditedLeaves (p := n) hd pruned children
      refine .of_ask fun e same => ⟨_, same ▸ answer, descend.bind (fun marks => ?_) e same⟩
      exact .of_ask fun e same => ⟨_, same ▸ answer, spare.bind (fun _ => .pure marks) e same⟩

/-- A diff without unedited leaves is not changed by a cut. -/
theorem cut_of_pruned (hd : d.Regular) (pruned : d.Pruned) : cut.run.run d = .ok () d := by
  have carried : Carries (· = d) (cutBelow (d.size + 1) (Marks.none d.size) root) :=
    carries_cutBelow hd pruned .root
  obtain ⟨marks, d', run, rfl⟩ := carried d rfl
  change EStateM.run (cutBelow (d'.size + 1) (Marks.none d'.size) root >>= fun _ => pure ()) d' = _
  rw [EStateM.run_bind, run]
  rfl

end Simplification

end Variation
