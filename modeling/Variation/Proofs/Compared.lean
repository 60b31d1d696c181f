import Variation.Diff.Same
import Variation.Proofs.Consistency
import Variation.Proofs.Same
import Variation.Proofs.Selection
import Variation.Proofs.Tour
import Mathlib.Data.List.Forall2
import Mathlib.Data.List.Zip

/-!
# What the comparison of two diffs decides

The comparison walks two diffs in step: if two nodes stand opposite each other, then so do their
children, in their order. It marks nodes of the first diff only and takes a node that it
meets once more as equal, whatever stands opposite it this time. `Aligns` tells the pairs that are
met; the diffs say the same exactly if all of them are alike. Every diff says the same as itself. The
order of the two matters, though, where one node of the first diff stands opposite several nodes of
the second one. Where that does not happen the walk has compared everything, and the comparison can
be turned around and continued with a third diff.
-/

namespace Variation

theorem Node.agrees_iff {x y : Node} : x.agrees y = true ↔ x.face = y.face := by
  refine ⟨fun h => ?_, agrees_of_face⟩
  simp only [agrees, Bool.and_eq_true, beq_iff_eq] at h
  obtain ⟨⟨⟨⟨⟨change, kind⟩, start⟩, stop⟩, formula⟩, label⟩ := h
  simp [face, detached, change, kind, start, stop, formula, label]

namespace Diff

variable {a b c : Diff} {p q : Handle × Handle} {ps qs : List (Handle × Handle)}
  {seen : List Handle} {marks : Marks} {levels : Nat}

/-- The children of two nodes that are compared, each with its partner. -/
def meet (a b : Diff) (p : Handle × Handle) : List (Handle × Handle) :=
  (a.belowBoth p.1).zip (b.belowBoth p.2)

/-- Two nodes that stand opposite each other when two diffs are followed in step. -/
inductive Opposite (a b : Diff) : Handle × Handle → Prop
  | root : Opposite a b (root, root)
  | child {p c : Handle × Handle} (h : Opposite a b p) (hc : c ∈ a.meet b p) : Opposite a b c

/-- Two nodes look alike and have equally many children. -/
def Corresponds (a b : Diff) (p : Handle × Handle) : Prop :=
  a.face p.1 = b.face p.2 ∧ (a.belowBoth p.1).length = (b.belowBoth p.2).length

/-- All nodes that stand opposite each other are alike. -/
def Similar (a b : Diff) : Prop := ∀ p, Opposite a b p → Corresponds a b p

/-- Each node of the first diff stands opposite one node of the second one at most. -/
def Faithful (a b : Diff) : Prop :=
  ∀ p q, Opposite a b p → Opposite a b q → p.1 = q.1 → p.2 = q.2

/-! ## Nodes that stand opposite each other -/

theorem mem_belowBoth_of_mem_meet (h : q ∈ a.meet b p) :
    q.1 ∈ a.belowBoth p.1 ∧ q.2 ∈ b.belowBoth p.2 := List.of_mem_zip h

theorem mem_meet_swap : q.swap ∈ b.meet a p.swap ↔ q ∈ a.meet b p := by
  have swap : b.meet a p.swap = (a.meet b p).map Prod.swap := (List.zip_swap ..).symm
  rw [swap]
  exact List.mem_map_of_injective Prod.swap_injective

theorem Opposite.swap (h : Opposite a b p) : Opposite b a p.swap := by
  induction h with
  | root => exact .root
  | child _ hc ih => exact .child ih (mem_meet_swap.2 hc)

theorem Opposite.eq_self (h : Opposite a a p) : p.1 = p.2 := by
  induction h with
  | root => rfl
  | @child p c _ hc ih =>
    rw [meet, ← ih] at hc
    obtain ⟨i, hi, same⟩ := List.getElem_of_mem hc
    rw [← same, List.getElem_zip]

theorem similar_self (a : Diff) : Similar a a := fun p h => by
  rw [Corresponds, h.eq_self]
  exact ⟨rfl, rfl⟩

theorem Similar.swap (h : Similar a b) : Similar b a := fun p hp =>
  have alike := h p.swap hp.swap
  ⟨alike.1.symm, alike.2.symm⟩

theorem Opposite.reaches (h : Opposite a b p) : a.Reaches p.1 := by
  induction h with
  | root => exact .root
  | child _ hc ih => exact ih.of_mem_belowBoth (mem_belowBoth_of_mem_meet hc).1

/-- A diff in which no node has two parents is faithful to every diff. -/
theorem faithful_of_unmoved (ha : a.Regular) (sound : a.Sound)
    (unmoved : ∀ n p q, a.above .before n = some p → a.above .after n = some q → p = q)
    (b : Diff) : Faithful a b := by
  have place {n m k : Handle} (hn : k ∈ a.belowBoth n) (hm : k ∈ a.belowBoth m) : n = m := by
    obtain ⟨t, hn⟩ := ha.exists_above hn
    obtain ⟨u, hm⟩ := ha.exists_above hm
    cases t <;> cases u
    · exact Option.some.inj (hn.symm.trans hm)
    · exact unmoved k n m hn hm
    · exact (unmoved k m n hm hn).symm
    · exact Option.some.inj (hn.symm.trans hm)
  have top {n k : Handle} (hk : k ∈ a.belowBoth n) : k ≠ root :=
    ne_root_of_mem_belowBoth ha.root sound ha.toSymmetric hk
  intro p q hp hq
  induction hp generalizing q with
  | root =>
    intro same
    cases hq with
    | root => rfl
    | child _ hc => exact absurd same.symm (top (mem_belowBoth_of_mem_meet hc).1)
  | @child p c hp hc ih =>
    intro same
    cases hq with
    | root => exact absurd same (top (mem_belowBoth_of_mem_meet hc).1)
    | @child q e hq he =>
      have parent := place (mem_belowBoth_of_mem_meet hc).1
        (same ▸ (mem_belowBoth_of_mem_meet he).1)
      have partner := ih q hq parent
      obtain ⟨i, hi, rfl⟩ := List.getElem_of_mem hc
      obtain ⟨j, hj, rfl⟩ := List.getElem_of_mem he
      simp only [meet, List.getElem_zip, ← parent, ← partner] at same ⊢
      have index := (nodup_belowBoth ha).getElem_inj_iff.1 same
      simp only [index]

/-! ## The pairs that are met -/

/-- The pairs that are met when pairs wait one behind the other, if some nodes of the first diff were
met already; these are given backwards. -/
inductive Aligns (a b : Diff) :
    List Handle → List (Handle × Handle) → List (Handle × Handle) → Prop
  | nil (seen : List Handle) : Aligns a b seen [] []
  | skip {seen : List Handle} {p : Handle × Handle} {ps qs : List (Handle × Handle)}
      (old : p.1 ∈ seen) (rest : Aligns a b seen ps qs) : Aligns a b seen (p :: ps) qs
  | visit {seen : List Handle} {p : Handle × Handle} {ps below rest : List (Handle × Handle)}
      (new : p.1 ∉ seen) (inner : Aligns a b (p.1 :: seen) (a.meet b p) below)
      (outer : Aligns a b ((below.map Prod.fst).reverse ++ p.1 :: seen) ps rest) :
      Aligns a b seen (p :: ps) (p :: (below ++ rest))

namespace Aligns

/-- Pairs of nodes of the first diff with anything have an alignment. -/
theorem exists_aligns (ha : a.Regular) (b : Diff) (seen : List Handle)
    (inStore : ∀ p ∈ ps, p.1 < a.size) : ∃ qs, Aligns a b seen ps qs := by
  generalize hk : (a.unseen seen).length = k
  induction k using Nat.strongRecOn generalizing seen ps with
  | _ k ih =>
    induction ps with
    | nil => exact ⟨[], .nil seen⟩
    | cons p ps ihps =>
      obtain ⟨hp, inStore⟩ := List.forall_mem_cons.1 inStore
      by_cases old : p.1 ∈ seen
      · obtain ⟨qs, rest⟩ := ihps inStore
        exact ⟨qs, .skip old rest⟩
      · have children : ∀ c ∈ a.meet b p, c.1 < a.size := fun c hc =>
          ha.lt_size_of_mem_belowBoth (mem_belowBoth_of_mem_meet hc).1
        obtain ⟨below, inner⟩ := ih _ (hk ▸ length_unseen_lt hp old (List.Subset.refl _))
          (p.1 :: seen) children rfl
        obtain ⟨rest, outer⟩ := ih _ (hk ▸ length_unseen_lt hp old
          (List.subset_append_right (below.map Prod.fst).reverse _)) _ inStore rfl
        exact ⟨p :: (below ++ rest), .visit old inner outer⟩

/-- Nodes that are met stand opposite each other if those that wait do. -/
theorem opposite (h : Aligns a b seen ps qs) (waiting : ∀ p ∈ ps, Opposite a b p) :
    ∀ q ∈ qs, Opposite a b q := by
  induction h with
  | nil => exact waiting
  | skip _ _ ih => exact ih (List.forall_mem_cons.1 waiting).2
  | visit _ _ _ ihb ihr =>
    obtain ⟨here, waiting⟩ := List.forall_mem_cons.1 waiting
    exact List.forall_mem_cons.2
      ⟨here, List.forall_mem_append.2 ⟨ihb fun _ hc => .child here hc, ihr waiting⟩⟩

/-- Every node that waits is met. -/
theorem mem_of_mem (h : Aligns a b seen ps qs) :
    ∀ p ∈ ps, p.1 ∈ seen ∨ p.1 ∈ qs.map Prod.fst := by
  induction h with
  | nil => exact fun p hp => absurd hp List.not_mem_nil
  | skip old _ ih => exact List.forall_mem_cons.2 ⟨.inl old, ih⟩
  | visit _ _ _ _ ihr =>
    refine List.forall_mem_cons.2 ⟨.inr List.mem_cons_self, fun p hp => ?_⟩
    have met := ihr p hp
    simp only [List.mem_append, List.mem_reverse, List.mem_cons, List.map_cons,
      List.map_append] at met ⊢
    tauto

/-- Every child of a node that is met is met. -/
theorem closed (h : Aligns a b seen ps qs) :
    ∀ q ∈ qs, ∀ c ∈ a.meet b q, c.1 ∈ seen ∨ c.1 ∈ qs.map Prod.fst := by
  induction h with
  | nil => exact fun q hq => absurd hq List.not_mem_nil
  | skip _ _ ih => exact ih
  | visit _ inner _ ihb ihr =>
    intro q hq c hc
    simp only [List.mem_cons, List.mem_append] at hq
    simp only [List.mem_cons, List.mem_append, List.map_cons, List.map_append]
    obtain rfl | hq | hq := hq
    · have met := inner.mem_of_mem c hc
      rw [List.mem_cons] at met
      tauto
    · have met := ihb q hq c hc
      rw [List.mem_cons] at met
      tauto
    · have met := ihr q hq c hc
      simp only [List.mem_append, List.mem_reverse, List.mem_cons] at met
      tauto

end Aligns

/-! ## The comparison meets the alignment -/

theorem agreeBelow_of_alike (hl : p.1 < a.size) (hr : p.2 < b.size)
    (new : ¬ marks.has p.1 = true) (alike : Corresponds a b p) :
    agreeBelow a b (levels + 1) p.1 p.2 marks =
      agreeAll (agreeBelow a b levels) (a.meet b p) (marks.mark p.1) := by
  obtain ⟨face, length⟩ := alike
  have agrees : (a.look p.1).agrees (b.look p.2) = true := Node.agrees_iff.2 face
  rw [agreeBelow, if_neg new, node_look hl, Outcome.ok_bind, node_look hr, Outcome.ok_bind, agrees,
    allChildren_eq hl, allChildren_eq hr]
  simp only [Bool.not_true, Bool.false_eq_true, if_false, Outcome.ok_bind, length, ne_eq,
    not_true_eq_false]
  rfl

theorem agreeBelow_of_not_alike (hl : p.1 < a.size) (hr : p.2 < b.size)
    (new : ¬ marks.has p.1 = true) (unlike : ¬ Corresponds a b p) :
    agreeBelow a b (levels + 1) p.1 p.2 marks = .ok none := by
  rw [agreeBelow, if_neg new, node_look hl, Outcome.ok_bind, node_look hr, Outcome.ok_bind,
    allChildren_eq hl, allChildren_eq hr]
  by_cases face : (a.look p.1).agrees (b.look p.2) = true
  · have length : (a.belowBoth p.1).length ≠ (b.belowBoth p.2).length := fun length =>
      unlike ⟨Node.agrees_iff.1 face, length⟩
    simp only [face, Bool.not_true, Bool.false_eq_true, if_false, Outcome.ok_bind, ne_eq, length,
      not_false_eq_true, if_true]
    rfl
  · simp only [face, Bool.not_false, if_true]
    rfl

theorem lt_size_of_mem_meet (ha : a.Regular) (hb : b.Regular) :
    ∀ c ∈ a.meet b p, c.1 < a.size ∧ c.2 < b.size := fun _ hc =>
  ⟨ha.lt_size_of_mem_belowBoth (mem_belowBoth_of_mem_meet hc).1,
    hb.lt_size_of_mem_belowBoth (mem_belowBoth_of_mem_meet hc).2⟩

/-- The comparison along pairs goes through, and its answer is whether all pairs that it meets are
alike. -/
theorem agreeAll_aligns (ha : a.Regular) (hb : b.Regular) (h : Aligns a b seen ps qs)
    (inStore : ∀ p ∈ ps, p.1 < a.size ∧ p.2 < b.size) (marked : a.Marked marks seen)
    (room : (a.unseen seen).length < levels) :
    ∃ answer, agreeAll (agreeBelow a b levels) ps marks = .ok answer ∧
      (answer.isSome = true ↔ ∀ q ∈ qs, Corresponds a b q) ∧
      ∀ marks' ∈ answer, a.Marked marks' ((qs.map Prod.fst).reverse ++ seen) := by
  induction h generalizing marks levels with
  | nil seen =>
    refine ⟨some marks, rfl, by simp, fun marks' hm => ?_⟩
    obtain rfl := Option.some.inj hm
    exact marked
  | @skip seen p ps qs old rest ih =>
    obtain ⟨levels, rfl⟩ : ∃ k, levels = k + 1 := ⟨levels - 1, by omega⟩
    obtain ⟨answer, run, alike, marked'⟩ := ih (List.forall_mem_cons.1 inStore).2 marked room
    refine ⟨answer, ?_, alike, marked'⟩
    rw [agreeAll, agreeBelow, if_pos ((marked.has p.1).2 old), pure, ← run]
    rfl
  | @visit seen p ps below rest new inner outer ihb ihr =>
    obtain ⟨levels, rfl⟩ : ∃ k, levels = k + 1 := ⟨levels - 1, by omega⟩
    obtain ⟨⟨hl, hr⟩, inStore⟩ := List.forall_mem_cons.1 inStore
    have unmarked : ¬ marks.has p.1 = true := fun met => new ((marked.has p.1).1 met)
    by_cases here : Corresponds a b p
    · have roomBelow : (a.unseen (p.1 :: seen)).length < levels := by
        have := length_unseen_lt hl new (List.Subset.refl _)
        omega
      obtain ⟨answer, run, alike, marked'⟩ :=
        ihb (lt_size_of_mem_meet ha hb) (marked.mark hl) roomBelow
      have first := (agreeBelow_of_alike hl hr unmarked here).trans run
      cases answer with
      | none =>
        refine ⟨none, by rw [agreeAll, first]; rfl, ?_, by simp⟩
        have some_unlike : ¬ ∀ q ∈ below, Corresponds a b q := fun all => by simpa using alike.2 all
        simp only [Option.isSome_none, Bool.false_eq_true, false_iff]
        exact fun all => some_unlike fun q hq =>
          all q (List.mem_cons_of_mem _ (List.mem_append_left _ hq))
      | some marks₁ =>
        have roomRest : (a.unseen ((below.map Prod.fst).reverse ++ p.1 :: seen)).length <
            levels + 1 := by
          have := length_unseen_lt hl new
            (List.subset_append_right (below.map Prod.fst).reverse (p.1 :: seen))
          omega
        obtain ⟨answer', run', alike', marked''⟩ := ihr inStore (marked' _ rfl) roomRest
        have order : ((p :: (below ++ rest)).map Prod.fst).reverse ++ seen =
            (rest.map Prod.fst).reverse ++ ((below.map Prod.fst).reverse ++ p.1 :: seen) := by
          simp
        refine ⟨answer', by rw [agreeAll, first, Outcome.ok_bind]; exact run', ?_,
          order ▸ marked''⟩
        rw [alike', List.forall_mem_cons, List.forall_mem_append]
        exact ⟨fun all => ⟨here, alike.1 rfl, all⟩, fun all => all.2.2⟩
    · refine ⟨none, ?_, ?_, by simp⟩
      · rw [agreeAll, agreeBelow_of_not_alike hl hr unmarked here]
        rfl
      · simp only [Option.isSome_none, Bool.false_eq_true, false_iff]
        exact fun all => here (all p List.mem_cons_self)

/-- The comparison goes through, and its answer is whether all pairs that it meets are alike. -/
theorem saysSame_aligns (ha : a.Regular) (hb : b.Regular)
    (h : Aligns a b [] [(root, root)] qs) :
    ∃ same, a.saysSame b = .ok same ∧ (same = true ↔ ∀ q ∈ qs, Corresponds a b q) := by
  have room : (a.unseen []).length < a.size + 1 := by
    have := List.length_filter_le (fun n => !([] : List Handle).contains n) (List.range a.size)
    rw [List.length_range] at this
    rw [unseen]
    omega
  obtain ⟨answer, run, alike, -⟩ := agreeAll_aligns ha hb h
    (List.forall_mem_singleton.2 ⟨ha.root_lt, hb.root_lt⟩) (.none a) room
  refine ⟨answer.isSome, ?_, alike⟩
  have one : agreeAll (agreeBelow a b (a.size + 1)) [(root, root)] (Marks.none a.size) =
      agreeBelow a b (a.size + 1) root root (Marks.none a.size) := by
    rw [agreeAll]
    cases agreeBelow a b (a.size + 1) root root (Marks.none a.size) with
    | error => rfl
    | ok answer => cases answer <;> rfl
  rw [saysSame, ← one, run]
  rfl

/-- What the comparison finds is what all pairs that it meets are. -/
theorem saysSame_eq_true_iff (ha : a.Regular) (hb : b.Regular)
    (h : Aligns a b [] [(root, root)] qs) :
    a.saysSame b = .ok true ↔ ∀ q ∈ qs, Corresponds a b q := by
  obtain ⟨same, run, alike⟩ := saysSame_aligns ha hb h
  rw [run, ← alike, Except.ok.injEq]

theorem exists_alignment (ha : a.Regular) (b : Diff) :
    ∃ qs, Aligns a b [] [(root, root)] qs :=
  Aligns.exists_aligns ha b [] (List.forall_mem_singleton.2 ha.root_lt)

/-- If the comparison finds no difference, every node of the first diff stands opposite one that is like
it. -/
theorem exists_partner (ha : a.Regular) (hb : b.Regular) (same : a.saysSame b = .ok true) {n : Handle}
    (hn : a.Reaches n) : ∃ m, b.Reaches m ∧ a.face n = b.face m := by
  obtain ⟨qs, aligned⟩ := exists_alignment ha b
  rw [saysSame_eq_true_iff ha hb aligned] at same
  have met : n ∈ qs.map Prod.fst := by
    induction hn with
    | root => exact (aligned.mem_of_mem _ List.mem_cons_self).resolve_left List.not_mem_nil
    | child _ hc ih =>
      obtain ⟨q, hq, rfl⟩ := List.mem_map.1 ih
      -- there are equally many children opposite, so this one has a partner
      obtain ⟨i, hi, rfl⟩ := List.getElem_of_mem (mem_belowBoth.2 ⟨_, hc⟩)
      have length := (same q hq).2
      have pair : ((a.belowBoth q.1)[i], (b.belowBoth q.2)[i]) ∈ a.meet b q := by
        rw [meet, ← List.getElem_zip (h := by rw [List.length_zip]; omega)]
        exact List.getElem_mem _
      exact (aligned.closed q hq _ pair).resolve_left List.not_mem_nil
  obtain ⟨q, hq, rfl⟩ := List.mem_map.1 met
  have opposite := aligned.opposite (List.forall_mem_singleton.2 .root) q hq
  exact ⟨q.2, opposite.swap.reaches, (same q hq).1⟩

/-! ## Turning the comparison around and continuing it -/

theorem Similar.saysSame (ha : a.Regular) (hb : b.Regular) (h : Similar a b) :
    a.saysSame b = .ok true := by
  obtain ⟨qs, aligned⟩ := exists_alignment ha b
  rw [saysSame_eq_true_iff ha hb aligned]
  exact fun q hq => h q (aligned.opposite (List.forall_mem_singleton.2 .root) q hq)

/-- Where each node has one partner at most, the comparison meets all that stands opposite each
other. -/
theorem Faithful.similar (ha : a.Regular) (hb : b.Regular) (h : Faithful a b)
    (same : a.saysSame b = .ok true) : Similar a b := by
  obtain ⟨qs, aligned⟩ := exists_alignment ha b
  rw [saysSame_eq_true_iff ha hb aligned] at same
  have standing := aligned.opposite (List.forall_mem_singleton.2 .root)
  -- a node that was met was met with its only partner
  have met {p : Handle × Handle} (hp : Opposite a b p) (first : p.1 ∈ qs.map Prod.fst) :
      p ∈ qs := by
    obtain ⟨q, hq, e⟩ := List.mem_map.1 first
    have partner := h q p (standing q hq) hp e
    rw [← Prod.ext e partner]
    exact hq
  intro p hp
  refine same p ?_
  induction hp with
  | root => exact met .root ((aligned.mem_of_mem _ List.mem_cons_self).resolve_left List.not_mem_nil)
  | child hp hc ih =>
    exact met (.child hp hc) ((aligned.closed _ ih _ hc).resolve_left List.not_mem_nil)

/-- Two pairs that start at one node and end at nodes that stand opposite each other. -/
def Continues (b c : Diff) (p q : Handle × Handle) : Prop := p.1 = q.1 ∧ Opposite b c (p.2, q.2)

/-- Below pairs that continue each other are pairs that continue each other, if no diff runs out of
children before the others. -/
theorem Continues.meet (h : Continues b c p q) (alike : Corresponds a b p) (similar : Similar b c) :
    List.Forall₂ (Continues b c) (a.meet b p) (a.meet c q) := by
  obtain ⟨start, opposite⟩ := h
  have first := alike.2
  have second : (b.belowBoth p.2).length = (c.belowBoth q.2).length := (similar _ opposite).2
  rw [start] at first
  refine List.forall₂_iff_get.2 ⟨?_, fun i hi hj => ?_⟩
  · simp only [Diff.meet, List.length_zip, start, first, second]
  · simp only [Diff.meet, List.get_eq_getElem, List.getElem_zip, start]
    simp only [Diff.meet, List.length_zip, start, first, second, Nat.min_self] at hi hj
    have mid : i < (b.belowBoth p.2).length := second ▸ hj
    have inner : ((b.belowBoth p.2)[i], (c.belowBoth q.2)[i]) ∈ b.meet c (p.2, q.2) := by
      rw [Diff.meet, ← List.getElem_zip (h := by simp only [List.length_zip]; omega)]
      exact List.getElem_mem _
    exact ⟨rfl, .child opposite inner⟩

theorem map_fst_of_continues {qs' : List (Handle × Handle)}
    (h : List.Forall₂ (Continues b c) qs qs') : qs.map Prod.fst = qs'.map Prod.fst := by
  induction h with
  | nil => rfl
  | cons here _ ih => rw [List.map_cons, List.map_cons, here.1, ih]

/-- A walk through the first and the third diff meets the nodes that a walk through the first and the
second one meets, with partners that stand opposite each other. -/
theorem Aligns.continued {ps' qs' : List (Handle × Handle)} (h : Aligns a b seen ps qs)
    (alike : ∀ q ∈ qs, Corresponds a b q) (similar : Similar b c) (h' : Aligns a c seen ps' qs')
    (along : List.Forall₂ (Continues b c) ps ps') : List.Forall₂ (Continues b c) qs qs' := by
  induction h generalizing ps' qs' with
  | nil =>
    cases along
    cases h'
    exact .nil
  | skip old _ ih =>
    obtain _ | ⟨here, along⟩ := along
    cases h' with
    | skip _ rest => exact ih alike rest along
    | visit new => exact absurd (here.1 ▸ old) new
  | @visit seen p ps below rest new inner outer ihb ihr =>
    obtain _ | @⟨_, p', _, ps', here, along⟩ := along
    cases h' with
    | skip old => exact absurd (here.1 ▸ old) new
    | @visit _ _ _ below' rest' _ inner' outer' =>
      obtain ⟨first, alike⟩ := List.forall_mem_cons.1 alike
      obtain ⟨alikeBelow, alikeRest⟩ := List.forall_mem_append.1 alike
      have continuedBelow := ihb alikeBelow (here.1 ▸ inner') (here.meet first similar)
      have continuedRest := ihr alikeRest
        (by rw [here.1, map_fst_of_continues continuedBelow]; exact outer') along
      exact .cons here (List.rel_append continuedBelow continuedRest)

theorem Similar.continued (ha : a.Regular) (hb : b.Regular) (hc : c.Regular)
    (same : a.saysSame b = .ok true) (h : Similar b c) : a.saysSame c = .ok true := by
  obtain ⟨qs, aligned⟩ := exists_alignment ha b
  obtain ⟨qs', aligned'⟩ := exists_alignment ha c
  rw [saysSame_eq_true_iff ha hb aligned] at same
  rw [saysSame_eq_true_iff ha hc aligned']
  have along := aligned.continued same h aligned' (.cons ⟨rfl, .root⟩ .nil)
  intro q' hq'
  obtain ⟨q, hq, start, opposite⟩ : ∃ q ∈ qs, Continues b c q q' := by
    obtain ⟨i, hi, rfl⟩ := List.getElem_of_mem hq'
    obtain ⟨length, each⟩ := List.forall₂_iff_get.1 along
    exact ⟨_, List.getElem_mem (length ▸ hi), each i (length ▸ hi) hi⟩
  obtain ⟨face, length⟩ := same q hq
  obtain ⟨face', length'⟩ := h _ opposite
  exact ⟨start ▸ face.trans face', start ▸ length.trans length'⟩

/-- The comparison never fails, and every diff says the same as itself. It can be turned around if no
node of the first diff stands opposite two nodes of the second one, and it can be continued if no node
of the second diff stands opposite two nodes of the third one. -/
theorem saysSame_laws (ha : a.Regular) (hb : b.Regular) (hc : c.Regular) :
    (∃ same, a.saysSame b = .ok same) ∧ a.saysSame a = .ok true ∧
      (Faithful a b → a.saysSame b = .ok true → b.saysSame a = .ok true) ∧
      (Faithful a b → Faithful b a → a.saysSame b = b.saysSame a) ∧
      (Faithful b c → a.saysSame b = .ok true → b.saysSame c = .ok true →
        a.saysSame c = .ok true) := by
  have total {a b : Diff} (ha : a.Regular) (hb : b.Regular) : ∃ same, a.saysSame b = .ok same := by
    obtain ⟨qs, aligned⟩ := exists_alignment ha b
    obtain ⟨same, run, -⟩ := saysSame_aligns ha hb aligned
    exact ⟨same, run⟩
  have turned {a b : Diff} (ha : a.Regular) (hb : b.Regular) (faithful : Faithful a b)
      (same : a.saysSame b = .ok true) : b.saysSame a = .ok true :=
    (faithful.similar ha hb same).swap.saysSame hb ha
  refine ⟨total ha hb, (similar_self a).saysSame ha ha, turned ha hb, fun hab hba => ?_,
    fun hbc same same' => (hbc.similar hb hc same').continued ha hb hc same⟩
  obtain ⟨v, run⟩ := total ha hb
  obtain ⟨w, run'⟩ := total hb ha
  have forth := turned ha hb hab
  have back := turned hb ha hba
  rw [run, run'] at forth back ⊢
  cases v <;> cases w <;> simp_all

/-- Two blocks of code below the root, and more. -/
def twoBlocks (rest : List Call) : Diff :=
  ofCalls ([newCode, newCode, .attachLast 0 1 .before, .attachLast 0 1 .after,
    .attachLast 0 2 .before, .attachLast 0 2 .after] ++ rest)

/-- A run of code that hangs below the first block before the edit and below the second one after
it. -/
def movedRun : Diff := twoBlocks [newCode, .attachLast 1 3 .before, .attachLast 2 3 .after]

/-- A run of code below each of the blocks. -/
def equalRuns : Diff :=
  twoBlocks [newCode, newCode, .attachLast 1 3 .before, .attachLast 1 3 .after,
    .attachLast 2 4 .before, .attachLast 2 4 .after]

/-- A run of code below the first block, and an added one below the second block. -/
def unequalRuns : Diff :=
  twoBlocks [newCode, .addArtifact .added .start .start ["code"], .attachLast 1 3 .before,
    .attachLast 1 3 .after, .attachLast 2 4 .after]

theorem sound_movedRun : movedRun.Sound := sound_ofCalls (by decide +kernel) (by decide +kernel)

theorem sound_equalRuns : equalRuns.Sound := sound_ofCalls (by decide +kernel) (by decide +kernel)

theorem sound_unequalRuns : unequalRuns.Sound :=
  sound_ofCalls (by decide +kernel) (by decide +kernel)

/-- A node that was moved is compared once, so that the comparison depends on the order of the two
diffs and does not carry over to a third one. -/
theorem saysSame_one_way :
    (movedRun.Regular ∧ movedRun.Sound) ∧ (equalRuns.Regular ∧ equalRuns.Sound) ∧
    (unequalRuns.Regular ∧ unequalRuns.Sound) ∧
    movedRun.saysSame unequalRuns = .ok true ∧ unequalRuns.saysSame movedRun = .ok false ∧
    equalRuns.saysSame movedRun = .ok true ∧ equalRuns.saysSame unequalRuns = .ok false :=
  ⟨⟨(built_ofCalls _).regular, sound_movedRun⟩, ⟨(built_ofCalls _).regular, sound_equalRuns⟩,
    ⟨(built_ofCalls _).regular, sound_unequalRuns⟩, Outcome.eq_ok_of_toOption (by decide +kernel),
    Outcome.eq_ok_of_toOption (by decide +kernel), Outcome.eq_ok_of_toOption (by decide +kernel),
    Outcome.eq_ok_of_toOption (by decide +kernel)⟩

/-- The moved run stands opposite both of the equal runs, but each of these opposite the moved one
only. -/
theorem equalRuns_turned : equalRuns.Regular ∧ movedRun.Regular ∧ Faithful equalRuns movedRun ∧
    equalRuns.saysSame movedRun = .ok true ∧ movedRun.saysSame equalRuns = .ok true ∧
    movedRun.saysSame movedRun = .ok true := by
  have unmoved : ∀ n < 5, ∀ p ∈ equalRuns.above .before n, ∀ q ∈ equalRuns.above .after n, p = q := by
    decide +kernel
  have size : equalRuns.size = 5 := by decide +kernel
  have equal : equalRuns.Regular := (built_ofCalls _).regular
  have moved : movedRun.Regular := (built_ofCalls _).regular
  have faithful : Faithful equalRuns movedRun :=
    faithful_of_unmoved equal sound_equalRuns
      (fun n p q hp hq => unmoved n (size ▸ lt_size_of_above hp) p hp q hq) _
  have same : equalRuns.saysSame movedRun = .ok true :=
    Outcome.eq_ok_of_toOption (by decide +kernel)
  have turned : movedRun.saysSame equalRuns = .ok true :=
    (saysSame_laws equal moved equal).2.2.1 faithful same
  exact ⟨equal, moved, faithful, same, turned,
    (saysSame_laws moved equal moved).2.2.2.2 faithful turned same⟩

end Diff

end Variation
