import Variation.Proofs.Shape
import Mathlib.Data.Set.Basic

/-!
# The loops that are reported

`parentLoops` climbs from the given nodes one after the other and stops wherever it has been before. What
is marked when a climb has ended is closed upwards, so a climb that comes to an earlier one has nothing
above it that was not looked at, and a climb that comes to its own way has found a loop of which no node
was marked. The main statement says that what is reported for a time stands for the loops that the given
nodes lead to, each once and by a node that lies on it, and that a climb ends by itself.
-/

namespace Variation.Diff

/-- A node is met on the way up from another one at a time; the way begins with that node itself. -/
def LeadsTo (d : Diff) (t : Time) (n m : Handle) : Prop := n = m ∨ d.Above t n m

/-- What lies above a node at a time. For a node that lies above itself, this is the loop on which it
lies. -/
def loopOf (d : Diff) (t : Time) (n : Handle) : Set Handle := {m | d.Above t n m}

/-- A loop of the parents at a time. -/
def IsLoop (d : Diff) (t : Time) (loop : Set Handle) : Prop :=
  ∃ n, d.Above t n n ∧ loop = d.loopOf t n

/-- The nodes that are reported for the loops at a time. -/
def reported (d : Diff) (ns : List Handle) (t : Time) : List Handle :=
  ((d.parentLoops ns).filter (·.2 = t)).map (·.1)

variable {d : Diff} {t : Time} {n m k p e : Handle} {ns path : List Handle} {marks old : Marks}
  {steps : Nat}

/-! ## The way up -/

namespace Above

theorem lt_size (h : d.Above t n m) : n < d.size := by
  obtain ⟨p, hp, -⟩ := h.cases_head
  exact lt_size_of_above hp

/-- What lies above a node is met from its parent on. -/
theorem from_parent (h : d.Above t n m) (hp : d.above t n = some p) : d.LeadsTo t p m := by
  obtain ⟨q, hq, rest⟩ := h.cases_head
  obtain rfl := Option.some.inj (hp.symm.trans hq)
  exact rest

/-- One step on the way up to a node of a loop does not pass it for good. -/
theorem next (loop : d.Above t n n) (h : d.Above t m n) (hp : d.above t m = some p) :
    d.Above t p n := by
  obtain rfl | up := h.from_parent hp
  · exact loop
  · exact up

/-- What lies above a node of a loop lies on the loop. -/
theorem back (loop : d.Above t n n) (h : d.Above t n m) : d.Above t m n := by
  induction h with
  | parent hp => exact loop.next loop hp
  | step _ hp ih => exact loop.next ih hp

theorem loopOf_eq (loop : d.Above t n n) (h : d.Above t n m) : d.loopOf t m = d.loopOf t n :=
  Set.ext fun _ => ⟨h.trans, (loop.back h).trans⟩

end Above

namespace LeadsTo

theorem step (h : d.LeadsTo t n m) (hp : d.above t m = some p) : d.LeadsTo t n p := by
  obtain rfl | up := h
  · exact .inr (.parent hp)
  · exact .inr (up.step hp)

theorem iff_of_top (hp : d.above t n = none) : d.LeadsTo t n m ↔ n = m := by
  refine or_iff_left fun up => ?_
  obtain ⟨p, hq, -⟩ := up.cases_head
  rw [hp] at hq
  cases hq

theorem iff_of_step (hp : d.above t n = some p) : d.LeadsTo t n m ↔ n = m ∨ d.LeadsTo t p m := by
  refine or_congr_right ⟨fun up => up.from_parent hp, fun up => ?_⟩
  obtain rfl | up := up
  · exact .parent hp
  · exact Above.trans (.parent hp) up

/-- A node leads to one loop at most. -/
theorem same_loop (h : d.LeadsTo t n m) (h' : d.LeadsTo t n k) (loop : d.Above t m m)
    (loop' : d.Above t k k) : d.Above t m k := by
  obtain rfl | up := h
  · obtain rfl | up' := h'
    · exact loop
    · exact up'
  · obtain rfl | up' := h'
    · exact loop'.back up
    · obtain rfl | higher | under := up.linear up'
      · exact loop
      · exact higher
      · exact loop'.back under

end LeadsTo

/-! ## One climb -/

/-- What is marked is closed upwards, as far as there are nodes. -/
structure UpClosed (d : Diff) (t : Time) (marks : Marks) : Prop where
  size : marks.size = d.size
  up : ∀ m p, marks.has m = true → d.above t m = some p → p < d.size → marks.has p = true

theorem upClosed_none (d : Diff) (t : Time) : d.UpClosed t (.none d.size) where
  size := by simp [Marks.none]
  up m p hm := by simp [Marks.none, Marks.has, Array.getElem?_replicate] at hm

theorem UpClosed.has_of_leadsTo (h : d.UpClosed t marks) (hn : marks.has n = true)
    (up : d.LeadsTo t n m) (hm : m < d.size) : marks.has m = true := by
  obtain rfl | up := up
  · exact hn
  · induction up with
    | parent hp => exact h.up _ _ hn hp hm
    | step _ hp ih => exact h.up _ _ (ih (lt_size_of_above hp)) hp hm

/-- A climb ends by itself: more steps do not change where it ends. -/
theorem UnderWay.climb_eq (h : d.UnderWay steps marks path) {more : Nat} (le : steps ≤ more) :
    d.climb t more marks path n = d.climb t steps marks path n := by
  induction steps generalizing more marks path n with
  | zero => exact absurd h.steps_pos (Nat.lt_irrefl 0)
  | succ steps ih =>
    obtain ⟨more, rfl⟩ : ∃ k, more = k + 1 := ⟨more - 1, by omega⟩
    rw [climb_succ h.size, climb_succ h.size]
    by_cases old : marks.has n = true
    · rw [if_pos old, if_pos old]
    · rw [if_neg old, if_neg old]
      cases hp : d.above t n with
      | none => rfl
      | some p => exact ih (h.step old (lt_size_of_above hp)) (Nat.le_of_succ_le_succ le)

/-- A climb from marks that are closed upwards: what it has marked itself is its way, which leads to the
node where it is. -/
structure ClimbsFrom (d : Diff) (t : Time) (old : Marks) (steps : Nat) (marks : Marks)
    (path : List Handle) (n : Handle) : Prop extends d.UnderWay steps marks path where
  closed : d.UpClosed t old
  has : ∀ m, marks.has m = true ↔ old.has m = true ∨ m ∈ path
  fresh : ∀ m ∈ path, ¬ old.has m = true
  below : ∀ m ∈ path, d.Above t m n
  up : ∀ m ∈ path, ∀ p, d.above t m = some p → p = n ∨ p ∈ path

namespace ClimbsFrom

theorem start (h : d.UpClosed t marks) : d.ClimbsFrom t marks (d.size + 1) marks [] n where
  toUnderWay := .start h.size (Nat.lt_succ_self _)
  closed := h
  has m := by simp
  fresh m hm := absurd hm List.not_mem_nil
  below m hm := absurd hm List.not_mem_nil
  up m hm := absurd hm List.not_mem_nil

theorem step (h : d.ClimbsFrom t old (steps + 1) marks path n) (new : ¬ marks.has n = true)
    (hp : d.above t n = some p) : d.ClimbsFrom t old steps (marks.mark n) (n :: path) p where
  toUnderWay := h.toUnderWay.step new (lt_size_of_above hp)
  closed := h.closed
  has m := by
    have here : n < marks.size := h.size ▸ lt_size_of_above hp
    rw [Marks.has_mark, decide_eq_true here, Bool.and_true, Bool.or_eq_true, beq_iff_eq, h.has,
      List.mem_cons, eq_comm (a := n)]
    exact or_left_comm
  fresh := List.forall_mem_cons.2 ⟨fun hn => new ((h.has n).2 (.inl hn)), h.fresh⟩
  below := List.forall_mem_cons.2 ⟨.parent hp, fun m hm => (h.below m hm).step hp⟩
  up := by
    refine List.forall_mem_cons.2 ⟨fun q hq => .inl (Option.some.inj (hq.symm.trans hp)),
      fun m hm q hq => .inr ?_⟩
    obtain rfl | hq := h.up m hm q hq
    · exact List.mem_cons_self
    · exact List.mem_cons_of_mem _ hq

/-- Where the climb comes to a mark, all that is marked is closed upwards. -/
theorem upClosed_of_has (h : d.ClimbsFrom t old steps marks path n) (hn : marks.has n = true) :
    d.UpClosed t marks where
  size := h.size
  up m p hm hp inStore := by
    obtain hm | hm := (h.has m).1 hm
    · exact (h.has p).2 (.inl (h.closed.up m p hm hp inStore))
    · obtain rfl | hp := h.up m hm p hp
      · exact hn
      · exact (h.has p).2 (.inr hp)

end ClimbsFrom

/-- What has come of a climb: it has marked everything above the node where it was, and it has found the
loop there unless that was marked before. -/
structure Ended (d : Diff) (t : Time) (old : Marks) (path : List Handle) (n : Handle)
    (found : Option Handle) (marks : Marks) : Prop where
  size : marks.size = d.size
  has : ∀ m, marks.has m = true ↔
    old.has m = true ∨ m ∈ path ∨ (m < d.size ∧ d.LeadsTo t n m)
  sound : ∀ e, found = some e → d.Above t e e ∧ ¬ old.has e = true ∧ d.LeadsTo t n e
  complete : found = none → ∀ m, d.LeadsTo t n m → d.Above t m m → old.has m = true

/-- A climb that has come to a mark has marked all that lies above it. -/
theorem ClimbsFrom.ended_of_has (h : d.ClimbsFrom t old steps marks path n)
    (hn : marks.has n = true) :
    d.Ended t old path n (if path.contains n then some n else none) marks := by
  have closed := h.upClosed_of_has hn
  refine ⟨h.size, fun m => ?_, fun e he => ?_, fun missed m up loop => ?_⟩
  · rw [h.has, ← or_assoc, ← h.has]
    exact ⟨.inl, fun hm => hm.elim id fun ⟨hm, up⟩ => closed.has_of_leadsTo hn up hm⟩
  · by_cases mine : n ∈ path
    · rw [if_pos (List.contains_iff_mem.2 mine)] at he
      obtain rfl := Option.some.inj he
      exact ⟨h.below n mine, h.fresh n mine, .inl rfl⟩
    · rw [if_neg (mine ∘ List.contains_iff_mem.1)] at he
      cases he
  · by_cases mine : n ∈ path
    · rw [if_pos (List.contains_iff_mem.2 mine)] at missed
      cases missed
    · have before := ((h.has n).1 hn).resolve_right mine
      exact h.closed.has_of_leadsTo before up loop.lt_size

/-- A climb that has come to a node without parent has found no loop. -/
theorem ClimbsFrom.ended_of_top (h : d.ClimbsFrom t old steps marks path n)
    (hp : d.above t n = none) : d.Ended t old path n none (marks.mark n) := by
  refine ⟨(Marks.size_mark ..).trans h.size, fun m => ?_, fun e he => (by cases he),
    fun _ m up loop => ?_⟩
  · rw [Marks.has_mark, Bool.or_eq_true, Bool.and_eq_true, beq_iff_eq, decide_eq_true_iff, h.has,
      h.size, LeadsTo.iff_of_top hp]
    constructor
    · rintro (⟨rfl, hm⟩ | old | mine)
      · exact .inr (.inr ⟨hm, rfl⟩)
      · exact .inl old
      · exact .inr (.inl mine)
    · rintro (old | mine | ⟨hm, rfl⟩)
      · exact .inr (.inl old)
      · exact .inr (.inr mine)
      · exact .inl ⟨rfl, hm⟩
  · obtain rfl := (LeadsTo.iff_of_top hp).1 up
    obtain ⟨p, hq, -⟩ := loop.cases_head
    rw [hp] at hq
    cases hq

/-- What comes of a climb from the parent comes of the climb. -/
theorem Ended.head {found : Option Handle} (hp : d.above t n = some p)
    (h : d.Ended t old (n :: path) p found marks) : d.Ended t old path n found marks := by
  refine ⟨h.size, fun m => ?_, fun e he => ?_, fun none m up loop => ?_⟩
  · rw [h.has, List.mem_cons, LeadsTo.iff_of_step hp]
    constructor
    · rintro (old | (rfl | mine) | ⟨hm, up⟩)
      · exact .inl old
      · exact .inr (.inr ⟨lt_size_of_above hp, .inl rfl⟩)
      · exact .inr (.inl mine)
      · exact .inr (.inr ⟨hm, .inr up⟩)
    · rintro (old | mine | ⟨hm, rfl | up⟩)
      · exact .inl old
      · exact .inr (.inl (.inr mine))
      · exact .inr (.inl (.inl rfl))
      · exact .inr (.inr ⟨hm, up⟩)
  · obtain ⟨loop, new, up⟩ := h.sound e he
    exact ⟨loop, new, (LeadsTo.iff_of_step hp).2 (.inr up)⟩
  · refine h.complete none m ?_ loop
    -- a loop through this node goes on through its parent
    obtain rfl | up := (LeadsTo.iff_of_step hp).1 up
    · exact loop.from_parent hp
    · exact up

theorem ClimbsFrom.ended (h : d.ClimbsFrom t old steps marks path n) :
    d.Ended t old path n (d.climb t steps marks path n).1 (d.climb t steps marks path n).2 := by
  induction steps generalizing marks path n with
  | zero => exact absurd h.steps_pos (Nat.lt_irrefl 0)
  | succ steps ih =>
    rw [climb_succ h.size]
    by_cases hn : marks.has n = true
    · rw [if_pos hn]
      exact h.ended_of_has hn
    · rw [if_neg hn]
      cases hp : d.above t n with
      | none => exact h.ended_of_top hp
      | some p => exact (ih (h.step hn hp)).head hp

/-- What a climb leaves behind is closed upwards. -/
theorem Ended.upClosed {found : Option Handle} (closed : d.UpClosed t old)
    (h : d.Ended t old [] n found marks) : d.UpClosed t marks where
  size := h.size
  up m p hm hp inStore := by
    obtain hm | hm | ⟨-, up⟩ := (h.has m).1 hm
    · exact (h.has p).2 (.inl (closed.up m p hm hp inStore))
    · cases hm
    · exact (h.has p).2 (.inr (.inr ⟨inStore, up.step hp⟩))

/-! ## All climbs -/

/-- Some nodes stand for the loops that others lead to and of which nothing is marked. -/
structure StandsFor (d : Diff) (t : Time) (marks : Marks) (ns es : List Handle) : Prop where
  sound : ∀ e ∈ es, d.Above t e e ∧ ¬ marks.has e = true ∧ ∃ n ∈ ns, d.LeadsTo t n e
  complete : ∀ n ∈ ns, ∀ m, d.LeadsTo t n m → d.Above t m m →
    marks.has m = true ∨ ∃ e ∈ es, d.Above t e m
  once : es.Pairwise fun e k => ¬ d.Above t e k

theorem standsFor_parentLoopsAt (h : d.UpClosed t marks) :
    d.StandsFor t marks ns (d.parentLoopsAt t marks ns) := by
  induction ns generalizing marks with
  | nil => exact ⟨fun e he => absurd he List.not_mem_nil, fun n hn => absurd hn List.not_mem_nil, .nil⟩
  | cons n ns ih =>
    have ended := (ClimbsFrom.start (n := n) h).ended
    rw [parentLoopsAt]
    cases hc : d.climb t (d.size + 1) marks [] n with
    | mk found marks' =>
      rw [hc] at ended
      obtain ⟨sound, complete, once⟩ := ih (ended.upClosed h)
      have has (m) : marks'.has m = true ↔ marks.has m = true ∨ (m < d.size ∧ d.LeadsTo t n m) := by
        simpa using ended.has m
      have later : ∀ e ∈ d.parentLoopsAt t marks' ns,
          d.Above t e e ∧ ¬ marks.has e = true ∧ ∃ m ∈ n :: ns, d.LeadsTo t m e := by
        intro e he
        obtain ⟨loop, new, m, hm, up⟩ := sound e he
        exact ⟨loop, fun old => new ((has e).2 (.inl old)), m, List.mem_cons_of_mem n hm, up⟩
      cases found with
      | none =>
        refine ⟨later, List.forall_mem_cons.2 ⟨fun m up loop => .inl (ended.complete rfl m up loop),
          fun k hk m up loop => ?_⟩, once⟩
        obtain marked | found := complete k hk m up loop
        · obtain old | ⟨-, up⟩ := (has m).1 marked
          · exact .inl old
          · exact .inl (ended.complete rfl m up loop)
        · exact .inr found
      | some e =>
        obtain ⟨loop, new, up⟩ := ended.sound e rfl
        have here (m) (up' : d.LeadsTo t n m) (loop' : d.Above t m m) : d.Above t e m :=
          up.same_loop up' loop loop'
        refine ⟨List.forall_mem_cons.2 ⟨⟨loop, new, n, List.mem_cons_self, up⟩, later⟩,
          List.forall_mem_cons.2 ⟨fun m up' loop' => .inr ⟨e, List.mem_cons_self, here m up' loop'⟩,
            fun k hk m up' loop' => ?_⟩,
          List.pairwise_cons.2 ⟨fun k hk higher => ?_, once⟩⟩
        · obtain marked | ⟨k, hk, higher⟩ := complete k hk m up' loop'
          · obtain old | ⟨-, up'⟩ := (has m).1 marked
            · exact .inl old
            · exact .inr ⟨e, List.mem_cons_self, here m up' loop'⟩
          · exact .inr ⟨k, List.mem_cons_of_mem e hk, higher⟩
        · -- what lies on the loop that was found is marked
          obtain ⟨loop', new', -⟩ := sound k hk
          have up' : d.LeadsTo t n k := by
            obtain rfl | up := up
            · exact .inr higher
            · exact .inr (up.trans higher)
          exact new' ((has k).2 (.inr ⟨loop'.lt_size, up'⟩))

theorem reported_eq (d : Diff) (ns : List Handle) (t : Time) :
    d.reported ns t = d.parentLoopsAt t (.none d.size) ns := by
  have part (u : Time) (es : List Handle) :
      ((es.map (·, u)).filter (·.2 = t)).map (·.1) = if u = t then es else [] := by
    split
    · next same =>
      subst same
      rw [List.filter_eq_self.2 (by simp), List.map_map]
      exact List.map_id _
    · next other => simp [other]
  simp only [reported, parentLoops, Time.all, List.flatMap_cons, List.flatMap_nil, List.append_nil,
    List.filter_append, List.map_append, part]
  cases t <;> simp

/-- What is reported for a time lies on loops of the parents, a different one each time, and these are
the loops to which the parents of the given nodes lead. Every climb ends by itself, wherever it starts
and whatever is marked: there are never more steps to take than there are nodes. -/
theorem parentLoops_exact (d : Diff) (ns : List Handle) (t : Time) :
    (∀ e ∈ d.reported ns t, e ∈ d.loopOf t e) ∧
    ((d.reported ns t).map (d.loopOf t)).Nodup ∧
    (∀ loop, loop ∈ (d.reported ns t).map (d.loopOf t) ↔
      d.IsLoop t loop ∧ ∃ n ∈ ns, ∃ m ∈ loop, d.LeadsTo t n m) ∧
    ∀ (marks : Marks) (n : Handle) (steps : Nat), marks.size = d.size → d.size < steps →
      d.climb t steps marks [] n = d.climb t (d.size + 1) marks [] n := by
  have stands : d.StandsFor t (.none d.size) ns (d.parentLoopsAt t (.none d.size) ns) :=
    standsFor_parentLoopsAt (d.upClosed_none t)
  obtain ⟨sound, complete, once⟩ := stands
  rw [reported_eq]
  refine ⟨fun e he => (sound e he).1, ?_, fun loop => ⟨fun hl => ?_, ?_⟩,
    fun marks n steps size enough => ?_⟩
  · rw [List.Nodup, List.pairwise_map]
    refine once.imp_of_mem fun {e k} _ hk other same => other ?_
    have mem : k ∈ d.loopOf t k := (sound k hk).1
    rwa [← same] at mem
  · obtain ⟨e, he, rfl⟩ := List.mem_map.1 hl
    obtain ⟨loop, -, n, hn, up⟩ := sound e he
    exact ⟨⟨e, loop, rfl⟩, n, hn, e, loop, up⟩
  · rintro ⟨⟨k, loop, rfl⟩, n, hn, m, hm, up⟩
    have back : d.Above t m m := (loop.back hm).trans hm
    obtain marked | ⟨e, he, higher⟩ := complete n hn m up back
    · simp [Marks.none, Marks.has, Array.getElem?_replicate] at marked
    · refine List.mem_map.2 ⟨e, he, ?_⟩
      rw [← (sound e he).1.loopOf_eq higher, loop.loopOf_eq hm]
  · exact (UnderWay.start size (Nat.lt_succ_self _)).climb_eq enough

end Variation.Diff
