import Variation.Diff.Consistency
import Variation.Proofs.Reach

/-!
# The ancestors of a node

The parents of a node at one time either end or come back. `parentLoops` finds nothing exactly if
all of them end. The verdicts on the ancestors at both times are a different matter: a node that is
still being answered counts as rooted, so the walk accepts a node exactly if none of its ancestors,
the root apart, is without parents.
-/

namespace Variation.Diff

/-! ## Parents that end -/

/-- The parents of a node at a time end. -/
inductive Ends (d : Diff) (t : Time) : Handle → Prop where
  | top {n : Handle} (h : d.above t n = none) : Ends d t n
  | step {n p : Handle} (h : d.above t n = some p) (hp : Ends d t p) : Ends d t n

/-- A node comes above another one at a time, after at least one step. -/
inductive Above (d : Diff) (t : Time) (n : Handle) : Handle → Prop where
  | parent {p : Handle} (h : d.above t n = some p) : Above d t n p
  | step {m p : Handle} (hm : Above d t n m) (h : d.above t m = some p) : Above d t n p

section Climb

variable {d : Diff} {n m p : Handle} {t : Time} {steps : Nat} {marks : Marks} {path : List Handle}

theorem Ends.parent (h : d.Ends t n) (hp : d.above t n = some p) : d.Ends t p := by
  cases h with
  | top h => rw [h] at hp; cases hp
  | step h hq => rw [h] at hp; cases hp; exact hq

/-- What comes above a node comes above the parent, or is it. -/
theorem Above.cases_head (h : d.Above t n m) :
    ∃ p, d.above t n = some p ∧ (p = m ∨ d.Above t p m) := by
  induction h with
  | parent h => exact ⟨_, h, .inl rfl⟩
  | step _ h ih =>
    obtain ⟨p, hp, rfl | ha⟩ := ih
    · exact ⟨p, hp, .inr (.parent h)⟩
    · exact ⟨p, hp, .inr (ha.step h)⟩

/-- Parents that end do not come back. -/
theorem Ends.not_above (h : d.Ends t n) : ¬ d.Above t n n := by
  induction h with
  | top h =>
    intro ha
    obtain ⟨p, hp, -⟩ := ha.cases_head
    rw [h] at hp; cases hp
  | step h hp ih =>
    intro ha
    obtain ⟨q, hq, hc⟩ := ha.cases_head
    rw [h] at hq; cases hq
    obtain rfl | hc := hc
    · exact ih (.parent h)
    · exact ih (hc.step h)

/-- A climb takes the next step, or it stops where it has been, or where there is no parent. -/
theorem climb_succ (size : marks.size = d.size) : d.climb t (steps + 1) marks path n =
    if marks.has n then (if path.contains n then some n else none, marks)
    else match d.above t n with
      | none => (none, marks.mark n)
      | some p => d.climb t steps (marks.mark n) (n :: path) p := by
  rw [climb]
  split
  · rfl
  · cases hx : d.nodes[n]? with
    | none =>
      have out : ¬ n < marks.size := by
        rw [size]
        exact Nat.not_lt.2 (Array.getElem?_eq_none_iff.1 hx)
      have same : marks.mark n = marks := by simp [Marks.mark, Array.setIfInBounds, out]
      simp [above, hx, same]
    | some x => cases hp : x.parent.get t <;> simp [above_of_node hx, hp]

/-- Where the parents end there is no loop to be found. -/
theorem climb_fst_of_ends (size : marks.size = d.size) (h : d.Ends t n)
    (hp : ∀ m ∈ path, d.Above t m n) : (d.climb t steps marks path n).1 = none := by
  induction steps generalizing marks path n with
  | zero => rfl
  | succ steps ih =>
    rw [climb_succ size]
    by_cases hn : marks.has n = true
    · have off : ¬ path.contains n = true := fun hn =>
        h.not_above (hp n (List.contains_iff_mem.1 hn))
      rw [if_pos hn, if_neg off]
    · rw [if_neg hn]
      cases up : d.above t n with
      | none => rfl
      | some q =>
        refine ih ((Marks.size_mark ..).trans size) (h.parent up) fun m hm => ?_
        obtain rfl | hm := List.mem_cons.1 hm
        · exact .parent up
        · exact (hp m hm).step up

theorem lt_size_of_has (h : marks.has n = true) : n < marks.size := by
  simp only [Marks.has, beq_iff_eq] at h
  exact (Array.getElem?_eq_some_iff.1 h).1

/-- A walk upwards that is under way has gone to another node of the store with every step, and has
steps left for all nodes where it has not been. -/
structure UnderWay (d : Diff) (steps : Nat) (marks : Marks) (path : List Handle) : Prop where
  size : marks.size = d.size
  marked : ∀ m ∈ path, marks.has m = true
  once : path.Nodup
  steps : d.size < steps + path.length

namespace UnderWay

theorem start (size : marks.size = d.size) (enough : d.size < steps) : d.UnderWay steps marks [] :=
  ⟨size, by simp, .nil, enough⟩

theorem steps_pos (h : d.UnderWay steps marks path) : 0 < steps := by
  have sub : path ⊆ List.range d.size := fun m hm =>
    List.mem_range.2 (h.size ▸ lt_size_of_has (h.marked m hm))
  have few := (h.once.subperm sub).length_le
  have enough := h.steps
  rw [List.length_range] at few
  omega

theorem step (h : d.UnderWay (steps + 1) marks path) (hn : ¬ marks.has n = true)
    (hs : n < d.size) : d.UnderWay steps (marks.mark n) (n :: path) where
  size := by rw [Marks.size_mark, h.size]
  marked m hm := by
    rw [Marks.has_mark, Bool.or_eq_true]
    obtain rfl | hm := List.mem_cons.1 hm
    · exact .inl (by simpa [h.size] using hs)
    · exact .inr (h.marked m hm)
  once := List.nodup_cons.2 ⟨fun hm => hn (h.marked n hm), h.once⟩
  steps := by
    have enough := h.steps
    rw [List.length_cons]
    omega

end UnderWay

/-- The walk upwards as it is under way: what is marked ends or lies on the way taken, and every
step has gone to another node of the store. -/
structure Climbing (d : Diff) (t : Time) (steps : Nat) (marks : Marks) (path : List Handle) :
    Prop where
  size : marks.size = d.size
  ends : ∀ m, marks.has m = true → d.Ends t m ∨ m ∈ path
  marked : ∀ m ∈ path, marks.has m = true
  once : path.Nodup
  steps : steps + path.length = d.size + 1

namespace Climbing

theorem underWay (h : d.Climbing t steps marks path) : d.UnderWay steps marks path :=
  ⟨h.size, h.marked, h.once, h.steps ▸ Nat.lt_succ_self _⟩

theorem steps_pos (h : d.Climbing t steps marks path) : 0 < steps := h.underWay.steps_pos

theorem step (h : d.Climbing t (steps + 1) marks path) (hn : ¬ marks.has n = true)
    (hs : n < d.size) : d.Climbing t steps (marks.mark n) (n :: path) where
  size := (h.underWay.step hn hs).size
  ends m hm := by
    rw [Marks.has_mark, Bool.or_eq_true, Bool.and_eq_true, beq_iff_eq] at hm
    obtain ⟨rfl, -⟩ | hm := hm
    · exact .inr List.mem_cons_self
    · exact (h.ends m hm).imp_right (List.mem_cons_of_mem n)
  marked := (h.underWay.step hn hs).marked
  once := (h.underWay.step hn hs).once
  steps := by
    have := h.steps
    rw [List.length_cons]
    omega

end Climbing

/-- If no loop is found, the parents end, and so do those of all marked nodes off the way taken. -/
theorem ends_of_climb (h : d.Climbing t steps marks path)
    (hc : (d.climb t steps marks path n).1 = none) :
    d.Ends t n ∧ (d.climb t steps marks path n).2.size = d.size ∧
      ∀ m, (d.climb t steps marks path n).2.has m = true → d.Ends t m ∨ m ∈ path := by
  induction steps generalizing marks path n with
  | zero => exact absurd h.steps_pos (Nat.lt_irrefl 0)
  | succ steps ih =>
    rw [climb_succ h.size] at hc ⊢
    by_cases hn : marks.has n = true
    · rw [if_pos hn] at hc ⊢
      have off : n ∉ path := fun hm => by simp [hm] at hc
      exact ⟨(h.ends n hn).resolve_right off, h.size, h.ends⟩
    · rw [if_neg hn] at hc ⊢
      cases hp : d.above t n with
      | none =>
        refine ⟨.top hp, (Marks.size_mark ..).trans h.size, fun m hm => ?_⟩
        rw [Marks.has_mark, Bool.or_eq_true, Bool.and_eq_true, beq_iff_eq] at hm
        obtain ⟨rfl, -⟩ | hm := hm
        · exact .inl (.top hp)
        · exact h.ends m hm
      | some p =>
        rw [hp] at hc
        obtain ⟨ended, size, marked⟩ := ih (h.step hn (lt_size_of_above hp)) hc
        have here : d.Ends t n := .step hp ended
        refine ⟨here, size, fun m hm => ?_⟩
        obtain hm | hm := marked m hm
        · exact .inl hm
        · obtain rfl | hm := List.mem_cons.1 hm
          · exact .inl here
          · exact .inr hm

theorem parentLoopsAt_eq_nil_iff {ns : List Handle} (size : marks.size = d.size)
    (h : ∀ m, marks.has m = true → d.Ends t m) :
    d.parentLoopsAt t marks ns = [] ↔ ∀ n ∈ ns, d.Ends t n := by
  induction ns generalizing marks with
  | nil => simp [parentLoopsAt]
  | cons n ns ih =>
    have start : d.Climbing t (d.size + 1) marks [] :=
      ⟨size, fun m hm => .inl (h m hm), by simp, .nil, rfl⟩
    rw [parentLoopsAt, List.forall_mem_cons]
    cases hc : d.climb t (d.size + 1) marks [] n with
    | mk found marks' =>
      cases found with
      | some entry =>
        refine ⟨fun k => (by cases k), fun ⟨hn, _⟩ => ?_⟩
        have nothing : (d.climb t (d.size + 1) marks [] n).1 = none :=
          climb_fst_of_ends size hn (by simp)
        rw [hc] at nothing; cases nothing
      | none =>
        obtain ⟨hn, size', marked⟩ := ends_of_climb start (n := n) (by rw [hc])
        rw [hc] at size' marked
        rw [and_iff_right hn]
        exact ih size' fun m hm => (marked m hm).resolve_right List.not_mem_nil

/-- No loop is found exactly if all parents end. -/
theorem parentLoops_eq_nil_iff {ns : List Handle} :
    d.parentLoops ns = [] ↔ ∀ n ∈ ns, ∀ t, d.Ends t n := by
  have none (t : Time) : d.parentLoopsAt t (Marks.none d.size) ns = [] ↔ ∀ n ∈ ns, d.Ends t n :=
    parentLoopsAt_eq_nil_iff (by simp [Marks.none]) fun m hm => by
      simp [Marks.none, Marks.has, Array.getElem?_replicate] at hm
  rw [parentLoops, List.flatMap_eq_nil_iff]
  simp only [List.map_eq_nil_iff, none, Time.mem_all, true_implies]
  exact ⟨fun h n hn t => h t n hn, fun h t n hn => h n hn t⟩

end Climb

/-! ## Verdicts on the ancestors at both times -/

/-- A node is met on the way up from another one, along parents of either time. The way ends at the
root. -/
inductive Over (d : Diff) (n : Handle) : Handle → Prop where
  | self : Over d n n
  | up {t : Time} {m p : Handle} (h : Over d n m) (hm : m ≠ root) (hp : d.above t m = some p) :
    Over d n p

/-- No ancestor of a node but the root is without parents. -/
def Grounded (d : Diff) (n : Handle) : Prop :=
  ∀ m, d.Over n m → m = root ∨ ∃ t p, d.above t m = some p

/-- The parents of a node, that before the edit first. -/
def parents (d : Diff) (n : Handle) : List Handle := Time.all.filterMap (d.above · n)

/-- Whether all of the given nodes lead to the root, up to the first that does not. -/
def allEndAtRoot (d : Diff) (steps : Nat) : List Handle → EStateM Failure Verdicts Bool
  | [] => return true
  | p :: ps => do
    if ← d.endsAtRootWithin steps p then allEndAtRoot d steps ps else return false

section Verdicts

variable {d : Diff} {n m p : Handle} {t : Time} {steps : Nat} {v w : Verdicts} {ps : List Handle}

theorem mem_parents : p ∈ d.parents n ↔ ∃ t, d.above t n = some p := by
  simp [parents]

theorem parents_eq_nil_iff : d.parents n = [] ↔ ∀ t, d.above t n = none := by
  simp [parents, List.filterMap_eq_nil_iff]

/-- What is asked about a node of which nothing is known. -/
def question (d : Diff) (steps : Nat) (n : Handle) : EStateM Failure Verdicts Bool :=
  if n = root then return true
  else if d.parents n = [] then return false
  else d.allEndAtRoot steps (d.parents n)

theorem run_of_known (h : v[n]? = some .rooted ∨ v[n]? = some .pending) :
    (d.endsAtRootWithin (steps + 1) n).run v = .ok true v := by
  rw [endsAtRootWithin, EStateM.run_bind, EStateM.run_get]
  obtain h | h := h <;> simp only [h] <;> rfl

theorem run_of_unknown (hn : n < d.size) (h : v[n]? = some .unknown) :
    (d.endsAtRootWithin (steps + 1) n).run v =
      match (d.question steps n).run (v.setIfInBounds n .pending) with
      | .ok b w => .ok b (w.setIfInBounds n (if b then .rooted else .unrooted))
      | .error e w => .error e w := by
  obtain ⟨x, hx⟩ := exists_node hn
  have single (p : Handle) : d.allEndAtRoot steps [p] = d.endsAtRootWithin steps p := by
    refine Eq.trans (congrArg (d.endsAtRootWithin steps p >>= ·) (funext fun b => ?_)) (bind_pure _)
    cases b <;> rfl
  have pair (p q : Handle) : d.allEndAtRoot steps [p, q] =
      (do if ← d.endsAtRootWithin steps p then d.endsAtRootWithin steps q else return false) := by
    rw [allEndAtRoot, single]
  have parents : d.parents n = [x.parent.before, x.parent.after].filterMap id := by
    simp [Diff.parents, Time.all, above_of_node hx, Sides.get, List.filterMap]
  rw [endsAtRootWithin, EStateM.run_bind, EStateM.run_get]
  simp only [h, EStateM.run_bind, EStateM.run_modify, question]
  by_cases hr : n = root
  · simp [hr]
  · simp only [hr, if_false, node_of_getElem? hx, parents]
    rcases x.parent.before with _ | p <;> rcases x.parent.after with _ | q
    · rfl
    · simp only [List.filterMap, id, reduceCtorEq, if_false, single]
      cases EStateM.run (d.endsAtRootWithin steps q) (v.setIfInBounds n .pending) <;> rfl
    · simp only [List.filterMap, id, reduceCtorEq, if_false, single]
      cases EStateM.run (d.endsAtRootWithin steps p) (v.setIfInBounds n .pending) <;> rfl
    · simp only [List.filterMap, id, reduceCtorEq, if_false, pair]
      cases EStateM.run (do
        if ← d.endsAtRootWithin steps p then d.endsAtRootWithin steps q else return false :
          EStateM Failure Verdicts Bool) (v.setIfInBounds n .pending) <;> rfl

theorem Over.head (hn : n ≠ root) (hp : d.above t n = some p) (h : d.Over p m) : d.Over n m := by
  induction h with
  | self => exact .up .self hn hp
  | up _ hm hq ih => exact ih.up hm hq

theorem Grounded.parent (h : d.Grounded n) (hn : n ≠ root) (hp : d.above t n = some p) :
    d.Grounded p :=
  fun m hm => h m (hm.head hn hp)

theorem getElem?_set (hn : n < v.size) (a : Verdict) (m : Handle) :
    (v.setIfInBounds n a)[m]? = if m = n then some a else v[m]? := by
  rw [Array.getElem?_setIfInBounds, if_pos hn]
  simp only [eq_comm]

/-- Nothing was found so far that does not lead to the root. -/
structure Hopeful (d : Diff) (v : Verdicts) : Prop where
  size : v.size = d.size
  rooted : ∀ m : Handle, v[m]? ≠ some .unrooted

theorem Hopeful.set (h : d.Hopeful v) (hn : n < d.size) {a : Verdict} (ha : a ≠ .unrooted) :
    d.Hopeful (v.setIfInBounds n a) where
  size := by rw [Array.size_setIfInBounds, h.size]
  rooted m := by
    rw [getElem?_set (h.size ▸ hn)]
    split
    · simpa using ha
    · exact h.rooted m

/-- The walk accepts what is grounded. -/
theorem run_of_grounded (hd : d.Regular) (h : d.Grounded n) (hn : n < d.size) (hv : d.Hopeful v) :
    ∃ w, (d.endsAtRootWithin steps n).run v = .ok true w ∧ d.Hopeful w := by
  induction steps generalizing n v with
  | zero => exact ⟨v, rfl, hv⟩
  | succ steps ih =>
    have all (ps : List Handle) (v : Verdicts) (hps : ∀ p ∈ ps, d.Grounded p ∧ p < d.size)
        (hv : d.Hopeful v) : ∃ w, (d.allEndAtRoot steps ps).run v = .ok true w ∧ d.Hopeful w := by
      induction ps generalizing v with
      | nil => exact ⟨v, rfl, hv⟩
      | cons p ps ihp =>
        obtain ⟨⟨hp, hs⟩, hps⟩ := List.forall_mem_cons.1 hps
        obtain ⟨v₁, h₁, hv₁⟩ := ih hp hs hv
        obtain ⟨w, hw, hw'⟩ := ihp v₁ hps hv₁
        exact ⟨w, by simp only [allEndAtRoot, EStateM.run_bind, h₁, if_true, hw], hw'⟩
    cases hx : v[n]? with
    | none => exact absurd (Array.getElem?_eq_none_iff.1 hx) (Nat.not_le_of_lt (hv.size ▸ hn))
    | some verdict =>
      cases verdict with
      | rooted => exact ⟨v, run_of_known (.inl hx), hv⟩
      | pending => exact ⟨v, run_of_known (.inr hx), hv⟩
      | unrooted => exact absurd hx (hv.rooted n)
      | unknown =>
        have hv₁ := hv.set hn (a := .pending) (by decide)
        have asked : ∃ w, (d.question steps n).run (v.setIfInBounds n .pending) = .ok true w ∧
            d.Hopeful w := by
          by_cases hr : n = root
          · exact ⟨_, by simp only [question, hr, if_true]; rfl, hv₁⟩
          · have up : d.parents n ≠ [] := fun hnil => by
              obtain hr' | ⟨t, p, hp⟩ := h n .self
              · exact hr hr'
              · rw [parents_eq_nil_iff.1 hnil t] at hp; cases hp
            simp only [question, hr, up, if_false]
            refine all _ _ (fun p hp => ?_) hv₁
            obtain ⟨t, hp⟩ := mem_parents.1 hp
            exact ⟨h.parent hr hp, hd.parent_lt hp⟩
        obtain ⟨w, hw, hw'⟩ := asked
        refine ⟨w.setIfInBounds n .rooted, ?_, hw'.set hn (by decide)⟩
        rw [run_of_unknown hn hx, hw]
        rfl

/-- What holds while the walk is under way: nothing was found that does not lead to the root, the
pending nodes are those on the way taken, and above a rooted node everything is rooted or
pending. -/
structure Fair (d : Diff) (path : List Handle) (v : Verdicts) : Prop extends Hopeful d v where
  pending : ∀ m : Handle, v[m]? = some .pending ↔ m ∈ path
  above : ∀ m : Handle, v[m]? = some .rooted → m = root ∨ (∃ t p, d.above t m = some p) ∧
    ∀ t p, d.above t m = some p → v[p]? = some .rooted ∨ p ∈ path

namespace Fair

variable {path : List Handle}

theorem enter (h : d.Fair path v) (hn : n < d.size) :
    d.Fair (n :: path) (v.setIfInBounds n .pending) where
  toHopeful := h.set hn (by decide)
  pending m := by
    rw [getElem?_set (h.size ▸ hn), List.mem_cons, ← h.pending]
    by_cases hm : m = n <;> simp [hm]
  above m hm := by
    rw [getElem?_set (h.size ▸ hn)] at hm
    split at hm
    · cases hm
    · refine (h.above m hm).imp_right fun ⟨one, all⟩ => ⟨one, fun t p hp => ?_⟩
      rw [getElem?_set (h.size ▸ hn), List.mem_cons]
      by_cases hpn : p = n
      · exact .inr (.inl hpn)
      · rw [if_neg hpn]
        exact (all t p hp).imp_right .inr

theorem leave (h : d.Fair (n :: path) v) (hn : n < d.size) (fresh : n ∉ path)
    (here : n = root ∨ (∃ t p, d.above t n = some p) ∧
      ∀ t p, d.above t n = some p → v[p]? = some .rooted ∨ p ∈ n :: path) :
    d.Fair path (v.setIfInBounds n .rooted) where
  toHopeful := h.set hn (by decide)
  pending m := by
    rw [getElem?_set (h.size ▸ hn)]
    by_cases hm : m = n
    · simp [hm, fresh]
    · rw [if_neg hm, h.pending, List.mem_cons]
      simp [hm]
  above m hm := by
    have known : m = root ∨ (∃ t p, d.above t m = some p) ∧
        ∀ t p, d.above t m = some p → v[p]? = some .rooted ∨ p ∈ n :: path := by
      rw [getElem?_set (h.size ▸ hn)] at hm
      split at hm
      · next e => rw [e]; exact here
      · exact h.above m hm
    refine known.imp_right fun ⟨one, all⟩ => ⟨one, fun t p hp => ?_⟩
    rw [getElem?_set (h.size ▸ hn)]
    by_cases hpn : p = n
    · exact .inl (if_pos hpn)
    · rw [if_neg hpn]
      exact (all t p hp).imp_right fun hp => (List.mem_cons.1 hp).resolve_left hpn

end Fair

/-- The walk along a path accepted some nodes: it found each of them rooted or is still busy with it,
and what was rooted stays so. -/
structure Accepts (d : Diff) (path ps : List Handle) (v w : Verdicts) : Prop where
  fair : d.Fair path w
  found : ∀ p ∈ ps, w[p]? = some .rooted ∨ p ∈ path
  mono : ∀ m : Handle, v[m]? = some .rooted → w[m]? = some .rooted

section Accepts

variable {path : List Handle}

/-- If the walk accepts all nodes of a list, it accepts them one after the other. -/
theorem accepts_of_all
    (each : ∀ (p : Handle) (v w : Verdicts), p < d.size → d.Fair path v →
      (d.endsAtRootWithin steps p).run v = .ok true w → d.Accepts path [p] v w)
    (hps : ∀ p ∈ ps, p < d.size) (hv : d.Fair path v)
    (hr : (d.allEndAtRoot steps ps).run v = .ok true w) : d.Accepts path ps v w := by
  induction ps generalizing v with
  | nil =>
    obtain rfl : v = w := by cases hr; rfl
    exact ⟨hv, by simp, fun _ h => h⟩
  | cons p ps ihp =>
    obtain ⟨hp, hps⟩ := List.forall_mem_cons.1 hps
    rw [allEndAtRoot, EStateM.run_bind] at hr
    cases h₁ : (d.endsAtRootWithin steps p).run v with
    | error e v₁ => rw [h₁] at hr; cases hr
    | ok b v₁ =>
      rw [h₁] at hr
      cases b with
      | false => cases hr
      | true =>
        have first := each p v v₁ hp hv h₁
        have rest := ihp hps first.fair hr
        have here := first.found p List.mem_cons_self
        exact ⟨rest.fair, List.forall_mem_cons.2 ⟨here.imp_left (rest.mono p), rest.found⟩,
          fun m hm => rest.mono m (first.mono m hm)⟩

/-- A node is accepted if it is the root or if it has parents and all of them are accepted. -/
theorem accepts_of_question (hd : d.Regular) (hv : d.Fair path v) (hn : n < d.size)
    (each : ∀ (p : Handle) (v w : Verdicts), p < d.size → d.Fair (n :: path) v →
      (d.endsAtRootWithin steps p).run v = .ok true w → d.Accepts (n :: path) [p] v w)
    (hq : (d.question steps n).run (v.setIfInBounds n .pending) = .ok true w) :
    d.Accepts (n :: path) [] (v.setIfInBounds n .pending) w ∧
      (n = root ∨ (∃ t p, d.above t n = some p) ∧
        ∀ t p, d.above t n = some p → w[p]? = some .rooted ∨ p ∈ n :: path) := by
  unfold question at hq
  split at hq
  · next hroot =>
    cases hq
    exact ⟨⟨hv.enter hn, by simp, fun _ h => h⟩, .inl hroot⟩
  · split at hq
    · cases hq
    · next hup =>
      have inStore (p) (hp : p ∈ d.parents n) : p < d.size := by
        obtain ⟨t, hp⟩ := mem_parents.1 hp
        exact hd.parent_lt hp
      have parents := accepts_of_all each inStore (hv.enter hn) hq
      obtain ⟨p, hp⟩ := List.exists_mem_of_ne_nil _ hup
      obtain ⟨t, hp⟩ := mem_parents.1 hp
      exact ⟨⟨parents.fair, by simp, parents.mono⟩,
        .inr ⟨⟨t, p, hp⟩, fun t p hp => parents.found p (mem_parents.2 ⟨t, hp⟩)⟩⟩

/-- If the walk accepts a node, it has found it rooted or is still busy with it. -/
theorem accepts_of_run (hd : d.Regular) (hv : d.Fair path v) (once : path.Nodup)
    (hs : steps + path.length = d.size + 1) (hn : n < d.size)
    (hr : (d.endsAtRootWithin steps n).run v = .ok true w) : d.Accepts path [n] v w := by
  induction steps generalizing path n v w with
  | zero =>
    have sub : path ⊆ List.range d.size := fun m hm => by
      have := (Array.getElem?_eq_some_iff.1 ((hv.pending m).2 hm)).1
      rw [hv.size] at this
      exact List.mem_range.2 this
    have := (once.subperm sub).length_le
    rw [List.length_range] at this
    omega
  | succ steps ih =>
    cases hx : v[n]? with
    | none => exact absurd (Array.getElem?_eq_none_iff.1 hx) (Nat.not_le_of_lt (hv.size ▸ hn))
    | some verdict =>
      cases verdict with
      | rooted =>
        rw [run_of_known (.inl hx)] at hr
        cases hr
        exact ⟨hv, by simp [hx], fun _ h => h⟩
      | pending =>
        rw [run_of_known (.inr hx)] at hr
        cases hr
        exact ⟨hv, by simp [(hv.pending n).1 hx], fun _ h => h⟩
      | unrooted => exact absurd hx (hv.rooted n)
      | unknown =>
        have fresh : n ∉ path := fun hm => by
          rw [(hv.pending n).2 hm] at hx; cases hx
        rw [run_of_unknown hn hx] at hr
        cases hq : (d.question steps n).run (v.setIfInBounds n .pending) with
        | error e w₁ => rw [hq] at hr; cases hr
        | ok b w₁ =>
          rw [hq] at hr
          cases b with
          | false => cases hr
          | true =>
            obtain rfl : w₁.setIfInBounds n .rooted = w := by cases hr; rfl
            obtain ⟨parents, here⟩ := accepts_of_question hd hv hn
              (fun p v w hp hv => ih hv (List.nodup_cons.2 ⟨fresh, once⟩)
                (by rw [List.length_cons]; omega) hp) hq
            have size : n < w₁.size := parents.fair.size ▸ hn
            refine ⟨parents.fair.leave hn fresh here, fun p hp => .inl ?_, fun m hm => ?_⟩
            · rw [List.mem_singleton.1 hp, getElem?_set size, if_pos rfl]
            · have hmn : m ≠ n := fun e => by rw [e, hx] at hm; cases hm
              rw [getElem?_set size, if_neg hmn]
              exact parents.mono m (by rw [getElem?_set (hv.size ▸ hn), if_neg hmn]; exact hm)

end Accepts

theorem Fair.grounded (hv : d.Fair [] v) (hn : v[n]? = some .rooted) : d.Grounded n := by
  have rooted (m : Handle) (hm : d.Over n m) : v[m]? = some .rooted := by
    induction hm with
    | self => exact hn
    | up _ hne hp ih =>
      obtain hr | ⟨-, all⟩ := hv.above _ ih
      · exact absurd hr hne
      · exact (all _ _ hp).resolve_right List.not_mem_nil
  intro m hm
  exact (hv.above m (rooted m hm)).imp_right (·.1)

theorem Fair.start (d : Diff) : d.Fair [] (Verdicts.none d.size) where
  size := by simp [Verdicts.none]
  rooted m := by simp [Verdicts.none, Array.getElem?_replicate]
  pending m := by simp [Verdicts.none, Array.getElem?_replicate]
  above m hm := by simp [Verdicts.none, Array.getElem?_replicate] at hm

/-- The walk accepts a list of nodes exactly if all of them are grounded. -/
theorem run_checkRooted_iff {ns : List Handle} (hd : d.Regular) (hv : d.Fair [] v)
    (hns : ∀ n ∈ ns, n < d.size) :
    (∃ w, (d.checkRooted ns).run v = .ok () w) ↔ ∀ n ∈ ns, d.Grounded n := by
  induction ns generalizing v with
  | nil => exact ⟨fun _ => by simp, fun _ => ⟨v, rfl⟩⟩
  | cons n ns ih =>
    obtain ⟨hn, hns⟩ := List.forall_mem_cons.1 hns
    rw [List.forall_mem_cons, checkRooted, EStateM.run_bind]
    have accepted {w : Verdicts} (h : (d.endsAtRoot n).run v = .ok true w) :
        d.Fair [] w ∧ d.Grounded n := by
      have accepts := accepts_of_run hd hv .nil rfl hn h
      have rooted := (accepts.found n List.mem_cons_self).resolve_right List.not_mem_nil
      exact ⟨accepts.fair, accepts.fair.grounded rooted⟩
    constructor
    · rintro ⟨w, hw⟩
      cases h₁ : (d.endsAtRoot n).run v with
      | error e v₁ => rw [h₁] at hw; cases hw
      | ok b v₁ =>
        rw [h₁] at hw
        cases b with
        | false => cases hw
        | true =>
          obtain ⟨hv₁, hg⟩ := accepted h₁
          exact ⟨hg, (ih hv₁ hns).1 ⟨w, hw⟩⟩
    · rintro ⟨hg, hgs⟩
      obtain ⟨v₁, h₁, -⟩ : ∃ w, (d.endsAtRoot n).run v = .ok true w ∧ d.Hopeful w :=
        run_of_grounded hd hg hn hv.toHopeful
      obtain ⟨hv₁, -⟩ := accepted h₁
      obtain ⟨w, hw⟩ := (ih hv₁ hns).2 hgs
      exact ⟨w, by rw [h₁]; exact hw⟩

end Verdicts

end Variation.Diff
