import Variation.Diff.Walk
import Variation.Proofs.Edges
import Mathlib.Algebra.Order.BigOperators.Group.List
import Mathlib.Algebra.GroupWithZero.Nat
import Mathlib.Algebra.Order.Group.Nat
import Mathlib.Data.List.Perm.Subperm

/-!
# What hangs below the root

A node is reached from the root along edges of either time. The walk `preorder` keeps the nodes it
has seen and those that wait; the two together always hold every child of a seen node, and the steps
that are left pay for every edge it has not followed yet. The main statement says that the walk
succeeds on a regular diff and lists exactly the nodes that are reached, each once.
-/

namespace Variation.Diff

/-- A node hangs below the root, along edges of either time. -/
inductive Reaches (d : Diff) : Handle → Prop where
  | root : Reaches d root
  | child {t : Time} {p c : Handle} (h : Reaches d p) (hc : c ∈ d.below t p) : Reaches d c

variable {d : Diff} {n : Handle}

theorem Reaches.lt_size (hd : d.Regular) (h : d.Reaches n) : n < d.size := by
  cases h with
  | root => exact hd.root_lt
  | child _ hc => exact hd.child_lt hc

/-! ## The children at both times -/

theorem length_eraseDups_le (ns : List Handle) : ns.eraseDups.length ≤ ns.length := by
  generalize hk : ns.length = k
  induction k using Nat.strong_induction_on generalizing ns with
  | _ k ih =>
    cases ns with
    | nil => simp
    | cons n ns =>
      have shorter := List.length_filter_le (fun m => !m == n) ns
      have := ih _ (by rw [← hk, List.length_cons]; omega) (ns.filter fun m => !m == n) rfl
      rw [List.eraseDups_cons, List.length_cons, ← hk, List.length_cons]
      omega

theorem nodup_eraseDups (ns : List Handle) : ns.eraseDups.Nodup := by
  generalize hk : ns.length = k
  induction k using Nat.strong_induction_on generalizing ns with
  | _ k ih =>
    cases ns with
    | nil => exact .nil
    | cons n ns =>
      have shorter := List.length_filter_le (fun m => !m == n) ns
      rw [List.eraseDups_cons, List.nodup_cons, List.mem_eraseDups, List.mem_filter]
      exact ⟨by simp, ih _ (by rw [← hk, List.length_cons]; omega) _ rfl⟩

/-- The number of edges to the children of a node. -/
def degree (d : Diff) (n : Handle) : Nat := (d.below .before n).length + (d.below .after n).length

/-- The children of a node before the edit and then those that it has only after it. -/
def belowBoth (d : Diff) (n : Handle) : List Handle :=
  d.below .before n ++
    ((d.below .after n).filter fun c => !(d.below .before n).contains c).eraseDups

theorem allChildren_eq (h : n < d.size) : d.allChildren n = .ok (d.belowBoth n) := by
  obtain ⟨x, hx⟩ := exists_node h
  simp only [allChildren, node_of_getElem? hx, belowBoth, below_of_node hx]
  rfl

theorem mem_belowBoth {c : Handle} : c ∈ d.belowBoth n ↔ ∃ t, c ∈ d.below t n := by
  simp only [belowBoth, List.mem_append, List.mem_eraseDups, List.mem_filter]
  constructor
  · rintro (h | ⟨h, -⟩)
    · exact ⟨.before, h⟩
    · exact ⟨.after, h⟩
  · rintro ⟨t, h⟩
    by_cases hb : c ∈ d.below .before n
    · exact .inl hb
    · cases t with
      | before => exact .inl h
      | after => exact .inr ⟨h, by simp [hb]⟩

theorem Reaches.of_mem_belowBoth {c : Handle} (h : d.Reaches n) (hc : c ∈ d.belowBoth n) :
    d.Reaches c := by
  obtain ⟨t, hc⟩ := mem_belowBoth.1 hc
  exact .child h hc

theorem Symmetric.exists_above {c : Handle} (h : d.Symmetric) (hc : c ∈ d.belowBoth n) :
    ∃ t, d.above t c = some n := by
  obtain ⟨t, hc⟩ := mem_belowBoth.1 hc
  exact ⟨t, h.above_of_mem hc⟩

theorem Symmetric.lt_size_of_mem_belowBoth {c : Handle} (h : d.Symmetric)
    (hc : c ∈ d.belowBoth n) : c < d.size := by
  obtain ⟨t, hc⟩ := mem_belowBoth.1 hc
  exact h.child_lt hc

theorem nodup_belowBoth (hd : d.Regular) : (d.belowBoth n).Nodup := by
  refine List.nodup_append'.2 ⟨hd.once .before n, nodup_eraseDups _, fun c hc other => ?_⟩
  rw [List.mem_eraseDups, List.mem_filter] at other
  simp [hc] at other

theorem length_belowBoth_le : (d.belowBoth n).length ≤ d.degree n := by
  have := length_eraseDups_le ((d.below .after n).filter fun c => !(d.below .before n).contains c)
  have := List.length_filter_le (fun c => !(d.below .before n).contains c) (d.below .after n)
  simp only [belowBoth, List.length_append, degree]
  omega

theorem edgeCount_eq (d : Diff) : d.edgeCount = ((List.range d.size).map d.degree).sum := by
  have sum (xs : List Node) :
      xs.foldr (fun x count => x.children.before.length + x.children.after.length + count) 0 =
        (xs.map fun x => x.children.before.length + x.children.after.length).sum := by
    induction xs with
    | nil => rfl
    | cons x xs ih => simp only [List.foldr_cons, ih, List.map_cons, List.sum_cons]
  rw [edgeCount, sum]
  congr 1
  apply List.ext_getElem
  · simp [size]
  · intro i hi _
    have hi : i < d.nodes.size := by simpa using hi
    simp [degree, below, hi, Sides.get]

/-- Distinct nodes of the store have at most as many edges as there are. -/
theorem sum_degree_le {ns : List Handle} (once : ns.Nodup) (hn : ∀ n ∈ ns, n < d.size) :
    (ns.map d.degree).sum ≤ d.edgeCount := by
  have sub : ns.Subperm (List.range d.size) :=
    once.subperm fun n h => List.mem_range.2 (hn n h)
  obtain ⟨ms, hp, hs⟩ := sub
  rw [edgeCount_eq, ← (hp.map d.degree).sum_eq]
  exact (hs.map d.degree).sum_le_sum fun _ _ => Nat.zero_le _

/-! ## The walk -/

/-- What holds at every step of the walk: the marks are the nodes seen, nothing is seen that is not
reached, every child of a seen node is seen or waits, and the steps that are left suffice for what
waits and for the edges of the nodes that were not seen. -/
structure Walk (d : Diff) (steps : Nat) (marks : Marks) (waiting seen : List Handle) : Prop where
  size : marks.size = d.size
  marked : ∀ n, marks.has n = true ↔ n ∈ seen
  once : seen.Nodup
  sound : ∀ n, n ∈ seen ∨ n ∈ waiting → d.Reaches n
  closed : ∀ n ∈ seen, ∀ t, ∀ c ∈ d.below t n, c ∈ seen ∨ c ∈ waiting
  root : Diff.root ∈ seen ∨ Diff.root ∈ waiting
  steps : waiting.length + d.edgeCount ≤ steps + (seen.map d.degree).sum

namespace Walk

variable {steps : Nat} {marks : Marks} {waiting seen : List Handle}

theorem start (d : Diff) : d.Walk (d.edgeCount + 1) (.none d.size) [Diff.root] [] where
  size := by simp [Marks.none]
  marked n := by simp [Marks.none, Marks.has, Array.getElem?_replicate]
  once := .nil
  sound n h := by
    obtain h | h := h
    · cases h
    · rw [List.mem_singleton.1 h]; exact .root
  closed n h := by cases h
  root := .inr List.mem_cons_self
  steps := by simp [Nat.add_comm]

/-- As long as something waits there are steps left. -/
theorem steps_pos (h : d.Walk steps marks (n :: waiting) seen) (hd : d.Regular) : 0 < steps := by
  have := sum_degree_le h.once fun m hm => (h.sound m (.inl hm)).lt_size hd
  have := h.steps
  rw [List.length_cons] at this
  omega

theorem skip (h : d.Walk (steps + 1) marks (n :: waiting) seen) (hn : marks.has n = true) :
    d.Walk steps marks waiting seen := by
  have drop (m : Handle) (hm : m ∈ seen ∨ m ∈ n :: waiting) : m ∈ seen ∨ m ∈ waiting := by
    obtain hm | hm := hm
    · exact .inl hm
    · obtain rfl | hm := List.mem_cons.1 hm
      · exact .inl ((h.marked m).1 hn)
      · exact .inr hm
  refine { h with
    sound := fun m hm => h.sound m (hm.imp_right (List.mem_cons_of_mem n))
    closed := fun m hm t c hc => drop c (h.closed m hm t c hc)
    root := drop _ h.root
    steps := ?_ }
  have := h.steps
  rw [List.length_cons] at this
  omega

theorem visit (h : d.Walk (steps + 1) marks (n :: waiting) seen) (hd : d.Regular)
    (hn : ¬ marks.has n = true) :
    d.Walk steps (marks.mark n) (d.belowBoth n ++ waiting) (n :: seen) := by
  have new : n ∉ seen := fun hm => hn ((h.marked n).2 hm)
  have reached : d.Reaches n := h.sound n (.inr List.mem_cons_self)
  refine ⟨by rw [Marks.size_mark, h.size], fun m => ?_, List.nodup_cons.2 ⟨new, h.once⟩,
    fun m hm => ?_, fun m hm t c hc => ?_, ?_, ?_⟩
  · rw [Marks.has_mark, h.size]
    have : n < d.size := reached.lt_size hd
    simp only [this, decide_true, Bool.and_true, Bool.or_eq_true, beq_iff_eq, h.marked,
      List.mem_cons, eq_comm (a := n)]
  · rw [List.mem_cons, List.mem_append] at hm
    obtain (rfl | hm) | hm | hm := hm
    · exact reached
    · exact h.sound m (.inl hm)
    · exact reached.of_mem_belowBoth hm
    · exact h.sound m (.inr (List.mem_cons_of_mem n hm))
  · obtain rfl | hm := List.mem_cons.1 hm
    · exact .inr (List.mem_append_left _ (mem_belowBoth.2 ⟨t, hc⟩))
    · obtain hc | hc := h.closed m hm t c hc
      · exact .inl (List.mem_cons_of_mem n hc)
      · obtain rfl | hc := List.mem_cons.1 hc
        · exact .inl List.mem_cons_self
        · exact .inr (List.mem_append_right _ hc)
  · obtain hr | hr := h.root
    · exact .inl (List.mem_cons_of_mem n hr)
    · obtain hr | hr := List.mem_cons.1 hr
      · exact .inl (hr ▸ List.mem_cons_self)
      · exact .inr (List.mem_append_right _ hr)
  · have := h.steps
    have := length_belowBoth_le (d := d) (n := n)
    simp only [List.length_cons, List.length_append, List.map_cons, List.sum_cons] at *
    omega

/-- At the end everything that is reached was seen. -/
theorem mem_iff (h : d.Walk steps marks [] seen) (n : Handle) : n ∈ seen ↔ d.Reaches n := by
  refine ⟨fun hn => h.sound n (.inl hn), fun hn => ?_⟩
  induction hn with
  | root => simpa using h.root
  | child _ hc ih => simpa using h.closed _ ih _ _ hc

end Walk

theorem preorderFrom_of_walk {steps : Nat} {marks : Marks} {waiting seen : List Handle}
    (hd : d.Regular) (h : d.Walk steps marks waiting seen) :
    ∃ ns, d.preorderFrom steps marks waiting seen = .ok ns ∧ ns.Nodup ∧
      ∀ n, n ∈ ns ↔ d.Reaches n := by
  induction steps generalizing marks waiting seen with
  | zero =>
    cases waiting with
    | nil => exact ⟨seen.reverse, rfl, List.nodup_reverse.2 h.once, by simpa using h.mem_iff⟩
    | cons n waiting => exact absurd (h.steps_pos hd) (Nat.lt_irrefl 0)
  | succ steps ih =>
    cases waiting with
    | nil => exact ⟨seen.reverse, rfl, List.nodup_reverse.2 h.once, by simpa using h.mem_iff⟩
    | cons n waiting =>
      by_cases hn : marks.has n = true
      · obtain ⟨ns, he, hs⟩ := ih (h.skip hn)
        exact ⟨ns, by rw [preorderFrom, if_pos hn, he], hs⟩
      · obtain ⟨ns, he, hs⟩ := ih (h.visit hd hn)
        have hc := allChildren_eq ((h.sound n (.inr List.mem_cons_self)).lt_size hd)
        refine ⟨ns, ?_, hs⟩
        rw [preorderFrom, if_neg hn, hc]
        exact he

/-- The walk from the root lists exactly the nodes that hang below it, each once. -/
theorem preorder_spec (hd : d.Regular) :
    ∃ ns, d.preorder = .ok ns ∧ ns.Nodup ∧ ∀ n, n ∈ ns ↔ d.Reaches n :=
  preorderFrom_of_walk hd (.start d)

/-- What hangs below the root can be counted on any list of it. -/
theorem reachableCount_eq (hd : d.Regular) {ns : List Handle} (once : ns.Nodup)
    (mem : ∀ n, n ∈ ns ↔ d.Reaches n) : d.reachableCount = .ok ns.length := by
  obtain ⟨ms, walk, once', mem'⟩ := preorder_spec hd
  have same : ms.Perm ns :=
    (List.perm_ext_iff_of_nodup once' once).2 fun n => (mem' n).trans (mem n).symm
  rw [reachableCount, walk, ← same.length_eq]
  rfl

end Variation.Diff
