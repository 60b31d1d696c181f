import Variation.Proofs.Forest
import Variation.Proofs.Reach

/-!
# The tour from the root

A walk from the root that marks what it meets, whether it keeps what waits on a stack or recurses,
meets the nodes in one order: a node, then what hangs below it and was not met before, then what
comes behind it. `Tours` relates the nodes that wait to the forest of what is met first below each of
them. There is a tour from everywhere, it meets what is reached, and `preorder` lists it.
-/

namespace Variation.Diff

/-- The forest of what is met first, starting from nodes that wait one behind the other, if some nodes
were met already; these are given backwards. -/
inductive Tours (d : Diff) : List Handle → List Handle → Forest Handle → Prop
  | nil (seen : List Handle) : Tours d seen [] .nil
  | skip {seen ns : List Handle} {n : Handle} {f : Forest Handle} (old : n ∈ seen)
      (rest : Tours d seen ns f) : Tours d seen (n :: ns) f
  | visit {seen ns : List Handle} {n : Handle} {below rest : Forest Handle} (new : n ∉ seen)
      (inner : Tours d (n :: seen) (d.belowBoth n) below)
      (outer : Tours d (below.flatten.reverse ++ n :: seen) ns rest) :
      Tours d seen (n :: ns) (.cons n below rest)

variable {d : Diff} {seen ns ms : List Handle} {f : Forest Handle} {n m c : Handle}

namespace Tours

/-- What is met was not met before, and is met once. -/
theorem nodup (h : d.Tours seen ns f) : f.flatten.Nodup ∧ ∀ m ∈ f.flatten, m ∉ seen := by
  induction h with
  | nil seen => exact ⟨.nil, fun m hm => absurd hm List.not_mem_nil⟩
  | skip old rest ih => exact ih
  | @visit seen ns n below rest new inner outer ihb ihr =>
    obtain ⟨onceBelow, newBelow⟩ := ihb
    obtain ⟨onceRest, newRest⟩ := ihr
    simp only [List.mem_append, List.mem_reverse, List.mem_cons, not_or] at newBelow newRest
    simp only [Forest.flatten, List.nodup_cons, List.nodup_append, List.mem_append,
      List.mem_cons, not_or]
    refine ⟨⟨⟨fun hm => (newBelow n hm).1 rfl, fun hm => (newRest n hm).2.1 rfl⟩, onceBelow, onceRest,
      fun a ha b hb e => (newRest b hb).1 (e ▸ ha)⟩, fun m hm => ?_⟩
    obtain rfl | hm | hm := hm
    · exact new
    · exact (newBelow m hm).2
    · exact (newRest m hm).2.2

/-- All that waits is met. -/
theorem mem_of_mem (h : d.Tours seen ns f) : ∀ n ∈ ns, n ∈ seen ∨ n ∈ f.flatten := by
  induction h with
  | nil seen => exact fun n hn => absurd hn List.not_mem_nil
  | skip old rest ih => exact List.forall_mem_cons.2 ⟨.inl old, ih⟩
  | @visit seen ns n below rest new inner outer ihb ihr =>
    refine List.forall_mem_cons.2 ⟨.inr List.mem_cons_self, fun m hm => ?_⟩
    simp only [Forest.flatten, List.mem_cons, List.mem_append]
    obtain met | met := ihr m hm
    · simp only [List.mem_append, List.mem_reverse, List.mem_cons] at met
      tauto
    · tauto

/-- What hangs below what is met is met. -/
theorem closed (h : d.Tours seen ns f) :
    ∀ m ∈ f.flatten, ∀ c ∈ d.belowBoth m, c ∈ seen ∨ c ∈ f.flatten := by
  induction h with
  | nil seen => exact fun m hm => absurd hm List.not_mem_nil
  | skip old rest ih => exact ih
  | @visit seen ns n below rest new inner outer ihb ihr =>
    intro m hm c hc
    simp only [Forest.flatten, List.mem_cons, List.mem_append] at hm ⊢
    obtain rfl | hm | hm := hm
    · obtain met | met := inner.mem_of_mem c hc
      · simp only [List.mem_cons] at met
        tauto
      · tauto
    · obtain met | met := ihb m hm c hc
      · simp only [List.mem_cons] at met
        tauto
      · tauto
    · obtain met | met := ihr m hm c hc
      · simp only [List.mem_append, List.mem_reverse, List.mem_cons] at met
        tauto
      · tauto

/-- Only what is reached is met. -/
theorem reaches (h : d.Tours seen ns f) (hns : ∀ n ∈ ns, d.Reaches n) :
    ∀ m ∈ f.flatten, d.Reaches m := by
  induction h with
  | nil seen => exact fun m hm => absurd hm List.not_mem_nil
  | skip old rest ih => exact ih (List.forall_mem_cons.1 hns).2
  | @visit seen ns n below rest new inner outer ihb ihr =>
    obtain ⟨here, hns⟩ := List.forall_mem_cons.1 hns
    intro m hm
    simp only [Forest.flatten, List.mem_cons, List.mem_append] at hm
    obtain rfl | hm | hm := hm
    · exact here
    · exact ihb (fun c hc => here.of_mem_belowBoth hc) m hm
    · exact ihr hns m hm

/-- When a subtree was met, all that was met is reached, if it was so before. -/
theorem reaches_met {below : Forest Handle} (inner : d.Tours (n :: seen) (d.belowBoth n) below)
    (here : d.Reaches n) (met : ∀ m ∈ seen, d.Reaches m) :
    ∀ m ∈ below.flatten.reverse ++ n :: seen, d.Reaches m := by
  refine List.forall_mem_append.2 ⟨fun m hm => ?_, List.forall_mem_cons.2 ⟨here, met⟩⟩
  exact inner.reaches (fun c hc => here.of_mem_belowBoth hc) m (List.mem_reverse.1 hm)

/-- The tour depends on the children only. -/
theorem congr {d' : Diff} (h : d.Tours seen ns f) (same : ∀ n, d'.belowBoth n = d.belowBoth n) :
    d'.Tours seen ns f := by
  induction h with
  | nil seen => exact .nil seen
  | skip old rest ih => exact .skip old ih
  | visit new inner outer ihb ihr =>
    refine .visit new ?_ ihr
    rw [same]
    exact ihb

end Tours

/-- The marked nodes are those that were met. -/
structure Marked (d : Diff) (marks : Marks) (seen : List Handle) : Prop where
  size : marks.size = d.size
  has : ∀ n, marks.has n = true ↔ n ∈ seen

theorem Marked.none (d : Diff) : d.Marked (.none d.size) [] where
  size := by simp [Marks.none]
  has n := by simp [Marks.none, Marks.has, Array.getElem?_replicate]

theorem Marked.mark {marks : Marks} (h : d.Marked marks seen) (hn : n < d.size) :
    d.Marked (marks.mark n) (n :: seen) where
  size := (Marks.size_mark ..).trans h.size
  has m := by
    rw [Marks.has_mark, h.size, decide_eq_true hn, Bool.and_true, Bool.or_eq_true, beq_iff_eq,
      h.has, List.mem_cons, eq_comm]

/-- The nodes of the store that were not met. -/
def unseen (d : Diff) (seen : List Handle) : List Handle :=
  (List.range d.size).filter fun n => !seen.contains n

theorem length_unseen_lt {seen' : List Handle} (hn : n < d.size) (new : n ∉ seen)
    (sub : n :: seen ⊆ seen') : (d.unseen seen').length < (d.unseen seen).length := by
  obtain ⟨met, more⟩ := List.cons_subset.1 sub
  have here : n ∈ d.unseen seen := by simp [unseen, hn, new]
  have fewer : n :: d.unseen seen' ⊆ d.unseen seen := by
    refine List.cons_subset.2 ⟨here, fun m hm => ?_⟩
    simp only [unseen, List.mem_filter, List.mem_range, Bool.not_eq_true',
      List.contains_eq_mem, decide_eq_false_iff_not] at hm ⊢
    exact ⟨hm.1, fun h => hm.2 (more h)⟩
  have once : (n :: d.unseen seen').Nodup := by
    refine List.nodup_cons.2 ⟨fun h => ?_, List.nodup_range.filter _⟩
    simp only [unseen, List.mem_filter, Bool.not_eq_true', List.contains_eq_mem,
      decide_eq_false_iff_not] at h
    exact h.2 met
  exact (once.subperm fewer).length_le

/-- There is a tour from all nodes of the store, whatever was met before. -/
theorem exists_tours (hd : d.Regular) (seen : List Handle) (hns : ∀ n ∈ ns, n < d.size) :
    ∃ f, d.Tours seen ns f := by
  generalize hk : (d.unseen seen).length = k
  induction k using Nat.strongRecOn generalizing seen ns with
  | _ k ih =>
    induction ns with
    | nil => exact ⟨.nil, .nil seen⟩
    | cons n ns ihns =>
      obtain ⟨hn, hns⟩ := List.forall_mem_cons.1 hns
      by_cases old : n ∈ seen
      · obtain ⟨f, rest⟩ := ihns hns
        exact ⟨f, .skip old rest⟩
      · have children : ∀ c ∈ d.belowBoth n, c < d.size := fun c hc => hd.lt_size_of_mem_belowBoth hc
        obtain ⟨below, inner⟩ := ih _ (hk ▸ length_unseen_lt hn old (List.Subset.refl _))
          (n :: seen) children rfl
        obtain ⟨rest, outer⟩ := ih _ (hk ▸ length_unseen_lt hn old
          (List.subset_append_right below.flatten.reverse _)) _ hns rfl
        exact ⟨.cons n below rest, .visit old inner outer⟩

/-- The tour of a diff: the forest of what is met first below the root. -/
def Tour (d : Diff) (f : Forest Handle) : Prop := d.Tours [root] (d.belowBoth root) f

namespace Tour

theorem exists_tour (hd : d.Regular) : ∃ f, d.Tour f :=
  exists_tours hd [root] fun _ hc => hd.lt_size_of_mem_belowBoth hc

/-- The tour of a diff is what a walk meets for which only the root waits. -/
theorem tours (h : d.Tour f) : d.Tours [] [root] (.tree root f) :=
  .visit List.not_mem_nil h (.nil _)

theorem congr {d' : Diff} (h : d.Tour f) (same : ∀ n, d'.belowBoth n = d.belowBoth n) :
    d'.Tour f := by
  have tours := Tours.congr h same
  rw [← same] at tours
  exact tours

theorem nodup (h : d.Tour f) : (root :: f.flatten).Nodup :=
  List.nodup_cons.2 ⟨fun hm => (Tours.nodup h).2 root hm List.mem_cons_self, (Tours.nodup h).1⟩

/-- The tour meets what is reached. -/
theorem mem_iff (h : d.Tour f) : n ∈ root :: f.flatten ↔ d.Reaches n := by
  constructor
  · intro hn
    obtain rfl | hn := List.mem_cons.1 hn
    · exact .root
    · exact Tours.reaches h (fun c hc => Reaches.root.of_mem_belowBoth hc) n hn
  · intro hn
    induction hn with
    | root => exact List.mem_cons_self
    | @child t p c _ hc ih =>
      have below : c ∈ d.belowBoth p := mem_belowBoth.2 ⟨t, hc⟩
      have met : c ∈ [root] ∨ c ∈ f.flatten := by
        obtain rfl | hp := List.mem_cons.1 ih
        · exact Tours.mem_of_mem h c below
        · exact Tours.closed h p hp c below
      simpa using met

theorem length_lt (h : d.Tour f) (hd : d.Regular) : f.flatten.length < d.size := by
  have inStore : root :: f.flatten ⊆ List.range d.size := fun n hn =>
    List.mem_range.2 ((h.mem_iff.1 hn).lt_size hd)
  have less := (h.nodup.subperm inStore).length_le
  rw [List.length_range, List.length_cons] at less
  omega

/-- With one level for each node there are enough levels for the walk from the root. -/
theorem length_tree_lt (h : d.Tour f) (hd : d.Regular) :
    (Forest.tree root f).flatten.length < d.size + 1 := by
  rw [Forest.flatten_tree, List.length_cons]
  exact Nat.succ_lt_succ (h.length_lt hd)

end Tour

/-! ## The walk is the tour -/

/-- The walk goes along the tour of what waits first and comes to what waits behind it. -/
theorem preorderFrom_tours (hd : d.Regular) (h : d.Tours seen ns f) {steps : Nat} {marks : Marks}
    {waiting : List Handle} (walk : d.Walk steps marks (ns ++ waiting) seen) :
    ∃ steps' marks', d.Walk steps' marks' waiting (f.flatten.reverse ++ seen) ∧
      d.preorderFrom steps marks (ns ++ waiting) seen =
        d.preorderFrom steps' marks' waiting (f.flatten.reverse ++ seen) := by
  induction h generalizing steps marks waiting with
  | nil seen => exact ⟨steps, marks, walk, rfl⟩
  | @skip seen ns n f old rest ih =>
    obtain ⟨steps, rfl⟩ : ∃ k, steps = k + 1 := ⟨steps - 1, by have := walk.steps_pos hd; omega⟩
    have marked := (walk.marked n).2 old
    obtain ⟨steps', marks', walk', eq⟩ := ih (walk.skip marked)
    exact ⟨steps', marks', walk', by rw [List.cons_append, preorderFrom, if_pos marked, eq]⟩
  | @visit seen ns n below rest new inner outer ihb ihr =>
    obtain ⟨steps, rfl⟩ : ∃ k, steps = k + 1 := ⟨steps - 1, by have := walk.steps_pos hd; omega⟩
    have unmarked : ¬ marks.has n = true := fun h => new ((walk.marked n).1 h)
    have inStore := (walk.sound n (.inr List.mem_cons_self)).lt_size hd
    obtain ⟨steps₁, marks₁, walk₁, eq₁⟩ := @ihb steps _ (ns ++ waiting) (walk.visit hd unmarked)
    obtain ⟨steps', marks', walk', eq'⟩ := ihr walk₁
    have order := Forest.reverse_flatten_cons n below rest seen
    refine ⟨steps', marks', order ▸ walk', ?_⟩
    rw [List.cons_append, preorderFrom, if_neg unmarked, allChildren_eq inStore, order, ← eq', ← eq₁]
    rfl

/-- The walk from the root lists the tour. -/
theorem preorder_eq (hd : d.Regular) (h : d.Tour f) : d.preorder = .ok (root :: f.flatten) := by
  obtain ⟨steps, marks, -, eq⟩ := preorderFrom_tours hd h.tours (Walk.start d)
  have done : d.preorderFrom steps marks []
      ((Forest.tree root f).flatten.reverse ++ []) = .ok (root :: f.flatten) := by
    cases steps <;> simp [preorderFrom]
  rw [preorder, ← done, ← eq]
  rfl

end Variation.Diff
