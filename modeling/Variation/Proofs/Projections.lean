import Variation.Diff.Copy
import Variation.Proofs.Edits
import Variation.Proofs.Shape

/-!
# Projections

The tree at a time is copied from the root downwards. What is to be done is a stack of jobs, each a
node with its copy and the forest below the node that is still to be copied; a job is done by hanging
copies of the children below the copy and leaving a job for each of them. When the stack is empty
below a job, the forest below its copy is the copy of its forest.
-/

namespace Variation

open Edit

namespace Node

@[simp] theorem detached_collapse (x : Node) (t : Time) :
    (x.collapse t).detached = x.collapse t := rfl

/-- A copy has recorded at all times what the node has recorded at the time of the copy. -/
theorem closing_collapse (x : Node) (t u : Time) :
    (x.collapse t).closing.get u = (x.closing.get t).map (·.collapse t) := by
  cases u <;> rfl

end Node

namespace Diff

/-! ## Copies of the children -/

section Copies

variable {d p : Diff} {t u : Time} {k a : Handle} {x : Node} {xs : List Node} {cs : List Handle}

/-- The diff with a node hung below another one at both times. -/
def hangCopy (p : Diff) (k : Handle) (x : Node) : Diff :=
  (p.append x).linkAll (fun _ => k) p.size Time.all

/-- The diff with nodes hung below another one at both times. -/
def hangCopies (p : Diff) (k : Handle) (xs : List Node) : Diff := xs.foldl (·.hangCopy k ·) p

theorem size_hangCopy : (p.hangCopy k x).size = p.size + 1 := by
  rw [hangCopy, size_linkAll, size_append]

theorem payload_hangCopy :
    (p.hangCopy k x).payload a = if a = p.size then x.detached else p.payload a := by
  rw [hangCopy, payload_linkAll, payload_append]

theorem below_hangCopy (hk : k < p.size) (hx : ∀ t, x.children.get t = []) :
    (p.hangCopy k x).below u a = if a = k then p.below u a ++ [p.size] else p.below u a := by
  have bigger : k < (p.append x).size := by
    rw [size_append]
    exact Nat.lt_succ_of_lt hk
  rw [hangCopy, below_linkAll (by decide) fun _ _ => bigger, below_append hx]
  simp only [Time.mem_all, true_and]

theorem size_hangCopies : (p.hangCopies k xs).size = p.size + xs.length := by
  induction xs generalizing p with
  | nil => rfl
  | cons x xs ih =>
    show ((p.hangCopy k x).hangCopies k xs).size = p.size + (x :: xs).length
    rw [ih, size_hangCopy, List.length_cons]
    omega

theorem payload_hangCopies_of_lt (ha : a < p.size) :
    (p.hangCopies k xs).payload a = p.payload a := by
  induction xs generalizing p with
  | nil => rfl
  | cons x xs ih =>
    show ((p.hangCopy k x).hangCopies k xs).payload a = p.payload a
    rw [ih (by rw [size_hangCopy]; exact Nat.lt_succ_of_lt ha), payload_hangCopy,
      if_neg (Nat.ne_of_lt ha)]

theorem below_hangCopies (hk : k < p.size) (hx : ∀ x ∈ xs, ∀ t, x.children.get t = []) :
    (p.hangCopies k xs).below u a =
      if a = k then p.below u a ++ List.range' p.size xs.length else p.below u a := by
  induction xs generalizing p with
  | nil => simp [hangCopies]
  | cons x xs ih =>
    obtain ⟨bare, hx⟩ := List.forall_mem_cons.1 hx
    have bigger : k < (p.hangCopy k x).size := by
      rw [size_hangCopy]
      exact Nat.lt_succ_of_lt hk
    show ((p.hangCopy k x).hangCopies k xs).below u a = _
    rw [ih bigger hx, below_hangCopy hk bare, size_hangCopy]
    split
    · rw [List.length_cons, List.range'_succ, List.append_assoc]
      rfl
    · rfl

theorem payload_hangCopies {i : Nat} (h : xs[i]? = some x) :
    (p.hangCopies k xs).payload (p.size + i) = x.detached := by
  induction xs generalizing p i with
  | nil => cases h
  | cons y xs ih =>
    show ((p.hangCopy k y).hangCopies k xs).payload (p.size + i) = x.detached
    cases i with
    | zero =>
      obtain rfl : y = x := Option.some.inj h
      have new : p.size < (p.hangCopy k y).size := by
        rw [size_hangCopy]
        exact Nat.lt_succ_self _
      rw [Nat.add_zero, payload_hangCopies_of_lt new, payload_hangCopy, if_pos rfl]
    | succ i =>
      have next : p.size + (i + 1) = (p.hangCopy k y).size + i := by
        rw [size_hangCopy]
        omega
      rw [next]
      exact ih h

/-- The edges of a diff agree at both ends, and its root hangs nowhere. -/
structure Rooted (d : Diff) : Prop extends Regular d where
  free : ∀ t, d.above t Diff.root = none

theorem Rooted.hangCopy (h : p.Rooted) (hk : k < p.size) (hc : ∀ t, x.children.get t = [])
    (hp : ∀ t, x.parent.get t = none) (change : x.change = .unchanged) :
    (p.hangCopy k x).Rooted := by
  have new : p.size < (p.append x).size := by
    rw [size_append]
    exact Nat.lt_succ_self _
  have bigger : k < (p.append x).size := by
    rw [size_append]
    exact Nat.lt_succ_of_lt hk
  constructor
  · refine (h.append hc hp).linkAll (by decide) new (fun _ => bigger) (fun t _ => ?_) fun t _ => ?_
    · rw [lives, getElem?_append, if_pos rfl]
      simp [Node.existsAt, change, Change.existsAt]
    · rw [above_append hp]
      exact above_eq_none (Nat.lt_irrefl _)
  · intro t
    rw [Diff.hangCopy, above_linkAll new, above_append hp, if_neg fun e => ?_]
    · exact h.free t
    · exact absurd e.2 (Nat.ne_of_lt h.root_lt)

theorem Rooted.hangCopies (h : p.Rooted) (hk : k < p.size)
    (hx : ∀ x ∈ xs, (∀ t, x.children.get t = []) ∧ (∀ t, x.parent.get t = none) ∧
      x.change = .unchanged) : (p.hangCopies k xs).Rooted := by
  induction xs generalizing p with
  | nil => exact h
  | cons x xs ih =>
    obtain ⟨⟨hc, hp, change⟩, hx⟩ := List.forall_mem_cons.1 hx
    have bigger : k < (p.hangCopy k x).size := by
      rw [size_hangCopy]
      exact Nat.lt_succ_of_lt hk
    exact ih (h.hangCopy hk hc hp change) bigger hx

/-- Copying children hangs a copy of each below a node and says which copy is whose. -/
theorem run_copyChildren (hk : k < p.size) (inStore : ∀ c ∈ cs, c < d.size)
    (done : List (Handle × Handle)) :
    (d.copyChildren t k cs done).run p =
      .ok ((cs.zipIdx p.size).reverse ++ done)
        (p.hangCopies k (cs.map fun c => (d.look c).collapse t)) := by
  induction cs generalizing p done with
  | nil => rfl
  | cons c cs ih =>
    obtain ⟨hc, inStore⟩ := List.forall_mem_cons.1 inStore
    have bigger : k < (p.append ((d.look c).collapse t)).size := by
      rw [size_append]
      exact Nat.lt_succ_of_lt hk
    have new : p.size < (p.append ((d.look c).collapse t)).size := by
      rw [size_append]
      exact Nat.lt_succ_self _
    have attached : (Time.all.forM fun u => attachLast k p.size u).run
        (p.append ((d.look c).collapse t)) = .ok () (p.hangCopy k ((d.look c).collapse t)) := by
      refine run_attachTimes (by decide) new (fun _ => bigger) (fun u _ => ?_) fun u _ => ?_
      · rw [lives, getElem?_append, if_pos rfl]
        rfl
      · rw [above_append fun u => by cases u <;> rfl]
        exact above_eq_none (Nat.lt_irrefl _)
    have step : (d.copyChildren t k (c :: cs) done).run p =
        (d.copyChildren t k cs ((c, p.size) :: done)).run
          (p.hangCopy k ((d.look c).collapse t)) := by
      have asked : (ask fun _ => d.node c).run p = .ok (d.look c) p := run_ask_ok (node_look hc)
      have appended : (Edit.append ((d.look c).collapse t)).run p =
          .ok p.size (p.append ((d.look c).collapse t)) := rfl
      simp only [copyChildren, EStateM.run_bind, asked, appended, attached]
    have bigger' : k < (p.hangCopy k ((d.look c).collapse t)).size := by
      rw [size_hangCopy]
      exact Nat.lt_succ_of_lt hk
    rw [step, ih bigger' inStore, size_hangCopy, List.zipIdx_cons, List.reverse_cons,
      List.append_assoc]
    rfl

end Copies

/-! ## Jobs -/

/-- A node with its copy, and the forest below the node that is still to be copied. -/
abbrev Job := (Handle × Handle) × Forest Handle

/-- The jobs for the trees of a forest, with copies that are numbered from a place on. -/
def jobs : Forest Handle → Nat → List Job
  | .nil, _ => []
  | .cons c below rest, k => ((c, k), below) :: jobs rest (k + 1)

/-- What a job is to do: the forest is what hangs below its node at a time. -/
structure Job.Due (d : Diff) (t : Time) (j : Job) : Prop where
  inStore : j.1.1 < d.size
  below : d.below t j.1.1 = j.2.roots
  spans : d.Spans t j.2

/-- A job is done: what hangs below the copy is, at both times, a copy of the forest. -/
def Job.Done (d : Diff) (t : Time) (p : Diff) (j : Job) : Prop :=
  ∃ g, (∀ u, p.below u j.1.2 = g.roots ∧ p.Spans u g) ∧
    g.map p.payload = j.2.map fun m => (d.look m).collapse t

section Jobs

variable {d p p' : Diff} {t : Time} {f : Forest Handle} {js : List Job} {k steps : Nat}

theorem map_fst_jobs : (jobs f k).map (·.1) = f.roots.zipIdx k := by
  induction f generalizing k with
  | nil => rfl
  | cons c below rest _ ih => simp only [jobs, List.map_cons, ih, Forest.roots, List.zipIdx_cons]

theorem map_copy_jobs : (jobs f k).map (·.1.2) = List.range' k f.roots.length := by
  induction f generalizing k with
  | nil => rfl
  | cons c below rest _ ih =>
    simp only [jobs, List.map_cons, ih, Forest.roots, List.length_cons, List.range'_succ]

theorem due_jobs (h : d.Spans t f) : ∀ j ∈ jobs f k, j.Due d t := by
  induction f generalizing k with
  | nil => simp [jobs]
  | cons c below rest _ ih =>
    obtain ⟨size, hc, hb, hr⟩ := h
    exact List.forall_mem_cons.2 ⟨⟨size, hc, hb⟩, ih hr⟩

/-- The number of steps that jobs take. -/
def work (js : List Job) : Nat := (js.map fun j => j.2.flatten.length + 1).sum

theorem work_append (js js' : List Job) : work (js ++ js') = work js + work js' := by
  simp [work]

theorem work_reverse (js : List Job) : work js.reverse = work js := by
  rw [work, List.map_reverse, List.sum_reverse, work]

theorem work_jobs : work (jobs f k) = f.flatten.length := by
  induction f generalizing k with
  | nil => rfl
  | cons c below rest _ ih =>
    have behind := ih (k := k + 1)
    simp only [work, jobs, List.map_cons, List.sum_cons, Forest.flatten, List.length_cons,
      List.length_append] at behind ⊢
    omega

/-- The number of copies that jobs make. -/
def copies (js : List Job) : Nat := (js.map fun j => j.2.flatten.length).sum

theorem copies_append (js js' : List Job) : copies (js ++ js') = copies js + copies js' := by
  simp [copies]

theorem copies_reverse (js : List Job) : copies js.reverse = copies js := by
  rw [copies, List.map_reverse, List.sum_reverse, copies]

/-- The nodes of a forest are its trees and what hangs below these. -/
theorem copies_jobs : f.roots.length + copies (jobs f k) = f.flatten.length := by
  induction f generalizing k with
  | nil => rfl
  | cons c below rest _ ih =>
    have behind := ih (k := k + 1)
    simp only [copies, jobs, Forest.roots, List.map_cons, List.sum_cons, Forest.flatten,
      List.length_cons, List.length_append] at behind ⊢
    omega

/-- When the jobs for the trees of a forest are done, their copies are the copy of the forest. -/
theorem done_jobs (h : ∀ j ∈ jobs f k, j.Done d t p)
    (payload : ∀ i c, f.roots[i]? = some c → p.payload (k + i) = (d.look c).collapse t)
    (inStore : k + f.roots.length ≤ p.size) :
    ∃ g, g.roots = List.range' k f.roots.length ∧ (∀ u, p.Spans u g) ∧
      g.map p.payload = f.map fun m => (d.look m).collapse t := by
  induction f generalizing k with
  | nil => exact ⟨.nil, rfl, fun _ => trivial, rfl⟩
  | cons c below rest _ ih =>
    obtain ⟨⟨gb, hb, mapb⟩, h⟩ := List.forall_mem_cons.1 h
    simp only [Forest.roots, List.length_cons] at inStore
    obtain ⟨gr, roots, spans, mapr⟩ := ih h (fun i c hc => by
      have next := payload (i + 1) c hc
      rw [show k + (i + 1) = k + 1 + i by omega] at next
      exact next) (by omega)
    refine ⟨.cons k gb gr, ?_, fun u => ⟨?_, (hb u).1, (hb u).2, spans u⟩, ?_⟩
    · rw [Forest.roots, roots, Forest.roots, List.length_cons, List.range'_succ]
    · show k < p.size
      omega
    · have here : p.payload k = (d.look c).collapse t := payload 0 c rfl
      rw [Forest.map, Forest.map, here, mapb, mapr]

/-- What copying does to a diff: it does the jobs and changes nothing else that was there. -/
structure Copied (d : Diff) (t : Time) (p p' : Diff) (js : List Job) : Prop where
  size : p'.size = p.size + copies js
  payload : ∀ a, a < p.size → p'.payload a = p.payload a
  below : ∀ a, a < p.size → a ∉ js.map (·.1.2) → ∀ u, p'.below u a = p.below u a
  done : ∀ j ∈ js, j.Done d t p'
  rooted : p.Rooted → p'.Rooted

/-- Copies that nothing hangs below yet. -/
structure Bare (p : Diff) (js : List Job) : Prop where
  once : (js.map (·.1.2)).Nodup
  inStore : ∀ j ∈ js, j.1.2 < p.size
  below : ∀ j ∈ js, ∀ u, p.below u j.1.2 = []

/-- A node that is copied for a time is without children at first. -/
theorem childless_collapse {ns : List Handle} :
    ∀ x ∈ ns.map fun c => (d.look c).collapse t, ∀ u, x.children.get u = [] := by
  intro x hx u
  obtain ⟨c, -, rfl⟩ := List.mem_map.1 hx
  cases u <;> rfl

/-- The jobs that are left after one was taken from the stack. -/
theorem Bare.next {n : Handle} (bare : p.Bare (((n, k), f) :: js)) :
    (p.hangCopies k (f.roots.map fun c => (d.look c).collapse t)).Bare
      ((jobs f p.size).reverse ++ js) := by
  obtain ⟨once, inStore, below⟩ := bare
  obtain ⟨other, once⟩ := List.nodup_cons.1 once
  obtain ⟨hk, inStore⟩ := List.forall_mem_cons.1 inStore
  obtain ⟨-, below⟩ := List.forall_mem_cons.1 below
  have copies : ((jobs f p.size).reverse ++ js).map (·.1.2) =
      (List.range' p.size f.roots.length).reverse ++ js.map (·.1.2) := by
    rw [List.map_append, List.map_reverse, map_copy_jobs]
  have size : (p.hangCopies k (f.roots.map fun c => (d.look c).collapse t)).size =
      p.size + f.roots.length := by
    rw [size_hangCopies, List.length_map]
  have fresh (j : Job) (hj : j ∈ jobs f p.size) : p.size ≤ j.1.2 ∧ j.1.2 < p.size + f.roots.length := by
    have mem : j.1.2 ∈ (jobs f p.size).map (·.1.2) := List.mem_map_of_mem hj
    rw [map_copy_jobs] at mem
    exact List.mem_range'_1.1 mem
  refine ⟨?_, fun j hj => ?_, fun j hj u => ?_⟩
  · rw [copies, List.nodup_append, List.nodup_reverse]
    refine ⟨List.nodup_range', once, fun a ha b hb e => ?_⟩
    obtain ⟨j, hj, rfl⟩ := List.mem_map.1 hb
    have new := (List.mem_range'_1.1 (List.mem_reverse.1 ha)).1
    have old := inStore j hj
    rw [e] at new
    exact absurd old (Nat.not_lt_of_le new)
  · rw [size]
    obtain hj | hj := List.mem_append.1 hj
    · exact (fresh j (List.mem_reverse.1 hj)).2
    · exact Nat.lt_of_lt_of_le (inStore j hj) (Nat.le_add_right _ _)
  · rw [below_hangCopies hk childless_collapse]
    obtain hj | hj := List.mem_append.1 hj
    · have new := (fresh j (List.mem_reverse.1 hj)).1
      have apart : j.1.2 ≠ k := by
        rintro rfl
        exact absurd hk (Nat.not_lt_of_le new)
      rw [if_neg apart]
      exact below_eq_nil (Nat.not_lt_of_le new)
    · have apart : j.1.2 ≠ k := by
        intro e
        have mem : j.1.2 ∈ js.map (·.1.2) := List.mem_map_of_mem hj
        rw [e] at mem
        exact other mem
      rw [if_neg apart]
      exact below j hj u

/-- What is copied after one job was taken from the stack is what that job and the others ask for. -/
theorem Copied.of_next {n : Handle} (bare : p.Bare (((n, k), f) :: js))
    (h : Copied d t (p.hangCopies k (f.roots.map fun c => (d.look c).collapse t)) p'
      ((jobs f p.size).reverse ++ js)) : Copied d t p p' (((n, k), f) :: js) := by
  obtain ⟨once, inStore, below⟩ := bare
  obtain ⟨other, once⟩ := List.nodup_cons.1 once
  obtain ⟨hk, inStore⟩ := List.forall_mem_cons.1 inStore
  obtain ⟨empty, below⟩ := List.forall_mem_cons.1 below
  have size : (p.hangCopies k (f.roots.map fun c => (d.look c).collapse t)).size =
      p.size + f.roots.length := by
    rw [size_hangCopies, List.length_map]
  have older (a : Handle) (ha : a < p.size) :
      a < (p.hangCopies k (f.roots.map fun c => (d.look c).collapse t)).size := by
    rw [size]
    exact Nat.lt_of_lt_of_le ha (Nat.le_add_right _ _)
  -- what was there and does not wait now keeps what hangs below it
  have kept (a : Handle) (ha : a < p.size) (waits : a ∉ js.map (·.1.2)) (u : Time) :
      p'.below u a = (p.hangCopies k (f.roots.map fun c => (d.look c).collapse t)).below u a := by
    refine h.below a (older a ha) (fun hm => ?_) u
    rw [List.map_append, List.map_reverse, map_copy_jobs] at hm
    obtain hm | hm := List.mem_append.1 hm
    · exact absurd ha (Nat.not_lt_of_le (List.mem_range'_1.1 (List.mem_reverse.1 hm)).1)
    · exact waits hm
  refine ⟨?_, fun a ha => ?_, fun a ha waits u => ?_, List.forall_mem_cons.2 ⟨?_, fun j hj => ?_⟩,
    fun rooted => h.rooted (rooted.hangCopies hk fun x hx => ?_)⟩
  · have all := copies_jobs (f := f) (k := p.size)
    rw [h.size, size, copies_append, copies_reverse]
    simp only [copies, List.map_cons, List.sum_cons] at all ⊢
    omega
  · rw [h.payload a (older a ha), payload_hangCopies_of_lt ha]
  · rw [List.map_cons, List.mem_cons, not_or] at waits
    rw [kept a ha waits.2, below_hangCopies hk childless_collapse, if_neg waits.1]
  · obtain ⟨g, roots, spans, map⟩ := done_jobs (f := f) (k := p.size) (p := p')
      (fun j hj => h.done j (List.mem_append_left _ (List.mem_reverse.2 hj)))
      (fun i c hc => by
        have copy : (f.roots.map fun c => (d.look c).collapse t)[i]? =
            some ((d.look c).collapse t) := by
          rw [List.getElem?_map, hc]
          rfl
        have inRange : p.size + i <
            (p.hangCopies k (f.roots.map fun c => (d.look c).collapse t)).size := by
          obtain ⟨hi, -⟩ := List.getElem?_eq_some_iff.1 hc
          rw [size]
          exact Nat.add_lt_add_left hi _
        rw [h.payload _ inRange, payload_hangCopies copy, Node.detached_collapse])
      (by rw [h.size, size]; exact Nat.le_add_right _ _)
    refine ⟨g, fun u => ⟨?_, spans u⟩, map⟩
    rw [kept k hk other, below_hangCopies hk childless_collapse, if_pos rfl, empty, List.nil_append, roots,
      List.length_map]
  · exact h.done j (List.mem_append_right _ hj)
  · obtain ⟨c, -, rfl⟩ := List.mem_map.1 hx
    exact ⟨fun u => by cases u <;> rfl, fun u => by cases u <;> rfl, rfl⟩

/-- Copying from a stack of jobs does the jobs. -/
theorem projectFrom_spec (due : ∀ j ∈ js, j.Due d t) (bare : p.Bare js) (enough : work js ≤ steps) :
    ∃ p', (d.projectFrom t steps (js.map (·.1))).run p = .ok () p' ∧ Copied d t p p' js := by
  induction steps generalizing p js with
  | zero =>
    cases js with
    | nil => exact ⟨p, rfl, rfl, fun _ _ => rfl, fun _ _ _ _ => rfl, by simp, id⟩
    | cons j js =>
      simp only [work, List.map_cons, List.sum_cons] at enough
      omega
  | succ steps ih =>
    cases js with
    | nil => exact ⟨p, rfl, rfl, fun _ _ => rfl, fun _ _ _ _ => rfl, by simp, id⟩
    | cons j js =>
      obtain ⟨⟨n, k⟩, f⟩ := j
      obtain ⟨⟨hn, children, spans⟩, dues⟩ := List.forall_mem_cons.1 due
      have hk : k < p.size := bare.inStore _ List.mem_cons_self
      have asked : (ask fun _ => d.children n t).run p = .ok f.roots p := by
        apply run_ask_ok
        rw [children_eq hn, children]
      have copied := run_copyChildren (t := t) hk
        (fun c hc => spans.lt_size (Forest.mem_flatten_of_mem_roots hc)) []
      have dues' : ∀ j ∈ (jobs f p.size).reverse ++ js, j.Due d t := by
        intro j hj
        obtain hj | hj := List.mem_append.1 hj
        · exact due_jobs spans j (List.mem_reverse.1 hj)
        · exact dues j hj
      have enough' : work ((jobs f p.size).reverse ++ js) ≤ steps := by
        rw [work_append, work_reverse, work_jobs]
        simp only [work, List.map_cons, List.sum_cons] at enough ⊢
        omega
      obtain ⟨p', run, done⟩ := ih dues' bare.next enough'
      refine ⟨p', ?_, done.of_next bare⟩
      rw [List.map_append, List.map_reverse, map_fst_jobs] at run
      simp only [List.map_cons, projectFrom, EStateM.run_bind, asked, copied, List.append_nil]
      exact run

end Jobs

/-- The tree at a time can be copied, and its copy is what comes out, at both times. -/
theorem project_spec {d : Diff} {t : Time} {f : Forest Handle} (hd : d.Regular)
    (h : d.Shape t f) : ∃ p g, d.project t = .ok p ∧ p.Rooted ∧
      p.payload root = (d.look root).collapse t ∧
      (∀ u, p.below u root = g.roots ∧ p.Spans u g) ∧
      g.map p.payload = (f.map fun m => (d.look m).collapse t) ∧
      p.size = f.flatten.length + 1 := by
  have due : ∀ j ∈ [(((root, root), f) : Job)], Job.Due d t j := by
    intro j hj
    rw [List.mem_singleton.1 hj]
    exact ⟨hd.root_lt, h.below, h.spans⟩
  have bare : Bare ⟨#[(d.look root).collapse t], .projected d.source t⟩
      [(((root, root), f) : Job)] := by
    refine ⟨List.nodup_singleton _, fun j hj => ?_, fun j hj u => ?_⟩
    · rw [List.mem_singleton.1 hj]
      exact Nat.zero_lt_one
    · rw [List.mem_singleton.1 hj]
      cases u <;> rfl
  have rooted : Rooted ⟨#[(d.look root).collapse t], .projected d.source t⟩ := by
    refine ⟨⟨.single (fun u => by cases u <;> rfl) fun u => by cases u <;> rfl, ?_⟩, fun u => ?_⟩
    · exact congrArg some (look_root_kind hd)
    · cases u <;> rfl
  have enough : work [(((root, root), f) : Job)] ≤ d.size + 1 := by
    have few := h.length_lt hd
    simp only [work, List.map_cons, List.map_nil, List.sum_cons, List.sum_nil]
    omega
  obtain ⟨p, run, copied⟩ := projectFrom_spec due bare enough
  obtain ⟨g, spans, map⟩ := copied.done _ (List.mem_singleton.2 rfl)
  refine ⟨p, g, ?_, copied.rooted rooted, ?_, spans, map, ?_⟩
  · have result : (d.projectFrom t (d.size + 1) [(root, root)]).result
        ⟨#[(d.look root).collapse t], .projected d.source t⟩ = .ok ((), p) := by
      rw [Edit.result]
      rw [show [(((root, root), f) : Job)].map (·.1) = [(root, root)] from rfl] at run
      rw [run]
    rw [project, node_look hd.root_lt, Outcome.ok_bind]
    simp only [result]
    rfl
  · exact copied.payload root Nat.zero_lt_one
  · have one : (⟨#[(d.look root).collapse t], .projected d.source t⟩ : Diff).size = 1 := rfl
    rw [copied.size, one]
    simp only [copies, List.map_cons, List.map_nil, List.sum_cons, List.sum_nil]
    omega

end Diff

end Variation
