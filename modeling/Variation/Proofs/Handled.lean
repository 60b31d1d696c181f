import Variation.Proofs.Durable

/-!
# Diffs that were handled in any way

A diff is `Handled` if it is bare, was read, built or projected, and was then changed by any sequence
of calls, refinements and simplification steps, those included that fail and leave what they had done
until then. The main statement says that the edges of such a diff agree at both ends, everywhere in
the store: being regular is durable, and all that is done to a diff keeps what is durable.
-/

namespace Variation

open Edit Diff

/-- The edges of a diff have no part in what a node says. -/
theorem Edit.keeps_reline {n : Handle} {f : Node → Node} (h : Node.Relines f) :
    Keeps Regular (Edit.update n f) :=
  keeps_update h.kind h.children h.parent h.change

namespace Construction

theorem keeps_remove {n : Handle} : Keeps Regular (remove n) := by
  refine keeps_dropAt.bind_of fun d _ d' hd run => ?_
  -- the node has lost its parent after the edit, so it may be removed
  refine Refinement.regular_update_of_free (keeps_dropAt.ok hd run) (fun _ => rfl) (fun _ => rfl)
    (fun _ => rfl) fun t => ?_
  cases t with
  | before => exact .inr fun _ => rfl
  | after => exact .inl (above_of_dropAt hd.toSymmetric run)

end Construction

/-- Whatever is done to a diff, it stays regular. -/
theorem durable_regular : Durable Regular where
  attach := keeps_attach
  detach := keeps_detach
  detachChildren := keeps_detachChildren
  reline := keeps_reline
  addArtifact := keeps_append (fun _ => Sides.get_both ..) fun _ => Sides.get_both ..
  remove := Construction.keeps_remove
  split := Refinement.keeps_split
  join := Refinement.keeps_join

theorem admits_regular (after : Diff) : Construction.Admits Regular after where
  toDurable := durable_regular
  copy _ := keeps_addNode

theorem pictures_regular (d : Diff) (t : Time) : Pictures Regular d t where
  toDurable := durable_regular
  copy _ := keeps_append (fun _ => Sides.get_both ..) fun _ => Sides.get_both ..

theorem Diff.Regular.of_nodes {d e : Diff} (h : d.Regular) (same : e.nodes = d.nodes) :
    e.Regular := by
  obtain ⟨nodes, source⟩ := e
  obtain rfl : nodes = d.nodes := same
  exact ⟨⟨h.edge, h.once, h.lives⟩, h.root⟩

/-- The tree at a time is regular, whatever that tree is. -/
theorem regular_project {d p : Diff} {t : Time} (hd : d.Regular) (h : d.project t = .ok p) :
    p.Regular := by
  refine of_project (pictures_regular d t) (fun x hx => ?_) h
  have top : x.kind = .root := by
    have root := hd.root
    rw [kindOf, node_eq_ok_iff.1 hx] at root
    exact Option.some.inj root
  exact ⟨.single (fun _ => Sides.get_both ..) fun _ => Sides.get_both .., congrArg some top⟩

/-- A diff that was built from two trees is regular if the first tree is. -/
theorem regular_construction {before after : Tree} {matcher : Matcher} {d : Diff}
    (hb : before.diff.Regular) (h : Construction.diff before after matcher = .ok d) : d.Regular :=
  Construction.of_diff (admits_regular after.diff)
    (fun _ project => (regular_project hb project).of_nodes rfl) h

/-- A simplification step that is one of those at hand, or that works out calls from the diff and
makes them in order. -/
inductive Simplification.Scripted : Simplification → Prop where
  | cut : Scripted cut
  | collapse : Scripted collapse
  | moved : Scripted moved
  | calls (name : String) (needs : List String) (plan : Diff → List Call) :
    Scripted ⟨name, needs, do (plan (← get)).forM Call.run⟩

namespace Simplification

variable {step : Simplification} {steps : List Simplification} {d e : Diff}

theorem Scripted.keeps_run (h : step.Scripted) : Keeps Regular step.run := by
  cases h with
  | cut => exact keeps_cut durable_regular
  | collapse => exact keeps_collapse durable_regular keeps_addNode
  | moved => exact keeps_moved durable_regular
  | calls name needs plan => exact Keeps.get.bind fun _ => .forM (fun c => c.keeps_run) _

theorem keeps_runAll {P : Diff → Prop} (h : ∀ step ∈ steps, Keeps P step.run) :
    Keeps P (runAll steps) := by
  induction steps with
  | nil => exact .pure ()
  | cons step rest ih =>
    obtain ⟨here, h⟩ := List.forall_mem_cons.1 h
    exact here.bind fun _ => ih h

/-- What every step keeps is kept by all of them together. -/
theorem of_apply {P : Diff → Prop} (h : ∀ step ∈ steps, Keeps P step.run) (hd : P d)
    (run : apply steps d = .ok e) : P e := by
  obtain ⟨-, run⟩ := Outcome.seq_eq_ok_iff.1 run
  obtain ⟨⟨_, d'⟩, result, run⟩ := Outcome.bind_eq_ok_iff.1 run
  obtain ⟨-, last⟩ := Outcome.seq_eq_ok_iff.1 run
  obtain rfl := Outcome.pure_eq_ok_iff.1 last
  exact (keeps_runAll h).result hd result

end Simplification

/-- A diff with any history. -/
inductive Diff.Handled : Diff → Prop where
  | empty (source : Source) : Handled (.empty source)
  | read {text : String} {options : Reading.Options} {source : Source} {dialect : Dialect} {d : Diff}
    (h : Reading.diff text options source dialect = .ok d) : Handled d
  | readTree {text : String} {options : Reading.Options} {source : Source} {dialect : Dialect}
    {tree : Tree} (h : Reading.tree text options source dialect = .ok tree) : Handled tree.diff
  | compared {before after : Tree} {matcher : Matcher} {d : Diff} (hb : Handled before.diff)
    (ha : Handled after.diff) (h : Construction.diff before after matcher = .ok d) : Handled d
  | projected {d p : Diff} {t : Time} (hd : Handled d) (h : d.project t = .ok p) : Handled p
  | call (c : Call) {d : Diff} (h : Handled d) : Handled (c.apply d)
  | refined {d e : Diff} {matcher : Matcher} (hd : Handled d)
    (h : Refinement.refine d matcher = .ok e) : Handled e
  | simplified {steps : List Simplification} {d e : Diff} (hd : Handled d)
    (scripted : ∀ step ∈ steps, step.Scripted) (h : Simplification.apply steps d = .ok e) : Handled e
  /-- A step that is run on its own may stop half way. -/
  | stepped {step : Simplification} {d : Diff} (hd : Handled d) (scripted : step.Scripted) :
    Handled (step.run.perform d).2

namespace Diff.Handled

variable {d : Diff} {p c : Handle}

theorem regular (h : d.Handled) : d.Regular := by
  induction h with
  | empty source => exact .empty source
  | read h => exact (Reading.ofLines_seems h).1.toRegular
  | readTree h =>
    obtain ⟨d, run, asTree⟩ := Outcome.bind_eq_ok_iff.1 h
    rw [Reading.diff_of_asTree asTree]
    exact (Reading.ofLines_seems run).1.toRegular
  | compared _ _ h ihb _ => exact regular_construction ihb h
  | projected _ h ih => exact regular_project ih h
  | call c _ ih => exact c.keeps_run _ ih
  | refined _ h ih => exact Refinement.of_refine durable_regular ih h
  | simplified _ scripted h ih =>
    exact Simplification.of_apply (fun step hs => (scripted step hs).keeps_run) ih h
  | stepped _ scripted ih => exact scripted.keeps_run _ ih

/-- A node is listed by its parent at a time once and by no other node, and it is there at each time
at which it has a parent. -/
theorem edges_agree (h : d.Handled) (hp : p < d.size) (hc : c < d.size) (t : Time) :
    ∃ children parent, d.children p t = .ok children ∧ d.parent c t = .ok parent ∧
      children.count c = (if parent = some p then 1 else 0) ∧
      (parent.isSome = true → ∃ x, d.node c = .ok x ∧ x.existsAt t = true) := by
  have hd := h.regular
  refine ⟨_, _, children_eq hp t, parent_eq hc t, ?_, fun attached => ?_⟩
  · by_cases own : d.above t c = some p
    · rw [if_pos own]
      exact List.count_eq_one_of_mem (hd.once t p) (hd.mem_of_above own)
    · rw [if_neg own]
      exact List.count_eq_zero.2 fun listed => own (hd.above_of_mem listed)
  · obtain ⟨q, hq⟩ := Option.isSome_iff_exists.1 attached
    exact ⟨_, node_look hc, by rw [← lives_look hc]; exact hd.lives t c q hq⟩

end Diff.Handled

/-- Code that became its own parent before the edit; it could not be attached below the root as well,
and cutting and collapsing did not touch it. -/
def ownParent : Diff :=
  (Simplification.collapse.run.perform
    (Simplification.cut.run.perform
      ([newCode, .attachLast 1 1 .before, .attachLast 0 1 .before].foldl (fun d c => c.apply d)
        (.empty .unknown))).2).2

theorem handled_ownParent : ownParent.Handled :=
  .stepped (.stepped (.call _ (.call _ (.call _ (.empty .unknown)))) .cut) .collapse

/-- Code that is its own parent lists itself once. -/
theorem ownParent_edges_agree : ownParent.Handled ∧ 1 < ownParent.size ∧
    ∃ children parent, ownParent.children 1 .before = .ok children ∧
      ownParent.parent 1 .before = .ok parent ∧
      children.count 1 = (if parent = some 1 then 1 else 0) ∧
      (parent.isSome = true → ∃ x, ownParent.node 1 = .ok x ∧ x.existsAt .before = true) :=
  ⟨handled_ownParent, by decide +kernel,
    handled_ownParent.edges_agree (by decide +kernel) (by decide +kernel) .before⟩

end Variation
