import Variation.Proofs.Ancestors
import Variation.Proofs.History
import Variation.Proofs.Lawful

/-!
# What the consistency test means

A diff is `Sound` if every node below the root is lawful and its parents lead to the root at each
time at which it is there. The consistency test falls short of this: it accepts a node below the
root with a parent that is not below the root, as long as the parents at each time end and none of
the ancestors at both times is without parents. The main statement says that a diff is sound exactly
if the test accepts it and the parents of what hangs below the root hang below the root too.
-/

namespace Variation.Diff

/-- Following the parents of a node at a time leads to the root. -/
inductive Ascends (d : Diff) (t : Time) : Handle → Prop where
  | root : Ascends d t root
  | step {n p : Handle} (h : d.above t n = some p) (hp : Ascends d t p) : Ascends d t n

/-- Every node below the root is lawful, and its parents lead to the root at each time at which it
is there. -/
def Sound (d : Diff) : Prop :=
  ∀ n, d.Reaches n → ∃ x, d.nodes[n]? = some x ∧ d.Lawful n x ∧
    ∀ t, x.existsAt t = true → d.Ascends t n

/-- The parents of what hangs below the root hang below the root. -/
def Enclosed (d : Diff) : Prop := ∀ n, d.Reaches n → ∀ t p, d.above t n = some p → d.Reaches p

variable {d : Diff} {n p : Handle} {t : Time}

/-- The test accepts a diff exactly if every node below the root is lawful, its parents at each time
end, and none of its ancestors but the root is without parents. -/
theorem checkConsistency_eq_ok_iff (hd : d.Regular) :
    d.checkConsistency = .ok () ↔ ∀ n, d.Reaches n →
      (∃ x, d.nodes[n]? = some x ∧ d.Lawful n x) ∧ (∀ t, d.Ends t n) ∧ d.Grounded n := by
  obtain ⟨ns, hns, -, mem⟩ := preorder_spec hd
  have inStore : ∀ n ∈ ns, n < d.size := fun n hn => ((mem n).1 hn).lt_size hd
  have local_ : ns.forM d.check = .ok () ↔
      ∀ n, d.Reaches n → ∃ x, d.nodes[n]? = some x ∧ d.Lawful n x := by
    simp only [Outcome.forM_eq_ok_iff, check_eq_ok_iff, mem]
  have ends : d.parentLoops ns = [] ↔ ∀ n, d.Reaches n → ∀ t, d.Ends t n := by
    simp only [parentLoops_eq_nil_iff, mem]
  have grounded : (∃ w, (d.checkRooted ns).run (Verdicts.none d.size) = .ok () w) ↔
      ∀ n, d.Reaches n → d.Grounded n := by
    simp only [run_checkRooted_iff hd (.start d) inStore, mem]
  have together : d.checkConsistency = .ok () ↔ ns.forM d.check = .ok () ∧
      d.parentLoops ns = [] ∧
        ∃ w, (d.checkRooted ns).run (Verdicts.none d.size) = .ok () w := by
    rw [checkConsistency, hns, Outcome.ok_bind, checkNodes, Outcome.seq_eq_ok_iff]
    refine and_congr_right fun _ => ?_
    cases d.parentLoops ns with
    | cons entry entries => simp
    | nil =>
      cases (d.checkRooted ns).run (Verdicts.none d.size) <;> simp [pure, Except.pure]
  rw [together, local_, ends, grounded]
  exact ⟨fun ⟨h₁, h₂, h₃⟩ n hn => ⟨h₁ n hn, h₂ n hn, h₃ n hn⟩,
    fun h => ⟨fun n hn => (h n hn).1, fun n hn => (h n hn).2.1, fun n hn => (h n hn).2.2⟩⟩

/-- A node of the kind of the root has no parents. -/
theorem Lawful.kind_ne_root {x : Node} (h : d.Lawful n x) (hx : d.nodes[n]? = some x)
    (hp : d.above t n = some p) : x.kind ≠ .root := fun hk => by
  rw [above_of_node hx, h.root hk t] at hp; cases hp

/-- A node below the root that is not the root has a parent. -/
theorem Reaches.exists_above (hd : d.Regular) (h : d.Reaches n) (hn : n ≠ Diff.root) :
    ∃ t p, d.above t n = some p := by
  cases h with
  | root => exact absurd rfl hn
  | child _ hc => exact ⟨_, _, hd.above_of_mem hc⟩

theorem Ascends.reaches (hd : d.Regular) (h : d.Ascends t n) : d.Reaches n := by
  induction h with
  | root => exact .root
  | step h _ ih => exact ih.child (hd.mem_of_above h)

theorem Ascends.ends (h : d.Ascends t n) (hr : d.above t Diff.root = none) : d.Ends t n := by
  induction h with
  | root => exact .top hr
  | step h _ ih => exact .step h ih

namespace Sound

theorem enclosed (hd : d.Regular) (h : d.Sound) : d.Enclosed := by
  intro n hn t p hp
  obtain ⟨x, hx, law, up⟩ := h n hn
  have there := law.arity (law.kind_ne_root hx hp) t
  rw [above_of_node hx] at hp
  have ascends := up t (by rw [← there, hp]; rfl)
  cases ascends with
  | root =>
    have root := hd.root
    simp only [kindOf, hx, Option.map_some, Option.some.injEq] at root
    rw [law.root root t] at hp; cases hp
  | step hq up =>
    rw [above_of_node hx, hp] at hq; cases hq
    exact up.reaches hd

theorem accepted (hd : d.Regular) (h : d.Sound) : d.checkConsistency = .ok () := by
  have rootFree (t : Time) : d.above t root = none := by
    obtain ⟨x, hx, law, -⟩ := h root .root
    have kind := hd.root
    simp only [kindOf, hx, Option.map_some, Option.some.injEq] at kind
    rw [above_of_node hx, law.root kind t]
  rw [checkConsistency_eq_ok_iff hd]
  intro n hn
  obtain ⟨x, hx, law, up⟩ := h n hn
  refine ⟨⟨x, hx, law⟩, fun t => ?_, fun m hm => ?_⟩
  · cases hp : d.above t n with
    | none => exact .top hp
    | some p =>
      have there := law.arity (law.kind_ne_root hx hp) t
      rw [above_of_node hx] at hp
      exact (up t (by rw [← there, hp]; rfl)).ends (rootFree t)
  · have hm : d.Reaches m := by
      induction hm with
      | self => exact hn
      | up _ _ hp ih => exact h.enclosed hd _ ih _ _ hp
    by_cases hr : m = root
    · exact .inl hr
    · exact .inr (hm.exists_above hd hr)

theorem of_accepted (hd : d.Regular) (h : d.checkConsistency = .ok ()) (he : d.Enclosed) :
    d.Sound := by
  rw [checkConsistency_eq_ok_iff hd] at h
  have ascends (n : Handle) (t : Time) (ends : d.Ends t n) (hn : d.Reaches n)
      (there : d.lives t n = true) : d.Ascends t n := by
    induction ends with
    | @top n none =>
      obtain ⟨⟨x, hx, law⟩, -⟩ := h n hn
      by_cases hr : n = root
      · rw [hr]; exact .root
      · obtain ⟨u, p, hp⟩ := hn.exists_above hd hr
        have := law.arity (law.kind_ne_root hx hp) t
        rw [lives_of_node hx, ← this, ← above_of_node hx, none] at there
        cases there
    | step hp _ ih =>
      obtain ⟨⟨x, hx, law⟩, -⟩ := h _ hn
      refine .step hp (ih (he _ hn _ _ hp) ?_)
      rw [above_of_node hx] at hp
      exact law.lives _ _ hp
  intro n hn
  obtain ⟨⟨x, hx, law⟩, ends, -⟩ := h n hn
  exact ⟨x, hx, law, fun t ht => ascends n t (ends t) hn (by rw [lives_of_node hx, ht])⟩

end Sound

/-- A diff with any history is sound exactly if the test accepts it and the parents of what hangs
below the root hang below the root. -/
theorem sound_iff_of_built (h : d.Built) : d.Sound ↔ d.checkConsistency = .ok () ∧ d.Enclosed :=
  ⟨fun hs => ⟨hs.accepted h.regular, hs.enclosed h.regular⟩,
    fun hs => .of_accepted h.regular hs.1 hs.2⟩

/-- If everything in the store hangs below the root, then so do all parents. -/
theorem enclosed_of_count (hd : d.Regular) (h : d.reachableCount = .ok d.size) : d.Enclosed := by
  obtain ⟨ns, walk, once, mem⟩ := preorder_spec hd
  rw [reachableCount, walk, Outcome.ok_bind, Outcome.pure_eq_ok_iff] at h
  have inStore : ns ⊆ List.range d.size := fun n hn =>
    List.mem_range.2 (((mem n).1 hn).lt_size hd)
  have all : ns.Perm (List.range d.size) :=
    (once.subperm inStore).perm_of_length_le (by rw [h, List.length_range])
  intro n _ t p hp
  exact (mem p).1 (all.mem_iff.2 (List.mem_range.2 (hd.parent_lt hp)))

/-- What comes from a bare diff by a list of calls. -/
def ofCalls (cs : List Call) : Diff := cs.foldl (fun d c => c.apply d) (.empty .unknown)

theorem built_ofCalls (cs : List Call) : (ofCalls cs).Built :=
  List.foldlRecOn _ _ (.empty .unknown) fun _ built c _ => .call c built

/-- What comes from a list of calls is sound if the test accepts it and nothing in its store is
detached. -/
theorem sound_ofCalls {cs : List Call}
    (accepted : (ofCalls cs).checkConsistency.toOption = some ())
    (count : (ofCalls cs).reachableCount.toOption = some (ofCalls cs).size) : (ofCalls cs).Sound :=
  have regular := (built_ofCalls cs).regular
  .of_accepted regular (Outcome.eq_ok_of_toOption accepted)
    (enclosed_of_count regular (Outcome.eq_ok_of_toOption count))

/-- An unchanged run of code, without edges. -/
def newCode : Call := .addArtifact .unchanged .start .start ["code"]

/-- Three runs of code. The first hangs below the root before the edit and below the second after it;
the second and the third hang below each other, at one time each. -/
def crossed : Diff :=
  [newCode, newCode, newCode, .attachLast 3 2 .before, .attachLast 2 3 .after,
    .attachLast 0 1 .before, .attachLast 2 1 .after].foldl (fun d c => c.apply d) (.empty .unknown)

theorem built_crossed : crossed.Built :=
  .call _ (.call _ (.call _ (.call _ (.call _ (.call _ (.call _ (.empty .unknown)))))))

/-- The test accepts a diff in which the parents of a node below the root never come to it. -/
theorem crossed_accepted : crossed.checkConsistency = .ok () ∧ ¬ crossed.Sound := by
  refine ⟨by decide, fun h => ?_⟩
  have enclosed := ((sound_iff_of_built built_crossed).1 h).2
  have only (n : Handle) (hn : crossed.Reaches n) : n = 0 ∨ n = 1 := by
    induction hn with
    | root => exact .inl rfl
    | @child t p c _ hc ih =>
      have all : ∀ t p, p = 0 ∨ p = 1 → ∀ c ∈ crossed.below t p, c = 0 ∨ c = 1 := by
        rintro t p (rfl | rfl) <;> cases t <;> decide
      exact all t p ih c hc
  have first : crossed.Reaches 1 := .child (t := .before) .root (by decide)
  have second := only 2 (enclosed 1 first .after 2 (by decide))
  revert second
  decide

end Variation.Diff
