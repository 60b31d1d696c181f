import Variation.Proofs.Texts

/-!
# Trees in which nothing changed

A diff is `Still` along a forest if that forest is its tree at both times and every node of it is
unchanged. What is read from a plain text is still, and so is its copy, from which the diff to
another text is built. The rule for branches is told by the kinds of a forest alone (`Ranked`), so it
passes from a forest to its copies.
-/

namespace Variation

/-! ## The rule for branches -/

/-- Below a node of a kind, a branch hangs below a condition only. -/
def Forest.Ranked (top : Kind) : Forest Kind → Prop
  | nil => True
  | cons kind below rest =>
    (kind.isContinuation = true → top.isConditional = true) ∧ below.Ranked kind ∧ rest.Ranked top

namespace Diff

variable {d : Diff} {t : Time} {n p q : Handle} {f : Forest Handle} {s : Sides (Forest Handle)}

theorem ranked_of_branch (hd : d.Symmetric) (spans : d.Spans t f)
    (tops : ∀ c ∈ f.roots, d.above t c = some q)
    (branch : ∀ n ∈ f.flatten, ∀ p, d.above t n = some p →
      (d.look n).kind.isContinuation = true → (d.look p).kind.isConditional = true) :
    (f.map fun n => (d.look n).kind).Ranked (d.look q).kind := by
  induction f generalizing q with
  | nil => trivial
  | cons n below rest ihb ihr =>
    obtain ⟨-, hn, hb, hr⟩ := spans
    obtain ⟨top, tops⟩ := List.forall_mem_cons.1 tops
    simp only [Forest.flatten, List.forall_mem_cons, List.forall_mem_append] at branch
    obtain ⟨here, inner, behind⟩ := branch
    refine ⟨here q top, ihb hb (fun c hc => hd.above_of_mem ?_) inner, ihr hr tops behind⟩
    rw [hn]
    exact hc

theorem branch_of_ranked (hd : d.Symmetric) (spans : d.Spans t f)
    (tops : ∀ c ∈ f.roots, d.above t c = some q)
    (ranked : (f.map fun n => (d.look n).kind).Ranked (d.look q).kind) :
    ∀ n ∈ f.flatten, ∀ p, d.above t n = some p → (d.look n).kind.isContinuation = true →
      (d.look p).kind.isConditional = true := by
  induction f generalizing q with
  | nil => exact fun n hn => absurd hn List.not_mem_nil
  | cons n below rest ihb ihr =>
    obtain ⟨-, hn, hb, hr⟩ := spans
    obtain ⟨top, tops⟩ := List.forall_mem_cons.1 tops
    obtain ⟨here, inner, behind⟩ := ranked
    simp only [Forest.flatten, List.forall_mem_cons, List.forall_mem_append]
    refine ⟨fun p hp => ?_, ihb hb (fun c hc => hd.above_of_mem ?_) inner, ihr hr tops behind⟩
    · rw [top] at hp
      obtain rfl := Option.some.inj hp
      exact here
    · rw [hn]
      exact hc

/-- Forests that span what hangs below the root at both times make a diff twofold. -/
theorem Twofold.of_spans (hd : d.Regular) (free : ∀ t, d.above t root = none)
    (below : ∀ t, d.below t root = (s.get t).roots) (spans : ∀ t, d.Spans t (s.get t))
    (here : ∀ u t n, n ∈ root :: (s.get u).flatten → d.lives t n = true →
      n ∈ root :: (s.get t).flatten)
    (there : ∀ u t n c, n ∈ root :: (s.get u).flatten → c ∈ d.below t n → d.lives t n = true)
    (kind : ∀ t n, n ∈ (s.get t).flatten → (d.look n).kind ≠ .root)
    (ranked : ∀ t, ((s.get t).map fun n => (d.look n).kind).Ranked .root)
    (formula : ∀ t n, n ∈ root :: (s.get t).flatten →
      (d.look n).formula.isSome = (d.look n).kind.isConditional) : d.Twofold s := by
  refine ⟨hd, free, fun t => ?_, here, there, kind, fun t n p hn hp => ?_, formula⟩
  · obtain ⟨f, shape⟩ := exists_shape hd.toSymmetric (free t)
    have same := shape.spans.unique (spans t) (shape.below.symm.trans (below t))
    rw [← same]
    exact shape
  · refine branch_of_ranked (q := root) hd.toSymmetric (spans t)
      (fun c hc => hd.above_of_mem ?_) ?_ n hn p hp
    · rw [below t]
      exact hc
    · rw [look_root_kind hd]
      exact ranked t

theorem Twofold.ranked (h : d.Twofold s) (t : Time) :
    ((s.get t).map fun n => (d.look n).kind).Ranked .root := by
  rw [← look_root_kind h.toRegular]
  refine ranked_of_branch h.toSymmetric (h.shape t).spans (fun c hc => h.above_of_mem ?_)
    fun n hn p hp => h.branch t n p hn hp
  rw [(h.shape t).below]
  exact hc

/-! ## Still diffs -/

/-- Nothing changed in a diff, whose tree is the same at both times. -/
structure Still (d : Diff) (f : Forest Handle) : Prop extends Twofold d ⟨f, f⟩ where
  unchanged : ∀ n ∈ Diff.root :: f.flatten, (d.look n).change = .unchanged

namespace Still

theorem tree (h : d.Still f) (t : Time) : d.Shape t f := by
  cases t
  · exact h.shape .before
  · exact h.shape .after

/-- A still diff has one forest. -/
theorem unique {g : Forest Handle} (h : d.Still f) (h' : d.Still g) : f = g :=
  (h.tree .before).spans.unique (h'.tree .before).spans
    ((h.tree .before).below.symm.trans (h'.tree .before).below)

theorem present (h : d.Still f) (hn : n ∈ Diff.root :: f.flatten) (t : Time) : d.lives t n = true :=
  (unchanged_iff (h.lt_size (t := .before) hn)).1 (h.unchanged n hn) t

end Still

/-- A diff whose nodes are all unchanged and whose tree is the same at both times is still. -/
theorem Still.of_spans (hd : d.Regular) (free : ∀ t, d.above t root = none)
    (below : ∀ t, d.below t root = f.roots) (spans : ∀ t, d.Spans t f)
    (unchanged : ∀ n ∈ Diff.root :: f.flatten, (d.look n).change = .unchanged)
    (kind : ∀ n ∈ f.flatten, (d.look n).kind ≠ .root)
    (ranked : (f.map fun n => (d.look n).kind).Ranked .root)
    (formula : ∀ n ∈ Diff.root :: f.flatten,
      (d.look n).formula.isSome = (d.look n).kind.isConditional) : d.Still f := by
  have get (t) : (⟨f, f⟩ : Sides (Forest Handle)).get t = f := by cases t <;> rfl
  have inStore (n) (hn : n ∈ Diff.root :: f.flatten) : n < d.size := by
    obtain rfl | hn := List.mem_cons.1 hn
    · exact hd.root_lt
    · exact (spans .before).lt_size hn
  refine ⟨.of_spans hd free (fun t => ?_) (fun t => ?_) (fun u t n hn _ => ?_)
    (fun u t n c hn _ => ?_) (fun t n hn => ?_) (fun t => ?_) fun t n hn => ?_, unchanged⟩
  · rw [get]
    exact below t
  · rw [get]
    exact spans t
  · rw [get] at hn ⊢
    exact hn
  · rw [get] at hn
    exact (unchanged_iff (inStore n hn)).1 (unchanged n hn) _
  · rw [get] at hn
    exact kind n hn
  · rw [get]
    exact ranked
  · rw [get] at hn
    exact formula n hn

end Diff

end Variation
