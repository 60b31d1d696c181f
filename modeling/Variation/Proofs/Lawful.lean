import Variation.Diff.Invariant
import Variation.Proofs.Edges
import Variation.Proofs.Outcomes

/-!
# The rules for one node

`Lawful` states what the test of one node is about, without the order of the tests and without what
they report. The main statement says that the test accepts exactly the lawful nodes.
-/

namespace Variation.Diff

/-- The rules for one node: its edges are recorded at both ends, it has a parent at exactly the times
at which it is there, each parent is there at the time of the edge, a parent shared by both times is
unchanged, a branch hangs below a condition, and exactly the conditional kinds carry a formula. -/
structure Lawful (d : Diff) (n : Handle) (x : Node) : Prop where
  down : ∀ t, ∀ c ∈ x.children.get t, d.above t c = some n
  up : ∀ t p, x.parent.get t = some p → n ∈ d.below t p
  root : x.kind = .root → ∀ t, x.parent.get t = none
  arity : x.kind ≠ .root → ∀ t, (x.parent.get t).isSome = x.existsAt t
  shared : ∀ p, (∀ t, x.parent.get t = some p) →
    ∃ y, d.nodes[p]? = some y ∧ y.change = .unchanged
  lives : ∀ t p, x.parent.get t = some p → d.lives t p = true
  branch : ∀ t p, x.parent.get t = some p → x.kind.isContinuation = true →
    ∃ y, d.nodes[p]? = some y ∧ y.kind.isConditional = true
  formula : x.formula.isSome = x.kind.isConditional

/-! ## The test of one node -/

section Check

variable {d : Diff} {n : Handle} {x : Node} {t : Time}

theorem checkEdges_eq_ok_iff :
    d.checkEdges n x t = .ok () ↔
      (∀ c ∈ x.children.get t, d.above t c = some n) ∧
        ∀ p, x.parent.get t = some p → n ∈ d.below t p := by
  have child (c : Handle) :
      (do if (← d.node c).parent.get t ≠ some n then .fail (.asymmetricEdge n c t) : Outcome Unit) =
        .ok () ↔ d.above t c = some n := by
    cases hc : d.nodes[c]? with
    | none => simp [node, hc, above, Outcome.fail]
    | some y =>
      rw [node_of_getElem? hc, Outcome.ok_bind, Outcome.ite_fail_eq_ok_iff, above_of_node hc]
      exact not_not
  have upward (p : Handle) :
      (do if !((← d.node p).children.get t).contains n then .fail (.asymmetricEdge p n t) :
        Outcome Unit) = .ok () ↔ n ∈ d.below t p := by
    cases hp : d.nodes[p]? with
    | none => simp [node, hp, below, Outcome.fail]
    | some y =>
      rw [node_of_getElem? hp, Outcome.ok_bind, Outcome.ite_fail_eq_ok_iff, below_of_node hp]
      simp
  rw [checkEdges, Outcome.seq_eq_ok_iff, Outcome.forM_eq_ok_iff]
  refine and_congr (by simp only [child]) ?_
  cases hp : x.parent.get t with
  | none => simp [pure, Except.pure]
  | some p => exact (upward p).trans ⟨fun h q hq => Option.some.inj hq ▸ h, fun h => h p rfl⟩

theorem checkArity_eq_ok_iff :
    d.checkArity n x = .ok () ↔
      (x.kind = .root → ∀ t, x.parent.get t = none) ∧
        (x.kind ≠ .root →
          (∀ t, (x.parent.get t).isSome = x.existsAt t) ∧
            ∀ p, (∀ t, x.parent.get t = some p) → ∃ y, d.nodes[p]? = some y ∧
              y.change = .unchanged) := by
  have both {P : Time → Prop} : (∀ t, P t) ↔ P .before ∧ P .after :=
    ⟨fun h => ⟨h _, h _⟩, fun h t => by cases t <;> simp [h]⟩
  have shared (b : Handle) (cause : Fault) :
      (do if (← d.node b).change = .unchanged then .ok () else .fail cause : Outcome Unit) =
        .ok () ↔ ∃ y, d.nodes[b]? = some y ∧ y.change = .unchanged := by
    cases hb : d.nodes[b]? with
    | none => simp [node, hb, Outcome.fail]
    | some y =>
      rw [node_of_getElem? hb, Outcome.ok_bind]
      by_cases hy : y.change = .unchanged <;> simp [hy]
  simp only [both, Sides.get, Node.existsAt]
  unfold checkArity
  by_cases hk : x.kind = .root
  · simp only [hk, if_true, ne_eq, not_true_eq_false, false_implies, and_true, true_implies]
    rw [Outcome.ite_fail_eq_ok_iff]
    cases x.parent.before <;> cases x.parent.after <;> simp
  · simp only [hk, if_false, ne_eq, not_false_eq_true, false_implies, true_and, true_implies]
    rcases hc : x.change <;> rcases hb : x.parent.before with _ | b <;>
      rcases ha : x.parent.after with _ | a <;>
      simp [Change.existsAt, pure, Except.pure]
    -- what is left is an unchanged node that has a parent at both times
    by_cases h : b = a
    · simp only [h, true_implies, shared]
    · simp [h, Ne.symm h]

theorem checkParent_eq_ok_iff :
    d.checkParent n x t = .ok () ↔
      ∀ p, x.parent.get t = some p → d.lives t p = true ∧
        (x.kind.isContinuation = true → ∃ y, d.nodes[p]? = some y ∧ y.kind.isConditional = true) := by
  unfold checkParent
  cases hp : x.parent.get t with
  | none => simp [pure, Except.pure]
  | some p =>
    simp only [Option.some.injEq, forall_eq']
    cases hy : d.nodes[p]? with
    | none => simp [node, hy, Diff.lives, Outcome.fail]
    | some y =>
      rw [node_of_getElem? hy, Outcome.ok_bind, lives_of_node hy]
      cases y.existsAt t <;> cases x.kind.isContinuation <;> cases hk : y.kind.isConditional <;>
        simp [hk, pure, Except.pure]

/-- The test of one node accepts exactly the lawful ones. -/
theorem check_eq_ok_iff : d.check n = .ok () ↔ ∃ x, d.nodes[n]? = some x ∧ d.Lawful n x := by
  cases hx : d.nodes[n]? with
  | none => simp [check, node, hx, Outcome.fail]
  | some x =>
    have formula : (do if !x.formulaLaw then .fail (.formulaLaw n x.kind) : Outcome Unit) = .ok () ↔
        x.formula.isSome = x.kind.isConditional := by
      rw [Outcome.ite_fail_eq_ok_iff]
      simp [Node.formulaLaw]
    simp only [check, node_of_getElem? hx, Outcome.ok_bind, Outcome.seq_eq_ok_iff,
      Outcome.forM_eq_ok_iff, formula, Time.mem_all, true_implies, checkEdges_eq_ok_iff,
      checkArity_eq_ok_iff, checkParent_eq_ok_iff, Option.some.injEq, exists_eq_left']
    constructor
    · rintro ⟨edges, ⟨root, others⟩, parents, formula⟩
      exact ⟨fun t => (edges t).1, fun t => (edges t).2, root, fun h => (others h).1,
        fun p hp => (others fun h => by simpa [root h .before] using hp .before).2 p hp,
        fun t p hp => (parents t p hp).1, fun t p hp => (parents t p hp).2,
        formula⟩
    · intro h
      exact ⟨fun t => ⟨h.down t, h.up t⟩, ⟨h.root, fun hk => ⟨h.arity hk, h.shared⟩⟩,
        fun t p hp => ⟨h.lives t p hp, h.branch t p hp⟩, h.formula⟩

end Check

end Variation.Diff
