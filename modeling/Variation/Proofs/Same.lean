import Variation.Diff.Same
import Variation.Diff.Tree
import Variation.Proofs.Shape

/-!
# Trees that say the same

A diff that has the same tree at both times is told by one forest. Two such diffs say the same if
their forests do, place by place, in all that the comparison looks at. The comparison stops at nodes
it has seen, so it can only miss a difference, never find one that is not there; the same walk over
one forest shows that nothing in it changed.
-/

namespace Variation

namespace Node

/-- What the comparison of two diffs looks at. -/
def face (x : Node) : Node := { x.detached with closing := .both none }

theorem agrees_of_face {x y : Node} (h : x.face = y.face) : x.agrees y = true := by
  simp only [face, detached, Node.mk.injEq, and_true] at h
  obtain ⟨change, kind, start, stop, formula, label⟩ := h
  simp [agrees, change, kind, start, stop, formula, label]

end Node

namespace Diff

variable {d a b : Diff} {t : Time} {n l r : Handle} {f g : Forest Handle} {marks : Marks}
  {levels steps : Nat}

/-- What a diff says about a node. -/
def face (d : Diff) (n : Handle) : Node := (d.look n).face

/-- A node that has the same children at both times has no others. -/
theorem allChildren_of_same {cs : List Handle} (hn : n < d.size) (h : ∀ t, d.below t n = cs) :
    d.allChildren n = .ok cs := by
  have before : (d.look n).children.before = cs := by
    rw [← h .before, below_look hn]
    rfl
  have after : (d.look n).children.after = cs := by
    rw [← h .after, below_look hn]
    rfl
  have none : cs.filter (fun c => !cs.contains c) = [] := by
    rw [List.filter_eq_nil_iff]
    intro c hc
    simp [hc]
  rw [allChildren, node_look hn, Outcome.ok_bind, before, after, none]
  show (pure (cs ++ []) : Outcome (List Handle)) = .ok cs
  rw [List.append_nil]
  rfl

/-- Two nodes that look alike, with children that are not told apart, are not told apart. -/
theorem agreeBelow_of_face (hl : l < a.size) (hr : r < b.size) (below : ∀ t, a.below t l = f.roots)
    (below' : ∀ t, b.below t r = g.roots) (face : a.face l = b.face r)
    (length : f.roots.length = g.roots.length)
    (inner : ∀ levels marks, ∃ marks',
      agreeAll (agreeBelow a b levels) (f.roots.zip g.roots) marks = .ok (some marks'))
    (levels : Nat) (marks : Marks) :
    ∃ marks', agreeBelow a b levels l r marks = .ok (some marks') := by
  cases levels with
  | zero => exact ⟨marks, rfl⟩
  | succ levels =>
    by_cases seen : marks.has l = true
    · exact ⟨marks, by rw [agreeBelow, if_pos seen]; rfl⟩
    · obtain ⟨marks', run⟩ := inner levels (marks.mark l)
      refine ⟨marks', ?_⟩
      have agrees : (!(a.look l).agrees (b.look r)) = false := by
        rw [Node.agrees_of_face face]
        rfl
      rw [agreeBelow, if_neg seen, node_look hl, Outcome.ok_bind, node_look hr, Outcome.ok_bind,
        agrees, allChildren_of_same hl below, allChildren_of_same hr below']
      simp only [Bool.false_eq_true, if_false, Outcome.ok_bind, length, ne_eq, not_true_eq_false]
      exact run

theorem length_roots_of_map {α β γ : Type} {f : Forest α} {g : Forest β} {p : α → γ} {q : β → γ}
    (h : f.map p = g.map q) : f.roots.length = g.roots.length := by
  have same := congrArg (fun f => f.roots.length) h
  simp only [Forest.roots_map, List.length_map] at same
  exact same

/-- Trees with the same faces are not told apart. -/
theorem agreeAll_of_face (hf : ∀ t, a.Spans t f) (hg : ∀ t, b.Spans t g)
    (same : f.map a.face = g.map b.face) (levels : Nat) (marks : Marks) :
    ∃ marks', agreeAll (agreeBelow a b levels) (f.roots.zip g.roots) marks = .ok (some marks') := by
  induction f generalizing g levels marks with
  | nil => exact ⟨marks, rfl⟩
  | cons l below rest ihb ihr =>
    cases g with
    | nil => cases same
    | cons r below' rest' =>
      obtain ⟨face, sameBelow, sameRest⟩ := (Forest.cons.injEq ..).mp same
      have inner := ihb (fun t => (hf t).2.2.1) (fun t => (hg t).2.2.1) sameBelow
      obtain ⟨marks₁, first⟩ := agreeBelow_of_face (hf .before).1 (hg .before).1
        (fun t => (hf t).2.1) (fun t => (hg t).2.1) face (length_roots_of_map sameBelow) inner
        levels marks
      obtain ⟨marks', behind⟩ := ihr (fun t => (hf t).2.2.2) (fun t => (hg t).2.2.2) sameRest
        levels marks₁
      refine ⟨marks', ?_⟩
      rw [Forest.roots, Forest.roots, List.zip_cons_cons, agreeAll, first, Outcome.ok_bind]
      exact behind

/-- Two diffs whose trees look the same say the same. -/
theorem saysSame_of_face (ha : root < a.size) (hb : root < b.size)
    (hf : ∀ t, a.below t root = f.roots ∧ a.Spans t f)
    (hg : ∀ t, b.below t root = g.roots ∧ b.Spans t g) (face : a.face root = b.face root)
    (same : f.map a.face = g.map b.face) : a.saysSame b = .ok true := by
  have inner := agreeAll_of_face (fun t => (hf t).2) (fun t => (hg t).2) same
  obtain ⟨marks', run⟩ := agreeBelow_of_face ha hb (fun t => (hf t).1) (fun t => (hg t).1) face
    (length_roots_of_map same) inner (a.size + 1) (Marks.none a.size)
  rw [saysSame, run]
  rfl

/-- The test that nothing changed passes the trees of a forest that nothing changed in. -/
theorem checkTreeFrom_spans (h : d.Spans .before f)
    (plain : ∀ n ∈ f.flatten, (d.look n).editInTree? n = none) (rest : List Handle) :
    d.checkTreeFrom (f.flatten.length + steps) (f.roots ++ rest) = d.checkTreeFrom steps rest := by
  induction f generalizing steps rest with
  | nil =>
    rw [Forest.flatten, Forest.roots, List.length_nil, Nat.zero_add, List.nil_append]
  | cons n below behind ihb ihr =>
    obtain ⟨hn, children, hb, hr⟩ := h
    simp only [Forest.flatten, List.forall_mem_cons, List.forall_mem_append] at plain
    obtain ⟨here, plainBelow, plainRest⟩ := plain
    have count : (Forest.cons n below behind).flatten.length + steps =
        below.flatten.length + (behind.flatten.length + steps) + 1 := by
      simp only [Forest.flatten, List.length_cons, List.length_append]
      omega
    have before : (d.look n).children.before = below.roots := by
      rw [← children, below_look hn]
      rfl
    rw [count, Forest.roots, List.cons_append, checkTreeFrom, node_look hn, Outcome.ok_bind, here]
    simp only [before]
    rw [ihb hb plainBelow, ihr hr plainRest]

theorem checkTree_of_spans (hd : root < d.size) (below : d.below .before root = f.roots)
    (spans : d.Spans .before f) (plain : ∀ n, n < d.size → (d.look n).editInTree? n = none)
    (small : f.flatten.length < d.size) : d.checkTree = .ok () := by
  have whole : d.Spans .before (.tree root f) := ⟨hd, below, spans, trivial⟩
  obtain ⟨k, steps⟩ : ∃ k, d.size + 1 = (Forest.tree root f).flatten.length + k := by
    refine ⟨d.size - f.flatten.length, ?_⟩
    rw [Forest.flatten_tree, List.length_cons]
    omega
  have run : d.checkTreeFrom ((Forest.tree root f).flatten.length + k)
      ((Forest.tree root f).roots ++ []) = d.checkTreeFrom k [] :=
    checkTreeFrom_spans whole (fun n hn => plain n (whole.lt_size hn)) []
  rw [Forest.roots_tree, List.append_nil] at run
  rw [checkTree, steps, run]
  cases k <;> rfl

end Diff

end Variation
