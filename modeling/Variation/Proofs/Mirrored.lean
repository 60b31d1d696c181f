import Variation.Proofs.Selection

/-!
# Presence along trees that correspond

Two trees correspond if their nodes can be paired so that paired nodes are of one kind, carry one
condition and have paired parents. The two conditions of a node are found on the way up from it, so
they are the same for paired nodes, clause by clause. The only thing that can go wrong in a sound tree
is a closing mark on the way, which has no condition; then they fail in the same way.
-/

namespace Variation

/-- Two questions have the answers of a relation, or both fail because a node lacks a condition. -/
inductive Outcome.Echoes {α β : Type} (V : α → β → Prop) : Outcome α → Outcome β → Prop
  | ok {a : α} {b : β} (h : V a b) : Echoes V (.ok a) (.ok b)
  | fail (m n : Handle) (kind : Kind) :
    Echoes V (Outcome.fail (.formulaLaw m kind)) (Outcome.fail (.formulaLaw n kind))

namespace Outcome.Echoes

variable {α β γ δ : Type} {V : α → β → Prop} {W : γ → δ → Prop} {x : Outcome α} {y : Outcome β}

/-- Questions that follow each other echo step by step. -/
theorem bind {f : α → Outcome γ} {g : β → Outcome δ} (h : Echoes V x y)
    (next : ∀ a b, V a b → Echoes W (f a) (g b)) : Echoes W (x >>= f) (y >>= g) := by
  cases h with
  | ok h => exact next _ _ h
  | fail m n kind => exact .fail m n kind

theorem map {f : α → γ} {g : β → δ} (h : Echoes V x y) (next : ∀ a b, V a b → W (f a) (g b)) :
    Echoes W (f <$> x) (g <$> y) := by
  cases h with
  | ok h => exact .ok (next _ _ h)
  | fail m n kind => exact .fail m n kind

end Outcome.Echoes

namespace Diff

open Outcome

/-- A node has a parent at a time, which is there at that time. -/
def Hangs (d : Diff) (t : Time) (n p : Handle) : Prop := d.above t n = some p ∧ d.lives t p = true

/-- The nodes of a tree are paired with those of a sound tree: the roots with each other, and all
others so that their parents are paired too. -/
structure Mirror (p : Diff) (u : Time) (d : Diff) (t : Time) (R : Handle → Handle → Prop) :
    Prop where
  free : p.above u root = none ∧ d.above t root = none
  store : root < p.size ∧ root < d.size
  top : (d.look root).kind = .root
  inStore : ∀ a b, R a b → a < p.size ∧ b < d.size
  kind : ∀ a b, R a b → (p.look a).kind = (d.look b).kind
  formula : ∀ a b, R a b → (p.look a).formula = (d.look b).formula
  branch : ∀ a b, R a b → ∀ b', d.above t b = some b' → (d.look b).kind.isContinuation = true →
    (d.look b').kind.isConditional = true
  parent : ∀ a b, R a b → a = root ∧ b = root ∨ ∃ a' b', R a' b' ∧ p.Hangs u a a' ∧ d.Hangs t b b'

namespace Mirror

variable {p d : Diff} {u t : Time} {R : Handle → Handle → Prop} {a b a' b' : Handle}
  {ms : List Handle} {s s' : Nat}

/-- A node of another kind than the root hangs below some node, and its partner below the partner. -/
theorem exists_parent (m : Mirror p u d t R) (h : R a b) (kind : (d.look b).kind ≠ .root) :
    ∃ a' b', R a' b' ∧ p.Hangs u a a' ∧ d.Hangs t b b' := by
  obtain ⟨-, rfl⟩ | parent := m.parent a b h
  · exact absurd m.top kind
  · exact parent

/-- The ways up from paired nodes are equally long. -/
theorem exists_way (m : Mirror p u d t R) (way : d.Way t b ms) (h : R a b) :
    ∃ ks, p.Way u a ks ∧ ks.length = ms.length := by
  induction way generalizing a with
  | root =>
    obtain ⟨rfl, -⟩ | ⟨a', b', -, -, hb, -⟩ := m.parent a root h
    · exact ⟨[], .root, rfl⟩
    · rw [m.free.2] at hb
      cases hb
  | @step n q ms hq _ ih =>
    obtain ⟨-, rfl⟩ | ⟨a', b', h', ⟨ha, -⟩, hb, -⟩ := m.parent a n h
    · rw [m.free.2] at hq
      cases hq
    · obtain rfl := Option.some.inj (hb.symm.trans hq)
      obtain ⟨ks, way, length⟩ := ih h'
      exact ⟨a :: ks, .step ha way, by rw [List.length_cons, List.length_cons, length]⟩

/-- Both stores have more nodes than there are on the way up. -/
theorem length_lt (m : Mirror p u d t R) (way : d.Way t b ms) (h : R a b) :
    ms.length < p.size ∧ ms.length < d.size := by
  obtain ⟨ks, way', length⟩ := m.exists_way way h
  exact ⟨length ▸ way'.length_lt m.free.1 m.store.1, way.length_lt m.free.2 m.store.2⟩

theorem ownFormula (m : Mirror p u d t R) (h : R a b) :
    Echoes Eq (p.ownFormula a) (d.ownFormula b) := by
  obtain ⟨ha, hb⟩ := m.inStore a b h
  rw [Diff.ownFormula, node_look ha, ok_bind, Diff.ownFormula, node_look hb, ok_bind,
    m.formula a b h, m.kind a b h]
  cases (d.look b).formula with
  | none => exact .fail a b _
  | some f => exact .ok rfl

theorem presentParent?_eq (m : Mirror p u d t R) (h : R a b) (ha : p.Hangs u a a')
    (hb : d.Hangs t b b') :
    p.presentParent? a u = .ok (some a') ∧ d.presentParent? b t = .ok (some b') :=
  ⟨presentParent?_of_above (m.inStore a b h).1 ha.1 ha.2,
    presentParent?_of_above (m.inStore a b h).2 hb.1 hb.2⟩

theorem requiredParent_eq (m : Mirror p u d t R) (h : R a b) (ha : p.Hangs u a a')
    (hb : d.Hangs t b b') : p.requiredParent a u = .ok a' ∧ d.requiredParent b t = .ok b' :=
  ⟨Diff.requiredParent_eq (m.inStore a b h).1 ha.1 ha.2,
    Diff.requiredParent_eq (m.inStore a b h).2 hb.1 hb.2⟩

/-- What the walk up a chain of branches gives: the same clauses, and paired nodes that open the chain
and are not below a place of the way. -/
def Opener (d : Diff) (t : Time) (R : Handle → Handle → Prop) (k : Nat)
    (x y : List Formula × Handle) : Prop :=
  x.1 = y.1 ∧ R x.2 y.2 ∧ (d.look y.2).kind = .ifBranch ∧ ∃ ks, d.Way t y.2 ks ∧ ks.length ≤ k

theorem chainAbove (m : Mirror p u d t R) (way : d.Way t b ms) (h : R a b)
    (conditional : (d.look b).kind.isConditional = true) (enough : ms.length < s)
    (enough' : ms.length < s') (a₀ b₀ : Handle) :
    Echoes (Opener d t R ms.length) (p.chainAbove a₀ u s' a) (d.chainAbove b₀ t s b) := by
  induction way generalizing a s s' with
  | root =>
    rw [m.top] at conditional
    cases conditional
  | @step b q ms hq up ih =>
    obtain ⟨s, rfl⟩ : ∃ k, s = k + 1 := ⟨s - 1, by omega⟩
    obtain ⟨s', rfl⟩ : ∃ k, s' = k + 1 := ⟨s' - 1, by omega⟩
    rw [List.length_cons] at enough enough'
    obtain ⟨ha, hb⟩ := m.inStore a b h
    rw [Diff.chainAbove, node_look ha, ok_bind, Diff.chainAbove, node_look hb, ok_bind,
      m.kind a b h]
    by_cases opens : (d.look b).kind = .ifBranch
    · rw [if_pos opens, if_pos opens]
      refine (m.ownFormula h).bind fun f g same => .ok ⟨?_, h, opens, _, .step hq up, Nat.le_refl _⟩
      rw [same]
    · have continuation : (d.look b).kind = .elifBranch := by
        revert conditional opens
        cases (d.look b).kind <;> simp [Kind.isConditional]
      have continued : (d.look b).kind.isContinuation = true := by rw [continuation]; rfl
      obtain ⟨a', b', h', ha', hb'⟩ := m.exists_parent h (by rw [continuation]; decide)
      obtain rfl := Option.some.inj (hb'.1.symm.trans hq)
      obtain ⟨left, right⟩ := m.requiredParent_eq h ha' hb'
      rw [if_neg opens, if_pos continuation, if_neg opens, if_pos continuation, left, right]
      refine (m.ownFormula h).bind fun f g same => ?_
      refine (ih h' (m.branch a b h b' hb'.1 continued) (by omega) (by omega)).bind
        fun x y opener => ?_
      obtain ⟨clauses, paired, kind, ks, way, short⟩ := opener
      refine .ok ⟨?_, paired, kind, ks, way, Nat.le_succ_of_le short⟩
      rw [same, clauses]

theorem branchClauses (m : Mirror p u d t R) (way : d.Way t b ms) (h : R a b)
    (continued : (d.look b).kind.isContinuation = true) :
    Echoes (Opener d t R (ms.length - 1)) (p.branchClauses a u) (d.branchClauses b t) := by
  have notRoot : (d.look b).kind ≠ .root := fun e => by rw [e] at continued; cases continued
  obtain ⟨a', b', h', ha', hb'⟩ := m.exists_parent h notRoot
  obtain ⟨left, right⟩ := m.requiredParent_eq h ha' hb'
  obtain ⟨ha, hb⟩ := m.inStore a b h
  cases way with
  | root => exact absurd m.top notRoot
  | @step _ q ms hq up =>
    obtain rfl := Option.some.inj (hb'.1.symm.trans hq)
    obtain ⟨few, few'⟩ := m.length_lt up h'
    rw [Diff.branchClauses, node_look ha, ok_bind, left, Diff.branchClauses, node_look hb, ok_bind,
      right, m.kind a b h]
    have rest (own : List Formula) : Echoes (Opener d t R ms.length)
        (p.chainAbove a u (p.size + 1) a' >>= fun x => pure (own ++ x.1, x.2))
        (d.chainAbove b t (d.size + 1) b' >>= fun x => pure (own ++ x.1, x.2)) :=
      (m.chainAbove up h' (m.branch a b h b' hb'.1 continued) (Nat.lt_succ_of_lt few')
        (Nat.lt_succ_of_lt few) a b).bind fun x y opener =>
          .ok ⟨congrArg (own ++ ·) opener.1, opener.2⟩
    by_cases elif : (d.look b).kind = .elifBranch
    · simp only [if_pos elif, ok_bind]
      have own : Echoes Eq (List.singleton <$> p.ownFormula a) (List.singleton <$> d.ownFormula b) :=
        (m.ownFormula h).map fun f g same => congrArg List.singleton same
      refine own.bind fun fs gs same => ?_
      rw [same]
      exact rest gs
    · simp only [if_neg elif, ok_bind]
      exact rest []

/-- The mapping of a condition or a closing mark is its own condition. -/
theorem mapping (m : Mirror p u d t R) (h : R a b)
    (kind : (d.look b).kind = .ifBranch ∨ (d.look b).kind = .endMark) :
    Echoes Eq (p.mapping a u) (d.mapping b t) := by
  obtain ⟨ha, hb⟩ := m.inStore a b h
  rw [Diff.mapping, mappingClauses, mappingClausesWithin, node_look ha, ok_bind, Diff.mapping,
    mappingClauses, mappingClausesWithin, node_look hb, ok_bind, m.kind a b h]
  have own : Echoes Eq (do return [← p.ownFormula a]) (do return [← d.ownFormula b]) :=
    (m.ownFormula h).bind fun f g same => .ok (by rw [same])
  obtain kind | kind := kind <;> rw [kind] <;> exact own.map fun x y same => congrArg _ same

theorem presenceClausesWithin (m : Mirror p u d t R) (way : d.Way t b ms) (h : R a b)
    (enough : ms.length < s) (enough' : ms.length < s') :
    Echoes Eq (p.presenceClausesWithin u s' a) (d.presenceClausesWithin t s b) := by
  generalize length : ms.length = k at enough enough'
  induction k using Nat.strong_induction_on generalizing a b ms s s' with
  | _ k ih =>
    obtain ⟨s, rfl⟩ : ∃ k, s = k + 1 := ⟨s - 1, by omega⟩
    obtain ⟨s', rfl⟩ : ∃ k, s' = k + 1 := ⟨s' - 1, by omega⟩
    obtain ⟨ha, hb⟩ := m.inStore a b h
    rw [Diff.presenceClausesWithin, node_look ha, ok_bind, Diff.presenceClausesWithin, node_look hb,
      ok_bind, m.kind a b h]
    -- every node but the root is paired together with its parent
    have above (kind : (d.look b).kind ≠ .root) : ∃ a' b' ks, R a' b' ∧ d.Way t b' ks ∧
        ks.length < k ∧ p.Hangs u a a' ∧ d.Hangs t b b' := by
      obtain ⟨a', b', h', ha', hb'⟩ := m.exists_parent h kind
      cases way with
      | root => exact absurd m.top kind
      | @step _ q ks hq up =>
        obtain rfl := Option.some.inj (hb'.1.symm.trans hq)
        exact ⟨a', b', ks, h', up, by rw [← length]; exact Nat.lt_succ_self _, ha', hb'⟩
    cases kind : (d.look b).kind with
    | root => exact .ok rfl
    | artifact =>
      obtain ⟨a', b', ks, h', up, shorter, ha', hb'⟩ := above (by rw [kind]; decide)
      obtain ⟨left, right⟩ := m.requiredParent_eq h ha' hb'
      simp only [left, right, ok_bind]
      exact ih ks.length shorter up h' rfl (by omega) (by omega)
    | ifBranch | endMark =>
      obtain ⟨a', b', ks, h', up, shorter, ha', hb'⟩ := above (by rw [kind]; decide)
      obtain ⟨left, right⟩ := m.presentParent?_eq h ha' hb'
      simp only [left, right, ok_bind]
      refine (ih ks.length shorter up h' rfl (by omega) (by omega)).bind fun x y outer => ?_
      refine (m.mapping h (by simp [kind])).bind fun f g own => .ok ?_
      rw [outer, own]
    | elifBranch | elseBranch =>
      refine (m.branchClauses way h (by rw [kind]; rfl)).bind ?_
      rintro ⟨fs, o⟩ ⟨fs', o'⟩ ⟨clauses, paired, opens, ks, up, short⟩
      obtain ⟨q, q', outer, hq, hq'⟩ := m.exists_parent paired (by rw [opens]; decide)
      obtain ⟨left, right⟩ := m.presentParent?_eq paired hq hq'
      simp only [left, right, ok_bind]
      simp only at up opens clauses
      cases up with
      | root =>
        rw [m.top] at opens
        cases opens
      | @step _ q ks hb up =>
        obtain rfl := Option.some.inj (hq'.1.symm.trans hb)
        rw [List.length_cons] at short
        refine (ih ks.length (by omega) up outer rfl (by omega) (by omega)).bind
          fun gs gs' same => .ok ?_
        rw [clauses, same]

/-- Paired nodes have the same presence, or it fails for both because a node lacks a condition. -/
theorem presence (m : Mirror p u d t R) (h : R a b) (way : d.Way t b ms) :
    Echoes Eq (p.presence a u) (d.presence b t) := by
  obtain ⟨few, few'⟩ := m.length_lt way h
  exact (m.presenceClausesWithin way h (Nat.lt_succ_of_lt few') (Nat.lt_succ_of_lt few)).map
    fun x y same => congrArg Formula.conj same

end Mirror

end Diff

end Variation
