import Variation.Proofs.Reach
import Variation.Proofs.Selection
import Variation.Simplification.Collapse

/-!
# Chains of annotations

A chain is a list of unchanged annotations, from the last one up to the first one, of which each is
the only child of the next one at both times. The tests for where a chain begins, goes on and ends
answer, and say how a node hangs between its parent and its children.
-/

namespace Variation

namespace Diff

/-- A node is the only child of another one, at both times. -/
structure Sole (d : Diff) (c p : Handle) : Prop where
  parent : ∀ t, d.above t c = some p
  only : ∀ t y, d.above t y = some p → y = c

/-- A node is the only child of another one over both times. -/
structure Lone (d : Diff) (c p : Handle) : Prop where
  child : ∃ t, d.above t c = some p
  only : ∀ t y, d.above t y = some p → y = c

/-- A node has one child over both times, and this one is unchanged. -/
def Passes (d : Diff) (n : Handle) : Prop := ∃ c, d.Lone c n ∧ (d.look c).change = .unchanged

/-- A node is not the only child of another one, unless that is the root and a chain may go on. -/
def Begins (d : Diff) (n : Handle) : Prop := ∀ p, d.Sole n p → p = root ∧ d.Passes n

/-- An unchanged annotation below the root. -/
structure Plain (d : Diff) (n : Handle) : Prop where
  reaches : d.Reaches n
  change : (d.look n).change = .unchanged
  annotates : d.annotates n = true

/-- Unchanged annotations from the last one up to the first one, of which each is the only child of the
next one. -/
inductive Chain (d : Diff) (first : Handle) : Handle → List Handle → Prop where
  | one (plain : d.Plain first) : Chain d first first [first]
  | more {n p : Handle} {ns : List Handle} (up : Chain d first p ns) (plain : d.Plain n)
    (sole : d.Sole n p) (new : n ∉ ns) : Chain d first n (n :: ns)

/-- Chains that share no node. -/
structure Chained (d : Diff) (chains : List (List Handle)) : Prop where
  once : chains.flatten.Nodup
  chain : ∀ ns ∈ chains, ∃ first last, d.Chain first last ns

section Lone

variable {d : Diff} {c p : Handle}

theorem belowBoth_eq_singleton_iff (hd : d.Regular) : d.belowBoth p = [c] ↔ d.Lone c p := by
  have mem {y : Handle} : y ∈ d.belowBoth p ↔ ∃ t, d.above t y = some p := by
    simp only [mem_belowBoth, hd.edge]
  constructor
  · intro one
    rw [one] at mem
    exact ⟨mem.1 List.mem_cons_self, fun t y hy => List.mem_singleton.1 (mem.2 ⟨t, hy⟩)⟩
  · rintro ⟨child, only⟩
    refine List.Perm.eq_singleton ?_
    refine (List.perm_ext_iff_of_nodup (nodup_belowBoth hd) (List.nodup_singleton c)).2 fun y => ?_
    rw [mem, List.mem_singleton]
    exact ⟨fun ⟨t, hy⟩ => only t y hy, fun e => e ▸ child⟩

theorem Lone.sole (h : d.Lone c p) (parent : ∀ t, d.above t c = some p) : d.Sole c p :=
  ⟨parent, h.only⟩

theorem Sole.lone (h : d.Sole c p) : d.Lone c p := ⟨⟨.before, h.parent _⟩, h.only⟩

end Lone

theorem Plain.ne_root {d : Diff} {n : Handle} (h : d.Plain n) (hd : d.Regular) : n ≠ root := by
  rintro rfl
  have branch := h.annotates
  have top := hd.root
  rw [kindOf, getElem?_look hd.root_lt, Option.map_some, Option.some.injEq] at top
  rw [Diff.annotates, top] at branch
  cases branch

namespace Chain

variable {d : Diff} {n p first last : Handle} {ns : List Handle} {t : Time}

theorem once (h : d.Chain first last ns) : ns.Nodup := by
  induction h with
  | one => exact List.nodup_singleton first
  | more _ _ _ new ih => exact List.nodup_cons.2 ⟨new, ih⟩

theorem plain (h : d.Chain first last ns) : ∀ n ∈ ns, d.Plain n := by
  induction h with
  | one plain => exact List.forall_mem_singleton.2 plain
  | more _ plain _ _ ih => exact List.forall_mem_cons.2 ⟨plain, ih⟩

theorem head? (h : d.Chain first last ns) : ns.head? = some last := by
  cases h <;> rfl

theorem getLast? (h : d.Chain first last ns) : ns.getLast? = some first := by
  induction h with
  | one => rfl
  | more _ _ _ _ ih => rw [List.getLast?_cons, ih]; rfl

theorem last_mem (h : d.Chain first last ns) : last ∈ ns := List.mem_of_head? h.head?

theorem first_mem (h : d.Chain first last ns) : first ∈ ns := List.mem_of_getLast? h.getLast?

/-- Every node but the first one is the only child of another one. -/
theorem exists_sole (h : d.Chain first last ns) (hn : n ∈ ns) (other : n ≠ first) :
    ∃ p ∈ ns, p ≠ last ∧ d.Sole n p := by
  induction h with
  | one => exact absurd (List.mem_singleton.1 hn) other
  | more up _ sole new ih =>
    obtain rfl | hn := List.mem_cons.1 hn
    · exact ⟨_, List.mem_cons_of_mem _ up.last_mem, fun e => new (e ▸ up.last_mem), sole⟩
    · obtain ⟨p, hp, -, sole⟩ := ih hn
      exact ⟨p, List.mem_cons_of_mem _ hp, fun e => new (e ▸ hp), sole⟩

/-- Every node but the last one has another one as its only child. -/
theorem exists_child (h : d.Chain first last ns) (hn : n ∈ ns) (other : n ≠ last) :
    ∃ c ∈ ns, c ≠ first ∧ d.Sole c n := by
  induction h with
  | one => exact absurd (List.mem_singleton.1 hn) other
  | @more m p ns up _ sole new ih =>
    obtain rfl | hn := List.mem_cons.1 hn
    · exact absurd rfl other
    by_cases here : n = p
    · subst here
      exact ⟨m, List.mem_cons_self, fun e => new (e ▸ up.first_mem), sole⟩
    · obtain ⟨c, hc, below, sole⟩ := ih hn here
      exact ⟨c, List.mem_cons_of_mem _ hc, below, sole⟩

/-- Only the first node has a parent outside the chain. -/
theorem parent_mem (h : d.Chain first last ns) (hn : n ∈ ns) (other : n ≠ first)
    (hp : d.above t n = some p) : p ∈ ns ∧ p ≠ last := by
  obtain ⟨q, hq, below, sole⟩ := h.exists_sole hn other
  rw [sole.parent] at hp
  obtain rfl := Option.some.inj hp
  exact ⟨hq, below⟩

/-- Only below the last node hangs something outside the chain. -/
theorem child_mem (h : d.Chain first last ns) (hp : p ∈ ns) (other : p ≠ last)
    (hn : d.above t n = some p) : n ∈ ns ∧ n ≠ first := by
  obtain ⟨c, hc, above, sole⟩ := h.exists_child hp other
  obtain rfl := sole.only t n hn
  exact ⟨hc, above⟩

/-- The first node comes above the last one, or is it. -/
theorem above_first (h : d.Chain first last ns) : last = first ∨ d.Above t last first := by
  induction h with
  | one => exact .inl rfl
  | more _ _ sole _ ih =>
    obtain rfl | above := ih
    · exact .inr (.parent (sole.parent t))
    · exact .inr (Above.trans (.parent (sole.parent t)) above)

/-- What holds the first node comes above the last one. -/
theorem above_parent (h : d.Chain first last ns) (hp : d.above t first = some p) :
    d.Above t last p := by
  obtain same | above := h.above_first (t := t)
  · rw [same]
    exact .parent hp
  · exact above.step hp

end Chain

section Chained

variable {d : Diff} {n p first last : Handle} {ns : List Handle} {chains chains' : List (List Handle)}

theorem Chained.perm (h : d.Chained chains) (same : chains.Perm chains') : d.Chained chains' :=
  ⟨same.flatten.nodup_iff.1 h.once, fun ns hns => h.chain ns (same.mem_iff.2 hns)⟩

theorem Chained.cons (h : d.Chained chains) (chain : d.Chain first last ns)
    (apart : ∀ n ∈ ns, n ∉ chains.flatten) : d.Chained (ns :: chains) where
  once := by
    rw [List.flatten_cons, List.nodup_append']
    exact ⟨chain.once, h.once, fun n hn other => apart n hn other⟩
  chain := List.forall_mem_cons.2 ⟨⟨first, last, chain⟩, h.chain⟩

theorem Chained.tail (h : d.Chained (ns :: chains)) : d.Chained chains where
  once := by
    have once := h.once
    rw [List.flatten_cons] at once
    exact (List.nodup_append.1 once).2.1
  chain := (List.forall_mem_cons.1 h.chain).2

/-- A chain has no node of another one. -/
theorem Chained.apart (h : d.Chained (ns :: chains)) : ∀ n ∈ ns, n ∉ chains.flatten := by
  have once := h.once
  rw [List.flatten_cons, List.nodup_append'] at once
  exact fun n hn other => once.2.2 hn other

end Chained

end Diff

namespace Simplification

open Diff

variable {d : Diff} {n : Handle}

/-- A chain may go on with the only child of a node. -/
theorem continuesChain_spec (hd : d.Regular) (hn : n < d.size) :
    ∃ b, continuesChain d n = .ok b ∧ (b = true ↔ ∃ p, d.Sole n p) := by
  have parent (t : Time) : d.above t n = (d.look n).parent.get t := above_look hn
  rw [continuesChain, node_look hn, Outcome.ok_bind]
  split
  · next p q before after =>
    by_cases same : p = q
    · subst same
      have above (t : Time) : d.above t n = some p := by
        rw [parent]
        cases t <;> assumption
      have inStore : p < d.size := hd.parent_lt (above .before)
      refine ⟨_, by rw [if_pos rfl, allChildren_eq inStore]; rfl, ?_⟩
      rw [beq_iff_eq, List.length_eq_one_iff]
      simp only [belowBoth_eq_singleton_iff hd]
      constructor
      · rintro ⟨c, lone⟩
        obtain rfl := lone.only _ _ (above .before)
        exact ⟨p, lone.sole above⟩
      · rintro ⟨q, sole⟩
        obtain rfl : p = q := Option.some.inj ((above .before).symm.trans (sole.parent _))
        exact ⟨n, sole.lone⟩
    · refine ⟨false, by rw [if_neg same]; rfl, fun h => (nomatch h), fun ⟨r, sole⟩ => absurd ?_ same⟩
      have up := (parent .before).symm.trans (sole.parent _)
      have up' := (parent .after).symm.trans (sole.parent _)
      exact Option.some.inj (before.symm.trans (up.trans (up'.symm.trans after)))
  · next apart =>
    refine ⟨false, rfl, fun h => (nomatch h), fun ⟨p, sole⟩ => ?_⟩
    have up (t : Time) := (parent t).symm.trans (sole.parent t)
    exact absurd (up .after) (apart p p (up .before))

/-- A chain ends at a node with which it goes on, but not past it. -/
theorem endsChain_spec (hd : d.Regular) (hn : n < d.size) :
    ∃ b, endsChain d n = .ok b ∧ (b = true ↔ (∃ p, d.Sole n p) ∧ ¬ d.Passes n) := by
  obtain ⟨b, answer, told⟩ := continuesChain_spec hd hn
  rw [endsChain, answer, Outcome.ok_bind]
  cases b with
  | false => exact ⟨false, rfl, fun h => (nomatch h), fun h => told.2 h.1⟩
  | true =>
    have child : ∀ c ∈ d.belowBoth n,
        (do return (← d.node c).change != .unchanged : Outcome Bool) =
          .ok ((d.look c).change != .unchanged) := by
      intro c hc
      rw [node_look (hd.lt_size_of_mem_belowBoth hc)]
      rfl
    refine ⟨_, by rw [if_pos rfl, allChildren_eq hn, Outcome.ok_bind, Outcome.mapM_eq_map child]; rfl,
      ?_⟩
    rw [← told, and_iff_right rfl, ← not_iff_not, not_not, Bool.not_eq_true, Bool.or_eq_false_iff]
    constructor
    · rintro ⟨unchanged, one⟩
      obtain ⟨c, only⟩ := List.length_eq_one_iff.1 (bne_eq_false_iff_eq.1 one)
      refine ⟨c, (belowBoth_eq_singleton_iff hd).1 only, ?_⟩
      simpa [only] using unchanged
    · rintro ⟨c, lone, unchanged⟩
      simp [(belowBoth_eq_singleton_iff hd).2 lone, unchanged]

theorem beginsChain_spec (hd : d.Regular) (hn : n < d.size) :
    ∃ b, beginsChain d n = .ok b ∧ (b = true ↔ d.Begins n) := by
  obtain ⟨continued, answer, only⟩ := continuesChain_spec hd hn
  obtain ⟨ends, ended, last⟩ := endsChain_spec hd hn
  have top {p : Handle} (sole : d.Sole n p) : (d.look n).parent.before = some p :=
    (above_look hn).symm.trans (sole.parent .before)
  rw [beginsChain, node_look hn, Outcome.ok_bind, answer, Outcome.ok_bind]
  split
  · next start =>
    refine ⟨!ends, by rw [ended]; rfl, ?_⟩
    rw [Bool.not_eq_true', ← Bool.not_eq_true, last]
    simp only [Bool.or_eq_true, Bool.not_eq_true', ← Bool.not_eq_true, only, beq_iff_eq] at start
    constructor
    · intro open_ p sole
      have below := start.resolve_left (not_not.2 ⟨p, sole⟩)
      exact ⟨Option.some.inj ((top sole).symm.trans below),
        by_contra fun shut => open_ ⟨⟨p, sole⟩, shut⟩⟩
    · rintro begins ⟨⟨p, sole⟩, shut⟩
      exact shut (begins p sole).2
  · next start =>
    simp only [Bool.or_eq_true, Bool.not_eq_true', ← Bool.not_eq_true, only, beq_iff_eq, not_or,
      not_not] at start
    obtain ⟨⟨p, sole⟩, other⟩ := start
    exact ⟨false, rfl, fun h => (nomatch h), fun begins =>
      absurd ((top sole).trans (congrArg some (begins p sole).1)) other⟩

end Simplification

end Variation
