import Variation.Proofs.Selection

/-!
# Counting the edited chains above a node

A chain is named by the condition that opens it. It counts for a node if some branch of it lies on the
way from the node to the root and is there at one time only. The walk meets the branches of a chain one
after the other, and it stops looking at a chain as soon as it has met such a branch: what is left of the
chain up to its condition cannot count a second time, and no other chain has a branch there.
-/

namespace Variation.Diff

/-- The chain that a condition opens has a branch on the way from a node to the root that is there at
that time only. -/
def EditedChain (d : Diff) (t : Time) (n o : Handle) : Prop :=
  ∃ b, (b = n ∨ d.Above t n b) ∧ (d.look b).change = Change.onlyAt t ∧ d.Opens t o b

section Opens

variable {d : Diff} {t : Time} {n p b o e : Handle}

theorem Earlier.above (h : d.Earlier t b e) : d.Above t b e := by
  induction h with
  | parent _ hp => exact .parent hp
  | step _ hp _ ih => exact (above_iff hp).2 (.inr ih)

theorem opens_self (kind : (d.look n).kind = .ifBranch) : d.Opens t n n := ⟨kind, .inl rfl⟩

/-- Only a branch belongs to a chain. -/
theorem Opens.kind (h : d.Opens t o b) : (d.look b).kind = .ifBranch ∨ d.continues b = true := by
  obtain ⟨kind, rfl | earlier⟩ := h
  · exact .inl kind
  · exact .inr earlier.continues

/-- A branch that continues another one belongs to the chain of that one. -/
theorem opens_iff_of_continues (hb : d.continues b = true) (hp : d.above t b = some p) :
    d.Opens t o b ↔ d.Opens t o p := by
  refine and_congr_right fun kind => ?_
  have other : o ≠ b := by
    rintro rfl
    rw [continues, kind] at hb
    cases hb
  rw [earlier_iff hb hp, or_iff_right other]

theorem opens_iff_of_ifBranch (kind : (d.look b).kind = .ifBranch) : d.Opens t o b ↔ o = b := by
  have body : d.continues b = false := by
    rw [continues, kind]
    rfl
  constructor
  · rintro ⟨-, rfl | earlier⟩
    · rfl
    · exact absurd earlier (not_earlier body)
  · rintro rfl
    exact opens_self kind

end Opens

section Edited

variable {d : Diff} {t : Time} {n p q b o o' : Handle}

/-- What is edited above the parent is edited above the node, and else only the chain of the node. -/
theorem editedChain_iff (hp : d.above t n = some p) : d.EditedChain t n o ↔
    ((d.look n).change = Change.onlyAt t ∧ d.Opens t o n) ∨ d.EditedChain t p o := by
  constructor
  · rintro ⟨b, rfl | above, edited, opens⟩
    · exact .inl ⟨edited, opens⟩
    · exact .inr ⟨b, (above_iff hp).1 above, edited, opens⟩
  · rintro (⟨edited, opens⟩ | ⟨b, above, edited, opens⟩)
    · exact ⟨n, .inl rfl, edited, opens⟩
    · exact ⟨b, .inr ((above_iff hp).2 above), edited, opens⟩

/-- An edited condition counts for the chain that it opens. -/
theorem editedChain_of_opens (hp : d.above t n = some p) (edited : (d.look n).change = Change.onlyAt t)
    (opens : (d.look n).kind = .ifBranch) :
    d.EditedChain t n o ↔ o = n ∨ d.EditedChain t p o := by
  rw [editedChain_iff hp, opens_iff_of_ifBranch opens, and_iff_right edited]

/-- A node that is no edited branch does not count. -/
theorem editedChain_of_passes (hp : d.above t n = some p)
    (continues : ¬ ((d.look n).change = Change.onlyAt t ∧ d.continues n = true))
    (opens : ¬ ((d.look n).change = Change.onlyAt t ∧ (d.look n).kind = .ifBranch)) :
    d.EditedChain t n o ↔ d.EditedChain t p o := by
  rw [editedChain_iff hp, or_iff_right]
  rintro ⟨edited, here⟩
  exact here.kind.elim (fun kind => opens ⟨edited, kind⟩) fun continued => continues ⟨edited, continued⟩

/-- A chain that is edited above a node is opened at or above the node. -/
theorem EditedChain.above (h : d.EditedChain t n o) : o = n ∨ d.Above t n o := by
  obtain ⟨b, rfl | above, -, -, rfl | earlier⟩ := h
  · exact .inl rfl
  · exact .inr earlier.above
  · exact .inr above
  · exact .inr (above.trans earlier.above)

end Edited

/-! ## The walk to the root -/

section Walk

variable {d : Diff} {t : Time} {n p asked : Handle} {ms : List Handle} {s : Nat}
variable (top : d.kindOf Diff.root = some .root) (sound : d.Sound)

include top sound

theorem Descends.parentAt_eq (h : d.Descends t n) (hp : d.above t n = some p) :
    d.parentAt n t = .ok p := by
  obtain ⟨hn, law⟩ := h.law sound
  have other := h.kind_ne_root top sound hp
  rw [above_look hn] at hp
  have there : (d.look n).existsAt t = true := by
    rw [← law.arity other t, hp]
    rfl
  rw [parentAt, node_look hn, Outcome.ok_bind, there, hp]
  rfl

/-- Nothing is edited above the root. -/
theorem not_editedChain_root {o : Handle} : ¬ d.EditedChain t root o := by
  rintro ⟨b, rfl | above, -, opens⟩
  · have kind := opens.kind
    rw [continues, look_root_of_sound top sound] at kind
    obtain kind | kind := kind <;> cases kind
  · obtain ⟨p, hp, -⟩ := above.cases_head
    exact ne_root_of_above top sound hp rfl

/-- The walk up a chain finds the only condition that opens it. Above that condition the other edited
chains are found. -/
theorem nearestIfWithin_spec (asked : Handle) (way : d.Way t n ms) (h : d.Descends t n)
    (conditional : (d.look n).kind.isConditional = true) (enough : ms.length < s) :
    ∃ o q ks, d.nearestIfWithin t asked s n = .ok (some o) ∧ (∀ o', d.Opens t o' n ↔ o' = o) ∧
      d.Descends t o ∧ d.above t o = some q ∧ d.Way t q ks ∧ ks.length < ms.length ∧
      (∀ o', d.EditedChain t n o' → o' = o ∨ d.EditedChain t q o') ∧
      ∀ o', d.EditedChain t q o' → d.EditedChain t n o' := by
  induction way generalizing s with
  | root =>
    rw [look_root_of_sound top sound] at conditional
    cases conditional
  | @step n p ms hp up ih =>
    obtain ⟨hn, -⟩ := h.law sound
    obtain ⟨s, rfl⟩ : ∃ k, s = k + 1 := ⟨s - 1, by omega⟩
    rw [List.length_cons] at enough
    rw [nearestIfWithin, node_look hn, Outcome.ok_bind]
    by_cases opens : (d.look n).kind = .ifBranch
    · refine ⟨n, p, ms, by rw [if_pos opens]; rfl, fun o' => opens_iff_of_ifBranch opens, h, hp, up,
        Nat.lt_succ_self _, fun o' edited => ?_, fun o' edited => (editedChain_iff hp).2 (.inr edited)⟩
      exact ((editedChain_iff hp).1 edited).imp_left fun here => (opens_iff_of_ifBranch opens).1 here.2
    · have continuation : (d.look n).kind = .elifBranch := by
        revert conditional opens
        cases (d.look n).kind <;> simp [Kind.isConditional]
      have continued : d.continues n = true := by rw [continues, continuation]; rfl
      have hq := (h.parent top sound hp).1
      obtain ⟨o, q, ks, run, only, ho, hoq, way, short, fewer, more⟩ :=
        ih hq (h.isConditional sound hp continued) (s := s) (by omega)
      refine ⟨o, q, ks, ?_, fun o' => (opens_iff_of_continues continued hp).trans (only o'), ho, hoq,
        way, Nat.lt_succ_of_lt short, fun o' edited => ?_,
        fun o' edited => (editedChain_iff hp).2 (.inr (more o' edited))⟩
      · rw [if_neg opens, if_neg (by rw [continuation]; decide), h.parentAt_eq top sound hp]
        exact run
      · obtain ⟨-, here⟩ | edited := (editedChain_iff hp).1 edited
        · exact .inl ((only o').1 ((opens_iff_of_continues continued hp).1 here))
        · exact fewer o' edited

/-- From an edited branch that continues a chain the walk goes on above the condition that opens the
chain. -/
theorem Descends.exists_opener (h : d.Descends t n) (hp : d.above t n = some p) (up : d.Way t p ms)
    (edited : (d.look n).change = Change.onlyAt t) (continued : d.continues n = true) :
    ∃ o q ks, d.nearestIf p t = .ok (some o) ∧ d.Descends t o ∧ d.above t o = some q ∧
      d.Way t q ks ∧ ks.length < ms.length ∧
      ∀ o', d.EditedChain t n o' ↔ o' = o ∨ d.EditedChain t q o' := by
  have few := length_way_lt top sound up
  obtain ⟨o, q, ks, nearest, only, ho, hoq, way, short, fewer, more⟩ :=
    nearestIfWithin_spec top sound p up (h.parent top sound hp).1
      (h.isConditional sound hp continued) (s := d.size + 1) (by omega)
  have opens (o' : Handle) : d.Opens t o' n ↔ o' = o :=
    (opens_iff_of_continues continued hp).trans (only o')
  refine ⟨o, q, ks, nearest, ho, hoq, way, short, fun o' => ?_⟩
  rw [editedChain_iff hp, opens, and_iff_right edited]
  exact ⟨fun chain => chain.elim .inl (fewer o'), fun chain => chain.imp_right (more o')⟩

/-- A chain counts in addition to those that are edited above its condition. -/
theorem Descends.counts_cons {o q : Handle} {os : List Handle} (ho : d.Descends t o)
    (hoq : d.above t o = some q) (once : os.Nodup) (listed : ∀ o, o ∈ os ↔ d.EditedChain t q o)
    (more : ∀ o', d.EditedChain t n o' ↔ o' = o ∨ d.EditedChain t q o') :
    (o :: os).Nodup ∧ ∀ o', o' ∈ o :: os ↔ d.EditedChain t n o' := by
  have new : o ∉ os := fun mem =>
    ho.not_above top sound ((above_iff hoq).2 ((listed o).1 mem).above)
  refine ⟨List.nodup_cons.2 ⟨new, once⟩, fun o' => ?_⟩
  rw [List.mem_cons, listed, more]

/-- The walk adds the number of edited chains to what was found before. -/
theorem changedAnnotationsWithin_spec (way : d.Way t n ms) (h : d.Descends t n)
    (enough : ms.length < s) (found : Nat) : ∃ os : List Handle, os.Nodup ∧
      (∀ o, o ∈ os ↔ d.EditedChain t n o) ∧
      d.changedAnnotationsWithin t asked s found n = .ok (found + os.length) := by
  generalize length : ms.length = k at enough
  induction k using Nat.strong_induction_on generalizing n ms s found with
  | _ k ih =>
    obtain ⟨hn, -⟩ := h.law sound
    obtain ⟨s, rfl⟩ : ∃ k, s = k + 1 := ⟨s - 1, by omega⟩
    rw [changedAnnotationsWithin, node_look hn, Outcome.ok_bind]
    cases way with
    | root =>
      refine ⟨[], List.nodup_nil, fun o => ?_, by rw [if_pos (look_root_of_sound top sound)]; rfl⟩
      exact iff_of_false List.not_mem_nil (not_editedChain_root top sound)
    | @step _ p ms hp up =>
      have hq := (h.parent top sound hp).1
      rw [List.length_cons] at length
      rw [if_neg (h.kind_ne_root top sound hp), h.parentAt_eq top sound hp]
      by_cases continues : (d.look n).change = Change.onlyAt t ∧
        (d.look n).kind.isContinuation = true
      · -- the rest of the chain is skipped
        obtain ⟨o, q, ks, nearest, ho, hoq, up, short, more⟩ :=
          h.exists_opener top sound hp up continues.1 continues.2
        obtain ⟨os, once, listed, run⟩ :=
          ih ks.length (by omega) up (ho.parent top sound hoq).1 (s := s) (found + 1) rfl (by omega)
        obtain ⟨once, listed⟩ := ho.counts_cons top sound hoq once listed more
        refine ⟨o :: os, once, listed, ?_⟩
        rw [if_pos continues, Outcome.ok_bind, nearest, Outcome.ok_bind]
        dsimp only
        rw [ho.parentAt_eq top sound hoq, Outcome.ok_bind, run, List.length_cons, Nat.add_assoc,
          Nat.add_comm 1]
      · rw [if_neg continues, Outcome.ok_bind]
        by_cases opens : (d.look n).change = Change.onlyAt t ∧ (d.look n).kind = .ifBranch
        · obtain ⟨os, once, listed, run⟩ :=
            ih ms.length (by omega) up hq (s := s) (found + 1) rfl (by omega)
          obtain ⟨once, listed⟩ := h.counts_cons top sound hp once listed fun o =>
            editedChain_of_opens hp opens.1 opens.2
          refine ⟨n :: os, once, listed, ?_⟩
          rw [if_pos opens, run, List.length_cons, Nat.add_assoc, Nat.add_comm 1]
        · obtain ⟨os, once, listed, run⟩ :=
            ih ms.length (by omega) up hq (s := s) found rfl (by omega)
          refine ⟨os, once, fun o => ?_, by rw [if_neg opens, run]⟩
          rw [listed, editedChain_of_passes hp continues opens]

end Walk

/-- The number of changed annotations counts edited chains: for a node of the tree of a sound diff at a
time, the count is given, and it is the number of chains that have a branch on the way from the node,
itself included, to the root that is there at that time only. -/
theorem changedAnnotations_spec {d : Diff} (top : d.kindOf root = some .root) (sound : d.Sound)
    {t : Time} {n : Handle} (h : d.Descends t n) : ∃ os : List Handle, os.Nodup ∧
      (∀ o, o ∈ os ↔ d.EditedChain t n o) ∧ d.changedAnnotations n t = .ok os.length := by
  obtain ⟨ms, way, few⟩ := h.exists_way top sound
  obtain ⟨os, once, listed, run⟩ :=
    changedAnnotationsWithin_spec top sound way h (s := d.size + 1) (by omega) 0
  rw [Nat.zero_add] at run
  exact ⟨os, once, listed, run⟩

/-- A new condition in a new branch of an old chain: both chains count, the old one because of that
branch. -/
theorem changedAnnotations_spec_two : ∃ d,
    Reading.diff " #if A\n-x\n+#elif B\n+#if C\n+y\n+#endif\n #endif\n" {} .unknown .preprocessor =
      .ok d ∧
    d.kindOf root = some .root ∧ d.Sound ∧ d.Descends .after 5 ∧
    d.changedAnnotations 5 .after = .ok 2 ∧
    ∃ os : List Handle, os.Nodup ∧ (∀ o, o ∈ os ↔ d.EditedChain .after 5 o) ∧ os.length = 2 := by
  have run : (do
      let d ← Reading.diff " #if A\n-x\n+#elif B\n+#if C\n+y\n+#endif\n #endif\n" {} .unknown
        .preprocessor
      let count ← d.changedAnnotations 5 .after
      return ([d.below .after 0, d.below .after 1, d.below .after 3, d.below .after 4], count) :
        Outcome _).toOption = some ([[1], [3], [4], [5]], 2) := by
    decide +kernel
  obtain ⟨d, read, rest⟩ := Outcome.bind_eq_ok_iff.1 (Outcome.eq_ok_of_toOption run)
  obtain ⟨count, counted, rest⟩ := Outcome.bind_eq_ok_iff.1 rest
  simp only [Outcome.pure_eq_ok_iff, Prod.mk.injEq, List.cons.injEq, and_true] at rest
  obtain ⟨⟨first, second, third, last⟩, rfl⟩ := rest
  have descends : d.Descends .after 5 :=
    (((Descends.root.child (first ▸ by decide : 1 ∈ d.below .after 0)).child
      (second ▸ by decide : 3 ∈ d.below .after 1)).child
        (third ▸ by decide : 4 ∈ d.below .after 3)).child (last ▸ by decide : 5 ∈ d.below .after 4)
  obtain ⟨top, sound, -⟩ := readable_ofLines read
  obtain ⟨os, once, listed, counted'⟩ := changedAnnotations_spec top sound descends
  exact ⟨d, read, top, sound, descends, counted, os, once, listed,
    (Except.ok.inj (counted.symm.trans counted')).symm⟩

end Variation.Diff
