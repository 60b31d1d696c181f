import Variation.Proofs.Shape
import Variation.Proofs.Idle
import Mathlib.Logic.Relation

/-!
# What a cut leaves

A node stays if something at or below it, along edges of either time, hangs at different places before
and after the edit. Edges of both times together may go round in circles. But below a node where
nothing is displaced the edges of both times are the same, and those of one time make a tree, so an
induction on this tree says that such a node is idle. The main statement says what is left after a
cut, in which order it hangs, and that a second cut changes nothing.
-/

namespace Variation

namespace Diff

/-- A node comes at or below another one, along edges of either time. -/
def Covers (d : Diff) : Handle → Handle → Prop :=
  Relation.ReflTransGen fun p c => ∃ t, c ∈ d.below t p

/-- A node has different parents before and after the edit. -/
def Displaced (d : Diff) (n : Handle) : Prop := d.above .before n ≠ d.above .after n

section Covers

variable {d d' : Diff} {n m c p : Handle} {t : Time} {f : Forest Handle} {gone : Handle → Prop}

theorem Covers.child (h : d.Covers n p) (hc : c ∈ d.below t p) : d.Covers n c :=
  h.tail ⟨t, hc⟩

/-- Below an idle node all is idle. -/
theorem Idle.covers (hd : d.Symmetric) (idle : d.Idle n) (h : d.Covers n m) : d.Idle m := by
  induction h with
  | refl => exact idle
  | tail _ edge ih => exact edge.elim fun _ hc => ih.child (hd.above_of_mem hc)

theorem Idle.not_displaced (idle : d.Idle n) : ¬ d.Displaced n := by
  obtain ⟨parent, -⟩ := idle
  exact fun moved => moved ((parent .before).trans (parent .after).symm)

/-- A node that is not displaced has its parent at both times. -/
theorem parent_of_not_displaced (h : ¬ d.Displaced n) (hp : d.above t n = some p) (u : Time) :
    d.above u n = some p := by
  have same := not_not.1 h
  cases t <;> cases u
  · exact hp
  · exact same ▸ hp
  · exact same ▸ hp
  · exact hp

/-- Where nothing is displaced, the tree before the edit consists of idle nodes. -/
theorem Spans.idle (hd : d.Symmetric) (h : d.Spans .before f)
    (hf : ∀ a ∈ f.roots, d.Covers n a ∧ ∃ p, d.above .before a = some p)
    (calm : ∀ m, d.Covers n m → ¬ d.Displaced m) : ∀ m ∈ f.flatten, d.Idle m := by
  induction f with
  | nil => exact fun m hm => absurd hm List.not_mem_nil
  | cons a below rest ihb ihr =>
    obtain ⟨-, ha, hb, hr⟩ := h
    obtain ⟨⟨here, p, hp⟩, hf⟩ := List.forall_mem_cons.1 hf
    have children : ∀ c ∈ below.roots, d.Covers n c ∧ ∃ p, d.above .before c = some p := by
      intro c hc
      have hc : c ∈ d.below .before a := ha ▸ hc
      exact ⟨here.child hc, a, hd.above_of_mem hc⟩
    have inner := ihb hb children
    refine List.forall_mem_cons.2 ⟨?_, List.forall_mem_append.2 ⟨inner, ihr hr hf⟩⟩
    refine .intro (parent_of_not_displaced (calm a here) hp) fun t c hc => inner c ?_
    -- a child after the edit is one before the edit, where the tree has it
    have covered := here.child (hd.mem_of_above hc)
    have before := hd.mem_of_above (parent_of_not_displaced (calm c covered) hc .before)
    exact Forest.mem_flatten_of_mem_roots (ha ▸ before)

/-- A node below the root is idle exactly if nothing at or below it is displaced. -/
theorem idle_iff_calm (hd : d.Regular) (sound : d.Sound) (hn : d.Reaches n) (other : n ≠ root) :
    d.Idle n ↔ ∀ m, d.Covers n m → ¬ d.Displaced m := by
  refine ⟨fun idle m h => (idle.covers hd.toSymmetric h).not_displaced, fun calm => ?_⟩
  obtain ⟨t, p, hp⟩ := hn.exists_above hd other
  have parent := parent_of_not_displaced (calm n .refl) hp .before
  obtain ⟨fits, up⟩ := (sound_iff_fits hd).1 sound n hn
  have kind : (d.look n).kind ≠ .root := fun kind => by
    rw [fits.root kind] at parent
    cases parent
  have there : (d.look n).existsAt .before = true := by
    rw [← fits.arity kind, parent]
    rfl
  obtain ⟨f, hf, spans⟩ :=
    exists_spans hd.toSymmetric ((up .before there).ends (root_free hd.root sound .before))
  have tree : d.Spans .before (.cons n f .nil) := ⟨hn.lt_size hd, hf, spans, trivial⟩
  exact tree.idle hd.toSymmetric (List.forall_mem_singleton.2 ⟨.refl, p, parent⟩) calm n
    List.mem_cons_self

/-- What was added or removed is displaced. -/
theorem displaced_of_changed (hd : d.Regular) (sound : d.Sound) (hn : d.Reaches n) (other : n ≠ root)
    (changed : (d.look n).change ≠ .unchanged) : d.Displaced n := by
  intro same
  obtain ⟨t, p, hp⟩ := hn.exists_above hd other
  have parents := parent_of_not_displaced (not_not.2 same) hp
  have fits := ((sound_iff_fits hd).1 sound n hn).1
  exact changed (fits.unchanged fun u => by rw [parents u]; rfl)

end Covers

open scoped Classical in
/-- What is left of the children of a node are those that are reached still. -/
theorem Drops.below_eq_filter {d d' : Diff} {n : Handle} {gone : Handle → Prop}
    (h : d.Drops d' gone) (hd : d.Regular) (hn : d'.Reaches n) (t : Time) :
    d'.below t n = (d.below t n).filter fun c => decide (d'.Reaches c) := by
  have hd' := h.trims.regular
  have stay : ∀ c ∈ d'.below t n, d'.Reaches c := fun c hc => hn.child hc
  have kept : (d'.below t n).filter (fun c => decide (d'.Reaches c)) = d'.below t n :=
    List.filter_eq_self.2 fun c hc => decide_eq_true (stay c hc)
  have sub := (h.order n t).filter fun c => decide (d'.Reaches c)
  rw [kept] at sub
  refine sub.eq_of_length_le (List.Nodup.subperm ((hd.once t n).filter _) fun c hc => ?_).length_le
  rw [List.mem_filter, decide_eq_true_eq] at hc
  obtain ⟨hc, reached⟩ := hc
  refine hd'.mem_of_above ?_
  rw [h.trims.above c reached, hd.above_of_mem hc]

end Diff

namespace Simplification

open Diff

variable {d : Diff}

open scoped Classical in
/-- A cut leaves the root and what has something displaced at or below it, added and removed nodes
among them. What is left hangs in its order, and a second cut changes nothing. -/
theorem cut_leaves (hd : d.Regular) (sound : d.Sound) :
    ∃ d', cut.run.run d = .ok () d' ∧ d'.Regular ∧ d'.Sound ∧
      (∀ n, d'.payload n = d.payload n) ∧
      (∀ n, d'.Reaches n ↔
        d.Reaches n ∧ (n = root ∨ ∃ m, d.Covers n m ∧ d.Displaced m)) ∧
      (∀ n, d.Reaches n → n ≠ root → (d.look n).change ≠ .unchanged → d.Displaced n) ∧
      (∀ n, d'.Reaches n → ∀ t, d'.above t n = d.above t n ∧
        d'.below t n = (d.below t n).filter fun c => decide (d'.Reaches c)) ∧
      cut.run.run d' = .ok () d' := by
  obtain ⟨d', gone, run, drops, stays⟩ := run_cut_drops hd sound
  have trims := drops.trims
  have left (n : Handle) : d'.Reaches n ↔
      d.Reaches n ∧ (n = root ∨ ∃ m, d.Covers n m ∧ d.Displaced m) := by
    refine ⟨fun h => ⟨trims.reaches n h, or_iff_not_imp_left.2 fun other => ?_⟩, ?_⟩
    · have hn := trims.reaches n h
      by_contra! calm
      exact (stays n hn).1 h ((idle_iff_calm hd sound hn other).2 calm)
    · rintro ⟨hn, rfl | ⟨m, covered, moved⟩⟩
      · exact .root
      · exact (stays n hn).2 fun idle =>
          (idle.covers hd.toSymmetric covered).not_displaced moved
  exact ⟨d', run, trims.regular, trims.sound, trims.payload, left,
    fun n hn other => displaced_of_changed hd sound hn other,
    fun n hn t => ⟨trims.above n hn t, drops.below_eq_filter hd hn t⟩,
    cut_of_pruned trims.regular (pruned_of_cut hd trims stays)⟩

open scoped Classical in
/-- An unchanged annotation stays for the line that is added in it, an unchanged line for its two
parents; the unchanged lines beside them are cut. -/
theorem cut_leaves_moved : ∃ d d',
    Reading.diff " a\n #if A\n b\n+y\n #endif\n-#if B\n+#if C\n x\n #endif\n" {} .unknown
      .preprocessor = .ok d ∧
    d.Regular ∧ d.Sound ∧ d.preorder = .ok [root, 1, 2, 3, 4, 5, 7, 6] ∧
    cut.run.run d = .ok () d' ∧ d'.Regular ∧ d'.Sound ∧ d'.preorder = .ok [root, 2, 4, 5, 7, 6] ∧
    d.below .after root = [1, 2, 6] ∧ d'.below .after root = [2, 6] ∧
    (∃ m, d.Covers 2 m ∧ d.Displaced m) ∧ ¬ (∃ m, d.Covers 1 m ∧ d.Displaced m) ∧
    d'.below .after 2 = (d.below .after 2).filter (fun c => decide (d'.Reaches c)) ∧
    cut.run.run d' = .ok () d' := by
  have run : (do
      let d ← Reading.diff " a\n #if A\n b\n+y\n #endif\n-#if B\n+#if C\n x\n #endif\n" {} .unknown
        .preprocessor
      match cut.run.run d with
      | .ok _ d' =>
        return (← d.preorder, ← d'.preorder, d.below .after root, d'.below .after root)
      | .error e _ => throw e : Outcome _).toOption =
        some ([root, 1, 2, 3, 4, 5, 7, 6], [root, 2, 4, 5, 7, 6], [1, 2, 6], [2, 6]) := by
    decide +kernel
  obtain ⟨d, read, rest⟩ := Outcome.bind_eq_ok_iff.1 (Outcome.eq_ok_of_toOption run)
  have hd : d.Regular := (Diff.Handled.read read).regular
  obtain ⟨-, sound, -⟩ := readable_ofLines read
  obtain ⟨d', done, hd', sound', -, left, -, order, again⟩ := cut_leaves hd sound
  rw [done] at rest
  obtain ⟨ns, walk, rest⟩ := Outcome.bind_eq_ok_iff.1 rest
  obtain ⟨ns', walk', rest⟩ := Outcome.bind_eq_ok_iff.1 rest
  simp only [pure, Except.pure, Except.ok.injEq, Prod.mk.injEq] at rest
  obtain ⟨rfl, rfl, before, after⟩ := rest
  obtain ⟨ms, walked, -, reached⟩ := preorder_spec hd
  obtain rfl := Except.ok.inj (walk.symm.trans walked)
  obtain ⟨ms', walked', -, reached'⟩ := preorder_spec hd'
  obtain rfl := Except.ok.inj (walk'.symm.trans walked')
  have annotation : d'.Reaches 2 := (reached' 2).1 (by decide)
  refine ⟨d, d', read, hd, sound, walk, done, hd', sound', walk', before, after, ?_, fun line => ?_,
    (order 2 annotation .after).2, again⟩
  · exact ((left 2).1 annotation).2.resolve_left (by decide)
  · have gone : (1 : Handle) ∈ [root, 2, 4, 5, 7, 6] :=
      (reached' 1).2 ((left 1).2 ⟨(reached 1).1 (by decide), .inr line⟩)
    exact absurd gone (by decide)

end Simplification

end Variation
