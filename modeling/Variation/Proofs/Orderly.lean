import Variation.Proofs.Alone
import Variation.Proofs.Shape

/-!
# What is read is in order

Reading never needs the consistency test at its end. A node hangs below a node that was read before
it and is there at the same time, so the parents of every node lead to the root; a branch is only
added below a branch that it may continue. Both are kept by every step, whatever is read.
-/

namespace Variation

namespace Diff

/-- Every node of the store is in order: the root is there at both times and hangs nowhere, the
parents of a node are older and there at the time of the edge, a node has a parent at each time at
which it is there, a branch hangs below a condition, and exactly the conditional kinds carry a
formula. -/
structure Orderly (d : Diff) : Prop extends Regular d where
  top : ∀ t, d.lives t Diff.root = true
  free : ∀ t, d.above t Diff.root = none
  older : ∀ t n p, d.above t n = some p → p < n ∧ d.lives t p = true
  hung : ∀ t n, n ≠ Diff.root → d.lives t n = true → ∃ p, d.above t n = some p
  kind : ∀ n, n < d.size → n ≠ Diff.root → (d.look n).kind ≠ .root
  branch : ∀ t n p, d.above t n = some p → (d.look n).kind.isContinuation = true →
    (d.look p).kind.isConditional = true
  formula : ∀ n, n < d.size → (d.look n).formula.isSome = (d.look n).kind.isConditional

namespace Orderly

variable {d d' : Diff} {t : Time} {n p : Handle}

theorem ascends (h : d.Orderly) (there : d.lives t n = true) : d.Ascends t n := by
  induction n using Nat.strongRecOn with
  | _ n ih =>
    by_cases hn : n = Diff.root
    · rw [hn]
      exact .root
    · obtain ⟨p, hp⟩ := h.hung t n hn there
      obtain ⟨older, present⟩ := h.older t n p hp
      exact .step hp (ih p older present)

/-- All of what is in order hangs below the root. -/
theorem reaches (h : d.Orderly) (hn : n < d.size) : d.Reaches n := by
  have there : ∃ t, d.lives t n = true := by
    obtain there | there := (d.look n).change.existsAt_or
    · exact ⟨.before, by rw [lives_look hn]; exact there⟩
    · exact ⟨.after, by rw [lives_look hn]; exact there⟩
  obtain ⟨t, there⟩ := there
  exact (h.ascends there).reaches h.toRegular

theorem eq_root (h : d.Orderly) (hn : n < d.size) (hk : (d.look n).kind = .root) :
    n = Diff.root := by
  by_contra other
  exact h.kind n hn other hk

/-- What is in order is sound. -/
theorem sound (h : d.Orderly) : d.Sound := by
  intro n hn
  have inStore := hn.lt_size h.toRegular
  have edge (t) (p) (hp : (d.look n).parent.get t = some p) : d.above t n = some p := by
    rw [above_look inStore, hp]
  refine ⟨d.look n, getElem?_look inStore, ⟨fun t c hc => ?_, fun t p hp => ?_, fun hk t => ?_,
    fun hk t => ?_, fun p hp => ?_, fun t p hp => ?_, fun t p hp hc => ?_, h.formula n inStore⟩,
    fun t ht => ?_⟩
  · exact h.above_of_mem (below_look inStore ▸ hc)
  · exact h.mem_of_above (edge t p hp)
  · have same := h.eq_root inStore hk
    rw [← above_look inStore, same]
    exact h.free t
  · have other := ne_root_of_kind h.toRegular rfl hk
    rw [← above_look inStore, ← lives_look inStore, Bool.eq_iff_iff, Option.isSome_iff_exists]
    constructor
    · rintro ⟨p, hp⟩
      exact h.lives t n p hp
    · intro there
      exact h.hung t n other there
  · have present (t) : d.lives t p = true := (h.older t n p (edge t p (hp t))).2
    have size := lt_size_of_lives (present .before)
    exact ⟨d.look p, getElem?_look size, (unchanged_iff size).2 present⟩
  · exact (h.older t n p (edge t p hp)).2
  · have hp := edge t p hp
    exact ⟨d.look p, getElem?_look (h.parent_lt hp), h.branch t n p hp hc⟩
  · apply h.ascends
    rw [lives_look inStore, ht]

theorem accepted (h : d.Orderly) : d.checkConsistency = .ok () := h.sound.accepted h.toRegular

/-- Order does not depend on ends and closing lines. -/
theorem alike (h : d.Orderly) (same : Alike d d') : d'.Orderly := by
  have symmetric : d'.Symmetric := h.toSymmetric.of_same (fun _ _ => same.below)
    (fun _ _ => same.above) fun _ _ _ _ hl => by rw [same.lives, hl]
  have store : Diff.root < d'.size := by
    rw [same.size]
    exact h.root_lt
  refine ⟨⟨symmetric, ?_⟩, fun t => ?_, fun t => ?_, fun t n p hp => ?_, fun t n hn there => ?_,
    fun n hn other => ?_, fun t n p hp hc => ?_, fun n hn => ?_⟩
  · rw [kindOf, getElem?_look store, Option.map_some, same.kind, look_root_kind h.toRegular]
  · rw [same.lives]
    exact h.top t
  · rw [same.above]
    exact h.free t
  · rw [same.above] at hp
    rw [same.lives]
    exact h.older t n p hp
  · rw [same.lives] at there
    rw [same.above]
    exact h.hung t n hn there
  · rw [same.size] at hn
    rw [same.kind]
    exact h.kind n hn other
  · rw [same.above] at hp
    rw [same.kind] at hc ⊢
    exact h.branch t n p hp hc
  · rw [same.size] at hn
    rw [same.kind, same.formula]
    exact h.formula n hn

/-- The diff that has only a root is in order. -/
theorem empty (s : Source) : (Diff.empty s).Orderly := by
  have only (n : Handle) (hn : n < (Diff.empty s).size) : n = Diff.root := Nat.lt_one_iff.1 hn
  have free (t : Time) (n : Handle) : (Diff.empty s).above t n = none := by
    by_cases hn : n < (Diff.empty s).size
    · rw [only n hn]
      cases t <;> rfl
    · exact above_eq_none hn
  refine ⟨.empty s, fun t => by cases t <;> rfl, fun t => free t _, fun t n p hp => ?_,
    fun t n hn there => ?_, fun n hn other => ?_, fun t n p hp => ?_, fun n hn => ?_⟩
  · rw [free] at hp
    cases hp
  · exact absurd (only n (lt_size_of_lives there)) hn
  · exact absurd (only n hn) other
  · rw [free] at hp
    cases hp
  · rw [only n hn]
    rfl

end Orderly

/-- The nest in which nothing but the root is open is the tree of the diff. -/
theorem Holds.exists_shape {d : Diff} {t : Time} {n : Nest Handle} (h : d.Holds t n)
    (few : n.opened.length ≤ 1) : ∃ f, n = .base root f ∧ d.Shape t f := by
  obtain ⟨f, hn⟩ := Nest.eq_base few
  rw [h.bottom] at hn
  subst hn
  obtain ⟨-, below, spans⟩ := h.linked
  rw [List.append_nil] at below
  exact ⟨f, rfl, below, spans, h.once⟩

end Diff

namespace Reading.Outline

open Diff

variable {o o' : Outline} {x : Node} {tops : Time → Handle} {t : Time} {a n : Handle}

theorem formula_pushed : ((o.pushed tops x).diff.look a).formula =
    if a = o.diff.size then x.formula else (o.diff.look a).formula := by
  show ((o.pushed tops x).diff.payload a).formula = _
  rw [payload_pushed]
  split <;> rfl

theorem lives_pushed : (o.pushed tops x).diff.lives t a =
    if a = o.diff.size then x.change.existsAt t else o.diff.lives t a := by
  rw [pushed, lives_linkAll, lives, getElem?_append]
  split <;> rfl

theorem above_pushed (hx : ∀ t, x.parent.get t = none) : (o.pushed tops x).diff.above t a =
    if x.change.existsAt t = true ∧ a = o.diff.size then some (tops t)
    else o.diff.above t a := by
  have new : o.diff.size < (o.diff.append x).size := by
    rw [size_append]
    exact Nat.lt_succ_self _
  rw [pushed, above_linkAll new, above_append hx]
  simp only [Change.mem_times]

/-- An outline is in order: so is its diff, and what is open at a time is there and is the root or a
branch. -/
structure Neat (o : Outline) : Prop where
  orderly : o.diff.Orderly
  lives : ∀ t, ∀ n ∈ o.opened.get t, o.diff.lives t n = true
  branch : ∀ t, ∀ n ∈ o.opened.get t, n ≠ root → (o.diff.look n).kind ≠ .elseBranch →
    (o.diff.look n).kind.isConditional = true

theorem Grows.regular (h : o.Grows x o' tops) (order : o.diff.Orderly)
    (hc : ∀ t, x.children.get t = []) (hp : ∀ t, x.parent.get t = none) :
    (o.pushed tops x).diff.Regular := by
  have bigger (n : Handle) (hn : n < o.diff.size) : n < (o.diff.append x).size := by
    rw [size_append]
    exact Nat.lt_succ_of_lt hn
  refine (order.append hc hp).linkAll (nodup_times _) ?_ (fun t => bigger _ (h.inStore t))
    (fun t ht => ?_) fun t _ => ?_
  · rw [size_append]
    exact Nat.lt_succ_self _
  · rw [Diff.lives, getElem?_append, if_pos rfl]
    exact Change.mem_times.1 ht
  · rw [above_append hp]
    exact above_eq_none (Nat.lt_irrefl _)

theorem Grows.orderly (h : o.Grows x o' tops) (neat : o.Neat) (hc : ∀ t, x.children.get t = [])
    (hp : ∀ t, x.parent.get t = none) : o'.diff.Orderly := by
  obtain rfl := h.result
  have order := neat.orderly
  have top (t : Time) : tops t ∈ o.opened.get t := List.mem_of_mem_head? (h.head t)
  have rootOld : Diff.root ≠ o.diff.size := Nat.ne_of_lt order.root_lt
  refine ⟨h.regular order hc hp, fun t => ?_, fun t => ?_, fun t n p hn => ?_, fun t n hn there => ?_,
    fun n hn other => ?_, fun t n p hn continuation => ?_, fun n hn => ?_⟩
  · rw [lives_pushed, if_neg rootOld]
    exact order.top t
  · rw [above_pushed hp, if_neg fun e => rootOld e.2]
    exact order.free t
  · rw [above_pushed hp] at hn
    rw [lives_pushed]
    split at hn
    · next new =>
      cases hn
      rw [if_neg (Nat.ne_of_lt (h.inStore t)), new.2]
      exact ⟨h.inStore t, neat.lives t _ (top t)⟩
    · have old := order.older t n p hn
      rw [if_neg (Nat.ne_of_lt (lt_size_of_lives old.2))]
      exact old
  · rw [lives_pushed] at there
    rw [above_pushed hp]
    split at there
    · next new => exact ⟨tops t, if_pos ⟨there, new⟩⟩
    · next old =>
      rw [if_neg fun e => old e.2]
      exact order.hung t n hn there
  · rw [kind_pushed]
    split
    · exact h.kind
    · next old =>
      rw [size_pushed] at hn
      exact order.kind n (Nat.lt_of_le_of_ne (Nat.le_of_lt_succ hn) old) other
  · rw [above_pushed hp] at hn
    rw [kind_pushed] at continuation ⊢
    split at hn
    · next new =>
      cases hn
      rw [if_pos new.2] at continuation
      rw [if_neg (Nat.ne_of_lt (h.inStore t))]
      obtain ⟨below, continuable⟩ := h.branch continuation t new.1
      exact neat.branch t _ (top t) below continuable
    · have child := lt_size_of_above hn
      rw [if_neg (Nat.ne_of_lt child)] at continuation
      rw [if_neg (Nat.ne_of_lt (order.parent_lt hn))]
      exact order.branch t n p hn continuation
  · rw [kind_pushed, formula_pushed]
    split
    · exact h.law
    · next old =>
      rw [size_pushed] at hn
      exact order.formula n (Nat.lt_of_le_of_ne (Nat.le_of_lt_succ hn) old)

theorem Grows.neat (h : o.Grows x o' tops) (neat : o.Neat) (hc : ∀ t, x.children.get t = [])
    (hp : ∀ t, x.parent.get t = none) : o'.Neat := by
  have order := h.orderly neat hc hp
  obtain rfl := h.result
  -- what is open was open before or is the new node, which is a branch then
  have cases_opened (t : Time) (n : Handle) (hn : n ∈ (o.pushed tops x).opened.get t) :
      (n = o.diff.size ∧ x.kind.annotates = true ∧ x.change.existsAt t = true) ∨
        (n ≠ o.diff.size ∧ n ∈ o.opened.get t) := by
    have old (hn : n ∈ o.opened.get t) : n ≠ o.diff.size :=
      Nat.ne_of_lt (lt_size_of_lives (neat.lives t n hn))
    rw [opened_pushed] at hn
    split at hn
    · next new =>
      obtain hn | hn := List.mem_cons.1 hn
      · exact .inl ⟨hn, new⟩
      · exact .inr ⟨old hn, hn⟩
    · exact .inr ⟨old hn, hn⟩
  refine ⟨order, fun t n hn => ?_, fun t n hn other continuable => ?_⟩
  · rw [lives_pushed]
    obtain ⟨new, -, there⟩ | ⟨old, hn⟩ := cases_opened t n hn
    · rw [if_pos new]
      exact there
    · rw [if_neg old]
      exact neat.lives t n hn
  · rw [kind_pushed] at continuable ⊢
    obtain ⟨new, annotates, -⟩ | ⟨old, hn⟩ := cases_opened t n hn
    · rw [if_pos new] at continuable ⊢
      have mark := h.mark
      cases hk : x.kind <;> simp_all [Kind.annotates, Kind.isConditional]
    · rw [if_neg old] at continuable ⊢
      exact neat.branch t n hn other continuable

/-- Closing a chain changes ends and closing lines only, and leaves the outer open places. -/
theorem closeChain_alike {t : Time} {closing : ClosingLine} {next : Position} {d d' : Diff}
    {ns rest : List Handle} (h : closeChain t closing next d ns = .ok (d', rest)) :
    Alike d d' ∧ rest <:+ ns := by
  have closes := closesChain_of_run h
  clear h
  induction closes with
  | opening _ inStore _ => exact ⟨(retouched_endAt inStore).toAlike, List.suffix_cons _ _⟩
  | branch _ inStore _ _ ih =>
    obtain ⟨alike, suffix⟩ := ih
    exact ⟨(retouched_endAt inStore).toAlike.trans alike, suffix.trans (List.suffix_cons _ _)⟩

theorem closeAll_alike {closing : ClosingLine} {ts : List Time}
    (h : ts.foldlM (closeAt closing) o = .ok o') :
    Alike o.diff o'.diff ∧ ∀ t, o'.opened.get t <:+ o.opened.get t := by
  induction ts generalizing o with
  | nil =>
    cases h
    exact ⟨.refl _, fun t => List.suffix_refl _⟩
  | cons s ts ih =>
    rw [List.foldlM_cons] at h
    obtain ⟨o₁, run, h⟩ := Outcome.bind_eq_ok_iff.1 h
    rw [closeAt] at run
    obtain ⟨⟨d, rest⟩, chain, run⟩ := Outcome.bind_eq_ok_iff.1 run
    obtain rfl : { o with diff := d, opened := o.opened.set s rest } = o₁ := Except.ok.inj run
    obtain ⟨alike, suffix⟩ := closeChain_alike chain
    obtain ⟨alike', suffix'⟩ := ih h
    refine ⟨alike.trans alike', fun t => (suffix' t).trans ?_⟩
    show (o.opened.set s rest).get t <:+ o.opened.get t
    rw [Sides.get_set]
    split
    · next e =>
      rw [e]
      exact suffix
    · exact List.suffix_refl _

theorem closeChains_alike {closing : ClosingLine} (h : closeChains closing o = .ok o') :
    Alike o.diff o'.diff ∧ ∀ t, o'.opened.get t <:+ o.opened.get t := by
  rw [closeChains_eq] at h
  exact closeAll_alike (o := { o with lastCode := none }) h

/-- Order does not depend on ends, texts and closing lines, and stays if places are no longer open. -/
theorem Neat.alike (neat : o.Neat) (alike : Alike o.diff o'.diff)
    (suffix : ∀ t, o'.opened.get t <:+ o.opened.get t) : o'.Neat := by
  refine ⟨neat.orderly.alike alike, fun t n hn => ?_, fun t n hn other continuable => ?_⟩
  · rw [alike.lives]
    exact neat.lives t n ((suffix t).subset hn)
  · rw [alike.kind] at continuable ⊢
    exact neat.branch t n ((suffix t).subset hn) other continuable

theorem Neat.closeChains {closing : ClosingLine} (neat : o.Neat)
    (h : closeChains closing o = .ok o') : o'.Neat := by
  obtain ⟨alike, suffix⟩ := closeChains_alike h
  exact neat.alike alike suffix

theorem neat_start (s : Source) : (Outline.start s).Neat := by
  have only (t : Time) (n : Handle) (hn : n ∈ (Outline.start s).opened.get t) : n = root := by
    have opened : (Outline.start s).opened.get t = [root] := Sides.get_both _ t
    rw [opened] at hn
    exact List.mem_singleton.1 hn
  refine ⟨.empty s, fun t n hn => ?_, fun t n hn other => absurd (only t n hn) other⟩
  rw [only t n hn]
  cases t <;> rfl

theorem Neat.put {options : Options} {dialect : Dialect} {line : LogicalLine} {change : Change}
    {last : Position} {m : Time → Nest Facet} (neat : o.Neat)
    (ho : ∀ t, o.Shows t (m t)) (h : o.put options dialect line change last = .ok o') : o'.Neat := by
  obtain ⟨stop, range⟩ := Run.place_of_put h
  obtain ⟨-, -, -, closed | ⟨kind, formula, tops, -, grows⟩⟩ | ⟨-, -, c, joins⟩ := put_cases range ho h
  · exact neat.closeChains closed
  · exact grows.neat neat (fun _ => children_newNode) fun _ => parent_newNode
  · obtain ⟨last, -, -, rfl⟩ := joins
    have alike : Alike o.diff (o.joined c line.lines (stop.restrict change)).diff :=
      alike_joined (Shows.lastCode_lt ho c last)
    exact neat.alike alike fun _ => List.suffix_refl _

end Reading.Outline

namespace Reading

open Diff Outline

namespace Run

variable {options : Options} {dialect : Dialect} {r r' : Run} {P : Outline → Prop} {t : Time}

/-- `P` is kept whenever lines are put. -/
def Kept (options : Options) (dialect : Dialect) (P : Outline → Prop) : Prop :=
  ∀ o o' line change last, P o → line.lines ≠ [] → o.put options dialect line change last = .ok o' →
    P o'

/-- What is pending has lines, and `P` holds of the outline. -/
structure Bears (P : Outline → Prop) (r : Run) : Prop where
  outline : P r.outline
  pending : ∀ t, (r.pending.get t).hasStarted = true → (r.pending.get t).lines ≠ []

theorem bears_start {source : Source} (h : P (.start source)) : (Run.start source).Bears P := by
  refine ⟨h, fun t started => ?_⟩
  cases t <;> cases started

theorem Bears.full (h : r.Bears P) (complete : (r.pending.get t).isComplete = true) :
    (r.pending.get t).lines ≠ [] := by
  rw [LogicalLine.isComplete, Bool.and_eq_true, Bool.and_eq_true] at complete
  exact h.pending t complete.1.1

theorem Bears.take (h : r.Bears P) (change : Change) (content : String) :
    (r.take change content).Bears P := by
  refine ⟨h.outline, fun t started => ?_⟩
  rw [get_take] at started ⊢
  split at started
  · next there =>
    rw [if_pos there, LogicalLine.lines_consume]
    exact List.append_ne_nil_of_right_ne_nil _ (List.cons_ne_nil _ _)
  · next absent =>
    rw [if_neg absent]
    exact h.pending t started

theorem Bears.flush (h : r.Bears P) (kept : Kept options dialect P)
    (run : r.flush options dialect t = .ok r') : r'.Bears P := by
  obtain ⟨-, rfl⟩ | ⟨complete, outline, put, rfl⟩ := flush_cases run
  · exact h
  · refine ⟨kept _ _ _ _ _ h.outline (h.full complete) put, fun u started => ?_⟩
    rw [Sides.get_set] at started ⊢
    split at started
    · cases started
    · next other =>
      rw [if_neg other]
      exact h.pending u started

theorem Bears.flushAll (h : r.Bears P) (kept : Kept options dialect P)
    (run : r.flushAll options dialect = .ok r') : r'.Bears P := by
  obtain ⟨⟨-, complete, -⟩, outline, put, rfl⟩ | ⟨-, r₁, run, rest⟩ := flushAll_cases run
  · have here : (r.pending.get .before).isComplete = true := complete
    have full : r.pending.before.lines ≠ [] := h.full here
    refine ⟨kept _ _ _ _ _ h.outline full put, fun u started => ?_⟩
    rw [Sides.get_both] at started
    cases started
  · exact (h.flush kept run).flush kept rest

theorem Bears.step {line : PhysicalLine} (h : r.Bears P) (kept : Kept options dialect P)
    (run : r.step options dialect line = .ok r') : r'.Bears P := by
  obtain ⟨change, place, hc, shifted⟩ := exists_shift_of_step run
  rw [step_eq hc shifted] at run
  split at run
  · obtain rfl : { r with place } = r' := Except.ok.inj run
    exact ⟨h.outline, h.pending⟩
  · have moved : ({ r with place } : Run).Bears P := ⟨h.outline, h.pending⟩
    exact (moved.take change line.content).flushAll kept run

/-- What is kept by all lines that are put is kept by a run. -/
theorem Bears.run {lines : List PhysicalLine} (h : r.Bears P) (kept : Kept options dialect P)
    (run : lines.foldlM (Run.step options dialect) r = .ok r') : r'.Bears P := by
  induction lines generalizing r with
  | nil =>
    cases run
    exact h
  | cons line lines ih =>
    rw [List.foldlM_cons] at run
    obtain ⟨r₁, step, run⟩ := Outcome.bind_eq_ok_iff.1 run
    exact ih (h.step kept step) run

theorem kept_neat : Kept options dialect fun o =>
    o.Neat ∧ ∃ m : Time → Nest Facet, ∀ t, o.Shows t (m t) := by
  intro o o' line change last hr _ put
  obtain ⟨neat, m, shown⟩ := hr
  obtain ⟨stop, range⟩ := place_of_put put
  refine ⟨neat.put shown put, ?_⟩
  obtain ⟨m', -, shown', -⟩ | ⟨-, -, c, joins⟩ := put_cases range shown put
  · exact ⟨m', shown'⟩
  · exact ⟨_, (joins.shows shown).1⟩

/-- Every run stays in order. -/
theorem neat_run {source : Source} {lines : List PhysicalLine}
    (h : lines.foldlM (Run.step options dialect) (Run.start source) = .ok r') :
    r'.outline.Neat :=
  ((bears_start ⟨neat_start source, fun _ => _, shows_start source⟩).run kept_neat h).outline.1

end Run

section Finish

variable {options : Options} {dialect : Dialect} {source : Source} {lines : List PhysicalLine}
  {d : Diff} {o : Outline} {t : Time}

theorem Outline.finish_eq_ok_iff : o.finish = .ok d ↔
    (∀ t, (o.opened.get t).length ≤ 1) ∧ o.diff.checkConsistency = .ok () ∧ o.diff = d := by
  unfold Outline.finish
  rw [Outcome.seq_eq_ok_iff, Outcome.forM_eq_ok_iff, Outcome.seq_eq_ok_iff, Outcome.pure_eq_ok_iff]
  simp only [Time.mem_all, true_imp_iff]
  refine and_congr_left fun _ => forall_congr' fun t => ?_
  obtain - | ⟨a, - | ⟨b, ns⟩⟩ := o.opened.get t
  · simp [pure, Except.pure]
  · simp [pure, Except.pure]
  · cases hx : o.diff.node a <;> simp [hx, Outline.fail, Outcome.fail]

/-- A run ends when nothing is pending and nothing but the root is open. -/
theorem Run.of_finish {r : Run} (h : r.finish = .ok d) :
    (∀ t, (r.pending.get t).hasStarted = false) ∧ (∀ t, (r.outline.opened.get t).length ≤ 1) ∧
      r.outline.diff = d := by
  unfold Run.finish at h
  split at h
  · cases h
  · next unstarted =>
    simp only [Bool.or_eq_true, not_or, Bool.not_eq_true] at unstarted
    obtain ⟨unopened, -, same⟩ := Outline.finish_eq_ok_iff.1 h
    refine ⟨fun t => ?_, unopened, same⟩
    cases t
    · exact unstarted.1
    · exact unstarted.2

/-- A diff that was read is in order, and its tree at a time cannot be told from what a solo over the
lines of that time ends with. -/
theorem ofLines_seems (h : ofLines options dialect source lines = .ok d) :
    d.Orderly ∧ ∀ t, ∃ f s, d.Shape t f ∧
      Solo.start.read options dialect (contentsAt t lines) = some s ∧
      s.pending = {} ∧ Sees options (.base (d.facet t root) (f.map (d.facet t))) s.nest := by
  obtain ⟨r, run, finish⟩ := Outcome.bind_eq_ok_iff.1 h
  obtain ⟨tuned, s, hs⟩ := Run.plays_run (Run.tuned_start source) (Run.waits_start source)
    (Run.plays_start source) run
  obtain ⟨unstarted, unopened, rfl⟩ := Run.of_finish finish
  refine ⟨(Run.neat_run run).orderly, fun t => ?_⟩
  obtain ⟨plays, read⟩ := hs t
  obtain ⟨k, ⟨n, opened, holds, image, -⟩, seen⟩ := plays.shows
  obtain ⟨f, rfl, shape⟩ := holds.exists_shape (opened ▸ unopened t)
  refine ⟨f, s t, shape, read, ?_, ?_⟩
  · rw [← plays.pending, tuned.fresh t (unstarted t)]
    rfl
  · rw [← image] at seen
    exact seen

/-- If code never joins, the tree at a time is what a solo over the lines of that time ends with. -/
theorem ofLines_spec (single : options.collapse = false)
    (h : ofLines options dialect source lines = .ok d) :
    d.Orderly ∧ ∀ t, ∃ f s, d.Shape t f ∧
      Solo.start.read options dialect (contentsAt t lines) = some s ∧
      s.pending = {} ∧ s.nest = .base (d.facet t root) (f.map (d.facet t)) := by
  obtain ⟨orderly, spec⟩ := ofLines_seems h
  refine ⟨orderly, fun t => ?_⟩
  obtain ⟨f, s, shape, read, ended, seen⟩ := spec t
  exact ⟨f, s, shape, read, ended, (seen.eq single).symm⟩

end Finish

end Reading

end Variation
