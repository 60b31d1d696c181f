import Variation.Proofs.Blame
import Variation.Proofs.Corresponding
import Variation.Proofs.Filler

/-!
# Reading without blank lines

A blank line can be left out where it arrives between logical lines, and where it arrives in a comment
that is read as one, unless it edits an annotation that both times share. If all blank lines arrive like
this, a text is read with them exactly if it is read without them, and the two diffs have the same
annotations. The condition is sufficient, not necessary: a blank line that ends a continued line of code
may be left out too if what comes next is code as well.

A run that leaves out blank lines is compared with one that takes them: what they have read so far
`Parallels` each other, and every step keeps it so. In the second run a blank line between logical
lines is put as code, and one in a comment makes the comment longer. An edited one in the comment of code
that both times share makes two nodes of the code where the first run makes one.
-/

namespace Variation.Reading

open Diff Outline Condition

/-- What is left when complete lines are taken away. -/
theorem LogicalLine.Stands.remainder {l l' : LogicalLine} (h : l.Stands l') :
    l.remainder.Stands l'.remainder := by
  rw [LogicalLine.remainder, LogicalLine.remainder, h.isComplete]
  split
  · exact .refl _
  · exact h

namespace Run

/-- Whether a blank line of a change can be left out: at each of its times it stands between logical lines
or in a comment, and it edits no annotation that both times share. -/
def canSkip (r : Run) (change : Change) : Bool :=
  change.times.all fun t =>
    let l := r.pending.get t
    (!l.hasStarted || (l.inComment && ending l.text.toList != .outside)) &&
      (!r.shared || change == .unchanged || (Dialect.annotationKind? l.text).isNone)

/-- Whether all blank lines can be left out where they arrive. -/
def canSkipAll (options : Options) (dialect : Dialect) : Run → List PhysicalLine → Bool
  | _, [] => true
  | r, line :: rest =>
    (!(Text.trimStart line.content.toList).isEmpty || line.change.all r.canSkip) &&
      match r.step options dialect line with
      | .ok r => canSkipAll options dialect r rest
      | .error _ => true

/-- Two runs agree on whether both times share their lines, or no line has begun, or only the second run
shares a line, which is code. -/
def SharesLike (r r' : Run) : Prop :=
  r'.shared = r.shared ∨ (∀ t, (r.pending.get t).hasStarted = false) ∨
    r'.shared = true ∧ ∀ t, (r.pending.get t).IsCode

/-- Two runs have read the same but blank lines. -/
structure Parallels (r r' : Run) : Prop where
  place : r'.place = r.place
  pending : ∀ t, (r.pending.get t).Stands (r'.pending.get t)
  shared : SharesLike r r'
  outline : Corresponds r.outline r'.outline

/-- A run as it is between two lines. -/
structure Settled (options : Options) (r : Run) : Prop where
  bears : r.Bears Outline.Ready
  tuned : r.Tuned
  waits : r.Waits
  plays : ∃ s : Time → Solo, ∀ t, r.Plays options t (s t)

variable {options options' : Options} {dialect : Dialect} {r r' r₁ : Run} {t : Time} {change : Change}
  {line : PhysicalLine} {place stop : Position} {source : Source} {content : String}

theorem kept_ready : Kept options dialect Outline.Ready := by
  intro o o' line change last ready full put
  obtain ⟨neat, shown⟩ := kept_neat o o' line change last ⟨ready.neat, ready.shown⟩ full put
  exact ⟨neat, shown⟩

theorem settled_start (source : Source) : (Run.start source).Settled options :=
  ⟨bears_start ⟨neat_start source, fun _ => _, shows_start source⟩, tuned_start source,
    waits_start source, fun _ => _, plays_start source⟩

theorem Settled.step (h : r.Settled options) (run : r.step options dialect line = .ok r') :
    r'.Settled options := by
  obtain ⟨s, plays⟩ := h.plays
  obtain ⟨tuned, waits, change, -, s', hs⟩ := plays_step h.tuned h.waits plays run
  exact ⟨h.bears.step kept_ready run, tuned, waits, s', fun t => (hs t).1⟩

theorem Settled.tuned_at (h : r.Settled options) (place : Position) : ({ r with place } : Run).Tuned :=
  ⟨h.tuned.shared, h.tuned.fresh⟩

theorem Settled.bears_at (h : r.Settled options) (place : Position) :
    ({ r with place } : Run).Bears Outline.Ready := ⟨h.bears.outline, h.bears.pending⟩

theorem Settled.pending_eq (h : r.Settled options) (fresh : (r.pending.get t).hasStarted = false) :
    r.pending.get t = {} := h.tuned.fresh t fresh

theorem parallels_start (source : Source) : (Run.start source).Parallels (Run.start source) := by
  exact ⟨rfl, fun t => .refl _, .inl rfl, corresponds_start source⟩

/-- Behind the same line two runs agree on what is shared, but for code that only the second one shares. -/
theorem SharesLike.take (h : SharesLike r r') (started : ∀ t,
    (r'.pending.get t).hasStarted = (r.pending.get t).hasStarted) (change : Change) (content : String) :
    (r'.take change content).shared = (r.take change content).shared ∨
      (r'.take change content).shared = true ∧ ∀ t, ((r.take change content).pending.get t).IsCode := by
  have shared (r : Run) : (r.take change content).shared = (change == .unchanged && (r.shared ||
      (!(r.pending.get .before).hasStarted && !(r.pending.get .after).hasStarted))) := rfl
  rw [shared, shared, started, started]
  obtain same | fresh | ⟨together, code⟩ := h
  · rw [same]
    exact .inl rfl
  · rw [fresh, fresh, Bool.not_false, Bool.and_self, Bool.or_true, Bool.or_true]
    exact .inl rfl
  · by_cases both : change = .unchanged
    · rw [both, together]
      refine .inr ⟨rfl, fun t => ?_⟩
      rw [get_take]
      split
      · exact (code t).consume content r.place
      · exact code t
    · rw [beq_eq_false_iff_ne.2 both]
      exact .inl rfl

theorem Parallels.take (h : r.Parallels r') (change : Change) (content : String) :
    (r.take change content).Parallels (r'.take change content) := by
  refine ⟨h.place, fun t => ?_, ?_, h.outline⟩
  · rw [get_take, get_take, h.place]
    split
    · exact (h.pending t).consume content r.place
    · exact h.pending t
  · exact (h.shared.take (fun t => (h.pending t).hasStarted) change content).imp_right .inr

theorem Parallels.flush (h : r.Parallels r') (shared : r'.shared = r.shared)
    (bears : r.Bears Outline.Ready) (bears' : r'.Bears Outline.Ready)
    (range : r.place.add? 1 = some stop) (t : Time) :
    (r.flush options .preprocessor t).Agrees (fun r₁ r₁' => r₁.Parallels r₁' ∧ r₁'.shared = r₁.shared)
      (r'.flush options' .preprocessor t) := by
  rw [Run.flush, Run.flush]
  simp only [(h.pending t).isComplete, h.place]
  split
  · refine (h.outline.put bears.outline bears'.outline (h.pending t).text.item?_eq range options
      options' (.onlyAt t)).bind fun o o' _ _ same => ?_
    refine ⟨⟨rfl, fun u => ?_, .inl shared, same⟩, shared⟩
    simp only [Sides.get_set]
    split
    · exact .refl _
    · exact h.pending u
  · exact ⟨h, shared⟩

/-- Runs that agree on what is shared put the same. -/
theorem Parallels.flushAll (h : r.Parallels r') (shared : r'.shared = r.shared)
    (bears : r.Bears Outline.Ready) (bears' : r'.Bears Outline.Ready)
    (range : r.place.add? 1 = some stop) :
    (r.flushAll options .preprocessor).Agrees Parallels (r'.flushAll options' .preprocessor) := by
  have before : r'.pending.before.isComplete = r.pending.before.isComplete := (h.pending .before).isComplete
  have after : r'.pending.after.isComplete = r.pending.after.isComplete := (h.pending .after).isComplete
  rw [Run.flushAll, Run.flushAll, shared, before, after, h.place]
  split
  · have same : r.pending.before.Stands r'.pending.before := h.pending .before
    refine (h.outline.put bears.outline bears'.outline same.text.item?_eq range options options'
      .unchanged).bind fun o o' _ _ outline => ⟨rfl, fun t => ?_, .inl rfl, outline⟩
    simp only [Sides.get_both]
    exact .refl _
  · refine (h.flush shared bears bears' range .before).bind fun r₁ r₁' run run' ⟨h₁, shared₁⟩ => ?_
    rw [← place_flush run] at range
    exact (h₁.flush shared₁ (bears.flush kept_ready run) (bears'.flush kept_ready run') range .after).mono
      fun _ _ h => h.1

/-! ## Code -/

/-- What is complete is code. -/
def HasCode (r : Run) : Prop := ∀ t, (r.pending.get t).isComplete = true →
  Dialect.preprocessor.item? (r.pending.get t).text = some (.node .artifact none)

/-- Code can be flushed, and changes no annotations. -/
theorem HasCode.flush (code : r.HasCode) (bears : r.Bears Outline.Ready)
    (range : r.place.add? 1 = some stop) (options : Options) (t : Time) :
    ∃ r₁, r.flush options .preprocessor t = .ok r₁ ∧ r.outline.Keeps r₁.outline ∧
      r₁.shared = r.shared ∧
      ∀ u, r₁.pending.get u = if u = t then (r.pending.get t).remainder else r.pending.get u := by
  rw [Run.flush, LogicalLine.remainder]
  by_cases complete : (r.pending.get t).isComplete = true
  · obtain ⟨o₁, run, kept⟩ := put_code bears.outline (code t complete) range options (.onlyAt t)
    simp only [complete, if_true, run, Outcome.ok_bind]
    exact ⟨_, rfl, kept, rfl, fun u => Sides.get_set ..⟩
  · simp only [complete, Bool.false_eq_true, if_false]
    refine ⟨r, rfl, .refl _, rfl, fun u => ?_⟩
    split
    · next e => rw [e]
    · rfl

theorem HasCode.flushAll (code : r.HasCode) (tuned : r.Tuned) (bears : r.Bears Outline.Ready)
    (range : r.place.add? 1 = some stop) (options : Options) :
    ∃ r₁, r.flushAll options .preprocessor = .ok r₁ ∧ r.outline.Keeps r₁.outline ∧ Flushed r r₁ := by
  rw [Run.flushAll]
  split
  · next together =>
    simp only [Bool.and_eq_true] at together
    obtain ⟨⟨both, complete⟩, -⟩ := together
    have same := tuned.shared both
    obtain ⟨o₁, run, kept⟩ := put_code bears.outline (code .before complete) range options .unchanged
    have put : r.outline.put options .preprocessor r.pending.before .unchanged r.place = .ok o₁ := run
    rw [put]
    refine ⟨_, rfl, kept, rfl, fun t => ?_⟩
    have own : r.pending.get t = r.pending.before := by
      cases t
      · rfl
      · exact same.symm
    rw [own, LogicalLine.remainder, if_pos complete]
    exact Sides.get_both _ t
  · obtain ⟨r₁, run, kept₁, shared₁, pending₁⟩ := code.flush bears range options .before
    have code₁ : r₁.HasCode := by
      intro t complete
      rw [pending₁] at complete ⊢
      split at complete
      · rw [LogicalLine.isComplete_remainder] at complete
        cases complete
      · next other =>
        rw [if_neg other]
        exact code t complete
    rw [← place_flush run] at range
    obtain ⟨r₂, run₂, kept₂, shared₂, pending₂⟩ :=
      code₁.flush (bears.flush kept_ready run) range options .after
    refine ⟨r₂, ?_, kept₁.trans kept₂, shared₂.trans shared₁, fun t => ?_⟩
    · rw [run]
      exact run₂
    · cases t with
      | before => rw [pending₂, if_neg (by decide), pending₁, if_pos rfl]
      | after => rw [pending₂, if_pos rfl, pending₁, if_neg (by decide)]

/-- Runs put the same code, even if only the second one shares it. -/
theorem Parallels.flushAll_code (h : r.Parallels r') (together : r'.shared = true)
    (code : ∀ t, (r.pending.get t).IsCode) (tuned : r.Tuned) (tuned' : r'.Tuned)
    (bears : r.Bears Outline.Ready) (bears' : r'.Bears Outline.Ready)
    (range : r.place.add? 1 = some stop) :
    (r.flushAll options .preprocessor).Agrees Parallels (r'.flushAll options' .preprocessor) := by
  have mine : r.HasCode := fun t _ => Dialect.item?_of_plain (code t).plain
  have other : r'.HasCode := fun t _ =>
    (h.pending t).text.item?_eq.trans (Dialect.item?_of_plain (code t).plain)
  have range' : r'.place.add? 1 = some stop := h.place ▸ range
  obtain ⟨r₁, run, kept, flushed⟩ := mine.flushAll tuned bears range options
  obtain ⟨r₁', run', kept', flushed'⟩ := other.flushAll tuned' bears' range' options'
  have own (t : Time) : (r.pending.get t).isComplete = (r.pending.get .before).isComplete := by
    rw [← (h.pending t).isComplete, ← (h.pending .before).isComplete]
    cases t
    · rfl
    · exact congrArg LogicalLine.isComplete (tuned'.shared together).symm
  rw [run, run']
  refine ⟨?_, fun t => ?_, ?_, h.outline.keep kept kept'⟩
  · rw [place_flushAll run, place_flushAll run', h.place]
  · rw [flushed.pending, flushed'.pending]
    exact (h.pending t).remainder
  · by_cases complete : (r.pending.get .before).isComplete = true
    · refine .inr (.inl fun t => ?_)
      rw [flushed.pending, LogicalLine.remainder, if_pos ((own t).trans complete)]
      rfl
    · refine .inr (.inr ⟨flushed'.shared.trans together, fun t => ?_⟩)
      rw [flushed.pending, LogicalLine.remainder, if_neg (own t ▸ complete)]
      exact code t

/-! ## Lines that both runs take -/

/-- A line without a change is never read. -/
theorem step_refuses (hc : line.change = none) (options : Options) (dialect : Dialect) (r : Run) :
    ∃ e, r.step options dialect line = .error e := by
  cases run : r.step options dialect line with
  | error e => exact ⟨e, rfl⟩
  | ok r' =>
    obtain ⟨change, -, there, -⟩ := exists_shift_of_step run
    rw [hc] at there
    cases there

/-- Neither run reads a line without a change. -/
theorem agrees_of_unchanged (hc : line.change = none) :
    (r.step options dialect line).Agrees Parallels (r'.step options' dialect line) := by
  obtain ⟨e, failed⟩ := step_refuses hc options dialect r
  obtain ⟨e', failed'⟩ := step_refuses hc options' dialect r'
  rw [failed, failed']
  trivial

/-- A line that is not left out is read by both runs or by none. -/
theorem Parallels.step {count : Nat} (h : r.Parallels r') (settled : r.Settled options)
    (settled' : r'.Settled options') (within : Within r.place count) (room : count + 1 < greatestLine)
    (taken : (options.skipBlank && (Text.trimStart line.content.toList).isEmpty) = false)
    (taken' : (options'.skipBlank && (Text.trimStart line.content.toList).isEmpty) = false) :
    (r.step options .preprocessor line).Agrees Parallels (r'.step options' .preprocessor line) := by
  cases hc : line.change with
  | none => exact agrees_of_unchanged hc
  | some change =>
    obtain ⟨place, shifted, within'⟩ := within.shift (Nat.lt_of_succ_lt room) change
    obtain ⟨stop, range, -⟩ := within'.shift room .unchanged
    have shifted' : r'.place.shift? 1 change = some place := h.place ▸ shifted
    rw [step_eq hc shifted, step_eq hc shifted', taken, taken', if_neg Bool.false_ne_true,
      if_neg Bool.false_ne_true]
    have moved : ({ r with place } : Run).Parallels { r' with place } :=
      ⟨rfl, h.pending, h.shared, h.outline⟩
    have bears := (settled.bears_at place).take change line.content
    have bears' := (settled'.bears_at place).take change line.content
    have both := moved.take change line.content
    obtain shared | ⟨together, code⟩ :=
      moved.shared.take (fun t => (moved.pending t).hasStarted) change line.content
    · exact both.flushAll shared bears bears' range
    · exact both.flushAll_code together code ((settled.tuned_at place).take _)
        ((settled'.tuned_at place).take _) bears bears' range

/-! ## Blank lines -/

theorem item?_blank (blank : (Text.trimStart content.toList).isEmpty = true) :
    Dialect.preprocessor.item? content = some (.node .artifact none) := by
  refine Dialect.item?_of_plain ?_
  rw [Dialect.annotationKind?, Dialect.directive?, List.isEmpty_iff.1 blank]
  rfl

/-- Where a blank line can be left out. -/
theorem canSkip_iff : r.canSkip change = true ↔ ∀ t, change.existsAt t = true →
    ((r.pending.get t).hasStarted = false ∨
      (r.pending.get t).inComment = true ∧ ending (r.pending.get t).text.toList ≠ .outside) ∧
    (r.shared = true → change ≠ .unchanged → Dialect.annotationKind? (r.pending.get t).text = none) := by
  rw [canSkip, List.all_eq_true]
  refine forall_congr' fun t => ?_
  rw [← Change.mem_times]
  simp only [Bool.or_eq_true, Bool.and_eq_true, Bool.not_eq_true', bne_iff_ne, beq_iff_eq,
    Option.isNone_iff_eq_none, or_assoc]
  cases r.shared
  · simp
  · simp [or_iff_not_imp_left]

/-- A blank line that can be left out shares nothing but code, or shares it in both runs. -/
theorem SharesLike.skip (h : SharesLike r r') (tuned : r.Tuned) (can : r.canSkip change = true)
    (flushed : Flushed (r.take change content) r₁)
    (started : ∀ t, (r₁.pending.get t).hasStarted = (r.pending.get t).hasStarted)
    (code : ∀ t, (r.pending.get t).IsCode → (r₁.pending.get t).IsCode) : SharesLike r₁ r' := by
  by_cases fresh : ∀ t, (r.pending.get t).hasStarted = false
  · exact .inr (.inl fun t => (started t).trans (fresh t))
  · have shared : r₁.shared = (change == .unchanged && (r.shared ||
        (!(r.pending.get .before).hasStarted && !(r.pending.get .after).hasStarted))) := flushed.shared
    have busy : (!(r.pending.get .before).hasStarted && !(r.pending.get .after).hasStarted) = false := by
      by_contra idle
      simp only [Bool.not_eq_false, Bool.and_eq_true, Bool.not_eq_true'] at idle
      exact fresh fun t => by cases t; exacts [idle.1, idle.2]
    rw [busy, Bool.or_false] at shared
    obtain same | none | ⟨together, plain⟩ := h
    · cases both : r.shared with
      | false => exact .inl (by rw [same, shared, both, Bool.and_false])
      | true =>
        by_cases unchanged : change = .unchanged
        · exact .inl (by rw [same, shared, both, unchanged]; rfl)
        · have own (t u : Time) : r.pending.get t = r.pending.get u := by
            have same : r.pending.get .before = r.pending.get .after := tuned.shared both
            cases t <;> cases u <;> first | rfl | exact same | exact same.symm
          obtain ⟨t, there⟩ : ∃ t, change.existsAt t = true := change.existsAt_or.elim
            (fun there => ⟨_, there⟩) fun there => ⟨_, there⟩
          obtain ⟨idle | ⟨-, inside⟩, plain⟩ := canSkip_iff.1 can t there
          · exact absurd (fun u => own t u ▸ idle) fresh
          · refine .inr (.inr ⟨same.trans both, fun u => code u ?_⟩)
            rw [own u t]
            refine ⟨?_, slash_mem_of_ending inside, plain both unchanged⟩
            by_contra idle
            exact fresh fun u => own t u ▸ Bool.eq_false_iff.2 idle
    · exact absurd none fresh
    · exact .inr (.inr ⟨together, fun t => code t (plain t)⟩)

/-- A blank line that can be left out is read by a run that takes it, and says nothing. -/
theorem Parallels.skip (h : r.Parallels r') (settled : r.Settled options)
    (all : options.skipBlank = false) (hc : line.change = some change)
    (shifted : r.place.shift? 1 change = some place) (range : place.add? 1 = some stop)
    (blank : (Text.trimStart line.content.toList).isEmpty = true) (can : r.canSkip change = true) :
    ∃ r₁, r.step options .preprocessor line = .ok r₁ ∧ r₁.Parallels { r' with place } := by
  have solid := LogicalLine.blank_of_trimStart blank
  have tuned := settled.tuned_at place
  have bears := settled.bears_at place
  have taken (t : Time) : (({ r with place } : Run).take change line.content).pending.get t =
      if change.existsAt t then (r.pending.get t).consume line.content place else r.pending.get t :=
    get_take (r := { r with place }) _
  have inner (t : Time) (inComment : (r.pending.get t).inComment = true) :
      ((r.pending.get t).consume line.content place).isComplete = false :=
    LogicalLine.isComplete_of_inComment (LogicalLine.inComment_consume_blank solid inComment place)
  have code : (({ r with place } : Run).take change line.content).HasCode := by
    intro t complete
    rw [taken] at complete ⊢
    split at complete
    · next there =>
      obtain fresh | ⟨inComment, -⟩ := (canSkip_iff.1 can t there).1
      · rw [if_pos there, settled.pending_eq fresh, (LogicalLine.consume_blank_first solid place).2]
        exact item?_blank blank
      · rw [inner t inComment] at complete
        cases complete
    · rw [settled.waits t] at complete
      cases complete
  obtain ⟨r₁, run, kept, flushed⟩ :=
    code.flushAll (tuned.take line.content) (bears.take change line.content) range options
  have pending (t : Time) : (r₁.pending.get t).Stands (r'.pending.get t) ∧
      (r₁.pending.get t).hasStarted = (r.pending.get t).hasStarted ∧
      ((r.pending.get t).IsCode → (r₁.pending.get t).IsCode) := by
    rw [flushed.pending, taken, LogicalLine.remainder]
    split
    · next there =>
      by_cases fresh : (r.pending.get t).hasStarted = false
      · have empty := settled.pending_eq fresh
        rw [empty, if_pos (LogicalLine.consume_blank_first solid place).1, ← empty]
        exact ⟨h.pending t, rfl, id⟩
      · have started := Bool.not_eq_false _ ▸ fresh
        obtain ⟨inComment, inside⟩ := (canSkip_iff.1 can t there).1.resolve_left fresh
        rw [if_neg (Bool.eq_false_iff.1 (inner t inComment))]
        exact ⟨(h.pending t).consume_blank solid started inComment inside place,
          (LogicalLine.hasStarted_consume ..).trans started.symm, fun code => code.consume _ _⟩
    · rw [if_neg (Bool.eq_false_iff.1 (settled.waits t))]
      exact ⟨h.pending t, rfl, id⟩
  refine ⟨r₁, ?_, ?_, fun t => (pending t).1, ?_, h.outline.keep kept (.refl _)⟩
  · rw [step_eq hc shifted, all, Bool.false_and, if_neg Bool.false_ne_true]
    exact run
  · rw [place_flushAll run]
    rfl
  · have like : SharesLike { r with place } { r' with place } := h.shared
    exact like.skip tuned can flushed (fun t => (pending t).2.1) fun t => (pending t).2.2

/-! ## Whole runs -/

/-- A run that takes blank lines and one that leaves them out read a line or both fail. -/
theorem Parallels.either {count : Nat} (h : r.Parallels r') (settled : r.Settled options)
    (settled' : r'.Settled options') (all : options.skipBlank = false)
    (within : Within r.place count) (room : count + 1 < greatestLine)
    (can : (Text.trimStart line.content.toList).isEmpty = true → line.change.all r.canSkip = true) :
    (r.step options .preprocessor line).Agrees Parallels (r'.step options' .preprocessor line) := by
  have taken : (options.skipBlank && (Text.trimStart line.content.toList).isEmpty) = false := by
    rw [all, Bool.false_and]
  cases skipped : options'.skipBlank && (Text.trimStart line.content.toList).isEmpty with
  | false => exact h.step settled settled' within room taken skipped
  | true =>
    have blank := (Bool.and_eq_true_iff.1 skipped).2
    cases hc : line.change with
    | none => exact agrees_of_unchanged hc
    | some change =>
      obtain ⟨place, shifted, within'⟩ := within.shift (Nat.lt_of_succ_lt room) change
      obtain ⟨stop, range, -⟩ := within'.shift room .unchanged
      have can := can blank
      rw [hc] at can
      obtain ⟨r₁, run, parallels⟩ := h.skip settled all hc shifted range blank can
      have shifted' : r'.place.shift? 1 change = some place := h.place ▸ shifted
      rw [run, step_eq hc shifted', if_pos skipped]
      exact parallels

/-- A run that takes blank lines and one that leaves them out read the same lines or both fail. -/
theorem Parallels.run {lines : List PhysicalLine} {count : Nat} (h : r.Parallels r')
    (settled : r.Settled options) (settled' : r'.Settled options') (all : options.skipBlank = false)
    (within : Within r.place count) (room : count + lines.length < greatestLine)
    (can : r.canSkipAll options .preprocessor lines = true) :
    (lines.foldlM (Run.step options .preprocessor) r).Agrees
      (fun r r' => r.Parallels r' ∧ r.Settled options ∧ r'.Settled options')
      (lines.foldlM (Run.step options' .preprocessor) r') := by
  induction lines generalizing r r' count with
  | nil => exact ⟨h, settled, settled'⟩
  | cons line lines ih =>
    rw [List.length_cons] at room
    rw [canSkipAll, Bool.and_eq_true] at can
    obtain ⟨here, behind⟩ := can
    rw [List.foldlM_cons, List.foldlM_cons]
    have step : (r.step options .preprocessor line).Agrees Parallels
        (r'.step options' .preprocessor line) := by
      refine h.either settled settled' all within (by omega) fun blank => ?_
      rwa [blank, Bool.not_true, Bool.false_or] at here
    refine step.bind fun r₁ r₁' run run' h₁ => ?_
    obtain ⟨change, -, shifted⟩ := place_step run
    obtain ⟨place, moved, within₁⟩ := within.shift (by omega) change
    obtain rfl := Option.some.inj (shifted.symm.trans moved)
    rw [run] at behind
    exact ih h₁ (settled.step run) (settled'.step run') within₁ (by omega) behind

theorem Parallels.finish (h : r.Parallels r') (settled : r.Settled options)
    (settled' : r'.Settled options') : r.finish.Agrees SameAnnotations r'.finish := by
  have before : r'.pending.before.hasStarted = r.pending.before.hasStarted :=
    (h.pending .before).hasStarted
  have after : r'.pending.after.hasStarted = r.pending.after.hasStarted := (h.pending .after).hasStarted
  rw [Run.finish, Run.finish, before, after]
  split
  · trivial
  · exact h.outline.finish settled.bears.outline.neat settled'.bears.outline.neat

end Run

/-- If every blank line arrives where it can be left out, lines are accepted with them exactly if they are
accepted without them, with the same annotations. -/
theorem ofLines_skipBlank {lines : List PhysicalLine} {options options' : Options} (source : Source)
    (all : options.skipBlank = false) (few : lines.length < greatestLine)
    (can : (Run.start source).canSkipAll options .preprocessor lines = true) :
    (ofLines options .preprocessor source lines).Agrees SameAnnotations
      (ofLines options' .preprocessor source lines) := by
  have start : (lines.foldlM (Run.step options .preprocessor) (Run.start source)).Agrees
      (fun r r' => r.Parallels r' ∧ r.Settled options ∧ r'.Settled options')
      (lines.foldlM (Run.step options' .preprocessor) (Run.start source)) :=
    (Run.parallels_start source).run (Run.settled_start source) (Run.settled_start source) all
      within_start (by omega) can
  exact start.bind fun r r' _ _ ⟨h, settled, settled'⟩ => h.finish settled settled'

/-- If every blank line arrives where it can be left out, a text is accepted with blank lines exactly if it
is accepted without them, and the two diffs have the same annotations. That `canSkipAll` holds is enough
but not needed for this: behind a continued line it asks for more than some texts need. -/
theorem diff_skipBlank {text : String} (collapse : Bool) (source : Source)
    (few : (Text.lines text).length < 2147483647)
    (can : (Run.start source).canSkipAll ⟨collapse, false⟩ .preprocessor (PhysicalLine.ofDiff text)) :
    ((∃ d, Reading.diff text ⟨collapse, true⟩ source .preprocessor = .ok d) ↔
      ∃ d, Reading.diff text ⟨collapse, false⟩ source .preprocessor = .ok d) ∧
    ∀ d d', Reading.diff text ⟨collapse, false⟩ source .preprocessor = .ok d →
      Reading.diff text ⟨collapse, true⟩ source .preprocessor = .ok d' → d.SameAnnotations d' := by
  have room : (PhysicalLine.ofDiff text).length < greatestLine := by
    rw [PhysicalLine.ofDiff, List.length_map]
    exact few
  have agree : (Reading.diff text ⟨collapse, false⟩ source .preprocessor).Agrees SameAnnotations
      (Reading.diff text ⟨collapse, true⟩ source .preprocessor) := ofLines_skipBlank source rfl room can
  exact ⟨agree.isOk_iff.symm, fun d d' h h' => agree.related h h'⟩

/-- A text with blank lines between its lines and in the comment of an annotation, and with one that is
added to the comment of code. -/
def spacedText : String := " #if A /*\n \n */\n+\n /* x\n+\n y */\n #endif\n"

theorem diff_skipBlank_spacedText : ∃ d d', (Text.lines spacedText).length < 2147483647 ∧
    (Run.start .unknown).canSkipAll ⟨true, false⟩ .preprocessor (PhysicalLine.ofDiff spacedText) = true ∧
    Reading.diff spacedText ⟨true, false⟩ .unknown .preprocessor = .ok d ∧
    Reading.diff spacedText ⟨true, true⟩ .unknown .preprocessor = .ok d' ∧ d.SameAnnotations d' := by
  have few : (Text.lines spacedText).length < 2147483647 := by decide +kernel
  have can : (Run.start .unknown).canSkipAll ⟨true, false⟩ .preprocessor
      (PhysicalLine.ofDiff spacedText) = true := by
    decide +kernel
  have accepted : (Reading.diff spacedText ⟨true, false⟩ .unknown .preprocessor).isOk = true := by
    decide +kernel
  obtain ⟨iff, same⟩ := diff_skipBlank true .unknown few can
  cases read : Reading.diff spacedText ⟨true, false⟩ .unknown .preprocessor with
  | error e =>
    rw [read] at accepted
    cases accepted
  | ok d =>
    obtain ⟨d', read'⟩ := iff.2 ⟨d, read⟩
    exact ⟨d, d', few, can, rfl, read', same d d' read read'⟩

end Variation.Reading
