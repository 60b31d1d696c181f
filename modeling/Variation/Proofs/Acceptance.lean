import Variation.Proofs.Blame
import Variation.Proofs.Commutes

/-!
# What is accepted

A line diff is accepted exactly if every line has a change and the texts of both times are accepted:
an unchanged line is put at both times at once, but the run gets stuck on it only where the solo of
one of them does. So the verdict on a diff is the verdict on its two texts, and nothing but the texts
is to blame for a failure.
-/

namespace Variation.Reading

open Diff Outline

namespace Run

variable {options : Options} {dialect : Dialect} {r r' : Run} {s : Time → Solo} {t : Time}
  {lines : List PhysicalLine} {line : PhysicalLine} {place : Position}

/-! ## Two solos make a run -/

/-- A line can be put into a run if the solos of its times can flush it. -/
theorem put_solos (change : Change) {line : LogicalLine} {stop : Position}
    (range : r.place.add? 1 = some stop)
    (plays : ∀ t, r.Plays options t (s t)) (complete : line.isComplete = true)
    (own : ∀ t, change.existsAt t = true → r.pending.get t = line)
    (flushes : ∀ t, change.existsAt t = true → ∃ k, (s t).flush dialect = some k) :
    ∃ outline, r.outline.put options dialect line change r.place = .ok outline := by
  have each (t : Time) : ∃ k,
      putAt? dialect line change (startOf line r.place) stop (fun t => (s t).nest) t = some k := by
    unfold putAt?
    split
    · next there =>
      have here := own t there
      obtain ⟨k, flushed⟩ := flushes t there
      rw [(plays t).flush_eq range (here ▸ complete), here] at flushed
      obtain ⟨m, put, -⟩ := Option.map_eq_some_iff.1 flushed
      exact ⟨m, put⟩
    · exact ⟨_, rfl⟩
  exact put_seems_total range (fun t => (plays t).shows) fun t => (each t).choose_spec

theorem flush_solos {stop : Position} (range : r.place.add? 1 = some stop)
    (plays : ∀ t, r.Plays options t (s t)) (flushes : ∃ k, (s t).flush dialect = some k) :
    ∃ r', r.flush options dialect t = .ok r' := by
  unfold flush
  by_cases complete : (r.pending.get t).isComplete = true
  · have only (u : Time) (hu : (Change.onlyAt t).existsAt u = true) : u = t := by
      rw [Change.existsAt_onlyAt] at hu
      exact beq_iff_eq.1 hu
    obtain ⟨outline, run⟩ := put_solos (.onlyAt t) range plays complete
      (fun u hu => by rw [only u hu]) fun u hu => by rw [only u hu]; exact flushes
    simp only [complete, if_true, run]
    exact ⟨_, rfl⟩
  · simp only [complete, Bool.false_eq_true, if_false]
    exact ⟨r, rfl⟩

theorem flushAll_solos {stop : Position} (range : r.place.add? 1 = some stop)
    (tuned : r.Tuned) (plays : ∀ t, r.Plays options t (s t))
    (flushes : ∀ t, ∃ k, (s t).flush dialect = some k) :
    ∃ r', r.flushAll options dialect = .ok r' := by
  unfold flushAll
  by_cases together : (r.shared && r.pending.before.isComplete && r.pending.after.isComplete) = true
  · rw [if_pos together]
    simp only [Bool.and_eq_true] at together
    obtain ⟨⟨both, complete⟩, -⟩ := together
    have own (t : Time) : r.pending.get t = r.pending.before := by
      cases t
      · rfl
      · exact (tuned.shared both).symm
    obtain ⟨outline, run⟩ := put_solos .unchanged range plays complete
      (fun t _ => own t) fun t _ => flushes t
    rw [run]
    exact ⟨_, rfl⟩
  · rw [if_neg together]
    obtain ⟨r₁, run⟩ := flush_solos range plays (flushes .before)
    obtain ⟨s₁, plays₁, -, kept, -⟩ := plays_flush plays run
    rw [run, Outcome.ok_bind]
    rw [← place_flush run] at range
    refine flush_solos range plays₁ ?_
    rw [kept .after (by decide)]
    exact flushes .after

/-- What the solos of its times can read, a run can read. -/
theorem step_solos {count : Nat} (within : Within r.place count) (room : count + 1 < greatestLine)
    (tuned : r.Tuned) (waits : r.Waits) (plays : ∀ t, r.Plays options t (s t))
    (hc : line.change = some change)
    (steps : ∀ t, change.existsAt t = true →
      ∃ k, (s t).step options dialect line.content = some k) :
    ∃ r', r.step options dialect line = .ok r' := by
  obtain ⟨place, shifted, within'⟩ := within.shift (Nat.lt_of_succ_lt room) change
  obtain ⟨stop, range, -⟩ := within'.shift room .unchanged
  rw [step_eq hc shifted]
  by_cases skipped :
      (options.skipBlank && (Text.trimStart line.content.toList).isEmpty) = true
  · rw [if_pos skipped]
    exact ⟨_, rfl⟩
  · rw [if_neg skipped]
    have tuned₁ : (({ r with place } : Run).take change line.content).Tuned :=
      Tuned.take (r := { r with place }) ⟨tuned.shared, tuned.fresh⟩ _
    refine flushAll_solos (r := ({ r with place } : Run).take change line.content) range tuned₁
      (fun t => (plays t).take shifted line.content) fun t => ?_
    have shift := (plays t).place_shift shifted
    unfold moved
    split
    · next there =>
      rw [if_pos there] at shift
      obtain ⟨k, step⟩ := steps t there
      rw [Solo.step_eq shift, if_neg skipped] at step
      exact ⟨k, step⟩
    · next absent =>
      refine ⟨_, Solo.flush_of_incomplete ?_⟩
      rw [← (plays t).pending, LogicalLine.isComplete_collapse]
      exact waits t

theorem contentsAt_cons (hc : line.change = some change) :
    contentsAt t (line :: lines) =
      if change.existsAt t then line.content :: contentsAt t lines else contentsAt t lines := by
  by_cases there : change.existsAt t = true
  · simp [contentsAt, hc, there]
  · simp [contentsAt, hc, there]

/-- What both solos can read, line by line, a run can read. -/
theorem run_solos {count : Nat} (within : Within r.place count)
    (room : count + lines.length < greatestLine) (tuned : r.Tuned) (waits : r.Waits)
    (plays : ∀ t, r.Plays options t (s t))
    (changes : ∀ line ∈ lines, line.change.isSome = true)
    (reads : ∀ t, ∃ k, (s t).read options dialect (contentsAt t lines) = some k) :
    ∃ r', lines.foldlM (Run.step options dialect) r = .ok r' := by
  induction lines generalizing r s count with
  | nil => exact ⟨r, rfl⟩
  | cons line lines ih =>
    rw [List.length_cons] at room
    obtain ⟨here, changes⟩ := List.forall_mem_cons.1 changes
    obtain ⟨change, hc⟩ := Option.isSome_iff_exists.1 here
    have first (t : Time) (there : change.existsAt t = true) :
        ∃ k, (s t).step options dialect line.content = some k := by
      obtain ⟨k, read⟩ := reads t
      rw [contentsAt_cons hc, if_pos there, Solo.read, List.foldlM_cons] at read
      obtain ⟨k₁, step, -⟩ := Option.bind_eq_some_iff.1 read
      exact ⟨k₁, step⟩
    obtain ⟨r₁, step⟩ := step_solos within (by omega) tuned waits plays hc first
    obtain ⟨tuned₁, waits₁, change', hc', s₁, hs⟩ := plays_step tuned waits plays step
    obtain rfl : change = change' := by
      rw [hc] at hc'
      exact Option.some.inj hc'
    obtain ⟨change', hc'', shifted⟩ := place_step step
    obtain ⟨q, moved, within₁⟩ := within.shift (by omega) change'
    rw [shifted] at moved
    cases moved
    have rest (t : Time) : ∃ k, (s₁ t).read options dialect (contentsAt t lines) = some k := by
      obtain ⟨k, read⟩ := reads t
      have follows := (hs t).2
      rw [contentsAt_cons hc] at read
      split at follows
      · next there =>
        rw [if_pos there, Solo.read, List.foldlM_cons, follows] at read
        exact ⟨k, read⟩
      · next absent =>
        rw [if_neg absent, ← follows] at read
        exact ⟨k, read⟩
    obtain ⟨r', run⟩ := ih within₁ (by omega) tuned₁ waits₁ (fun t => (hs t).1) changes rest
    exact ⟨r', by rw [List.foldlM_cons, step]; exact run⟩

/-- Every line of a run that does not fail has a change. -/
theorem changes_of_run (h : lines.foldlM (Run.step options dialect) r = .ok r') :
    ∀ line ∈ lines, line.change.isSome = true := by
  induction lines generalizing r with
  | nil => exact fun _ hl => absurd hl List.not_mem_nil
  | cons line lines ih =>
    rw [List.foldlM_cons] at h
    obtain ⟨r₁, step, h⟩ := Outcome.bind_eq_ok_iff.1 h
    obtain ⟨change, hc, -⟩ := place_step step
    exact List.forall_mem_cons.2 ⟨by rw [hc]; rfl, ih h⟩

end Run

/-- A solo reads all lines and leaves nothing open. -/
def Solo.Accepts (options : Options) (dialect : Dialect) (contents : List String) : Prop :=
  ∃ s, start.read options dialect contents = some s ∧ s.pending = {} ∧ s.nest.opened.length ≤ 1

section Accepted

variable {options : Options} {dialect : Dialect} {source : Source} {lines : List PhysicalLine}
  {text : String} {d : Diff}

theorem accepts_of_ofLines (h : ofLines options dialect source lines = .ok d) (t : Time) :
    Solo.Accepts options dialect (contentsAt t lines) := by
  obtain ⟨f, s, -, read, ended, seen⟩ := (ofLines_seems h).2 t
  refine ⟨s, read, ended, ?_⟩
  rw [← seen.akin.opened]
  exact Nat.le_refl 1

/-- Lines are accepted exactly if each has a change and the solos of both times accept theirs. -/
theorem ofLines_isOk_iff (few : lines.length < greatestLine) :
    (∃ d, ofLines options dialect source lines = .ok d) ↔
      (∀ line ∈ lines, line.change.isSome = true) ∧
      ∀ t, Solo.Accepts options dialect (contentsAt t lines) := by
  constructor
  · rintro ⟨d, h⟩
    obtain ⟨r, run, -⟩ := Outcome.bind_eq_ok_iff.1 h
    exact ⟨Run.changes_of_run run, accepts_of_ofLines h⟩
  · rintro ⟨changes, accepts⟩
    have tuned := Run.tuned_start source
    have waits := Run.waits_start source
    have plays : ∀ t, (Run.start source).Plays options t .start := Run.plays_start source
    obtain ⟨r, run⟩ := Run.run_solos within_start (by omega) tuned waits plays changes fun t =>
      ⟨_, (accepts t).choose_spec.1⟩
    obtain ⟨tuned', s, hs⟩ := Run.plays_run tuned waits plays run
    -- both solos have come to their ends
    have ended (t : Time) : (s t).pending = {} ∧ (s t).nest.opened.length ≤ 1 := by
      obtain ⟨k, read, rest⟩ := accepts t
      rw [(hs t).2] at read
      obtain rfl := Option.some.inj read
      exact rest
    have unstarted (t : Time) : (r.pending.get t).hasStarted = false := by
      rw [← LogicalLine.hasStarted_collapse (t := t), (hs t).1.pending, (ended t).1]
      rfl
    have finish : r.outline.finish = .ok r.outline.diff := by
      refine finish_eq_ok_iff.2 ⟨fun t => ?_, (Run.neat_run run).orderly.accepted, rfl⟩
      obtain ⟨k, ⟨n, opened, -, image, -⟩, seen⟩ := (hs t).1.shows
      have few := (ended t).2
      rw [← seen.akin.opened, ← image, Nest.opened_map, List.length_map] at few
      rw [opened]
      exact few
    have before : r.pending.before.hasStarted = false := unstarted .before
    have after : r.pending.after.hasStarted = false := unstarted .after
    refine ⟨r.outline.diff, ?_⟩
    rw [ofLines, run, Outcome.ok_bind, Run.finish, before, after]
    exact finish

/-- Lines that are not accepted are to blame themselves. -/
theorem ofLines_blames (rootless : dialect.Rootless) (few : lines.length < greatestLine) :
    (ofLines options dialect source lines).BlamesText := by
  have tuned := Run.tuned_start source
  have waits := Run.waits_start source
  have plays : ∀ t, (Run.start source).Plays options t .start := Run.plays_start source
  refine (Run.run_blames rootless within_start (by omega) tuned waits plays).bind fun r run => ?_
  obtain ⟨-, s, hs⟩ := Run.plays_run tuned waits plays run
  obtain ⟨k, shown, -⟩ := Seems.exists_shows fun t => (hs t).1.shows
  unfold Run.finish
  split
  · exact .fail _ _
  · exact finish_blames shown (Run.neat_run run)

/-- A source text is accepted exactly if a solo accepts its lines. -/
theorem tree_isOk_iff : (∃ tree, Reading.tree text options source dialect = .ok tree) ↔
    Solo.Accepts options dialect (Text.lines text) := by
  constructor
  · rintro ⟨tree, h⟩
    obtain ⟨d, run, -⟩ := Outcome.bind_eq_ok_iff.1 h
    have accepts := accepts_of_ofLines run .before
    rw [PhysicalLine.ofSource, contentsAt_ofSourceLine] at accepts
    exact accepts
  · rintro ⟨s, read, ended, few⟩
    obtain ⟨d, run, unedited, -⟩ := ofSource_spec source read ended few
    obtain ⟨orderly, spec⟩ := ofLines_seems run
    obtain ⟨f, -, shape, -⟩ := spec .before
    obtain ⟨tree, asTree, -⟩ := unedited.asTree orderly.toRegular shape
    exact ⟨tree, by rw [Reading.tree, PhysicalLine.ofSource, run]; exact asTree⟩

/-- A line has a change exactly if it is empty or opens with one of the three symbols. -/
theorem ofDiffLine?_isSome_iff (line : String) : (Change.ofDiffLine? line.toList).isSome = true ↔
    ∀ c, line.toList.head? = some c → c = ' ' ∨ c = '+' ∨ c = '-' := by
  unfold Change.ofDiffLine?
  split
  · next empty => simp [empty]
  · next rest opens => simp [opens]
  · next rest opens => simp [opens]
  · next rest opens => simp [opens]
  · next c rest blank added removed opens =>
    rw [opens]
    constructor
    · intro none
      cases none
    intro h
    obtain rfl | rfl | rfl := h c rfl
    · exact absurd rfl blank
    · exact absurd rfl added
    · exact absurd rfl removed

end Accepted

/-- The verdict on a diff: it is accepted exactly if every line has a change and the texts of both times
are accepted; the text is to blame for every failure; and all of what is accepted is sound and hangs
below the root. -/
theorem diff_verdict {text : String} (clean : '\r' ∉ text.toList)
    (few : (Text.lines text).length < 2147483647) (options : Options) (source source' : Source) :
    ((∃ d, Reading.diff text options source .preprocessor = .ok d) ↔
      (∀ line ∈ Text.lines text, ∀ c, line.toList.head? = some c → c = ' ' ∨ c = '+' ∨ c = '-') ∧
      ∀ t, ∃ tree, Reading.tree (sideText t text) options source' .preprocessor = .ok tree) ∧
    (∀ e, Reading.diff text options source .preprocessor = .error e →
      ∃ cause p, e = .fault (.parse cause p)) ∧
    ∀ d, Reading.diff text options source .preprocessor = .ok d →
      d.Sound ∧ ∀ n, n < d.size → d.Reaches n := by
  have room : (PhysicalLine.ofDiff text).length < greatestLine := by
    rw [PhysicalLine.ofDiff, List.length_map]
    exact few
  refine ⟨?_, ofLines_blames Dialect.rootless_preprocessor room, fun d h => ?_⟩
  · have sides (t : Time) :
        (∃ tree, Reading.tree (sideText t text) options source' .preprocessor = .ok tree) ↔
          Solo.Accepts options .preprocessor (contentsAt t (PhysicalLine.ofDiff text)) := by
      rw [tree_isOk_iff, sideText, Text.lines_unlines (plain_contentsAt clean)]
    have changes : (∀ line ∈ PhysicalLine.ofDiff text, line.change.isSome = true) ↔
        ∀ line ∈ Text.lines text,
          ∀ c, line.toList.head? = some c → c = ' ' ∨ c = '+' ∨ c = '-' := by
      rw [PhysicalLine.ofDiff, List.forall_mem_map]
      exact forall₂_congr fun line _ => ofDiffLine?_isSome_iff line
    rw [← changes, forall_congr' sides]
    exact ofLines_isOk_iff room
  · have orderly := (ofLines_seems h).1
    exact ⟨orderly.sound, fun n hn => orderly.reaches hn⟩

/-- A chain that is opened after the edit and never closed. -/
theorem diff_verdict_unclosed : ∃ cause p,
    Reading.diff "+#if A\n x\n" {} .unknown .preprocessor = .error (.fault (.parse cause p)) := by
  have refused : (Reading.diff "+#if A\n x\n" {} .unknown .preprocessor).isOk = false := by
    decide +kernel
  cases h : Reading.diff "+#if A\n x\n" {} .unknown .preprocessor with
  | ok d =>
    rw [h] at refused
    cases refused
  | error e =>
    have clean : '\r' ∉ "+#if A\n x\n".toList := by decide +kernel
    have few : (Text.lines "+#if A\n x\n").length < 2147483647 := by decide +kernel
    obtain ⟨cause, p, rfl⟩ := (diff_verdict clean few {} .unknown .unknown).2.1 e h
    exact ⟨cause, p, rfl⟩

end Variation.Reading
