import Variation.Proofs.Orderly

/-!
# Reading fails because of the text

Whatever stops a run is told by the text that is read: no place leaves the range of line numbers as
long as there are fewer lines than line numbers, what an outline holds is never out of its store,
and the consistency test at the end has nothing to find.
-/

namespace Variation

namespace Outcome

variable {α β : Type}

/-- An outcome that fails, if at all, because of the text that is read. -/
def BlamesText (x : Outcome α) : Prop := ∀ e, x = .error e → ∃ cause p, e = .fault (.parse cause p)

namespace BlamesText

variable {x : Outcome α} {f : α → Outcome β}

theorem ok (a : α) : BlamesText (.ok a : Outcome α) := fun _ h => nomatch h

theorem fail (cause : ParseFault) (p : Position) :
    BlamesText (Reading.Outline.fail cause p : Outcome α) := by
  rintro e ⟨⟩
  exact ⟨cause, p, rfl⟩

theorem bind (hx : x.BlamesText) (hf : ∀ a, x = .ok a → (f a).BlamesText) :
    (x >>= f).BlamesText := by
  cases x with
  | error e =>
    rintro e' ⟨⟩
    exact hx e rfl
  | ok a => exact hf a rfl

theorem forM {as : List α} {f : α → Outcome Unit} (h : ∀ a ∈ as, (f a).BlamesText) :
    (as.forM f).BlamesText := by
  induction as with
  | nil => exact ok ()
  | cons a as ih =>
    obtain ⟨here, behind⟩ := List.forall_mem_cons.1 h
    exact here.bind fun _ _ => ih behind

end BlamesText

end Outcome

/-- No line of a dialect is taken for the root. -/
def Dialect.Rootless (dialect : Dialect) : Prop := ∀ text, dialect.classify text ≠ .ok (some .root)

theorem Dialect.rootless_preprocessor : Dialect.preprocessor.Rootless := by
  intro text h
  have kind : annotationKind? text = some .root := Except.ok.inj h
  obtain ⟨body, -, kind⟩ := Option.bind_eq_some_iff.1 kind
  obtain ⟨word, found, kind⟩ := Option.map_eq_some_iff.1 kind
  have known := List.mem_of_find?_eq_some found
  simp only [annotationWords, List.mem_cons, List.not_mem_nil, or_false] at known
  obtain rfl | rfl | rfl | rfl := known <;> cases kind

theorem Dialect.Rootless.kind_ne_root {dialect : Dialect} (rootless : dialect.Rootless)
    {text : String} {kind : Kind} {formula : Option Formula}
    (item : dialect.item? text = some (.node kind formula)) : kind ≠ .root := by
  intro root
  obtain ⟨kind?, read, -, rfl, -⟩ := Dialect.item?_cases item
  cases kind? with
  | none => cases root
  | some kind => exact rootless text (by rw [read, ← root]; rfl)

namespace Reading.Outline

open Diff

/-! ## Putting a line fails because of the line -/

section Put

variable {o : Outline} {t : Time} {m : Time → Nest Facet} {options : Options} {dialect : Dialect}
  {line : LogicalLine} {change : Change} {last stop start : Position} {kind : Kind}
  {formula : Option Formula} {label : Label}

theorem closeChains_blames {closing : ClosingLine} (ho : ∀ t, o.Shows t (m t)) :
    (closeChains closing o).BlamesText := by
  by_cases all : ∀ t, ∃ k, closedAt? closing m t = some k
  · obtain ⟨o', run, -⟩ := closeChains_total ho fun t => (all t).choose_spec
    rw [run]
    exact .ok o'
  · obtain ⟨t, stuck⟩ := not_forall.1 all
    have none : closedAt? closing m t = none := by
      rw [Option.eq_none_iff_forall_ne_some]
      exact fun k hk => stuck ⟨k, hk⟩
    unfold closedAt? at none
    split at none
    · next there =>
      rw [closeChains_eq, closeAll_error rfl (fun t => (ho t).forget) (nodup_times _)
        (Change.mem_times.2 there) none]
      exact .fail _ _
    · cases none

theorem checkBranch_blames {k : Nest Facet} (ho : o.Shows t k) (p : Position) (x : Node) :
    (checkBranch { o with diff := o.diff.append x } p t).BlamesText := by
  obtain ⟨n, opened, holds, -, -⟩ := ho
  cases n with
  | base a done =>
    simp only [checkBranch, opened, Nest.opened]
    exact .fail _ _
  | under a done rest =>
    obtain ⟨os, hos⟩ := rest.opened_eq_cons
    have ha : a < o.diff.size := holds.linked.1
    simp only [checkBranch, opened, Nest.opened, hos,
      node_look (d := o.diff.append x) (n := a) (by rw [size_append]; exact Nat.lt_succ_of_lt ha),
      Outcome.ok_bind]
    split
    · exact .fail _ _
    · exact .ok ()

theorem push_blames (root : kind ≠ .root) (law : formula.isSome = kind.isConditional)
    (ho : ∀ t, o.Shows t (m t)) :
    (push change kind start stop formula label o).BlamesText := by
  have branches : (change.times.forM (checkBranch
      { o with diff := o.diff.append (newNode change kind start stop formula label) }
      start)).BlamesText := .forM fun t _ => checkBranch_blames (ho t) start _
  by_cases all : kind.isContinuation = true → ∀ t, change.existsAt t = true → checkBranch
      { o with diff := o.diff.append (newNode change kind start stop formula label) } start t = .ok ()
  · obtain ⟨tops, htops⟩ := Shows.exists_top ho
    rw [push_eq (fun t => (htops t).1) (fun t => (htops t).2) root law all]
    exact .ok _
  · obtain ⟨continuation, stuck⟩ := Classical.not_imp.1 all
    cases hb : change.times.forM (checkBranch
        { o with diff := o.diff.append (newNode change kind start stop formula label) } start) with
    | ok _ =>
      exact absurd (fun t there => Outcome.forM_eq_ok_iff.1 hb t (Change.mem_times.2 there)) stuck
    | error e =>
      rw [push_branches_error continuation law hb]
      rw [hb] at branches
      rintro e' ⟨⟩
      exact branches e rfl

/-- A line that cannot be put into an outline is itself to blame. -/
theorem put_blames (rootless : dialect.Rootless) (range : last.add? 1 = some stop)
    (ho : ∀ t, o.Shows t (m t)) : (o.put options dialect line change last).BlamesText := by
  cases item : dialect.item? line.text with
  | none =>
    obtain ⟨cause, failed⟩ : ∃ cause, o.put options dialect line change last =
      fail cause ((startOf line last).restrict change) := put_unreadable item range
    rw [failed]
    exact .fail _ _
  | some i =>
    cases i with
    | closing =>
      rw [put_closing item range]
      exact closeChains_blames ho
    | node kind formula =>
      obtain pushing | ⟨-, -, c, o', joining, -⟩ :=
        put_node options change (Shows.lastCode_lt ho) item range
      · rw [pushing]
        exact push_blames (rootless.kind_ne_root item) (item?_node item).2 ho
      · rw [joining]
        exact .ok o'

/-- At the end only what is still open is to blame. -/
theorem finish_blames (ho : ∀ t, o.Shows t (m t)) (neat : o.Neat) : o.finish.BlamesText := by
  refine .bind (.forM fun t _ => ?_) fun _ _ => ?_
  · obtain ⟨n, opened, holds, -, -⟩ := ho t
    cases n with
    | base a done =>
      simp only [opened, Nest.opened]
      exact .ok ()
    | under a done rest =>
      obtain ⟨os, hos⟩ := rest.opened_eq_cons
      have ha : a < o.diff.size := holds.linked.1
      simp only [opened, Nest.opened, hos, node_look ha, Outcome.ok_bind]
      exact .fail _ _
  · rw [neat.orderly.accepted]
    exact .ok _

end Put

end Reading.Outline

namespace Reading

open Diff Outline

/-! ## Places stay in range -/

/-- The places of a position are those of some of the first lines. -/
structure Within (p : Position) (lines : Nat) : Prop where
  diff : 0 ≤ p.diff ∧ p.diff ≤ lines
  times : ∀ t, 0 ≤ p.get t ∧ p.get t ≤ lines

/-- The greatest line number. -/
def greatestLine : Nat := 2147483647

theorem within_start : Within .start 0 :=
  ⟨⟨Int.le_refl 0, Int.le_refl 0⟩, fun t => by cases t <;> exact ⟨Int.le_refl 0, Int.le_refl 0⟩⟩

theorem Within.shift {p : Position} {lines : Nat} (h : Within p lines) (room : lines < greatestLine)
    (change : Change) : ∃ q, p.shift? 1 change = some q ∧ Within q (lines + 1) := by
  obtain ⟨⟨low, high⟩, times⟩ := h
  obtain ⟨lowBefore, highBefore⟩ : 0 ≤ p.before ∧ p.before ≤ lines := times .before
  obtain ⟨lowAfter, highAfter⟩ : 0 ≤ p.after ∧ p.after ≤ lines := times .after
  unfold greatestLine at room
  have fits (n k : Int) (hn : 0 ≤ n ∧ n ≤ lines) (hk : k = 0 ∨ k = 1) :
      lineNumber? (n + k) = some (n + k) ∧ 0 ≤ n + k ∧ n + k ≤ (lines + 1 : Nat) := by
    rw [lineNumber?_eq_some_iff, FitsLine]
    omega
  have move (c : Prop) [Decidable c] : (if c then (0 : Int) else 1) = 0 ∨
      (if c then (0 : Int) else 1) = 1 := by
    split
    · exact .inl rfl
    · exact .inr rfl
  obtain ⟨diff, within⟩ := fits p.diff 1 ⟨low, high⟩ (.inr rfl)
  obtain ⟨before, withinBefore⟩ := fits p.before _ ⟨lowBefore, highBefore⟩ (move (change = .added))
  obtain ⟨after, withinAfter⟩ := fits p.after _ ⟨lowAfter, highAfter⟩ (move (change = .removed))
  refine ⟨⟨_, _, _⟩, by rw [Position.shift?, diff, before, after]; rfl, within, fun t => ?_⟩
  cases t
  · exact withinBefore
  · exact withinAfter

namespace Run

variable {options : Options} {dialect : Dialect} {r r' : Run} {s : Time → Solo} {t : Time}
  {lines : List PhysicalLine} {line : PhysicalLine} {place : Position} {change : Change}

theorem place_flush (h : r.flush options dialect t = .ok r') : r'.place = r.place := by
  obtain ⟨-, rfl⟩ | ⟨-, outline, -, rfl⟩ := flush_cases h
  · rfl
  · rfl

theorem place_flushAll (h : r.flushAll options dialect = .ok r') : r'.place = r.place := by
  obtain ⟨-, outline, -, rfl⟩ | ⟨-, r₁, run, h⟩ := flushAll_cases h
  · rfl
  · rw [place_flush h, place_flush run]

/-- Reading a line moves on to it. -/
theorem place_step (h : r.step options dialect line = .ok r') :
    ∃ change, line.change = some change ∧ r.place.shift? 1 change = some r'.place := by
  obtain ⟨change, place, hc, shifted⟩ := exists_shift_of_step h
  refine ⟨change, hc, ?_⟩
  rw [step_eq hc shifted] at h
  split at h
  · cases h
    exact shifted
  · rw [place_flushAll h]
    exact shifted

/-! ## The run fails because of the text -/

theorem flush_blames (rootless : dialect.Rootless) {stop : Position}
    (range : r.place.add? 1 = some stop) (plays : ∀ t, r.Plays options t (s t)) (t : Time) :
    (r.flush options dialect t).BlamesText := by
  obtain ⟨k, shown, -⟩ := Seems.exists_shows fun t => (plays t).shows
  unfold flush
  by_cases complete : (r.pending.get t).isComplete = true
  · simp only [complete, if_true]
    exact (put_blames rootless range shown).bind fun _ _ => .ok _
  · simp only [complete, Bool.false_eq_true, if_false]
    exact .ok r

theorem flushAll_blames (rootless : dialect.Rootless) {stop : Position}
    (range : r.place.add? 1 = some stop) (plays : ∀ t, r.Plays options t (s t)) :
    (r.flushAll options dialect).BlamesText := by
  obtain ⟨k, shown, -⟩ := Seems.exists_shows fun t => (plays t).shows
  unfold flushAll
  split
  · exact (put_blames rootless range shown).bind fun _ _ => .ok _
  · refine (flush_blames rootless range plays .before).bind fun r₁ run => ?_
    obtain ⟨s₁, plays₁, -⟩ := plays_flush plays run
    rw [← place_flush run] at range
    exact flush_blames rootless range plays₁ .after

theorem step_blames (rootless : dialect.Rootless) {count : Nat} (within : Within r.place count)
    (room : count + 1 < greatestLine) (plays : ∀ t, r.Plays options t (s t)) :
    (r.step options dialect line).BlamesText := by
  cases hc : line.change with
  | none =>
    obtain ⟨q, moved, -⟩ := within.shift (Nat.lt_of_succ_lt room) .unchanged
    have here : r.place.add? 1 = some q := moved
    rw [step, hc]
    simp only [here, Outcome.inRange_some, Outcome.ok_bind]
    exact .fail _ _
  | some change =>
    obtain ⟨place, shifted, within'⟩ := within.shift (Nat.lt_of_succ_lt room) change
    rw [step_eq hc shifted]
    split
    · exact .ok _
    · obtain ⟨stop, range, -⟩ := within'.shift room .unchanged
      exact flushAll_blames (r := ({ r with place } : Run).take change line.content) rootless range
        fun t => (plays t).take shifted line.content

/-- A run fails because of the text as long as the lines have places. -/
theorem run_blames (rootless : dialect.Rootless) {count : Nat} (within : Within r.place count)
    (room : count + lines.length < greatestLine) (tuned : r.Tuned) (waits : r.Waits)
    (plays : ∀ t, r.Plays options t (s t)) :
    (lines.foldlM (Run.step options dialect) r).BlamesText := by
  induction lines generalizing r s count with
  | nil => exact .ok r
  | cons line lines ih =>
    rw [List.length_cons] at room
    rw [List.foldlM_cons]
    refine (step_blames rootless within (by omega) plays).bind fun r₁ step => ?_
    obtain ⟨tuned₁, waits₁, _, -, s₁, hs⟩ := plays_step tuned waits plays step
    obtain ⟨change, -, shifted⟩ := place_step step
    obtain ⟨q, moved, within₁⟩ := within.shift (by omega) change
    rw [shifted] at moved
    cases moved
    exact ih within₁ (by omega) tuned₁ waits₁ fun t => (hs t).1

end Run

end Reading

end Variation
