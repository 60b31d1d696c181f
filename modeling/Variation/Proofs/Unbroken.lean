import Variation.Proofs.Blame
import Variation.Proofs.Blocks
import Variation.Proofs.Commutes

/-!
# Logical lines without a break

If every line that leaves a logical line open is followed by a line of the same change, then each
logical line stands in the text as it is: its lines follow each other and have one change. So between
two lines of a run, what was read is what was put into the outline and, behind it, the lines of the
one logical line that is still open.
-/

namespace Variation.Reading

open Diff Outline

/-! ## Lines that leave a logical line open -/

/-- The logical line that is left open behind lines. -/
def LogicalLine.after (contents : List String) : LogicalLine :=
  contents.foldl (fun l content => (l.consume content .start).remainder) {}

/-- Whether a line is there at a time. -/
def PhysicalLine.isThere (line : PhysicalLine) (t : Time) : Bool := line.change.any (·.existsAt t)

/-- Whether the last of the lines that were read leaves a logical line open at a time at which it is
there. -/
def leavesOpen (read : List PhysicalLine) (last : PhysicalLine) : Bool :=
  Time.all.any fun t => last.isThere t && (LogicalLine.after (contentsAt t read)).hasStarted

/-- Every line that leaves a logical line open is followed by a line of the same change. -/
def Unbroken (lines : List PhysicalLine) : Prop :=
  ∀ k < lines.length, ∀ line ∈ lines[k]?, ∀ next ∈ lines[k + 1]?,
    leavesOpen (lines.take (k + 1)) line = true → next.change = line.change

instance (lines : List PhysicalLine) : Decidable (Unbroken lines) := by
  unfold Unbroken
  infer_instance

theorem Unbroken.change_eq {read rest : List PhysicalLine} {line next : PhysicalLine}
    (h : Unbroken (read ++ [line] ++ next :: rest)) (open_ : leavesOpen (read ++ [line]) line = true) :
    next.change = line.change := by
  have short : read.length < (read ++ [line] ++ next :: rest).length := by simp
  have here : line ∈ (read ++ [line] ++ next :: rest)[read.length]? := by simp
  have behind : next ∈ (read ++ [line] ++ next :: rest)[read.length + 1]? := by simp
  have taken : (read ++ [line] ++ next :: rest).take (read.length + 1) = read ++ [line] :=
    List.take_left' (by simp)
  refine h read.length short line here next behind ?_
  rw [taken]
  exact open_

namespace LogicalLine

/-- A logical line without its place. -/
def forget (l : LogicalLine) : LogicalLine := { l with start := l.start.map fun _ => .start }

variable {l : LogicalLine} {content : String} {p : Position}

theorem forget_consume : (l.consume content p).forget = l.forget.consume content .start := by
  cases h : l.start <;> simp [forget, consume, h]

@[simp] theorem hasStarted_forget : l.forget.hasStarted = l.hasStarted := by
  cases h : l.start <;> simp [forget, hasStarted, h]

theorem forget_remainder : l.remainder.forget = l.forget.remainder := by
  have same : l.forget.isComplete = l.isComplete := by
    rw [isComplete, hasStarted_forget]
    rfl
  unfold remainder
  rw [same]
  split <;> rfl

end LogicalLine

namespace Solo

variable {options : Options} {dialect : Dialect} {s s' : Solo} {content : String}

theorem pending_flush (h : s.flush dialect = some s') : s'.pending = s.pending.remainder := by
  unfold flush at h
  split at h
  · next complete =>
    obtain ⟨stop, -, h⟩ := Option.bind_eq_some_iff.1 h
    obtain ⟨nest, -, h⟩ := Option.bind_eq_some_iff.1 h
    cases h
    exact (if_pos complete).symm
  · next incomplete =>
    cases h
    exact (if_neg incomplete).symm

/-- If no line is skipped, the lines tell which logical line is left open behind them. -/
theorem pending_read {contents : List String} (all : options.skipBlank = false)
    (h : start.read options dialect contents = some s) :
    s.pending.forget = LogicalLine.after contents := by
  have run (contents : List String) (k : Solo) (h : k.read options dialect contents = some s) :
      s.pending.forget = contents.foldl (fun l content => (l.consume content .start).remainder)
        k.pending.forget := by
    induction contents generalizing k with
    | nil =>
      cases h
      rfl
    | cons content contents ih =>
      rw [read, List.foldlM_cons] at h
      obtain ⟨k₁, step, h⟩ := Option.bind_eq_some_iff.1 h
      obtain ⟨place, moved, -⟩ := Option.bind_eq_some_iff.1 step
      rw [step_eq moved, all] at step
      rw [ih k₁ h, List.foldl_cons, pending_flush step, LogicalLine.forget_remainder,
        LogicalLine.forget_consume]
  exact run contents start h

end Solo

namespace Run

variable {options : Options} {dialect : Dialect} {source : Source} {r r' : Run}
  {read rest : List PhysicalLine} {line : PhysicalLine} {change : Change} {count : Nat}
  {back : List String} {content : String}

/-! ## What a run has read -/

/-- A run has lines of one change pending, behind a number of lines; both times share them if both
have them. -/
structure Pends (r : Run) (change : Change) (count : Nat) (back : List String) : Prop where
  lines : ∃ p : Position, p.diff = count + 1 ∧ ∀ t, change.existsAt t = true →
    (r.pending.get t).lines = back ∧ (r.pending.get t).start = some p
  absent : ∀ t, change.existsAt t = false → r.pending.get t = {}
  shared : change = .unchanged → r.shared = true
  full : back ≠ []

/-- What a run has read was put into its outline, or is pending behind it. -/
structure Spells (r : Run) (read : List PhysicalLine) : Prop where
  place : r.place.diff = read.length
  written : ∃ ps front, r.outline.Written ps front ∧
    ((front = read ∧ ∀ t, r.pending.get t = {}) ∨
      ∃ change back, r.Pends change front.length back ∧
        read = front ++ back.map fun content => ⟨some change, content⟩)

theorem spells_start (source : Source) : (Run.start source).Spells [] :=
  ⟨rfl, [], [], written_start source, .inl ⟨rfl, fun t => by cases t <;> rfl⟩⟩

/-- A line that is taken first is pending. -/
theorem Pends.first {place : Position} (empty : ∀ t, r.pending.get t = {})
    (line : place.diff = count + 1) :
    (({ r with place } : Run).take change content).Pends change count [content] := by
  refine ⟨⟨place, line, fun t there => ?_⟩, fun t absent => ?_, fun unchanged => ?_,
    List.cons_ne_nil _ _⟩
  · have here : ({ r with place } : Run).pending.get t = {} := empty t
    rw [get_take, if_pos there, here]
    exact ⟨rfl, rfl⟩
  · rw [get_take, if_neg (Bool.eq_false_iff.1 absent)]
    exact empty t
  · have before : r.pending.before = {} := empty .before
    have after : r.pending.after = {} := empty .after
    show (change == .unchanged && (r.shared ||
      (!r.pending.before.hasStarted && !r.pending.after.hasStarted))) = true
    rw [unchanged, before, after]
    simp [LogicalLine.hasStarted]

/-- A line of the same change is pending behind what was pending. -/
theorem Pends.next (h : r.Pends change count back) (place : Position) :
    (({ r with place } : Run).take change content).Pends change count (back ++ [content]) := by
  obtain ⟨⟨p, line, lines⟩, absent, shared, full⟩ := h
  refine ⟨⟨p, line, fun t there => ?_⟩, fun t none => ?_, fun unchanged => ?_, by simp⟩
  · obtain ⟨same, begins⟩ := lines t there
    rw [get_take, if_pos there]
    show (r.pending.get t).lines ++ [content] = _ ∧ (r.pending.get t).start.or _ = _
    rw [same, begins]
    exact ⟨rfl, rfl⟩
  · rw [get_take, if_neg (Bool.eq_false_iff.1 none)]
    exact absent t none
  · show (change == .unchanged && (r.shared || _)) = true
    rw [shared unchanged, unchanged]
    rfl

namespace Pends

/-- A time at which the pending line is not there has nothing to flush. -/
theorem existsAt_of_complete {t : Time} (pends : r.Pends change count back)
    (complete : (r.pending.get t).isComplete = true) : change.existsAt t = true := by
  by_contra absent
  rw [pends.absent t (Bool.eq_false_iff.2 absent)] at complete
  cases complete

/-- A line that both times share is never flushed for one of them. -/
theorem onlyAt_of_complete {t : Time} (pends : r.Pends change count back) (tuned : r.Tuned)
    (alone : ¬ (r.shared = true ∧ r.pending.before.isComplete = true ∧
      r.pending.after.isComplete = true))
    (complete : (r.pending.get t).isComplete = true) : change = .onlyAt t := by
  have here := pends.existsAt_of_complete complete
  have single : change ≠ .unchanged := by
    rintro unchanged
    have shared := pends.shared unchanged
    have same : r.pending.before = r.pending.after := tuned.shared shared
    have both (u : Time) : (r.pending.get u).isComplete = true := by
      cases t <;> cases u
      · exact complete
      · exact (congrArg LogicalLine.isComplete same.symm).trans complete
      · exact (congrArg LogicalLine.isComplete same).trans complete
      · exact complete
    exact alone ⟨shared, both .before, both .after⟩
  cases change <;> cases t <;> first | rfl | exact absurd rfl single | cases here

/-- Once a line of one time is flushed, nothing is pending. -/
theorem emptied {t : Time} (pends : r.Pends change count back) (only : change = .onlyAt t) :
    r.pending.set t {} = .both {} := by
  apply Sides.ext_get
  intro u
  rw [Sides.get_set, Sides.get_both]
  split
  · rfl
  · next other =>
    refine pends.absent u ?_
    rw [only, Change.existsAt_onlyAt]
    exact beq_eq_false_iff_ne.2 other

/-- What is pending is put as one line, if it is complete. -/
theorem flushAll (pends : r.Pends change count back) (tuned : r.Tuned)
    (apart : change ≠ .unchanged → r.shared = false) (h : r.flushAll options dialect = .ok r') :
    r' = r ∨ ∃ line outline, line.lines = back ∧ (startOf line r.place).diff = count + 1 ∧
      r.outline.put options dialect line change r.place = .ok outline ∧
      r' = { r with outline, pending := .both {} } := by
  obtain ⟨p, start, lines⟩ := pends.lines
  have begins (t : Time) (there : change.existsAt t = true) :
      (startOf (r.pending.get t) r.place).diff = count + 1 := by
    rw [startOf, (lines t there).2]
    exact start
  obtain ⟨⟨both, complete, -⟩, outline, put, rfl⟩ | ⟨alone, r₁, run, flushed⟩ := flushAll_cases h
  · have unchanged : change = .unchanged := by
      by_contra single
      rw [apart single] at both
      cases both
    have here : change.existsAt .before = true := by rw [unchanged]; rfl
    exact .inr ⟨_, outline, (lines .before here).1, begins .before here, by rw [unchanged]; exact put,
      rfl⟩
  · obtain ⟨-, rfl⟩ | ⟨complete, outline, put, rfl⟩ := flush_cases run
    · obtain ⟨-, rfl⟩ | ⟨complete, outline, put, rfl⟩ := flush_cases flushed
      · exact .inl rfl
      · have only := pends.onlyAt_of_complete tuned alone (t := .after) complete
        have here := pends.existsAt_of_complete (t := .after) complete
        rw [← only] at put
        exact .inr ⟨_, outline, (lines .after here).1, begins .after here, put,
          by rw [pends.emptied only]⟩
    · have only := pends.onlyAt_of_complete tuned alone (t := .before) complete
      have here := pends.existsAt_of_complete (t := .before) complete
      rw [← only] at put
      rw [pends.emptied only] at flushed
      obtain ⟨-, rfl⟩ | ⟨complete', -⟩ := flush_cases flushed
      · exact .inr ⟨_, outline, (lines .before here).1, begins .before here, put, rfl⟩
      · cases complete'

end Pends

/-- A line is read behind what was read, unless it breaks what is pending. -/
theorem Spells.step {s : Time → Solo} (spells : r.Spells read) (all : options.skipBlank = false)
    (tuned : r.Tuned) (plays : ∀ t, r.Plays options t (s t)) (neat : r.outline.Neat)
    (follows : ∀ last ∈ read.getLast?, (∃ t, last.isThere t = true ∧
      (r.pending.get t).hasStarted = true) → line.change = last.change)
    (h : r.step options dialect line = .ok r') : r'.Spells (read ++ [line]) := by
  obtain ⟨change, place, hc, shifted⟩ := exists_shift_of_step h
  rw [step_eq hc shifted, all, Bool.false_and, if_neg Bool.false_ne_true] at h
  obtain ⟨counted, ps, front, written, pends⟩ := spells
  have whole : line = ⟨some change, line.content⟩ := by rw [← hc]
  have moved : place.diff = read.length + 1 := by rw [diff_shift shifted, counted]
  -- the line is pending now, alone or behind what was pending
  obtain ⟨back, pends', spelled⟩ : ∃ back,
      (({ r with place } : Run).take change line.content).Pends change front.length back ∧
        read ++ [line] = front ++ back.map fun content => ⟨some change, content⟩ := by
    obtain ⟨rfl, empty⟩ | ⟨change', back, pends, rfl⟩ := pends
    · exact ⟨_, Pends.first empty moved, by rw [List.map_singleton, ← whole]⟩
    · obtain ⟨back₀, last, rfl⟩ := (List.eq_nil_or_concat back).resolve_left pends.full
      have same : change = change' := by
        have followed := follows ⟨some change', last⟩ (by simp) ?_
        · rw [hc] at followed
          exact Option.some.inj followed
        · obtain ⟨p, -, lines⟩ := pends.lines
          obtain there | there := change'.existsAt_or
          · exact ⟨.before, there, by rw [LogicalLine.hasStarted, (lines _ there).2]; rfl⟩
          · exact ⟨.after, there, by rw [LogicalLine.hasStarted, (lines _ there).2]; rfl⟩
      subst same
      exact ⟨_, pends.next place, by simp [← whole]⟩
  have place' : (({ r with place } : Run).take change line.content).place.diff =
      (read ++ [line]).length := by
    rw [List.length_append]
    exact moved
  have tuned' : (({ r with place } : Run).take change line.content).Tuned :=
    Tuned.take (r := { r with place }) ⟨tuned.shared, tuned.fresh⟩ _
  have apart : change ≠ .unchanged →
      (({ r with place } : Run).take change line.content).shared = false := by
    intro single
    show (change == .unchanged && _) = false
    rw [beq_eq_false_iff_ne.2 single, Bool.false_and]
  obtain rfl | ⟨full, outline, lines, start, put, rfl⟩ := pends'.flushAll tuned' apart h
  · exact ⟨place', ps, front, written, .inr ⟨change, back, pends', spelled⟩⟩
  · obtain ⟨k, shown, -⟩ := Seems.exists_shows fun t => (plays t).shows
    obtain ⟨ps', written'⟩ := written.put neat shown put start (by rw [lines]; exact pends'.full)
    rw [lines, ← spelled] at written'
    exact ⟨place', ps', _, written', .inl ⟨rfl, fun t => Sides.get_both _ t⟩⟩

/-- A run over lines without a break has put or pending what it has read. -/
theorem Spells.run (all : options.skipBlank = false) (unbroken : Unbroken (read ++ rest))
    (hr : read.foldlM (Run.step options dialect) (Run.start source) = .ok r)
    (spells : r.Spells read) (h : rest.foldlM (Run.step options dialect) r = .ok r') :
    r'.Spells (read ++ rest) := by
  induction rest generalizing read r with
  | nil =>
    cases h
    rw [List.append_nil]
    exact spells
  | cons line rest ih =>
    rw [List.foldlM_cons] at h
    obtain ⟨r₁, step, h⟩ := Outcome.bind_eq_ok_iff.1 h
    obtain ⟨tuned, s, hs⟩ := plays_run (tuned_start source) (waits_start source)
      (plays_start source) hr
    have spells₁ : r₁.Spells (read ++ [line]) := by
      refine spells.step all tuned (fun t => (hs t).1) (neat_run hr) (fun last hlast open_ => ?_) step
      obtain ⟨read₀, rfl⟩ : ∃ read₀, read = read₀ ++ [last] := List.getLast?_eq_some_iff.1 hlast
      refine unbroken.change_eq (List.any_eq_true.2 ?_)
      obtain ⟨t, there, started⟩ := open_
      refine ⟨t, Time.mem_all t, ?_⟩
      rw [there, Bool.true_and, ← Solo.pending_read all (hs t).2, ← (hs t).1.pending,
        LogicalLine.hasStarted_forget, LogicalLine.hasStarted_collapse]
      exact started
    have run₁ := run_snoc hr step
    have unbroken₁ : Unbroken (read ++ [line] ++ rest) := by
      rw [List.append_assoc]
      exact unbroken
    have whole := ih unbroken₁ run₁ spells₁ h
    rw [List.append_assoc] at whole
    exact whole

end Run

/-- What is read from lines without a break is written piece by piece, and nothing is open. -/
theorem written_of_ofLines {options : Options} {dialect : Dialect} {source : Source}
    {lines : List PhysicalLine} {d : Diff} (all : options.skipBlank = false)
    (unbroken : Unbroken lines) (h : ofLines options dialect source lines = .ok d) :
    ∃ o ps, o.diff = d ∧ Written o ps lines ∧ ∀ t, o.opened.get t = [root] := by
  obtain ⟨r, run, finish⟩ := Outcome.bind_eq_ok_iff.1 h
  obtain ⟨tuned, s, hs⟩ := Run.plays_run (Run.tuned_start source) (Run.waits_start source)
    (Run.plays_start source) run
  have spells : r.Spells ([] ++ lines) :=
    Run.Spells.run all unbroken rfl (Run.spells_start source) run
  obtain ⟨-, ps, front, written, pends⟩ := spells
  obtain ⟨unstarted, unopened, rfl⟩ := Run.of_finish finish
  refine ⟨r.outline, ps, rfl, ?_, fun t => ?_⟩
  · obtain ⟨rfl, -⟩ | ⟨change, back, pends, -⟩ := pends
    · exact written
    · obtain ⟨p, -, pending⟩ := pends.lines
      have unmet (t : Time) : ¬ change.existsAt t = true := fun there => by
        have empty := unstarted t
        rw [LogicalLine.hasStarted, (pending t there).2] at empty
        cases empty
      exact absurd change.existsAt_or (not_or.2 ⟨unmet .before, unmet .after⟩)
  · obtain ⟨k, ⟨n, opened, holds, -, -⟩, -⟩ := (hs t).1.shows
    obtain ⟨f, rfl, -⟩ := holds.exists_shape (opened ▸ unopened t)
    exact opened

end Variation.Reading
