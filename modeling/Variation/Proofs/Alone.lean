import Variation.Proofs.Likeness
import Variation.Reading

/-!
# Both times read alone

A run reads the texts of both times at once. `Solo` reads the lines of one time alone: it has one
logical line, one line number and one nest. A run `Plays` a solo at a time if it looks like it
there. Every step of a run is a step of the solo of each time at which the line is there, and
nothing for the other one, so a whole run is two solos over the lines of their times.

Two things keep the times apart: a logical line that both times share was taken by both from its
first physical line on (`Tuned.shared`), and what is complete never waits (`Waits`), so a line
of one time never flushes what belongs to the other.
-/

namespace Variation.Reading

open Outline

/-- A logical line as it is at a time. -/
def LogicalLine.collapse (l : LogicalLine) (t : Time) : LogicalLine :=
  { l with start := l.start.map (·.collapse t) }

namespace LogicalLine

variable {l : LogicalLine} {t : Time}

@[simp] theorem lines_collapse : (l.collapse t).lines = l.lines := rfl

@[simp] theorem hasStarted_collapse : (l.collapse t).hasStarted = l.hasStarted := by
  cases h : l.start <;> simp [collapse, hasStarted, h]

@[simp] theorem isComplete_collapse : (l.collapse t).isComplete = l.isComplete := by
  simp only [isComplete, hasStarted_collapse]
  rfl

/-- What is left of a logical line after it was flushed. -/
def remainder (l : LogicalLine) : LogicalLine := if l.isComplete then {} else l

theorem isComplete_remainder : l.remainder.isComplete = false := by
  unfold remainder
  split
  · rfl
  · next incomplete => exact Bool.eq_false_iff.2 incomplete

theorem collapse_consume {content : String} {p : Position} :
    (l.consume content p).collapse t = (l.collapse t).consume content (p.collapse t) := by
  cases h : l.start <;> simp [collapse, consume, h]

/-- The place at which a logical line starts, as it is at a time. -/
theorem get_startOf {p : Position} :
    (startOf l p).get t = (startOf (l.collapse t) (p.collapse t)).diff := by
  cases h : l.start <;> simp [startOf, collapse, h] <;> rfl

end LogicalLine

/-- The text of one time while it is read alone. -/
structure Solo where
  pending : LogicalLine
  place : Int
  nest : Nest Facet

/-- Whether a line is not left out. -/
def Options.reads (options : Options) (content : String) : Bool :=
  !(options.skipBlank && (Text.trimStart content.toList).isEmpty)

namespace Solo

/-- The place of a line number in a text that nothing changes. -/
def flat (n : Int) : Position := ⟨n, n, n⟩

/-- What the root says at either time. -/
def rootFacet : Facet := ⟨.root, 0, invalidLine, none, {}, none⟩

/-- Before the first line. -/
def start : Solo := ⟨{}, 0, .base rootFacet .nil⟩

/-- Puts the logical line into the nest if it is complete. -/
def flush (dialect : Dialect) (s : Solo) : Option Solo :=
  if s.pending.isComplete then do
    let stop ← lineNumber? (s.place + 1)
    let nest ← s.nest.put dialect s.pending.lines (startOf s.pending (flat s.place)).diff stop
    return { s with pending := {}, nest }
  else some s

/-- Reads a line. -/
def step (options : Options) (dialect : Dialect) (s : Solo) (content : String) : Option Solo := do
  let place ← lineNumber? (s.place + 1)
  if options.skipBlank && (Text.trimStart content.toList).isEmpty then
    return { s with place }
  else
    flush dialect { s with place, pending := s.pending.consume content (flat place) }

/-- Reads lines. -/
def read (options : Options) (dialect : Dialect) (s : Solo) (contents : List String) :
    Option Solo :=
  contents.foldlM (Solo.step options dialect) s

variable {options : Options} {dialect : Dialect} {s s' : Solo} {content : String}

theorem flush_of_incomplete (h : s.pending.isComplete = false) : s.flush dialect = some s := by
  rw [flush, h]
  rfl

/-- Reading a line, after moving on to it. -/
theorem step_eq {place : Int} (moved : lineNumber? (s.place + 1) = some place) :
    s.step options dialect content =
      if options.skipBlank && (Text.trimStart content.toList).isEmpty then some { s with place }
      else flush dialect { s with place, pending := s.pending.consume content (flat place) } := by
  rw [step, moved]
  rfl

/-! ## Reading alone loses nothing -/

/-- What is read and not yet forgotten. -/
def heard (s : Solo) : List String := s.nest.printed ++ s.pending.lines

theorem heard_flush (h : s.flush dialect = some s') : s'.heard = s.heard := by
  unfold flush at h
  split at h
  · cases hn : lineNumber? (s.place + 1) with
    | none => simp [hn] at h
    | some stop =>
      cases hm : s.nest.put dialect s.pending.lines (startOf s.pending (flat s.place)).diff stop with
      | none => simp [hn, hm] at h
      | some m =>
        simp only [hn, hm, Option.bind_eq_bind, Option.bind_some, Option.pure_def,
          Option.some.injEq] at h
        subst h
        show m.printed ++ [] = s.nest.printed ++ s.pending.lines
        rw [List.append_nil]
        exact Nest.printed_put hm
  · cases h
    rfl

theorem heard_step (h : s.step options dialect content = some s') :
    s'.heard = s.heard ++ [content].filter options.reads := by
  unfold step at h
  obtain ⟨place, -, h⟩ := Option.bind_eq_some_iff.1 h
  split at h
  · next skipped =>
    cases h
    have unread : options.reads content = false := by
      rw [Options.reads, skipped]
      rfl
    rw [List.filter_cons_of_neg (Bool.eq_false_iff.1 unread), List.filter_nil, List.append_nil]
    rfl
  · next taken =>
    have read : options.reads content = true := by
      rw [Options.reads, Bool.eq_false_iff.2 taken]
      rfl
    rw [heard_flush h, List.filter_cons_of_pos read, List.filter_nil]
    show s.nest.printed ++ (s.pending.lines ++ [content]) = s.heard ++ [content]
    rw [heard, List.append_assoc]

/-- All lines that were read are still there. -/
theorem heard_read {contents : List String} (h : s.read options dialect contents = some s') :
    s'.heard = s.heard ++ contents.filter options.reads := by
  induction contents generalizing s with
  | nil =>
    cases h
    rw [List.filter_nil, List.append_nil]
  | cons content contents ih =>
    rw [read, List.foldlM_cons] at h
    obtain ⟨s₁, step, h⟩ := Option.bind_eq_some_iff.1 h
    rw [ih h, heard_step step, List.append_assoc, ← List.filter_append, List.singleton_append]

end Solo

/-! ## Moving on -/

/-- The place of the diff always moves. -/
theorem diff_shift {p q : Position} {n : Int} {c : Change} (h : p.shift? n c = some q) :
    q.diff = p.diff + n := by
  obtain ⟨diff, hdiff, h⟩ := Option.bind_eq_some_iff.1 h
  obtain ⟨before, -, h⟩ := Option.bind_eq_some_iff.1 h
  obtain ⟨after, -, h⟩ := Option.bind_eq_some_iff.1 h
  cases h
  exact (lineNumber?_eq_some_iff.1 hdiff).1.symm

/-- A place moves at the times of a change only. -/
theorem get_shift {p q : Position} {n : Int} {c : Change} (h : p.shift? n c = some q) (t : Time) :
    if c.existsAt t then lineNumber? (p.get t + n) = some (q.get t) else q.get t = p.get t := by
  unfold Position.shift? at h
  cases hd : lineNumber? (p.diff + n) with
  | none => simp [hd] at h
  | some diff =>
    cases hb : lineNumber? (p.before + if c = .added then 0 else n) with
    | none => simp [hd, hb] at h
    | some before =>
      cases ha : lineNumber? (p.after + if c = .removed then 0 else n) with
      | none => simp [hd, hb, ha] at h
      | some after =>
        simp only [hd, hb, ha, Option.bind_eq_bind, Option.bind_some, Option.pure_def,
          Option.some.injEq] at h
        subst h
        have still {k m : Int} (e : lineNumber? (k + 0) = some m) : m = k := by
          rw [Int.add_zero] at e
          exact (lineNumber?_eq_some_iff.1 e).1.symm
        cases c <;> cases t
        · exact still hb
        · exact ha
        · exact hb
        · exact still ha
        · exact hb
        · exact ha

theorem get_add {p q : Position} {n : Int} (h : p.add? n = some q) (t : Time) :
    lineNumber? (p.get t + n) = some (q.get t) :=
  get_shift h t

namespace Run

/-- A run looks like a solo at a time. -/
structure Plays (r : Run) (options : Options) (t : Time) (s : Solo) : Prop where
  pending : (r.pending.get t).collapse t = s.pending
  place : r.place.get t = s.place
  shows : Seems options r.outline t s.nest

/-- A run keeps its times apart. -/
structure Tuned (r : Run) : Prop where
  shared : r.shared = true → r.pending.before = r.pending.after
  fresh : ∀ t, (r.pending.get t).hasStarted = false → r.pending.get t = {}

/-- No line of a run is complete. -/
def Waits (r : Run) : Prop := ∀ t, (r.pending.get t).isComplete = false

variable {options : Options} {dialect : Dialect} {r r' : Run} {s : Time → Solo} {t : Time}
  {line : LogicalLine} {change : Change}

theorem place_of_put {o o' : Outline} {last : Position}
    (h : o.put options dialect line change last = .ok o') : ∃ stop, last.add? 1 = some stop := by
  cases range : last.add? 1 with
  | some stop => exact ⟨stop, rfl⟩
  | none =>
    rw [Outline.put, range] at h
    cases h

/-- What a solo does when a complete line of the run that it plays is flushed. -/
theorem Plays.flush_eq {k : Solo} {stop : Position} (plays : r.Plays options t k)
    (range : r.place.add? 1 = some stop) (complete : (r.pending.get t).isComplete = true) :
    k.flush dialect = (k.nest.put dialect (r.pending.get t).lines
      ((startOf (r.pending.get t) r.place).get t) (stop.get t)).map fun m => ⟨{}, k.place, m⟩ := by
  have begins : (startOf k.pending (Solo.flat k.place)).diff =
      (startOf (r.pending.get t) r.place).get t := by
    rw [LogicalLine.get_startOf, plays.pending, ← plays.place]
    rfl
  have ends : lineNumber? (k.place + 1) = some (stop.get t) := by
    rw [← plays.place]
    exact get_add range t
  have whole : k.pending.isComplete = true := by
    rw [← plays.pending, LogicalLine.isComplete_collapse, complete]
  have content : k.pending.lines = (r.pending.get t).lines := by
    rw [← plays.pending, LogicalLine.lines_collapse]
  rw [Solo.flush, if_pos whole, ends, begins, content]
  simp only [Option.bind_eq_bind, Option.bind_some, Option.map_eq_bind]
  rfl

/-- A line that is put at the times of a change is flushed by the solos of these times. -/
theorem plays_put (plays : ∀ t, r.Plays options t (s t))
    {outline : Outline} (h : r.outline.put options dialect line change r.place = .ok outline)
    (complete : line.isComplete = true)
    (own : ∀ t, change.existsAt t = true → r.pending.get t = line) {pending : Sides LogicalLine}
    (left : ∀ t, pending.get t = if change.existsAt t then {} else r.pending.get t) :
    ∃ s' : Time → Solo, ∀ t, ({ r with outline, pending } : Run).Plays options t (s' t) ∧
      if change.existsAt t then (s t).flush dialect = some (s' t) else s' t = s t := by
  obtain ⟨stop, range⟩ := place_of_put h
  obtain ⟨m, hm, shown⟩ := put_seems range (fun t => (plays t).shows) h
  refine ⟨fun t => if change.existsAt t then ⟨{}, (s t).place, m t⟩ else s t, fun t => ?_⟩
  have put := hm t
  by_cases there : change.existsAt t = true
  · rw [putAt?, if_pos there] at put
    simp only [there, if_true]
    refine ⟨⟨?_, (plays t).place, shown t⟩, ?_⟩
    · show (pending.get t).collapse t = {}
      rw [left, if_pos there]
      rfl
    · have here := own t there
      rw [(plays t).flush_eq range (here ▸ complete), here, put]
      rfl
  · rw [putAt?, if_neg there] at put
    simp only [there, Bool.false_eq_true, if_false]
    refine ⟨⟨?_, (plays t).place, ?_⟩, trivial⟩
    · show (pending.get t).collapse t = (s t).pending
      rw [left, if_neg there]
      exact (plays t).pending
    · show Seems options outline t (s t).nest
      rw [Option.some.inj put]
      exact shown t

/-- What is left of a run after all that is complete was flushed. -/
structure Flushed (r r' : Run) : Prop where
  shared : r'.shared = r.shared
  pending : ∀ t, r'.pending.get t = (r.pending.get t).remainder

/-- What flushing a time does: nothing, or its complete line is put. -/
theorem flush_cases (h : r.flush options dialect t = .ok r') :
    ((r.pending.get t).isComplete = false ∧ r' = r) ∨ (r.pending.get t).isComplete = true ∧
      ∃ outline, r.outline.put options dialect (r.pending.get t) (.onlyAt t) r.place = .ok outline ∧
        r' = { r with outline, pending := r.pending.set t {} } := by
  unfold flush at h
  by_cases complete : (r.pending.get t).isComplete = true
  · simp only [complete, if_true] at h
    obtain ⟨outline, run, h⟩ := Outcome.bind_eq_ok_iff.1 h
    exact .inr ⟨complete, outline, run, (Except.ok.inj h).symm⟩
  · simp only [complete, Bool.false_eq_true, if_false] at h
    exact .inl ⟨Bool.eq_false_iff.2 complete, (Except.ok.inj h).symm⟩

/-- What flushing does: the line that both times share is put, or each time is flushed. -/
theorem flushAll_cases (h : r.flushAll options dialect = .ok r') :
    ((r.shared = true ∧ r.pending.before.isComplete = true ∧ r.pending.after.isComplete = true) ∧
      ∃ outline, r.outline.put options dialect r.pending.before .unchanged r.place = .ok outline ∧
        r' = { r with outline, pending := .both {} }) ∨
    ¬ (r.shared = true ∧ r.pending.before.isComplete = true ∧ r.pending.after.isComplete = true) ∧
      ∃ r₁, r.flush options dialect .before = .ok r₁ ∧ r₁.flush options dialect .after = .ok r' := by
  unfold flushAll at h
  split at h
  · next together =>
    obtain ⟨outline, run, h⟩ := Outcome.bind_eq_ok_iff.1 h
    simp only [Bool.and_eq_true, and_assoc] at together
    exact .inl ⟨together, outline, run, (Except.ok.inj h).symm⟩
  · next apart =>
    simp only [Bool.and_eq_true, and_assoc] at apart
    exact .inr ⟨apart, Outcome.bind_eq_ok_iff.1 h⟩

theorem plays_flush (plays : ∀ t, r.Plays options t (s t))
    (h : r.flush options dialect t = .ok r') :
    ∃ s' : Time → Solo, (∀ u, r'.Plays options u (s' u)) ∧ (s t).flush dialect = some (s' t) ∧
      (∀ u, u ≠ t → s' u = s u) ∧ r'.shared = r.shared ∧
      ∀ u, r'.pending.get u = if u = t then (r.pending.get t).remainder else r.pending.get u := by
  obtain ⟨incomplete, rfl⟩ | ⟨complete, outline, run, rfl⟩ := flush_cases h
  · refine ⟨s, plays, Solo.flush_of_incomplete ?_, fun _ _ => rfl, rfl, fun u => ?_⟩
    · rw [← (plays t).pending, LogicalLine.isComplete_collapse, incomplete]
    · rw [LogicalLine.remainder, if_neg (Bool.eq_false_iff.1 incomplete)]
      split
      · next e => rw [e]
      · rfl
  · have left (u : Time) : (r.pending.set t {}).get u =
        if (Change.onlyAt t).existsAt u then {} else r.pending.get u := by
      rw [Sides.get_set]
      simp only [Change.existsAt_onlyAt, beq_iff_eq]
    obtain ⟨s', hs⟩ := plays_put plays run complete
      (fun u hu => by rw [Change.existsAt_onlyAt, beq_iff_eq] at hu; rw [hu]) left
    refine ⟨s', fun u => (hs u).1, ?_, fun u hu => ?_, rfl, fun u => ?_⟩
    · have flushed := (hs t).2
      rw [Change.existsAt_onlyAt, if_pos (beq_self_eq_true t)] at flushed
      exact flushed
    · have kept := (hs u).2
      rw [Change.existsAt_onlyAt, if_neg fun e => hu (beq_iff_eq.1 e)] at kept
      exact kept
    · rw [Sides.get_set, LogicalLine.remainder, if_pos complete]

/-- Flushing a run flushes the solos of both times. -/
theorem plays_flushAll (plays : ∀ t, r.Plays options t (s t))
    (shared : r.shared = true → r.pending.before = r.pending.after)
    (h : r.flushAll options dialect = .ok r') :
    Flushed r r' ∧ ∃ s' : Time → Solo,
      ∀ t, r'.Plays options t (s' t) ∧ (s t).flush dialect = some (s' t) := by
  obtain ⟨⟨both, complete, -⟩, outline, run, rfl⟩ | ⟨-, r₁, run, h⟩ := flushAll_cases h
  · have own (t : Time) : r.pending.get t = r.pending.before := by
      cases t
      · rfl
      · exact (shared both).symm
    obtain ⟨s', hs⟩ := plays_put plays run complete (fun t _ => own t) fun t =>
      show (Sides.both ({} : LogicalLine)).get t = {} from Sides.get_both _ t
    refine ⟨⟨rfl, fun t => ?_⟩, s', hs⟩
    show (Sides.both ({} : LogicalLine)).get t = _
    rw [own, LogicalLine.remainder, if_pos complete, Sides.get_both]
  · obtain ⟨s₁, plays₁, flushed₁, kept₁, shared₁, pending₁⟩ := plays_flush plays run
    obtain ⟨s₂, plays₂, flushed₂, kept₂, shared₂, pending₂⟩ := plays_flush plays₁ h
    refine ⟨⟨shared₂.trans shared₁, fun t => ?_⟩, s₂, fun t => ⟨plays₂ t, ?_⟩⟩
    · cases t with
      | before =>
        rw [pending₂, if_neg (by decide), pending₁, if_pos rfl]
      | after =>
        rw [pending₂, if_pos rfl, pending₁, if_neg (by decide)]
    · cases t with
      | before =>
        rw [kept₂ .before (by decide)]
        exact flushed₁
      | after =>
        rw [← kept₁ .after (by decide)]
        exact flushed₂

/-- After all that is complete was flushed, what is left waits, and the times are still apart. -/
theorem Flushed.settled (h : Flushed r r') (tuned : r.Tuned) : r'.Tuned ∧ r'.Waits := by
  refine ⟨⟨fun both => ?_, fun t unstarted => ?_⟩, fun t => ?_⟩
  · have same := tuned.shared (h.shared ▸ both)
    have before : r'.pending.before = r.pending.before.remainder := h.pending .before
    have after : r'.pending.after = r.pending.after.remainder := h.pending .after
    rw [before, after, same]
  · rw [h.pending] at unstarted ⊢
    unfold LogicalLine.remainder at unstarted ⊢
    split
    · rfl
    · next incomplete =>
      rw [if_neg incomplete] at unstarted
      exact tuned.fresh t unstarted
  · rw [h.pending]
    exact LogicalLine.isComplete_remainder

/-! ## Steps and runs -/

theorem get_take (content : String) : (r.take change content).pending.get t =
    if change.existsAt t then (r.pending.get t).consume content r.place else r.pending.get t := by
  cases change <;> cases t <;> rfl

theorem Tuned.take (tuned : r.Tuned) (content : String) : (r.take change content).Tuned := by
  refine ⟨fun both => ?_, fun t unstarted => ?_⟩
  · have parts : (change == .unchanged && (r.shared ||
        (!r.pending.before.hasStarted && !r.pending.after.hasStarted))) = true := both
    simp only [Bool.and_eq_true, Bool.or_eq_true, Bool.not_eq_true', beq_iff_eq] at parts
    obtain ⟨rfl, parts⟩ := parts
    -- both times have read the same so far, or nothing
    have same : r.pending.before = r.pending.after := by
      obtain both | ⟨before, after⟩ := parts
      · exact tuned.shared both
      · have empty : r.pending.get .before = r.pending.get .after := by
          rw [tuned.fresh .before before, tuned.fresh .after after]
        exact empty
    show r.pending.before.consume content r.place = r.pending.after.consume content r.place
    rw [same]
  · rw [get_take] at unstarted ⊢
    split at unstarted
    · rw [LogicalLine.hasStarted_consume] at unstarted
      cases unstarted
    · next absent =>
      rw [if_neg absent]
      exact tuned.fresh t unstarted

/-- Reading a line of a change, after moving on to it. -/
theorem step_eq {line : PhysicalLine} {place : Position} (hc : line.change = some change)
    (shifted : r.place.shift? 1 change = some place) :
    r.step options dialect line =
      if options.skipBlank && (Text.trimStart line.content.toList).isEmpty then .ok { r with place }
      else (({ r with place } : Run).take change line.content).flushAll options dialect := by
  rw [step, hc]
  show (Outcome.inRange (r.place.shift? 1 change) >>= fun _ => _) = _
  rw [shifted]
  rfl

/-- A line that is read has a change, and there is a place for it. -/
theorem exists_shift_of_step {line : PhysicalLine} (h : r.step options dialect line = .ok r') :
    ∃ change place, line.change = some change ∧ r.place.shift? 1 change = some place := by
  unfold step at h
  cases hc : line.change with
  | none =>
    rw [hc] at h
    obtain ⟨p, -, h⟩ := Outcome.bind_eq_ok_iff.1 h
    cases h
  | some change =>
    simp only [hc] at h
    obtain ⟨place, moved, -⟩ := Outcome.bind_eq_ok_iff.1 h
    cases hp : r.place.shift? 1 change with
    | none =>
      rw [hp] at moved
      cases moved
    | some q => exact ⟨change, q, rfl, hp⟩

/-- The solo of a time after a run took a line of a change at a place. -/
def moved (change : Change) (place : Position) (content : String) (t : Time) (k : Solo) : Solo :=
  if change.existsAt t then
    ⟨k.pending.consume content (Solo.flat (place.get t)), place.get t, k.nest⟩
  else k

/-- A solo moves on with its run if the line is there, and stays where it is otherwise. -/
theorem Plays.place_shift {k : Solo} {place : Position} (plays : r.Plays options t k)
    (shifted : r.place.shift? 1 change = some place) :
    if change.existsAt t then lineNumber? (k.place + 1) = some (place.get t)
    else place.get t = k.place := by
  rw [← plays.place]
  exact get_shift shifted t

theorem Plays.take {k : Solo} {place : Position} (plays : r.Plays options t k)
    (shifted : r.place.shift? 1 change = some place) (content : String) :
    (({ r with place } : Run).take change content).Plays options t
      (moved change place content t k) := by
  have shift := plays.place_shift shifted
  unfold moved
  split
  · next there =>
    refine ⟨?_, rfl, plays.shows⟩
    rw [get_take, if_pos there, LogicalLine.collapse_consume]
    show ((r.pending.get t).collapse t).consume _ _ = _
    rw [plays.pending]
    rfl
  · next absent =>
    rw [if_neg absent] at shift
    refine ⟨?_, shift, plays.shows⟩
    rw [get_take, if_neg absent]
    exact plays.pending

/-- A step of a run is a step of the solo of each time at which the line is there. -/
theorem plays_step (tuned : r.Tuned) (waits : r.Waits)
    (plays : ∀ t, r.Plays options t (s t)) {line : PhysicalLine}
    (h : r.step options dialect line = .ok r') :
    r'.Tuned ∧ r'.Waits ∧ ∃ change, line.change = some change ∧ ∃ s' : Time → Solo,
      ∀ t, r'.Plays options t (s' t) ∧ if change.existsAt t then
        (s t).step options dialect line.content = some (s' t) else s' t = s t := by
  obtain ⟨change, place, hc, shifted⟩ := exists_shift_of_step h
  rw [step_eq hc shifted] at h
  have shift (t : Time) := (plays t).place_shift shifted
  by_cases skipped :
      (options.skipBlank && (Text.trimStart line.content.toList).isEmpty) = true
  · rw [if_pos skipped] at h
    obtain rfl : { r with place } = r' := Except.ok.inj h
    refine ⟨⟨tuned.shared, tuned.fresh⟩, waits, change, hc,
      fun t => { s t with place := place.get t }, fun t => ⟨⟨(plays t).pending, rfl,
        (plays t).shows⟩, ?_⟩⟩
    have shift := shift t
    split
    · next there =>
      rw [if_pos there] at shift
      rw [Solo.step_eq shift, if_pos skipped]
    · next absent =>
      rw [if_neg absent] at shift
      show (⟨(s t).pending, place.get t, (s t).nest⟩ : Solo) = s t
      rw [shift]
  · rw [if_neg skipped] at h
    have tuned₁ : (({ r with place } : Run).take change line.content).Tuned :=
      Tuned.take (r := { r with place }) ⟨tuned.shared, tuned.fresh⟩ _
    obtain ⟨flushed, s', hs⟩ :=
      plays_flushAll (fun t => (plays t).take shifted line.content) tuned₁.shared h
    obtain ⟨tuned', waits'⟩ := flushed.settled tuned₁
    refine ⟨tuned', waits', change, hc, s', fun t => ⟨(hs t).1, ?_⟩⟩
    have put := (hs t).2
    have shift := shift t
    unfold moved at put
    split
    · next there =>
      rw [if_pos there] at put shift
      rw [Solo.step_eq shift, if_neg skipped]
      exact put
    · next absent =>
      rw [if_neg absent] at put
      have incomplete : (s t).pending.isComplete = false := by
        rw [← (plays t).pending, LogicalLine.isComplete_collapse]
        exact waits t
      rw [Solo.flush_of_incomplete incomplete] at put
      exact (Option.some.inj put).symm

end Run

/-- The contents of the lines that are there at a time. -/
def contentsAt (t : Time) (lines : List PhysicalLine) : List String :=
  lines.filterMap fun line => do
    if (← line.change).existsAt t then some line.content else none

namespace Run

variable {options : Options} {dialect : Dialect} {r r' : Run} {s : Time → Solo} {t : Time}
  {lines : List PhysicalLine}

/-- A run that reads one more line. -/
theorem run_snoc {r₁ : Run} {line : PhysicalLine}
    (hr : lines.foldlM (Run.step options dialect) r = .ok r₁)
    (h : r₁.step options dialect line = .ok r') :
    (lines ++ [line]).foldlM (Run.step options dialect) r = .ok r' := by
  rw [List.foldlM_append, hr]
  rw [Outcome.ok_bind, List.foldlM_cons, h]
  rfl

/-- A run is at each time a solo over the lines that are there. -/
theorem plays_run (tuned : r.Tuned) (waits : r.Waits)
    (plays : ∀ t, r.Plays options t (s t)) (h : lines.foldlM (Run.step options dialect) r = .ok r') :
    r'.Tuned ∧ ∃ s' : Time → Solo, ∀ t, r'.Plays options t (s' t) ∧
      (s t).read options dialect (contentsAt t lines) = some (s' t) := by
  induction lines generalizing r s with
  | nil =>
    cases h
    exact ⟨tuned, s, fun t => ⟨plays t, rfl⟩⟩
  | cons line lines ih =>
    rw [List.foldlM_cons] at h
    obtain ⟨r₁, step, h⟩ := Outcome.bind_eq_ok_iff.1 h
    obtain ⟨tuned₁, waits₁, change, hc, s₁, hs⟩ := plays_step tuned waits plays step
    obtain ⟨tuned', s', hs'⟩ := ih tuned₁ waits₁ (fun t => (hs t).1) h
    refine ⟨tuned', s', fun t => ⟨(hs' t).1, ?_⟩⟩
    have first := (hs t).2
    have behind := (hs' t).2
    by_cases there : change.existsAt t = true
    · rw [if_pos there] at first
      have here : contentsAt t (line :: lines) = line.content :: contentsAt t lines := by
        simp [contentsAt, hc, there]
      rw [here, Solo.read, List.foldlM_cons, first]
      exact behind
    · rw [if_neg there] at first
      have here : contentsAt t (line :: lines) = contentsAt t lines := by
        simp [contentsAt, hc, there]
      rw [here, ← first]
      exact behind

theorem shows_start (source : Source) (t : Time) :
    (Outline.start source).Shows t (.base Solo.rootFacet .nil) := by
  have store : Diff.root < (Outline.start source).diff.size := Nat.zero_lt_one
  refine ⟨.base Diff.root .nil, by cases t <;> rfl, ⟨⟨store, ?_, trivial⟩, ?_, rfl⟩, ?_, ?_⟩
  · cases t <;> rfl
  · exact List.nodup_singleton _
  · cases t <;> rfl
  · exact fun c hc => nomatch hc

/-- A run and two solos start alike. -/
theorem plays_start (source : Source) (t : Time) : (Run.start source).Plays options t .start := by
  refine ⟨?_, ?_, _, shows_start source t, .refl options _⟩
  · cases t <;> rfl
  · cases t <;> rfl

theorem tuned_start (source : Source) : (Run.start source).Tuned := by
  refine ⟨fun both => ?_, fun t _ => ?_⟩
  · cases both
  · cases t <;> rfl

theorem waits_start (source : Source) : (Run.start source).Waits := by
  intro t
  cases t <;> rfl

end Run

end Variation.Reading
