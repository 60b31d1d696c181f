import Variation.Proofs.Segmented

/-!
# The logical lines of each time

A run reads the lines of both times in one go, into two logical lines that are shared for a while and
read apart for a while. Which logical lines it completes does not depend on what becomes of them: the
run scans its physical lines and puts what it has scanned, line by line. What is scanned for a time is
what comes out if only the lines of that time are fed to one logical line that starts anew whenever it
is complete. So neither the lines of the other time nor the sharing can be seen there.
-/

namespace Variation.Reading

/-- Puts a logical line that is complete into an outline. -/
def FullLine.put (options : Options) (dialect : Dialect) (o : Outline) (w : FullLine) :
    Outcome Outline :=
  o.put options dialect w.line w.change w.last

namespace Run

/-- The run after all that is complete was flushed, with the outline as it was. -/
def settle (r : Run) : Run :=
  { r with pending := ⟨r.pending.before.remainder, r.pending.after.remainder⟩ }

/-- The run after it has read a physical line, with the outline as it was. -/
def next (options : Options) (r : Run) (line : PhysicalLine) : Outcome Run := do
  match line.change with
  | none => Outline.fail .invalidLine (← Outcome.inRange (r.place.add? 1))
  | some change =>
    let r := { r with place := ← Outcome.inRange (r.place.shift? 1 change) }
    if options.reads line.content then return (r.take change line.content).settle else return r

/-- The logical lines that a run completes, up to the first physical line that cannot be read. -/
def scanned (options : Options) : Run → List PhysicalLine → List FullLine
  | _, [] => []
  | r, line :: rest =>
    match r.next options line with
    | .ok r' => r.completes options line ++ scanned options r' rest
    | .error _ => []

variable {options : Options} {dialect : Dialect} {r r' : Run} {o : Outline} {t : Time}
  {line : PhysicalLine} {change : Change} {place : Position}

/-! ## Scanning and putting -/

/-- The line of a time if it is complete. -/
def completeAt (r : Run) (t : Time) : List FullLine :=
  if (r.pending.get t).isComplete then [⟨r.pending.get t, .onlyAt t, r.place⟩] else []

theorem complete_eq (r : Run) : r.complete =
    if r.shared && r.pending.before.isComplete && r.pending.after.isComplete then
      [⟨r.pending.before, .unchanged, r.place⟩]
    else r.completeAt .before ++ r.completeAt .after := by
  have each : (Time.all.filter fun t => (r.pending.get t).isComplete).map
      (fun t => (⟨r.pending.get t, .onlyAt t, r.place⟩ : FullLine)) =
        r.completeAt .before ++ r.completeAt .after := by
    unfold completeAt
    cases before : (r.pending.get .before).isComplete <;>
      cases after : (r.pending.get .after).isComplete <;> simp [Time.all, before, after]
  rw [complete, each]

/-- Flushing a time puts its line if it is complete. -/
theorem flush_eq (r : Run) (o : Outline) (t : Time) :
    ({ r with outline := o } : Run).flush options dialect t =
      ((r.completeAt t).foldlM (FullLine.put options dialect) o >>= fun o' =>
        .ok { r with outline := o', pending := r.pending.set t (r.pending.get t).remainder }) := by
  unfold flush completeAt LogicalLine.remainder
  by_cases complete : (r.pending.get t).isComplete = true
  · simp only [complete, if_true, List.foldlM_cons, List.foldlM_nil, bind_assoc]
    rfl
  · simp only [complete, Bool.false_eq_true, if_false, List.foldlM_nil]
    cases t <;> rfl

/-- Flushing puts what is complete. -/
theorem flushAll_eq (r : Run) (o : Outline) : ({ r with outline := o } : Run).flushAll options dialect =
    (r.complete.foldlM (FullLine.put options dialect) o >>= fun o' =>
      .ok { r.settle with outline := o' }) := by
  rw [complete_eq]
  unfold flushAll
  by_cases together : (r.shared && r.pending.before.isComplete && r.pending.after.isComplete) = true
  · simp only [together, if_true, List.foldlM_cons, List.foldlM_nil, bind_assoc]
    simp only [Bool.and_eq_true, and_assoc] at together
    obtain ⟨-, before, after⟩ := together
    rw [settle, LogicalLine.remainder, LogicalLine.remainder, if_pos before, if_pos after]
    rfl
  · rw [if_neg together, if_neg together, flush_eq, bind_assoc, List.foldlM_append, bind_assoc]
    refine bind_congr fun o' => ?_
    exact flush_eq { r with pending := r.pending.set .before r.pending.before.remainder } o' .after

/-- What is left of a run that reads a line of a change, after moving on to it. -/
theorem next_eq (hc : line.change = some change) (shifted : r.place.shift? 1 change = some place) :
    r.next options line = .ok (if options.reads line.content then
      (({ r with place } : Run).take change line.content).settle else { r with place }) := by
  rw [next, hc]
  simp only [shifted, Outcome.inRange_some, Outcome.ok_bind]
  split <;> rfl

/-- What such a line completes. -/
theorem completes_eq (hc : line.change = some change)
    (shifted : r.place.shift? 1 change = some place) :
    r.completes options line = if options.reads line.content then
      (({ r with place } : Run).take change line.content).complete else [] := by
  rw [completes, hc]
  simp only [shifted, Options.reads, Bool.not_eq_true']
  split
  · next skipped => simp [skipped]
  · next read => simp [read]

/-- Reading a line puts what it completes. -/
theorem step_eq_next (r : Run) (o : Outline) (line : PhysicalLine) :
    ({ r with outline := o } : Run).step options dialect line =
      (r.next options line >>= fun r' =>
        (r.completes options line).foldlM (FullLine.put options dialect) o >>= fun o' =>
          .ok { r' with outline := o' }) := by
  cases hc : line.change with
  | none =>
    rw [step, next, hc]
    cases range : r.place.add? 1 <;> rfl
  | some change =>
    cases shifted : r.place.shift? 1 change with
    | none =>
      rw [step, next, hc]
      simp only [shifted]
      rfl
    | some place =>
      rw [step_eq (r := { r with outline := o }) hc shifted, next_eq hc shifted,
        completes_eq hc shifted, Outcome.ok_bind]
      cases skipped : options.skipBlank && (Text.trimStart line.content.toList).isEmpty with
      | false =>
        have read : options.reads line.content = true := by rw [Options.reads, skipped, Bool.not_false]
        rw [if_neg Bool.false_ne_true, if_pos read, if_pos read]
        exact flushAll_eq (({ r with place } : Run).take change line.content) o
      | true =>
        have unread : ¬ options.reads line.content = true := by
          rw [Options.reads, skipped]
          exact Bool.false_ne_true
        rw [if_pos rfl, if_neg unread, if_neg unread]
        rfl

/-- A run puts what it scans, line by line, and ends as the scan does. -/
theorem run_eq_scan (r : Run) (o : Outline) (lines : List PhysicalLine) :
    lines.foldlM (Run.step options dialect) { r with outline := o } =
      ((r.scanned options lines).foldlM (FullLine.put options dialect) o >>= fun o' =>
        lines.foldlM (Run.next options) r >>= fun r' => .ok { r' with outline := o' }) := by
  induction lines generalizing r o with
  | nil => rfl
  | cons line rest ih =>
    rw [List.foldlM_cons, List.foldlM_cons, step_eq_next, scanned]
    cases first : r.next options line with
    | error e => rfl
    | ok r₁ =>
      simp only [Outcome.ok_bind, bind_assoc, List.foldlM_append]
      exact bind_congr fun o' => ih r₁ o'

end Run

/-! ## One time alone -/

/-- A physical line with its change and its place. -/
structure PlacedLine where
  change : Change
  content : String
  place : Position

/-- Whether a line is there at a time and is not left out. -/
def PlacedLine.feeds (options : Options) (t : Time) (l : PlacedLine) : Bool :=
  l.change.existsAt t && options.reads l.content

/-- The lines behind a place with their places, up to the first one that cannot be read. -/
def placedLines : Position → List PhysicalLine → List PlacedLine
  | _, [] => []
  | p, line :: rest =>
    match line.change with
    | none => []
    | some change =>
      match p.shift? 1 change with
      | none => []
      | some place => ⟨change, line.content, place⟩ :: placedLines place rest

namespace LogicalLine

/-- The lines that become complete if physical lines are fed to a logical line that starts anew whenever
it is complete. -/
def cut : LogicalLine → List PlacedLine → List LogicalLine
  | _, [] => []
  | l, x :: rest =>
    let l := l.consume x.content x.place
    (if l.isComplete then [l] else []) ++ cut l.remainder rest

end LogicalLine

/-- The logical lines of a time among some lines. -/
def linesAt (t : Time) (ws : List FullLine) : List LogicalLine :=
  (ws.filter (·.change.existsAt t)).map (·.line)

theorem linesAt_append (t : Time) (ws ws' : List FullLine) :
    linesAt t (ws ++ ws') = linesAt t ws ++ linesAt t ws' := by
  rw [linesAt, List.filter_append, List.map_append]
  rfl

namespace Run

variable {options : Options} {r r' : Run} {t : Time} {line : PhysicalLine}

theorem linesAt_completeAt (r : Run) (t : Time) : linesAt t (r.completeAt t) =
    if (r.pending.get t).isComplete then [r.pending.get t] else [] := by
  unfold completeAt
  split <;> simp [linesAt]

theorem linesAt_completeAt_other {u : Time} (r : Run) (other : u ≠ t) :
    linesAt t (r.completeAt u) = [] := by
  unfold completeAt
  split <;> simp [linesAt, other.symm]

/-- The line of a time is put if it is complete, be it shared or not. -/
theorem linesAt_complete (shared : r.shared = true → r.pending.before = r.pending.after) (t : Time) :
    linesAt t r.complete = if (r.pending.get t).isComplete then [r.pending.get t] else [] := by
  rw [complete_eq]
  split
  · next together =>
    simp only [Bool.and_eq_true, and_assoc] at together
    obtain ⟨both, before, after⟩ := together
    have own : r.pending.get t = r.pending.before := by
      cases t with
      | before => rfl
      | after => exact (shared both).symm
    rw [own, if_pos before]
    rfl
  · rw [linesAt_append]
    cases t with
    | before => rw [linesAt_completeAt, linesAt_completeAt_other r (by decide), List.append_nil]
    | after => rw [linesAt_completeAt, linesAt_completeAt_other r (by decide), List.nil_append]

theorem flushed_settle (r : Run) : Flushed r r.settle := by
  refine ⟨rfl, fun t => ?_⟩
  cases t <;> rfl

/-- A line that is read has a change and a place, and the run moves on to it. -/
theorem next_cases (h : r.next options line = .ok r') : ∃ change place,
    line.change = some change ∧ r.place.shift? 1 change = some place ∧ r'.place = place := by
  cases hc : line.change with
  | none =>
    rw [next, hc] at h
    obtain ⟨p, -, h⟩ := Outcome.bind_eq_ok_iff.1 h
    cases h
  | some change =>
    cases shifted : r.place.shift? 1 change with
    | none =>
      rw [next, hc] at h
      simp only [shifted] at h
      cases h
    | some place =>
      rw [next_eq hc shifted] at h
      refine ⟨change, place, rfl, shifted, ?_⟩
      obtain rfl := Except.ok.inj h
      split <;> rfl

/-- A run that reads a line keeps its times apart, and nothing that is complete waits. -/
theorem settled_next (tuned : r.Tuned) (waits : r.Waits) (h : r.next options line = .ok r') :
    r'.Tuned ∧ r'.Waits := by
  obtain ⟨change, place, hc, shifted, -⟩ := next_cases h
  rw [next_eq hc shifted] at h
  obtain rfl := Except.ok.inj h
  have moved : ({ r with place } : Run).Tuned := ⟨tuned.shared, tuned.fresh⟩
  split
  · exact (flushed_settle _).settled (moved.take line.content)
  · exact ⟨moved, waits⟩

/-- What a line does at a time: it is fed to the logical line of that time, or it does nothing. -/
theorem cut_next (tuned : r.Tuned) (waits : r.Waits) {change : Change} {place : Position}
    (hc : line.change = some change) (shifted : r.place.shift? 1 change = some place)
    (h : r.next options line = .ok r') (t : Time) (rest : List PlacedLine) :
    (r.pending.get t).cut ([⟨change, line.content, place⟩].filter (·.feeds options t) ++ rest) =
      linesAt t (r.completes options line) ++ (r'.pending.get t).cut rest := by
  rw [next_eq hc shifted] at h
  obtain rfl := Except.ok.inj h
  rw [completes_eq hc shifted]
  by_cases read : options.reads line.content = true
  · have taken : (({ r with place } : Run).take change line.content).Tuned :=
      Tuned.take (r := { r with place }) ⟨tuned.shared, tuned.fresh⟩ _
    rw [if_pos read, if_pos read, linesAt_complete taken.shared, (flushed_settle _).pending t, get_take]
    by_cases there : change.existsAt t = true
    · have feeds : PlacedLine.feeds options t ⟨change, line.content, place⟩ = true := by
        rw [PlacedLine.feeds, there, read, Bool.and_self]
      rw [List.filter_cons_of_pos feeds, if_pos there]
      rfl
    · have absent : ¬ PlacedLine.feeds options t ⟨change, line.content, place⟩ = true := by
        rw [PlacedLine.feeds, Bool.and_eq_true]
        exact fun both => there both.1
      -- the logical line of the time stays, and it was not complete before
      have incomplete : (({ r with place } : Run).pending.get t).isComplete = false := waits t
      rw [List.filter_cons_of_neg absent, if_neg there, LogicalLine.remainder, incomplete]
      rfl
  · have absent : ¬ PlacedLine.feeds options t ⟨change, line.content, place⟩ = true := by
      rw [PlacedLine.feeds, Bool.and_eq_true]
      exact fun both => read both.2
    rw [if_neg read, if_neg read, List.filter_cons_of_neg absent]
    rfl

/-- What a run scans for a time is what comes out if only the lines of that time are fed to its logical
line. -/
theorem linesAt_scanned (tuned : r.Tuned) (waits : r.Waits) (t : Time) (lines : List PhysicalLine) :
    linesAt t (r.scanned options lines) =
      (r.pending.get t).cut ((placedLines r.place lines).filter (·.feeds options t)) := by
  induction lines generalizing r with
  | nil => rfl
  | cons line rest ih =>
    rw [scanned, placedLines]
    cases first : r.next options line with
    | error e =>
      cases hc : line.change with
      | none => rfl
      | some change =>
        cases shifted : r.place.shift? 1 change with
        | none =>
          simp only [shifted]
          rfl
        | some place =>
          rw [next_eq hc shifted] at first
          cases first
    | ok r' =>
      obtain ⟨change, place, hc, shifted, rfl⟩ := next_cases first
      obtain ⟨tuned', waits'⟩ := settled_next tuned waits first
      simp only [hc, shifted]
      rw [linesAt_append, ih tuned' waits', ← List.singleton_append, List.filter_append]
      exact (cut_next tuned waits hc shifted first t _).symm

/-- While the times share a line, their logical lines have the same lines and the same start, so they are
complete together. -/
def Shares (r : Run) : Prop := r.shared = true →
  r.pending.before.lines = r.pending.after.lines ∧ r.pending.before.start = r.pending.after.start ∧
    r.pending.before.isComplete = r.pending.after.isComplete

theorem Tuned.shares (h : r.Tuned) : r.Shares := by
  intro both
  rw [h.shared both]
  exact ⟨rfl, rfl, rfl⟩

/-- Wherever a run is, between two lines or before it flushes what a line completes, the times that share
a line agree on it. The run puts what it scans until something is refused. And what it scans for a time
is what comes out if only the lines of that time are fed to one logical line, which starts anew whenever
it is complete. -/
theorem scans_each_time (options : Options) (dialect : Dialect) (source : Source)
    (lines : List PhysicalLine) :
    (∀ front rest r, lines = front ++ rest →
      front.foldlM (Run.step options dialect) (Run.start source) = .ok r →
        r.Shares ∧ ∀ line ∈ rest.head?, ∀ change place, line.change = some change →
          r.place.shift? 1 change = some place →
            (({ r with place } : Run).take change line.content).Shares) ∧
    lines.foldlM (Run.step options dialect) (Run.start source) =
      (((Run.start source).scanned options lines).foldlM (FullLine.put options dialect)
        (Outline.start source) >>= fun o =>
          lines.foldlM (Run.next options) (Run.start source) >>= fun r =>
            .ok { r with outline := o }) ∧
    ∀ t, linesAt t ((Run.start source).scanned options lines) =
      LogicalLine.cut {} ((placedLines .start lines).filter (·.feeds options t)) := by
  refine ⟨?_, run_eq_scan (Run.start source) (Outline.start source) lines, fun t => ?_⟩
  · intro front rest r _ run
    obtain ⟨tuned, -⟩ := plays_run (tuned_start source) (waits_start source) (plays_start source) run
    refine ⟨tuned.shares, ?_⟩
    intro line _ change place _ _
    have moved : ({ r with place } : Run).Tuned := ⟨tuned.shared, tuned.fresh⟩
    exact (moved.take line.content).shares
  · rw [linesAt_scanned (tuned_start source) (waits_start source)]
    cases t <;> rfl

/-- An unchanged line may end one line before the edit and another one after it. -/
example : ((Run.start .unknown).scanned {} [⟨some .removed, "#if A && \\"⟩,
      ⟨some .added, "#if B && \\"⟩, ⟨some .unchanged, "C"⟩]).map (fun w => (w.change, w.line.lines)) =
    [(.removed, ["#if A && \\", "C"]), (.added, ["#if B && \\", "C"])] := by decide

end Run

end Variation.Reading
