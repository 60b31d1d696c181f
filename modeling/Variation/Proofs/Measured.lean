import Variation.Proofs.Commutes

/-!
# Places that are line numbers

A run counts the lines of each time while it reads them, and every node keeps the numbers that were
current when it was put. The numbers are right if each place of a nest begins at the line behind all
that is printed in front of it, and ends at the branch that goes on with its chain, or else at the line
behind all that hangs below it. Putting a line keeps the nest of each time measured in this sense,
although a chain is patched when it is closed and code may join other code. The main statement says
that the tree of each time of a diff that was read is measured, counted from 1.
-/

namespace Variation

namespace Forest

open Nest

/-- The number of lines that a forest prints. -/
def extent (f : Forest Facet) : Nat := (f.lines firstLines lastLines).length

/-- No root of a forest continues a chain. -/
def Unbranched (f : Forest Facet) : Prop := ∀ b ∈ f.roots, b.kind.isContinuation = false

/-- Where a place ends if what hangs below it is printed in front of a line: at the branch that goes on
with its chain, which comes last, or at that line if there is none. -/
inductive Ends (line : Int) : List Facet → Int → Prop where
  | here {roots : List Facet} (unbranched : ∀ b ∈ roots, b.kind.isContinuation = false) :
    Ends line roots line
  | branch {roots : List Facet} {b : Facet} (unbranched : ∀ b ∈ roots, b.kind.isContinuation = false)
    (continues : b.kind.isContinuation = true) : Ends line (roots ++ [b]) b.start

/-- The places of a forest that is printed from a line on are the numbers of its lines. Nothing hangs
below code. -/
def Measured : Int → Forest Facet → Prop
  | _, nil => True
  | line, cons a below rest =>
    a.start = line ∧ Ends (line + (firstLines a).length + below.extent) below.roots a.stop ∧
    (a.kind.annotates = false → below = nil) ∧ Measured (line + (firstLines a).length) below ∧
    Measured (line + (tree a below).extent) rest

variable {f g : Forest Facet} {a : Facet} {line : Int}

@[simp] theorem extent_nil : (nil : Forest Facet).extent = 0 := rfl

@[simp] theorem extent_append : (f ++ g).extent = f.extent + g.extent := by
  rw [extent, lines_append, List.length_append]
  rfl

@[simp] theorem extent_tree :
    (tree a f).extent = (firstLines a).length + f.extent + (lastLines a).length := by
  rw [extent, lines_tree, List.length_append, List.length_append]
  rfl

theorem extent_cons (a : Facet) (below rest : Forest Facet) :
    (cons a below rest).extent = (tree a below).extent + rest.extent := by
  rw [← extent_append]
  rfl

theorem Ends.eq_of_nil {stop : Int} (h : Ends line [] stop) : stop = line := by
  generalize none : ([] : List Facet) = roots at h
  cases h with
  | here => rfl
  | branch => cases List.append_ne_nil_of_right_ne_nil _ (List.cons_ne_nil _ _) none.symm

theorem unbranched_nil : (nil : Forest Facet).Unbranched := fun _ hb => nomatch hb

theorem unbranched_append : (f ++ g).Unbranched ↔ f.Unbranched ∧ g.Unbranched := by
  simp only [Unbranched, roots_append, List.forall_mem_append]

theorem unbranched_tree : (tree a f).Unbranched ↔ a.kind.isContinuation = false := by
  simp only [Unbranched, roots_tree, List.forall_mem_singleton]

theorem measured_append :
    (f ++ g).Measured line ↔ f.Measured line ∧ g.Measured (line + f.extent) := by
  induction f generalizing line with
  | nil => simp [Measured]
  | cons a below rest _ ih =>
    rw [cons_append, Measured, Measured, ih, extent_cons, Int.natCast_add, ← Int.add_assoc]
    tauto

theorem measured_tree : (tree a f).Measured line ↔
    a.start = line ∧ Ends (line + (firstLines a).length + f.extent) f.roots a.stop ∧
      (a.kind.annotates = false → f = nil) ∧ f.Measured (line + (firstLines a).length) := by
  simp only [tree, Measured, and_true]

end Forest

namespace Nest

variable {n m : Nest Facet} {f extra : Forest Facet} {a : Facet} {line stop : Int} {label : Label}

/-- The line behind all that a nest prints. -/
def next (n : Nest Facet) : Int := n.printed.length + 1

/-- The places of a nest are the numbers of the lines that it prints; what is open has not ended yet,
and no branch below it goes on with its chain. -/
def Measured : Nest Facet → Prop
  | base a done => done.Unbranched ∧ done.Measured (1 + (firstLines a).length)
  | under a done rest =>
    Measured rest ∧ a.start = rest.next ∧ (a.kind = .ifBranch ∨ a.kind.isContinuation = true) ∧
    done.Unbranched ∧ done.Measured (rest.next + (firstLines a).length)

@[simp] theorem next_hang : (n.hang f).next = n.next + f.extent := by
  rw [next, next, printed, lines_hang, List.length_append, Int.natCast_add, printed, Forest.extent]
  omega

theorem next_base (a : Facet) (done : Forest Facet) :
    (base a done).next = 1 + (firstLines a).length + done.extent := by
  rw [next, printed, lines, List.length_append, Int.natCast_add, Forest.extent]
  omega

theorem next_under (a : Facet) (done : Forest Facet) (rest : Nest Facet) :
    (under a done rest).next = rest.next + (firstLines a).length + done.extent := by
  rw [next, next, printed, lines, List.length_append, List.length_append, Int.natCast_add, Int.natCast_add,
    printed, Forest.extent]
  omega

theorem measured_hang :
    (n.hang f).Measured ↔ n.Measured ∧ f.Unbranched ∧ f.Measured n.next := by
  cases n with
  | base a done =>
    rw [hang, Measured, Measured, Forest.unbranched_append, Forest.measured_append, next_base]
    tauto
  | under a done rest =>
    rw [hang, Measured, Measured, Forest.unbranched_append, Forest.measured_append, next_under]
    tauto

/-- Closing a chain ends each of its branches where the next one begins, and the last one at the closing
line. -/
theorem Measured.close (h : n.Measured) (closed : extra.Measured n.next)
    (ends : ∀ done : Forest Facet, done.Unbranched → Forest.Ends line (done ++ extra).roots stop)
    (behind : (n.hang extra).next = line) (run : n.close line label stop extra = some m) :
    m.Measured := by
  induction n generalizing stop extra with
  | base a done => cases run
  | under a done rest ih =>
    obtain ⟨outer, start, kind, unbranched, inner⟩ := h
    have first : firstLines (ended stop line label a) = firstLines a := rfl
    rw [next_hang, next_under] at behind
    rw [next_under] at closed
    have tree : (Forest.tree (ended stop line label a) (done ++ extra)).Measured rest.next := by
      rw [Forest.measured_tree, first]
      refine ⟨start, ?_, fun leaf => ?_, Forest.measured_append.2 ⟨inner, closed⟩⟩
      · have line : rest.next + (firstLines a).length + ((done ++ extra).extent : Int) = line := by
          rw [← behind, Forest.extent_append, Int.natCast_add, Int.add_assoc _ (done.extent : Int)]
        rw [line]
        exact ends done unbranched
      · have annotates : a.kind.annotates = true := by
          obtain opens | continues := kind
          · rw [opens]
            rfl
          · revert continues
            cases a.kind <;> simp [Kind.isContinuation, Kind.annotates]
        exact absurd (annotates.symm.trans leaf) (by decide)
    simp only [Nest.close] at run
    split at run
    · next opens =>
      obtain rfl := Option.some.inj run
      refine measured_hang.2 ⟨outer, Forest.unbranched_tree.2 ?_, tree⟩
      show a.kind.isContinuation = false
      rw [beq_iff_eq.1 opens]
      rfl
    · next goesOn =>
      have continues : a.kind.isContinuation = true :=
        kind.resolve_left fun opens => goesOn (beq_iff_eq.2 opens)
      have last : lastLines (ended stop line label a) = [] :=
        if_neg fun opens => goesOn (beq_iff_eq.2 opens)
      refine ih outer tree (fun done unbranched => ?_) ?_ run
      · rw [Forest.roots_append, Forest.roots_tree]
        exact .branch (b := ended stop line label a) unbranched continues
      · rw [next_hang, Forest.extent_tree, first, last, Forest.extent_append, List.length_nil]
        omega

/-- What is entered behind all that is printed is measured, if it ends behind its lines. -/
theorem Measured.enter (h : n.Measured) (start : a.start = n.next)
    (stop : a.stop = n.next + a.label.lines.length) (mark : a.kind ≠ .endMark)
    (run : n.enter a = some m) : m.Measured := by
  obtain ⟨root, -, rfl⟩ := enter_eq_some_iff.1 run
  have first : firstLines a = a.label.lines := if_neg root
  split
  · next annotates =>
    refine ⟨h, start, ?_, Forest.unbranched_nil, trivial⟩
    revert annotates mark
    cases a.kind <;> simp [Kind.isContinuation, Kind.annotates]
  · next leaf =>
    refine measured_hang.2 ⟨h, Forest.unbranched_tree.2 ?_, Forest.measured_tree.2
      ⟨start, ?_, fun _ => rfl, trivial⟩⟩
    · revert leaf
      cases a.kind <;> simp [Kind.isContinuation, Kind.annotates]
    · rw [stop, first, Forest.extent_nil, Int.natCast_zero, Int.add_zero]
      exact .here Forest.unbranched_nil

/-- What is put behind all that is printed leaves a nest measured. -/
theorem Measured.put {dialect : Dialect} {lines : List String} (h : n.Measured)
    (run : n.put dialect lines n.next (n.next + lines.length) = some m) : m.Measured := by
  unfold Nest.put at run
  split at run
  · cases run
  · have nothing : Forest.Measured n.next .nil := trivial
    refine h.close nothing (fun done unbranched => ?_) (by rw [hang_nil]) run
    rw [Forest.append_nil]
    exact .here unbranched
  · next kind formula item =>
    exact h.enter rfl rfl (Reading.Outline.item?_node item).1 run

/-- Lines that join the code that was finished last are printed behind it. -/
theorem Measured.atEnd {lines : List String} (h : n.Measured)
    (leaf : ∃ k a, n = hang (.tree a .nil) k ∧ a.kind = .artifact) :
    (n.atEnd (Reading.Outline.extended lines (n.next + lines.length))).Measured ∧
      (n.atEnd (Reading.Outline.extended lines (n.next + lines.length))).printed =
        n.printed ++ lines := by
  obtain ⟨k, a, rfl, code⟩ := leaf
  obtain ⟨outer, unbranched, tree⟩ := measured_hang.1 h
  obtain ⟨start, -, leaf, -⟩ := Forest.measured_tree.1 tree
  have first : firstLines a = a.label.lines := if_neg (code ▸ by decide)
  have last : lastLines a = [] := if_neg (code ▸ by decide)
  have longer (stop : Int) : firstLines (Reading.Outline.extended lines stop a) =
      a.label.lines ++ lines := if_neg (code ▸ by decide : a.kind ≠ .root)
  have plain (stop : Int) : lastLines (Reading.Outline.extended lines stop a) = [] :=
    if_neg (code ▸ by decide : a.kind ≠ .ifBranch)
  rw [atEnd_hang]
  have single : a.kind.isContinuation = false := Forest.unbranched_tree.1 unbranched
  refine ⟨measured_hang.2 ⟨outer, Forest.unbranched_tree.2 single, Forest.measured_tree.2
    ⟨start, ?_, leaf, trivial⟩⟩, ?_⟩
  · have behind : (k.hang (.tree a .nil)).next + (lines.length : Int) =
        k.next + (a.label.lines ++ lines).length + (Forest.nil : Forest Facet).extent := by
      rw [next_hang, Forest.extent_tree, first, last, Forest.extent_nil, List.length_append,
        List.length_nil]
      omega
    rw [longer, ← behind]
    exact .here Forest.unbranched_nil
  · simp only [printed, lines_hang, Forest.lines_tree, Forest.lines, longer, plain, first, last,
      List.append_nil, List.append_assoc]

end Nest

namespace Reading

open Diff Outline

variable {options : Options} {dialect : Dialect} {line : LogicalLine} {change : Change}
  {t : Time} {m : Time → Nest Facet}

/-- A line that is put behind all that is printed at its times leaves the nests of both times measured,
and is printed behind them. -/
theorem Outline.measured_put {o o' : Outline} {last stop : Position} (range : last.add? 1 = some stop)
    (ho : ∀ t, o.Shows t (m t)) (measured : ∀ t, (m t).Measured)
    (behind : ∀ t, change.existsAt t = true → (startOf line last).get t = (m t).next ∧
      stop.get t = (m t).next + line.lines.length)
    (h : o.put options dialect line change last = .ok o') :
    ∃ m' : Time → Nest Facet, ∀ t, o'.Shows t (m' t) ∧ (m' t).Measured ∧
      (m' t).printed = if change.existsAt t then (m t).printed ++ line.lines else (m t).printed := by
  obtain ⟨m', put, shown, -⟩ | ⟨-, -, c, joins⟩ := put_cases range ho h
  · refine ⟨m', fun t => ⟨shown t, ?_⟩⟩
    have put := put t
    by_cases there : change.existsAt t = true
    · obtain ⟨start, ends⟩ := behind t there
      rw [putAt?, if_pos there, start, ends] at put
      rw [if_pos there]
      exact ⟨(measured t).put put, Nest.printed_put put⟩
    · rw [putAt?, if_neg there] at put
      rw [if_neg there, ← Option.some.inj put]
      exact ⟨measured t, rfl⟩
  · obtain ⟨shown, leaf⟩ := joins.shows ho
    refine ⟨_, fun t => ⟨shown t, ?_⟩⟩
    unfold extendedAt
    split
    · next there =>
      rw [Position.get_restrict, if_pos there, (behind t there).2]
      exact (measured t).atEnd (leaf t there)
    · exact ⟨measured t, rfl⟩

namespace Run

/-- A run counts the lines of a time: the nest of that time is measured, and what is pending goes on
where the nest ends. -/
structure Counts (r : Run) (t : Time) (n : Nest Facet) : Prop where
  shows : r.outline.Shows t n
  measured : n.Measured
  place : r.place.get t = n.printed.length + (r.pending.get t).lines.length
  begins : ∀ p, (r.pending.get t).start = some p → p.get t = n.next

variable {r r' : Run}

theorem counts_start (source : Source) :
    (Run.start source).Counts t (.base Solo.rootFacet .nil) := by
  refine ⟨shows_start source t, ⟨Forest.unbranched_nil, trivial⟩, ?_, fun p hp => ?_⟩
  · cases t <;> rfl
  · cases t <;> cases hp

/-- A pending line that is put is printed behind the nest of each of its times. -/
theorem counts_put {outline : Outline} {pending : Sides LogicalLine}
    (counts : ∀ t, r.Counts t (m t))
    (h : r.outline.put options dialect line change r.place = .ok outline)
    (own : ∀ t, change.existsAt t = true → r.pending.get t = line) (started : line.hasStarted = true)
    (left : ∀ t, pending.get t = if change.existsAt t then {} else r.pending.get t) :
    ∃ m' : Time → Nest Facet, ∀ t, ({ r with outline, pending } : Run).Counts t (m' t) := by
  obtain ⟨stop, range⟩ := place_of_put h
  obtain ⟨p, hp⟩ := Option.isSome_iff_exists.1 started
  have behind (t : Time) (there : change.existsAt t = true) :
      (startOf line r.place).get t = (m t).next ∧
        stop.get t = (m t).next + line.lines.length := by
    obtain ⟨-, -, place, begins⟩ := counts t
    rw [own t there] at place begins
    have moved := (lineNumber?_eq_some_iff.1 (get_add range t)).1
    refine ⟨?_, ?_⟩
    · rw [startOf, hp]
      exact begins p hp
    · rw [← moved, place, Nest.next]
      omega
  obtain ⟨m', hm⟩ := Outline.measured_put range (fun t => (counts t).shows)
    (fun t => (counts t).measured) behind h
  refine ⟨m', fun t => ⟨(hm t).1, (hm t).2.1, ?_, fun q hq => ?_⟩⟩
  · have place := (counts t).place
    rw [(hm t).2.2, left]
    split
    · next there =>
      rw [own t there] at place
      simpa using place
    · exact place
  · have begins := (counts t).begins
    rw [Nest.next, (hm t).2.2]
    rw [left] at hq
    split at hq
    · cases hq
    · next absent =>
      rw [if_neg absent]
      exact begins q hq

theorem counts_flush {u : Time} (counts : ∀ t, r.Counts t (m t))
    (h : r.flush options dialect u = .ok r') : ∃ m' : Time → Nest Facet, ∀ t, r'.Counts t (m' t) := by
  obtain ⟨-, rfl⟩ | ⟨complete, outline, put, rfl⟩ := flush_cases h
  · exact ⟨m, counts⟩
  · rw [LogicalLine.isComplete, Bool.and_eq_true, Bool.and_eq_true] at complete
    refine counts_put counts put (fun t there => ?_) complete.1.1 fun t => ?_
    · rw [Change.existsAt_onlyAt, beq_iff_eq] at there
      rw [there]
    · simp only [Sides.get_set, Change.existsAt_onlyAt, beq_iff_eq]

theorem counts_flushAll (counts : ∀ t, r.Counts t (m t))
    (shared : r.shared = true → r.pending.before = r.pending.after)
    (h : r.flushAll options dialect = .ok r') :
    ∃ m' : Time → Nest Facet, ∀ t, r'.Counts t (m' t) := by
  obtain ⟨⟨both, complete, -⟩, outline, put, rfl⟩ | ⟨-, r₁, run, rest⟩ := flushAll_cases h
  · rw [LogicalLine.isComplete, Bool.and_eq_true, Bool.and_eq_true] at complete
    refine counts_put counts put (fun t _ => ?_) complete.1.1 fun t => Sides.get_both _ t
    cases t
    · rfl
    · exact (shared both).symm
  · obtain ⟨m₁, counts₁⟩ := counts_flush counts run
    exact counts_flush counts₁ rest

/-- A line that is taken goes behind what is pending. -/
theorem Counts.take {place : Position} {n : Nest Facet} (counts : r.Counts t n)
    (fresh : (r.pending.get t).hasStarted = false → r.pending.get t = {})
    (shifted : r.place.shift? 1 change = some place) (content : String) :
    (({ r with place } : Run).take change content).Counts t n := by
  obtain ⟨shown, measured, at_, begins⟩ := counts
  have moved := get_shift shifted t
  have pending : (({ r with place } : Run).take change content).pending.get t =
      if change.existsAt t then (r.pending.get t).consume content place else r.pending.get t :=
    get_take content
  by_cases there : change.existsAt t = true
  · rw [if_pos there] at moved pending
    have moved := (lineNumber?_eq_some_iff.1 moved).1
    refine ⟨shown, measured, ?_, fun p hp => ?_⟩
    · rw [pending, LogicalLine.lines_consume, List.length_append, List.length_singleton]
      show place.get t = _
      omega
    · rw [pending, LogicalLine.consume] at hp
      cases hs : (r.pending.get t).start with
      | some q =>
        rw [hs, Option.some_or] at hp
        exact begins p (hs.trans hp)
      | none =>
        rw [hs, Option.none_or] at hp
        obtain rfl := Option.some.inj hp
        -- nothing is pending, so the nest ends where the run is
        have empty : r.pending.get t = {} := fresh (by rw [LogicalLine.hasStarted, hs]; rfl)
        rw [empty] at at_
        rw [Nest.next, ← moved, at_]
        simp
  · rw [if_neg there] at moved pending
    refine ⟨shown, measured, ?_, fun p hp => begins p (pending ▸ hp)⟩
    rw [pending]
    exact moved.trans at_

theorem counts_step {physical : PhysicalLine} (all : options.skipBlank = false)
    (counts : ∀ t, r.Counts t (m t)) (tuned : r.Tuned)
    (h : r.step options dialect physical = .ok r') :
    ∃ m' : Time → Nest Facet, ∀ t, r'.Counts t (m' t) := by
  obtain ⟨change, place, hc, shifted⟩ := exists_shift_of_step h
  rw [step_eq hc shifted, all, Bool.false_and, if_neg Bool.false_ne_true] at h
  have tuned' : (({ r with place } : Run).take change physical.content).Tuned :=
    Tuned.take (r := { r with place }) ⟨tuned.shared, tuned.fresh⟩ _
  exact counts_flushAll (fun t => (counts t).take (tuned.fresh t) shifted physical.content)
    tuned'.shared h

/-- A whole run counts the lines of both times. -/
theorem counts_run {source : Source} (read : List PhysicalLine) {rest : List PhysicalLine}
    (all : options.skipBlank = false)
    (hr : read.foldlM (Run.step options dialect) (Run.start source) = .ok r)
    (counts : ∀ t, r.Counts t (m t))
    (h : rest.foldlM (Run.step options dialect) r = .ok r') :
    ∃ m' : Time → Nest Facet, ∀ t, r'.Counts t (m' t) := by
  induction rest generalizing read r m with
  | nil =>
    cases h
    exact ⟨m, counts⟩
  | cons line rest ih =>
    rw [List.foldlM_cons] at h
    obtain ⟨r₁, step, h⟩ := Outcome.bind_eq_ok_iff.1 h
    obtain ⟨tuned, -⟩ := plays_run (tuned_start source) (waits_start source)
      (plays_start source) hr
    obtain ⟨m₁, counts₁⟩ := counts_step all counts tuned step
    exact ih (read ++ [line]) (run_snoc hr step) counts₁ h

end Run

/-- The tree of a time of a diff that was read is measured, from the first line on. -/
theorem measured_ofLines {source : Source} {lines : List PhysicalLine} {d : Diff}
    {f : Forest Handle} (all : options.skipBlank = false)
    (h : ofLines options dialect source lines = .ok d) (shape : d.Shape t f) :
    (f.map (d.facet t)).Measured 1 ∧ (f.map (d.facet t)).Unbranched := by
  obtain ⟨r, run, finish⟩ := Outcome.bind_eq_ok_iff.1 h
  obtain ⟨m, counts⟩ := Run.counts_run [] all rfl (fun _ => Run.counts_start source) run
  obtain ⟨⟨n, opened, holds, image, -⟩, measured, -⟩ := counts t
  obtain ⟨-, unopened, rfl⟩ := Run.of_finish finish
  obtain ⟨g, rfl, shape'⟩ := holds.exists_shape (opened ▸ unopened t)
  obtain rfl := shape'.unique shape
  rw [← image] at measured
  obtain ⟨unbranched, measured⟩ := measured
  have top : Nest.firstLines (r.outline.diff.facet t root) = [] :=
    if_pos (look_root_kind (ofLines_seems h).1.toRegular)
  rw [top] at measured
  exact ⟨measured, unbranched⟩

end Reading

end Variation
