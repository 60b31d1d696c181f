import Variation.Printing.Listing
import Variation.Proofs.Durable
import Variation.Proofs.Numbering
import Variation.Proofs.Printable

/-!
# One order for all walks

Four walks go through a whole diff. The one that lists the nodes keeps what waits on a stack and marks a
node when it takes it from there; those that number the lines, write the line diff and list the rows
recurse and mark a node before they go on below it. A `Walker` says what such a recursion does when it
enters a node and when it leaves it, and `Walker.recording` keeps a record of the nodes that it enters. On
the way down a recursion does what it does `along` the tour of the diff, so the main statement says that
all four walks meet the nodes in one order, which holds each node below the root once.
-/

namespace Variation

open Diff

/-- What a walk does at the nodes that it meets. -/
structure Walker (σ : Type) where
  /-- The nodes that were met. -/
  marks : σ → Marks
  /-- What is done first at a node that lies so many levels deep. -/
  enter : Nat → σ → Handle → Outcome σ
  /-- What is done last at the node, in view of what it was entered with. -/
  leave : Nat → σ → σ → Handle → Outcome σ

namespace Walker

variable {σ : Type}

/-- The recursion: a node that is marked is passed over, any other one is entered, and left when the
recursion has gone through its children. -/
def down (w : Walker σ) (d : Diff) : Nat → Nat → σ → Handle → Outcome σ
  | 0, _, _, n => .fail (.notRooted n)
  | levels + 1, depth, s, n =>
    if (w.marks s).has n then .ok s
    else do
      let entered ← w.enter depth s n
      let inner ← (d.belowBoth n).foldlM (w.down d levels (depth + 1)) entered
      w.leave depth entered inner n

/-- The walker with a record of the nodes that it enters, in order. -/
def recording (w : Walker σ) : Walker (σ × List Handle) where
  marks p := w.marks p.1
  enter depth p n := do return (← w.enter depth p.1 n, p.2 ++ [n])
  leave depth entered p n := do return (← w.leave depth entered.1 p.1 n, p.2)

theorem enter_recording (w : Walker σ) (depth : Nat) (p : σ × List Handle) (n : Handle) :
    w.recording.enter depth p n = do return (← w.enter depth p.1 n, p.2 ++ [n]) := rfl

theorem leave_recording (w : Walker σ) (depth : Nat) (entered p : σ × List Handle) (n : Handle) :
    w.recording.leave depth entered p n = do return (← w.leave depth entered.1 p.1 n, p.2) := rfl

/-- The walk over a forest that is known: the first place is entered, and left when the walk has gone
through what lies below it. -/
def along (w : Walker σ) : Nat → Forest Handle → σ → Outcome σ
  | _, .nil, s => .ok s
  | depth, .cons n below rest, s => do
    let entered ← w.enter depth s n
    let inner ← w.along (depth + 1) below entered
    let left ← w.leave depth entered inner n
    w.along depth rest left

/-- Entering a node marks it, and leaving a node marks nothing. `keeps` holds of all states that are
met. -/
structure Lawful (w : Walker σ) (d : Diff) (keeps : σ → Prop) : Prop where
  enter : ∀ {depth s n s'}, keeps s → n < d.size → w.enter depth s n = .ok s' →
    keeps s' ∧ w.marks s' = (w.marks s).mark n
  leave : ∀ {depth entered s n s'}, keeps s → n < d.size → w.leave depth entered s n = .ok s' →
    keeps s' ∧ w.marks s' = w.marks s

/-- A function is the recursion of a walker. -/
structure Recurses (w : Walker σ) (d : Diff) (keeps : σ → Prop)
    (go : Nat → Nat → σ → Handle → Outcome σ) : Prop extends w.Lawful d keeps where
  pass : ∀ {levels depth s n}, (w.marks s).has n = true → go (levels + 1) depth s n = .ok s
  visit : ∀ {levels depth s n}, keeps s → n < d.size → ¬ (w.marks s).has n = true →
    go (levels + 1) depth s n = (do
      let entered ← w.enter depth s n
      let inner ← (d.belowBoth n).foldlM (go levels (depth + 1)) entered
      w.leave depth entered inner n)

variable {w : Walker σ} {d : Diff} {keeps : σ → Prop} {go : Nat → Nat → σ → Handle → Outcome σ}
  {seen ns : List Handle} {f : Forest Handle} {levels depth : Nat} {s : σ}

theorem Lawful.recurses_down (h : w.Lawful d keeps) : w.Recurses d keeps (w.down d) where
  toLawful := h
  pass old := by rw [down, if_pos old]
  visit _ _ new := by rw [down, if_neg new]

theorem Lawful.recording (h : w.Lawful d keeps) : w.recording.Lawful d fun p => keeps p.1 where
  enter kept hn run := by
    obtain ⟨s', entered, run⟩ := Outcome.bind_eq_ok_iff.1 run
    obtain rfl := Outcome.pure_eq_ok_iff.1 run
    exact h.enter kept hn entered
  leave kept hn run := by
    obtain ⟨s', left, run⟩ := Outcome.bind_eq_ok_iff.1 run
    obtain rfl := Outcome.pure_eq_ok_iff.1 run
    exact h.leave kept hn left

/-- A walk over a forest enters the places in the order in which the forest lists them. -/
theorem along_recording (depth : Nat) (f : Forest Handle) (s : σ) (log : List Handle) :
    w.recording.along depth f (s, log) = do return (← w.along depth f s, log ++ f.flatten) := by
  induction f generalizing depth s log with
  | nil =>
    rw [Forest.flatten, List.append_nil]
    rfl
  | cons n below rest ihb ihr =>
    have order : log ++ (Forest.cons n below rest).flatten =
        log ++ [n] ++ below.flatten ++ rest.flatten := by
      simp [Forest.flatten]
    rw [order, along, along]
    simp only [enter_recording, leave_recording, ihb, ihr, bind_assoc, pure_bind]

/-- A recursion goes along the tour of what it meets, and has marked the tour when it has come to an
end. -/
theorem Recurses.foldlM_eq (h : w.Recurses d keeps go) (hd : d.Regular) (tours : d.Tours seen ns f)
    (inStore : ∀ n ∈ ns, n < d.size) (deep : f.flatten.length < levels) (kept : keeps s)
    (marked : d.Marked (w.marks s) seen) :
    ns.foldlM (go levels depth) s = w.along depth f s ∧
      ∀ s', w.along depth f s = .ok s' →
        keeps s' ∧ d.Marked (w.marks s') (f.flatten.reverse ++ seen) := by
  induction tours generalizing levels depth s with
  | nil seen =>
    refine ⟨rfl, fun s' run => ?_⟩
    obtain rfl := Except.ok.inj run
    exact ⟨kept, marked⟩
  | @skip seen ns n f old rest ih =>
    obtain ⟨levels, rfl⟩ : ∃ k, levels = k + 1 := ⟨levels - 1, by omega⟩
    rw [List.foldlM_cons, h.pass ((marked.has n).2 old)]
    exact ih (List.forall_mem_cons.1 inStore).2 deep kept marked
  | @visit seen ns n below rest new inner outer ihb ihr =>
    obtain ⟨hn, hns⟩ := List.forall_mem_cons.1 inStore
    simp only [Forest.flatten, List.length_cons, List.length_append] at deep
    obtain ⟨levels, rfl⟩ : ∃ k, levels = k + 1 := ⟨levels - 1, by omega⟩
    have children : ∀ c ∈ d.belowBoth n, c < d.size := fun c hc => hd.lt_size_of_mem_belowBoth hc
    have unmarked : ¬ (w.marks s).has n = true := fun m => new ((marked.has n).1 m)
    rw [List.foldlM_cons, h.visit kept hn unmarked, along]
    cases entered : w.enter depth s n with
    | error e => exact ⟨rfl, fun s' run => by cases run⟩
    | ok s₁ =>
      obtain ⟨kept₁, marks₁⟩ := h.enter kept hn entered
      obtain ⟨same, spec⟩ := @ihb levels (depth + 1) s₁ children (by omega) kept₁
        (marks₁ ▸ marked.mark hn)
      rw [Outcome.ok_bind, Outcome.ok_bind, same]
      cases gone : w.along (depth + 1) below s₁ with
      | error e => exact ⟨rfl, fun s' run => by cases run⟩
      | ok s₂ =>
        obtain ⟨kept₂, marked₂⟩ := spec s₂ gone
        rw [Outcome.ok_bind, Outcome.ok_bind]
        cases left : w.leave depth s₁ s₂ n with
        | error e => exact ⟨rfl, fun s' run => by cases run⟩
        | ok s₃ =>
          obtain ⟨kept₃, marks₃⟩ := h.leave kept₂ hn left
          rw [Outcome.ok_bind, Outcome.ok_bind, Forest.reverse_flatten_cons]
          exact ihr hns (by omega) kept₃ (marks₃ ▸ marked₂)

/-- One recursion from the root goes along the tour of the diff. -/
theorem Recurses.root_eq (h : w.Recurses d keeps go) (hd : d.Regular) (tour : d.Tour f)
    (kept : keeps s) (marked : d.Marked (w.marks s) []) :
    go (d.size + 1) 0 s root = w.along 0 (.tree root f) s := by
  have one : [root].foldlM (go (d.size + 1) 0) s = go (d.size + 1) 0 s root := by
    rw [List.foldlM_cons]
    cases go (d.size + 1) 0 s root <;> rfl
  rw [← one]
  exact (h.foldlM_eq hd tour.tours (List.forall_mem_singleton.2 hd.root_lt) (tour.length_tree_lt hd)
    kept marked).1

/-- The walk over a forest does what it does with a record, and the record lists the forest. -/
theorem along_eq_recording (w : Walker σ) (depth : Nat) (f : Forest Handle) (s : σ) :
    w.along depth f s = (do return (← w.recording.along depth f (s, [])).1) ∧
      ∀ p, w.recording.along depth f (s, []) = .ok p →
        w.along depth f s = .ok p.1 ∧ p.2 = f.flatten := by
  rw [along_recording, List.nil_append]
  refine ⟨by simp only [bind_assoc, pure_bind, bind_pure], fun p run => ?_⟩
  obtain ⟨s', gone, run⟩ := Outcome.bind_eq_ok_iff.1 run
  obtain rfl := Outcome.pure_eq_ok_iff.1 run
  exact ⟨gone, rfl⟩

/-- A recursion does what it does with a record, and the record is the tour of what it meets. -/
theorem Recurses.recorded (h : w.Recurses d keeps go) (hd : d.Regular) (tours : d.Tours seen ns f)
    (inStore : ∀ n ∈ ns, n < d.size) (deep : f.flatten.length < levels) (kept : keeps s)
    (marked : d.Marked (w.marks s) seen) :
    ns.foldlM (go levels depth) s =
        (do return (← ns.foldlM (w.recording.down d levels depth) (s, [])).1) ∧
      ∀ p, ns.foldlM (w.recording.down d levels depth) (s, []) = .ok p →
        w.along depth f s = .ok p.1 ∧ p.2 = f.flatten := by
  have record := h.toLawful.recording.recurses_down
  rw [(h.foldlM_eq hd tours inStore deep kept marked).1,
    (record.foldlM_eq hd tours (s := (s, [])) inStore deep kept marked).1]
  exact w.along_eq_recording depth f s

/-- One recursion from the root records the tour of the diff. -/
theorem Recurses.root_recorded (h : w.Recurses d keeps go) (hd : d.Regular) (tour : d.Tour f)
    (kept : keeps s) (marked : d.Marked (w.marks s) []) :
    go (d.size + 1) 0 s root =
        (do return (← w.recording.down d (d.size + 1) 0 (s, []) root).1) ∧
      ∀ p, w.recording.down d (d.size + 1) 0 (s, []) root = .ok p →
        w.along 0 (.tree root f) s = .ok p.1 ∧ p.2 = root :: f.flatten := by
  have record := h.toLawful.recording.recurses_down
  rw [h.root_eq hd tour kept marked, record.root_eq hd tour (s := (s, [])) kept marked,
    ← Forest.flatten_tree]
  exact w.along_eq_recording 0 (.tree root f) s

end Walker

/-! ## The rows of a listing -/

namespace Printing

variable {d : Diff} {n : Handle}

/-- A node gets a row when it is entered. -/
def rowWalker : Walker (Marks × Array Row) where
  marks p := p.1
  enter depth p n := .ok (p.1.mark n, p.2.push ⟨depth, n⟩)
  leave _ _ p _ := .ok p

theorem recurses_rowsBelow (d : Diff) : rowWalker.Recurses d (fun _ => True) (rowsBelow d) where
  pass {levels depth p n} old := by
    obtain ⟨marks, rows⟩ := p
    have old : marks.has n = true := old
    rw [rowsBelow, if_pos old]
    rfl
  visit {levels depth p n} _ hn new := by
    obtain ⟨marks, rows⟩ := p
    have new : ¬ marks.has n = true := new
    rw [rowsBelow, if_neg new, allChildren_eq hn]
    exact (bind_pure _).symm
  enter _ _ run := by
    obtain rfl := Except.ok.inj run
    exact ⟨trivial, rfl⟩
  leave _ _ run := by
    obtain rfl := Except.ok.inj run
    exact ⟨trivial, rfl⟩

/-- Each place of a forest gets a row. -/
theorem along_rowWalker (depth : Nat) (f : Forest Handle) (p : Marks × Array Row) :
    ∃ q, rowWalker.along depth f p = .ok q ∧
      q.2.toList.map (·.node) = p.2.toList.map (·.node) ++ f.flatten := by
  induction f generalizing depth p with
  | nil => exact ⟨p, rfl, (List.append_nil _).symm⟩
  | cons n below rest ihb ihr =>
    obtain ⟨q, inner, rows⟩ := ihb (depth + 1) (p.1.mark n, p.2.push ⟨depth, n⟩)
    obtain ⟨r, outer, rows'⟩ := ihr depth q
    refine ⟨r, ?_, ?_⟩
    · rw [Walker.along]
      show (rowWalker.along (depth + 1) below (p.1.mark n, p.2.push ⟨depth, n⟩) >>= _) = _
      rw [inner]
      exact outer
    · rw [rows', rows]
      simp [Forest.flatten]

/-- The rows of a listing stand for the nodes of the tour. -/
theorem exists_rows (hd : d.Regular) {f : Forest Handle} (tour : d.Tour f) :
    ∃ rs, rows d = .ok rs ∧ rs.map (·.node) = root :: f.flatten ∧
      listing d = .ok (Text.unlines (rs.map fun r => rowText r.depth (d.look r.node))) := by
  have start : d.Marked (rowWalker.marks (Marks.none d.size, #[])) [] := .none d
  have walk := (recurses_rowsBelow d).root_eq hd tour trivial start
  obtain ⟨q, gone, nodes⟩ := along_rowWalker 0 (.tree root f) (Marks.none d.size, #[])
  have listed : rows d = .ok q.2.toList := by
    rw [rows, walk, gone]
    rfl
  have nodes : q.2.toList.map (·.node) = root :: f.flatten := by
    rw [nodes, Forest.flatten_tree]
    rfl
  refine ⟨q.2.toList, listed, nodes, ?_⟩
  rw [listing, listed, Outcome.ok_bind, Outcome.mapM_eq_map (g := fun r => rowText r.depth (d.look r.node))]
  · rfl
  · intro r hr
    have met : r.node ∈ root :: f.flatten := nodes ▸ List.mem_map_of_mem hr
    rw [node_look ((tour.mem_iff.1 met).lt_size hd)]
    rfl

end Printing

/-! ## The line diff -/

namespace Printing.Sheet

variable {d : Diff} {n : Handle} {s s' : Sheet} {depth : Nat}

/-- A node is marked and writes its label when it is entered, and is closed when it is left. -/
def walker (d : Diff) : Walker Sheet where
  marks := visited
  enter _ s n := .ok (s.meet d n)
  leave depth _ s n :=
    if (d.look n).kind = .ifBranch then s.close d n (d.look n) depth else .ok s

/-- Nothing is done to a sheet but that lines are written behind those that are there. -/
structure Extends (s s' : Sheet) : Prop where
  visited : s'.visited = s.visited
  entries : ∃ es, s'.entries.toList = s.entries.toList ++ es

namespace Extends

theorem refl (s : Sheet) : s.Extends s := ⟨rfl, [], (List.append_nil _).symm⟩

theorem trans {s'' : Sheet} (h : s.Extends s') (h' : s'.Extends s'') : s.Extends s'' := by
  obtain ⟨es, first⟩ := h.entries
  obtain ⟨es', second⟩ := h'.entries
  exact ⟨h'.visited.trans h.visited, es ++ es', by rw [second, first, List.append_assoc]⟩

theorem write (s : Sheet) (es : List Entry) : s.Extends (s.write es) :=
  ⟨rfl, es, by simp [Sheet.write]⟩

theorem writeClosing (s : Sheet) (c : ClosingLine) : s.Extends (s.writeClosing c) := by
  unfold Sheet.writeClosing
  split
  · exact refl s
  · exact ⟨rfl, _, (write s (labelEntries c.line.diff c.change c.label)).entries.choose_spec⟩

theorem writeClosings (s : Sheet) (cs : List ClosingLine) :
    s.Extends (cs.foldl Sheet.writeClosing s) := by
  induction cs generalizing s with
  | nil => exact refl s
  | cons c cs ih => exact (writeClosing s c).trans (ih _)

end Extends

theorem extends_close {x : Node} (run : s.close d n x depth = .ok s') : s.Extends s' := by
  have closed := Extends.writeClosings s (x.change.times.filterMap x.closing.get)
  rw [Sheet.close] at run
  split at run
  · obtain rfl := Outcome.pure_eq_ok_iff.1 run
    exact closed
  · obtain ⟨⟨last, ends⟩, -, run⟩ := Outcome.bind_eq_ok_iff.1 run
    obtain rfl := Outcome.pure_eq_ok_iff.1 run
    have located : s.Extends { List.foldl Sheet.writeClosing s _ with ends } :=
      ⟨closed.visited, closed.entries⟩
    exact located.trans (.write _ _)

theorem extends_leave {entered : Sheet} (run : (walker d).leave depth entered s n = .ok s') :
    s.Extends s' := by
  unfold walker at run
  dsimp only at run
  split at run
  · exact extends_close run
  · obtain rfl := Except.ok.inj run
    exact .refl s

theorem recurses_visit (d : Diff) : (walker d).Recurses d (fun _ => True) (visit d) where
  pass {levels depth s n} old := by
    have old : s.visited.has n = true := old
    rw [visit, if_pos old]
    rfl
  visit _ hn new := visit_eq hn new
  enter _ _ run := by
    obtain rfl := Except.ok.inj run
    exact ⟨trivial, rfl⟩
  leave _ _ run := ⟨trivial, (extends_leave run).visited⟩

/-- The labels of a forest are written in its order, with closing lines between them. -/
theorem sublist_along {f : Forest Handle} (run : (walker d).along depth f s = .ok s') :
    ∃ es, s'.entries.toList = s.entries.toList ++ es ∧
      (f.flatten.flatMap (firstEntries d)).Sublist es := by
  induction f generalizing depth s s' with
  | nil =>
    obtain rfl := Except.ok.inj run
    exact ⟨[], (List.append_nil _).symm, .refl _⟩
  | cons n below rest ihb ihr =>
    rw [Walker.along] at run
    obtain ⟨s₁, entered, run⟩ := Outcome.bind_eq_ok_iff.1 run
    obtain ⟨s₂, inner, run⟩ := Outcome.bind_eq_ok_iff.1 run
    obtain ⟨s₃, left, outer⟩ := Outcome.bind_eq_ok_iff.1 run
    obtain rfl := Except.ok.inj entered
    obtain ⟨es₂, wrote₂, sub₂⟩ := ihb inner
    obtain ⟨es₃, wrote₃⟩ := (extends_leave left).entries
    obtain ⟨es₄, wrote₄, sub₄⟩ := ihr outer
    have met : (s.meet d n).entries.toList = s.entries.toList ++ firstEntries d n := by
      simp [Sheet.meet, Sheet.write]
    refine ⟨firstEntries d n ++ (es₂ ++ (es₃ ++ es₄)), ?_, ?_⟩
    · rw [wrote₄, wrote₃, wrote₂, met]
      simp only [List.append_assoc]
    · rw [Forest.flatten, List.flatMap_cons, List.flatMap_append]
      exact (List.Sublist.refl _).append (sub₂.append (sub₄.trans (List.sublist_append_right ..)))

end Printing.Sheet

namespace Printing

variable {d : Diff} {f : Forest Handle}

/-- Writes a sheet and records the nodes that are marked. -/
def recordedSheet (d : Diff) : Outcome (Sheet × List Handle) :=
  (Sheet.walker d).recording.down d (d.size + 1) 0 (.blank d.size, []) root

/-- A line diff holds the lines of the recorded sheet, and the record is the tour. -/
theorem lineDiff_recorded (hd : d.Regular) (tour : d.Tour f) :
    lineDiff d = (do
      let (s, _) ← recordedSheet d
      return Text.unlines ((inOrder Entry.before s.entries.toList).map Entry.written)) ∧
    ∀ p, recordedSheet d = .ok p → p.2 = root :: f.flatten ∧
      ((root :: f.flatten).flatMap (Sheet.firstEntries d)).Sublist p.1.entries.toList := by
  obtain ⟨same, record⟩ := (Sheet.recurses_visit d).root_recorded hd tour (s := Sheet.blank d.size)
    trivial (.none d)
  constructor
  · rw [lineDiff, entries, same, recordedSheet]
    simp only [bind_assoc, pure_bind]
  · intro p run
    obtain ⟨gone, order⟩ := record p run
    obtain ⟨es, wrote, sub⟩ := Sheet.sublist_along gone
    rw [Forest.flatten_tree] at sub
    exact ⟨order, wrote ▸ sub.trans (List.sublist_append_right ..)⟩

end Printing

/-! ## The numbers of the lines -/

namespace Edit

variable {α β : Type}

theorem result_bind (e : Edit α) (f : α → Edit β) (d : Diff) :
    (e >>= f).result d = e.result d >>= fun p => (f p.1).result p.2 := by
  unfold result
  rw [EStateM.run_bind]
  cases e.run d <;> rfl

theorem result_foldlM (f : β → α → Edit β) (b : β) (as : List α) (d : Diff) :
    (as.foldlM f b).result d = as.foldlM (fun p a => (f p.1 a).result p.2) (b, d) := by
  induction as generalizing b d with
  | nil => rfl
  | cons a as ih =>
    rw [List.foldlM_cons, List.foldlM_cons, result_bind]
    exact bind_congr fun p => ih p.1 p.2

end Edit

namespace Construction

variable {d : Diff} {n : Handle} {f : Forest Handle}

/-- A node starts at the next free line, and what comes behind its label is free then. -/
def numberStart (state : Int × Marks) (n : Handle) : Edit (Int × Marks) := do
  let x ← Edit.ask (·.node n)
  Edit.update n (begunAt state.1)
  let next ← inRange (lineNumber? (state.1 + max x.label.lines.length 1))
  return (next, state.2.mark n)

/-- A node starts when it is entered and ends when it is left. -/
def numberWalker : Walker ((Int × Marks) × Diff) where
  marks p := p.1.2
  enter _ p n := (numberStart p.1 n).result p.2
  leave _ entered p n :=
    (do return (← numberEnd n entered.1.1 p.1.1, p.1.2) : Edit (Int × Marks)).result p.2

theorem keeps_numberStart (state : Int × Marks) (n : Handle) :
    Edit.Keeps d.Redates (numberStart state n) :=
  (Edit.Keeps.ask _).bind fun _ => .bind (keeps_update (fun _ => ⟨rfl, rfl⟩) fun _ => rfl)
    fun _ => (Edit.Keeps.ask _).bind fun _ => .pure _

theorem numberBelow_eq {levels : Nat} {state : Int × Marks} (new : ¬ state.2.has n = true) :
    numberBelow (levels + 1) state n = (do
      let entered ← numberStart state n
      let children ← Edit.ask (·.allChildren n)
      let inner ← children.foldlM (numberBelow levels) entered
      return (← numberEnd n entered.1 inner.1, inner.2)) := by
  obtain ⟨free, marks⟩ := state
  have new : ¬ marks.has n = true := new
  rw [numberBelow, if_neg new]
  simp only [numberStart, bind_assoc, pure_bind]
  rfl

theorem recurses_numberBelow (d : Diff) : numberWalker.Recurses d (fun p => d.Redates p.2)
    (fun levels _ p n => (numberBelow levels p.1 n).result p.2) where
  pass {levels depth p n} old := by
    obtain ⟨⟨free, marks⟩, e⟩ := p
    have old : marks.has n = true := old
    rw [numberBelow, if_pos old]
    rfl
  visit {levels depth p n} redates hn new := by
    have new : ¬ p.1.2.has n = true := new
    rw [numberBelow_eq new, Edit.result_bind]
    show _ = (numberStart p.1 n).result p.2 >>= _
    cases entered : (numberStart p.1 n).result p.2 with
    | error e => rfl
    | ok q =>
      have redates : d.Redates q.2 := (keeps_numberStart p.1 n).result redates entered
      have children : (Edit.ask (·.allChildren n)).result q.2 = .ok (d.belowBoth n, q.2) := by
        unfold Edit.result
        rw [Edit.run_ask_ok (allChildren_eq (redates.size.symm ▸ hn)), redates.belowBoth]
      rw [Outcome.ok_bind, Outcome.ok_bind, Edit.result_bind, children, Outcome.ok_bind,
        Edit.result_bind, Edit.result_foldlM]
      rfl
  enter {depth p n q} redates hn run := by
    refine ⟨(keeps_numberStart p.1 n).result redates run, ?_⟩
    obtain ⟨x, e₁, -, run⟩ := Edit.run_bind_eq_ok (Edit.run_of_result run)
    obtain ⟨_, e₂, -, run⟩ := Edit.run_bind_eq_ok run
    obtain ⟨next, e₃, -, run⟩ := Edit.run_bind_eq_ok run
    have state := ((EStateM.Result.ok.injEq ..).mp run).1
    exact (congrArg Prod.snd state).symm
  leave {depth entered p n q} redates hn run := by
    have ended : Edit.Keeps d.Redates
        (do return (← numberEnd n entered.1.1 p.1.1, p.1.2) : Edit (Int × Marks)) :=
      (keeps_numberEnd keeps_update _ _).bind fun _ => .pure _
    refine ⟨ended.result redates run, ?_⟩
    obtain ⟨last, e, -, run⟩ := Edit.run_bind_eq_ok (Edit.run_of_result run)
    have state := ((EStateM.Result.ok.injEq ..).mp run).1
    exact (congrArg Prod.snd state).symm

/-- Numbers the lines and records the nodes that are numbered. -/
def recordedNumbering (d : Diff) : Outcome (((Int × Marks) × Diff) × List Handle) :=
  (d.belowBoth root).foldlM (numberWalker.recording.down d d.size 0)
    (((1, (Marks.none d.size).mark root), d), [])

/-- Numbering makes the diff of the recorded numbering, and the record is the tour. -/
theorem number_recorded (hd : d.Regular) (tour : d.Tour f) :
    number.result d = (do
      let ((_, d'), _) ← recordedNumbering d
      return ((), d')) ∧
    ∀ p, recordedNumbering d = .ok p → p.2 = f.flatten := by
  have marked : d.Marked ((Marks.none d.size).mark root) [root] :=
    (Diff.Marked.none d).mark hd.root_lt
  obtain ⟨same, record⟩ := (recurses_numberBelow d).recorded hd tour
    (s := ((1, (Marks.none d.size).mark root), d)) (child_lt_size hd) (tour.length_lt hd) (.refl d)
    marked
  refine ⟨?_, fun p run => (record p run).2⟩
  have whole : number.result d = ((d.belowBoth root).foldlM (numberBelow d.size)
      (1, (Marks.none d.size).mark root) >>= fun _ => pure () : Edit Unit).result d := by
    rw [Edit.result, run_number_eq hd]
    rfl
  rw [whole, Edit.result_bind, Edit.result_foldlM, same, recordedNumbering]
  simp only [bind_assoc, pure_bind]
  rfl

end Construction

namespace Diff

/-- All walks over a diff meet the root and then some nodes, in this order. -/
structure MeetsInOrder (d : Diff) (ns : List Handle) : Prop where
  /-- The walk that keeps a stack lists them. -/
  listed : d.preorder = .ok (root :: ns)
  /-- Numbering is the recursion of which a record is kept. -/
  numbered : Construction.number.result d = (do
    let ((_, d'), _) ← Construction.recordedNumbering d
    return ((), d'))
  /-- Numbering enters them in this order, and it does not enter the root. -/
  numbering : ∀ p, Construction.recordedNumbering d = .ok p → p.2 = ns
  /-- The lines at which they start rise then, and no other node has changed. -/
  rising : ∀ d', Construction.number.run d = .ok () d' →
    (ns.Pairwise fun n m => (d'.look n).start.diff < (d'.look m).start.diff) ∧
      ∀ n, n ∉ ns → d'.look n = d.look n
  /-- Numbering succeeds if there are numbers for all lines. -/
  roomy : (ns.map d.room).sum < 2147483647 → ∃ d', Construction.number.run d = .ok () d'
  /-- Writing a line diff is the recursion of which a record is kept. -/
  printed : Printing.lineDiff d = (do
    let (s, _) ← Printing.recordedSheet d
    return Text.unlines ((Printing.inOrder Printing.Entry.before s.entries.toList).map
      Printing.Entry.written))
  /-- Writing a line diff meets them in this order, and before the lines are put in order their labels
  stand in it too. -/
  printing : ∀ p, Printing.recordedSheet d = .ok p → p.2 = root :: ns ∧
    ((root :: ns).flatMap (Printing.Sheet.firstEntries d)).Sublist p.1.entries.toList
  /-- A listing has a row for each of them, in this order. -/
  rows : ∃ rs, Printing.rows d = .ok rs ∧ rs.map (·.node) = root :: ns ∧
    Printing.listing d =
      .ok (Text.unlines (rs.map fun r => Printing.rowText r.depth (d.look r.node)))

variable {d : Diff}

/-- All walks over a diff meet the nodes in one order, that of its tour, which holds each node below
the root once. -/
theorem walks_in_one_order (hd : d.Regular) : ∃ f : Forest Handle, d.Tour f ∧
    (root :: f.flatten).Nodup ∧ (∀ n, n ∈ root :: f.flatten ↔ d.Reaches n) ∧
    d.MeetsInOrder f.flatten := by
  obtain ⟨f, tour⟩ := Tour.exists_tour hd
  obtain ⟨numbered, numbering⟩ := Construction.number_recorded hd tour
  obtain ⟨printed, printing⟩ := Printing.lineDiff_recorded hd tour
  refine ⟨f, tour, tour.nodup, fun n => tour.mem_iff, preorder_eq hd tour, numbered, numbering,
    fun d' run => ?_, fun few => ?_, printed, printing, Printing.exists_rows hd tour⟩
  · obtain ⟨last, numbers⟩ := Construction.exists_numbers hd tour run
    exact ⟨numbers.numbered.starts, numbers.rest⟩
  · obtain ⟨d', last, marks, run, -⟩ := Construction.run_numberAll hd tour d.size
      (Construction.child_lt_size hd) (tour.length_lt hd) (.refl d)
      ((Diff.Marked.none d).mark hd.root_lt) (by decide : (0 : Int) ≤ 1) (by omega)
    exact ⟨d', by rw [Construction.run_number_eq hd, EStateM.run_bind, run]; rfl⟩

open Printing in
/-- Of the crossed conditions the second one waits twice when the first one has been met, below the root
and below the first one, and the first one waits once more below the second. Each is met once. -/
theorem crossedChains_in_one_order : (crossedChains bothClosings).Regular ∧
    ∃ f : Forest Handle, (crossedChains bothClosings).Tour f ∧ (root :: f.flatten).Nodup ∧
      (∀ n, n ∈ root :: f.flatten ↔ (crossedChains bothClosings).Reaches n) ∧
      (crossedChains bothClosings).MeetsInOrder f.flatten ∧ f.flatten = [1, 2] := by
  have regular : (crossedChains bothClosings).Regular := (built_ofCalls _).regular
  obtain ⟨f, tour, once, all, meets⟩ := walks_in_one_order regular
  have listed : (crossedChains bothClosings).preorder = .ok [root, 1, 2] := by decide +kernel
  rw [meets.listed] at listed
  exact ⟨regular, f, tour, once, all, meets, (List.cons.inj (Except.ok.inj listed)).2⟩

end Diff

end Variation
