import Mathlib.Data.List.Pairwise
import Variation.Proofs.Tour
import Variation.Proofs.Unbroken

/-!
# The line diff of what was read

The walk that prints a diff writes every node that it meets once, and every closing line that the
nodes have recorded once, however many nodes recorded it. So what it writes are the blocks of the
diff, in the order of the walk. The places of their lines are all different, so there is one way to
put them in order, and that is the way in which they were read.
-/

namespace Variation

open Diff Reading

namespace Printing

namespace Entry

variable {a b c : Entry} {es es' : List Entry}

theorem before_iff : a.before b = true ↔ a.line < b.line ∨ a.line = b.line ∧
    (a.added = false ∧ b.added = true ∨ a.added = b.added ∧ a.order ≤ b.order) := by
  unfold before
  split
  · next other => simp [other]
  · next same =>
    rw [not_not] at same
    split
    · next apart => cases ha : a.added <;> cases hb : b.added <;> simp_all
    · next alike =>
      rw [not_not] at alike
      simp [same, alike]

theorem before_total (a b : Entry) : a.before b = true ∨ b.before a = true := by
  simp only [before_iff]
  cases a.added <;> cases b.added <;> simp <;> omega

theorem before_trans (a b c : Entry) (hab : a.before b = true) (hbc : b.before c = true) :
    a.before c = true := by
  simp only [before_iff] at *
  cases ha : a.added <;> cases hb : b.added <;> cases hc : c.added <;>
    simp only [ha, hb, hc] at * <;> simp at * <;> omega

/-- Whether a line stands in front of another one of its sort. -/
def Precedes (a b : Entry) : Prop :=
  a.added = b.added ∧ (a.line < b.line ∨ a.line = b.line ∧ a.order < b.order)

theorem Precedes.before (h : a.Precedes b) : a.before b = true := by
  obtain ⟨alike, h⟩ := h
  exact before_iff.2 (h.imp_right fun ⟨line, order⟩ => ⟨line, .inr ⟨alike, Int.le_of_lt order⟩⟩)

theorem Precedes.not_before (h : a.Precedes b) : ¬ b.before a = true := by
  obtain ⟨alike, h⟩ := h
  rw [before_iff, alike]
  cases b.added <;> simp <;> omega

/-- Lines that stand in front of each other are what any arrangement of them is brought to. -/
theorem inOrder_eq (order : es.Pairwise Precedes) (same : es'.Perm es) :
    inOrder before es' = es := by
  have perm := (inOrder_perm before es').trans same
  have apart : es.Pairwise fun a b => a.Precedes b ∨ b.Precedes a := order.imp .inl
  have : Std.Symm fun a b : Entry => a.Precedes b ∨ b.Precedes a := ⟨fun _ _ => Or.symm⟩
  refine perm.eq_of_pairwise (fun a b ha hb hab hba => ?_)
    (pairwise_inOrder before_total before_trans es') (order.imp Precedes.before)
  by_contra other
  obtain first | first := apart.forall (perm.mem_iff.1 ha) hb other
  · exact first.not_before hba
  · exact first.not_before hab

end Entry

section Labels

variable {line : Int} {change : Change} {l : Label}

theorem mem_labelEntries {e : Entry} (h : e ∈ labelEntries line change l) :
    e.added = false ∧ e.line = line ∧ 0 ≤ e.order := by
  obtain ⟨⟨text, k⟩, -, rfl⟩ := List.mem_map.1 h
  exact ⟨rfl, rfl, Int.natCast_nonneg k⟩

/-- The lines of a label stand in order. -/
theorem pairwise_labelEntries : (labelEntries line change l).Pairwise Entry.Precedes := by
  rw [labelEntries, List.pairwise_map, List.pairwise_iff_getElem]
  intro i j hi hj less
  simp only [List.getElem_zipIdx, Nat.zero_add]
  exact ⟨rfl, .inr ⟨rfl, Int.ofNat_lt.2 less⟩⟩

end Labels

end Printing

/-! ## The entries of blocks -/

/-- A line of a diff as it is written. -/
def Reading.PhysicalLine.written : PhysicalLine → String
  | ⟨some change, content⟩ => change.symbol.toString ++ content
  | ⟨none, content⟩ => content

namespace Block

open Printing

variable {bs : List Block} {line : Int}

/-- The lines of a block with their places. -/
def entries (b : Block) : List Entry := labelEntries b.line b.change ⟨b.lines⟩

theorem map_written_entries (b : Block) :
    b.entries.map Entry.written = b.physical.map PhysicalLine.written := by
  conv_rhs => rw [physical, ← List.zipIdx_map_fst 0 b.lines, List.map_map, List.map_map]
  rw [entries, labelEntries, List.map_map]
  rfl

theorem map_written_spell (bs : List Block) :
    (bs.flatMap entries).map Entry.written = (spell bs).map PhysicalLine.written := by
  rw [spell, List.map_flatMap, List.map_flatMap]
  exact List.flatMap_congr fun b _ => map_written_entries b

theorem change_of_mem_spell {l : PhysicalLine} (h : l ∈ spell bs) : l.change.isSome = true := by
  obtain ⟨b, -, h⟩ := List.mem_flatMap.1 h
  obtain ⟨content, -, rfl⟩ := List.mem_map.1 h
  rfl

/-- The lines of blocks that follow each other stand in front of each other. -/
theorem Follow.pairwise_entries (h : Follow line bs) :
    (bs.flatMap entries).Pairwise Entry.Precedes := by
  refine List.pairwise_flatMap.2 ⟨fun b _ => pairwise_labelEntries,
    h.pairwise.2.imp fun less x hx y hy => ?_⟩
  obtain ⟨first, here, -⟩ := mem_labelEntries hx
  obtain ⟨second, there, -⟩ := mem_labelEntries hy
  exact ⟨first.trans second.symm, .inl (by rw [here, there]; exact less)⟩

end Block

/-- A chain below the root has recorded a closing line for a time. -/
def Diff.Records (d : Diff) (n : Handle) (t : Time) (c : ClosingLine) : Prop :=
  d.Reaches n ∧ (d.look n).closingAt t = some c

namespace Printing.Sheet

variable {d : Diff} {s s' : Sheet} {seen ns : List Handle} {cs : List ClosingLine} {n : Handle}
  {f : Forest Handle} {c : ClosingLine}

/-! ## What the walk writes -/

/-- The entries that a node begins with. -/
def firstEntries (d : Diff) (n : Handle) : List Entry :=
  if (d.look n).kind = .root then [] else (d.block (.node n)).entries

/-- A sheet holds the nodes that were met and closing lines that some nodes have recorded, each
once. -/
structure Holds (d : Diff) (s : Sheet) (seen : List Handle) (cs : List ClosingLine) : Prop where
  size : s.visited.size = d.size
  marked : ∀ n, s.visited.has n = true ↔ n ∈ seen
  entries : s.entries.toList.Perm
    (seen.flatMap (firstEntries d) ++ cs.flatMap fun c => (d.block (.closing c)).entries)
  closed : s.closed = cs.map (·.line.diff)
  once : s.closed.Nodup
  recorded : ∀ c ∈ cs, ∃ n t, d.Records n t c

theorem holds_blank (d : Diff) : (blank d.size).Holds d [] [] where
  size := by simp [blank, Marks.none]
  marked n := by simp [blank, Marks.none, Marks.has, Array.getElem?_replicate]
  entries := .refl _
  closed := rfl
  once := .nil
  recorded c hc := absurd hc List.not_mem_nil

/-- Marks a node that is met and writes what it begins with. -/
def meet (d : Diff) (s : Sheet) (n : Handle) : Sheet :=
  { s with visited := s.visited.mark n }.write (firstEntries d n)

theorem visit_eq {levels depth : Nat} (hn : n < d.size) (new : ¬ s.visited.has n = true) :
    visit d (levels + 1) depth s n =
      (d.belowBoth n).foldlM (visit d levels (depth + 1)) (s.meet d n) >>= fun s =>
        if (d.look n).kind = .ifBranch then s.close d n (d.look n) depth else .ok s := by
  have start : (if (d.look n).kind = .root then { s with visited := s.visited.mark n }
      else { s with visited := s.visited.mark n }.write
        (labelEntries (d.look n).start.diff (d.look n).change (d.look n).label)) = s.meet d n := by
    unfold meet firstEntries
    split
    · simp [write]
    · rfl
  rw [visit, if_neg new, node_look hn, Outcome.ok_bind, allChildren_eq hn, ← start]
  rfl

theorem perm_meet {es : List Entry}
    (h : s.entries.toList.Perm (seen.flatMap (firstEntries d) ++ es)) :
    (s.meet d n).entries.toList.Perm ((n :: seen).flatMap (firstEntries d) ++ es) := by
  show (s.entries ++ (firstEntries d n).toArray).toList.Perm _
  rw [Array.toList_append, List.flatMap_cons, List.append_assoc]
  exact (h.append_right _).trans List.perm_append_comm

theorem Holds.meet (h : s.Holds d seen cs) (hn : n < d.size) :
    (s.meet d n).Holds d (n :: seen) cs where
  size := by
    rw [← h.size]
    exact Marks.size_mark ..
  marked m := by
    show (s.visited.mark n).has m = true ↔ _
    rw [Marks.has_mark, h.size, decide_eq_true hn, Bool.and_true, Bool.or_eq_true, beq_iff_eq,
      h.marked, List.mem_cons, eq_comm]
  entries := perm_meet h.entries
  closed := h.closed
  once := h.once
  recorded := h.recorded

/-- A closing line that was recorded is written, unless it was written before. -/
theorem Holds.writeClosing (h : s.Holds d seen cs) (hc : ∃ n t, d.Records n t c) :
    ∃ cs', (s.writeClosing c).Holds d seen cs' ∧ s.closed ⊆ (s.writeClosing c).closed ∧
      c.line.diff ∈ (s.writeClosing c).closed := by
  unfold Sheet.writeClosing
  split
  · next written =>
    exact ⟨cs, h, List.Subset.refl _, List.contains_iff_mem.1 written⟩
  · next new =>
    rw [List.contains_iff_mem] at new
    refine ⟨c :: cs, ⟨h.size, h.marked, ?_, congrArg (c.line.diff :: ·) h.closed,
      List.nodup_cons.2 ⟨new, h.once⟩, List.forall_mem_cons.2 ⟨hc, h.recorded⟩⟩,
      List.subset_cons_self _ _, List.mem_cons_self⟩
    show (s.entries ++ (labelEntries c.line.diff c.change c.label).toArray).toList.Perm _
    rw [Array.toList_append, List.flatMap_cons]
    refine (h.entries.append_right _).trans ?_
    rw [List.append_assoc]
    exact List.perm_append_comm.append_left _

theorem Holds.writeClosings {es : List ClosingLine} (h : s.Holds d seen cs)
    (hes : ∀ c ∈ es, ∃ n t, d.Records n t c) :
    ∃ cs', (es.foldl Sheet.writeClosing s).Holds d seen cs' ∧
      s.closed ⊆ (es.foldl Sheet.writeClosing s).closed ∧
      ∀ c ∈ es, c.line.diff ∈ (es.foldl Sheet.writeClosing s).closed := by
  induction es generalizing s cs with
  | nil => exact ⟨cs, h, List.Subset.refl _, fun c hc => absurd hc List.not_mem_nil⟩
  | cons c es ih =>
    obtain ⟨hc, hes⟩ := List.forall_mem_cons.1 hes
    obtain ⟨cs₁, holds, more, here⟩ := h.writeClosing hc
    obtain ⟨cs', holds', more', rest⟩ := ih holds hes
    exact ⟨cs', holds', List.Subset.trans more more', List.forall_mem_cons.2 ⟨more' here, rest⟩⟩

/-- Every chain below the root has recorded what closed it, at each time at which it is there. -/
def Closes (d : Diff) : Prop :=
  ∀ n t, d.Reaches n → (d.look n).kind = .ifBranch → d.lives t n = true →
    ((d.look n).closing.get t).isSome = true

/-- A node has all its closing lines on a sheet. -/
def Closed (d : Diff) (s : Sheet) (n : Handle) : Prop :=
  (d.look n).kind = .ifBranch → ∀ t c, d.lives t n = true → (d.look n).closing.get t = some c →
    c.line.diff ∈ s.closed

/-- What a node opened is closed by what was recorded. -/
theorem Holds.close {depth : Nat} (h : s.Holds d seen cs) (closes : Closes d) (hn : n < d.size)
    (reaches : d.Reaches n) (kind : (d.look n).kind = .ifBranch) :
    ∃ s' cs', s.close d n (d.look n) depth = .ok s' ∧ s'.Holds d seen cs' ∧
      s.closed ⊆ s'.closed ∧ Closed d s' n := by
  have none_missing : (d.look n).change.times.filter (fun t => ((d.look n).closing.get t).isNone) =
      [] := by
    refine List.filter_eq_nil_iff.2 fun t ht => ?_
    have recorded := closes n t reaches kind (by rw [lives_look hn]; exact Change.mem_times.1 ht)
    rw [Option.isNone_iff_eq_none]
    exact Option.isSome_iff_ne_none.1 recorded
  have recorded : ∀ c ∈ (d.look n).change.times.filterMap (d.look n).closing.get,
      ∃ n t, d.Records n t c := by
    intro c hc
    obtain ⟨t, -, hc⟩ := List.mem_filterMap.1 hc
    exact ⟨n, t, reaches, Node.closingAt_eq_some_iff.2 ⟨kind, hc⟩⟩
  obtain ⟨cs', holds, more, here⟩ := h.writeClosings recorded
  refine ⟨_, cs', ?_, holds, more, fun _ t c there recorded => ?_⟩
  · rw [Sheet.close]
    simp only [none_missing, List.isEmpty_nil, if_true]
    rfl
  · rw [lives_look hn] at there
    exact here c (List.mem_filterMap.2 ⟨t, Change.mem_times.2 there, recorded⟩)

/-- The walk writes the tour of what it visits. -/
theorem visit_tours (levels depth : Nat) (hd : d.Regular) (closes : Closes d) (h : d.Tours seen ns f)
    (reaches : ∀ n ∈ ns, d.Reaches n) (deep : f.flatten.length < levels)
    (holds : s.Holds d seen cs) :
    ∃ s' cs', ns.foldlM (visit d levels depth) s = .ok s' ∧
      s'.Holds d (f.flatten.reverse ++ seen) cs' ∧ s.closed ⊆ s'.closed ∧
      ∀ n ∈ f.flatten, Closed d s' n := by
  induction h generalizing levels depth s cs with
  | nil seen =>
    exact ⟨s, cs, rfl, holds, List.Subset.refl _, fun n hn => absurd hn List.not_mem_nil⟩
  | @skip seen ns n f old rest ih =>
    obtain ⟨levels, rfl⟩ : ∃ k, levels = k + 1 := ⟨levels - 1, by omega⟩
    obtain ⟨s', cs', run, spec⟩ :=
      ih (levels + 1) depth (List.forall_mem_cons.1 reaches).2 deep holds
    refine ⟨s', cs', ?_, spec⟩
    rw [List.foldlM_cons, visit, if_pos ((holds.marked n).2 old)]
    exact run
  | @visit seen ns n below rest new inner outer ihb ihr =>
    obtain ⟨here, hns⟩ := List.forall_mem_cons.1 reaches
    have hn := here.lt_size hd
    simp only [Forest.flatten, List.length_cons, List.length_append] at deep
    obtain ⟨levels, rfl⟩ : ∃ k, levels = k + 1 := ⟨levels - 1, by omega⟩
    have children : ∀ c ∈ d.belowBoth n, d.Reaches c := fun c hc => here.of_mem_belowBoth hc
    have unmarked : ¬ s.visited.has n = true := fun h => new ((holds.marked n).1 h)
    obtain ⟨s₁, cs₁, run₁, holds₁, more₁, closed₁⟩ :=
      ihb levels (depth + 1) children (by omega) (holds.meet hn)
    obtain ⟨s₂, cs₂, run₂, holds₂, more₂, closed₂⟩ : ∃ s₂ cs₂,
        (if (d.look n).kind = .ifBranch then s₁.close d n (d.look n) depth else .ok s₁) = .ok s₂ ∧
          s₂.Holds d (below.flatten.reverse ++ n :: seen) cs₂ ∧ s₁.closed ⊆ s₂.closed ∧
          Closed d s₂ n := by
      split
      · next kind => exact holds₁.close closes hn here kind
      · next other => exact ⟨s₁, cs₁, rfl, holds₁, List.Subset.refl _, fun kind => absurd kind other⟩
    obtain ⟨s', cs', run', holds', more', closed'⟩ :=
      ihr (levels + 1) depth hns (by omega) holds₂
    refine ⟨s', cs', ?_, Forest.reverse_flatten_cons n below rest seen ▸ holds',
      List.Subset.trans more₁ (List.Subset.trans more₂ more'), fun m hm => ?_⟩
    · rw [List.foldlM_cons, visit_eq hn unmarked, run₁, Outcome.ok_bind, run₂]
      exact run'
    · simp only [Forest.flatten, List.mem_cons, List.mem_append] at hm
      obtain rfl | hm | hm := hm
      · exact fun kind t c there recorded => more' (closed₂ kind t c there recorded)
      · exact fun kind t c there recorded => more' (more₂ (closed₁ m hm kind t c there recorded))
      · exact closed' m hm

/-- The walk from the root writes the tour. -/
theorem exists_visit (hd : d.Regular) (closes : Closes d) : ∃ f s cs, d.Tour f ∧
    visit d (d.size + 1) 0 (.blank d.size) root = .ok s ∧
    s.Holds d (root :: f.flatten).reverse cs ∧ ∀ n ∈ root :: f.flatten, Closed d s n := by
  obtain ⟨f, tour⟩ := Tour.exists_tour hd
  obtain ⟨s, cs, run, holds, -, closed⟩ := visit_tours _ 0 hd closes tour.tours
    (List.forall_mem_singleton.2 .root) (tour.length_tree_lt hd) (holds_blank _)
  rw [Forest.flatten_tree, List.append_nil] at holds
  rw [Forest.flatten_tree] at closed
  rw [List.foldlM_cons] at run
  obtain ⟨s', visited, run⟩ := Outcome.bind_eq_ok_iff.1 run
  obtain rfl := Except.ok.inj run
  exact ⟨f, _, cs, tour, visited, holds, closed⟩

end Printing.Sheet

namespace Reading

open Outline Printing

variable {o : Outline} {ps : List Piece} {read : List PhysicalLine}

namespace Outline.Written

/-- No two pieces take the same block. -/
theorem pairwise (w : o.Written ps read) :
    ps.Pairwise fun p q => (o.diff.block p).line < (o.diff.block q).line := by
  have order := w.follow.pairwise.2
  rw [List.pairwise_map] at order
  exact order

theorem nodup (w : o.Written ps read) : ps.Nodup :=
  w.pairwise.imp fun less same => by
    rw [same] at less
    exact Int.lt_irrefl _ less

/-- Closing lines of one line of the diff are one. -/
theorem closing_inj {c c' : ClosingLine} (w : o.Written ps read) (hc : .closing c ∈ ps)
    (hc' : .closing c' ∈ ps) (same : c.line.diff = c'.line.diff) : c = c' := by
  have apart : ps.Pairwise fun p q => (o.diff.block p).line ≠ (o.diff.block q).line :=
    w.pairwise.imp Int.ne_of_lt
  have : Std.Symm fun p q : Piece => (o.diff.block p).line ≠ (o.diff.block q).line :=
    ⟨fun p q other => Ne.symm other⟩
  by_contra other
  exact apart.forall hc hc' (fun e => other (Piece.closing.inj e)) same

/-- If nothing is open, every chain has recorded what closed it. -/
theorem closes (w : o.Written ps read) (hd : o.diff.Regular)
    (done : ∀ t, o.opened.get t = [root]) : Sheet.Closes o.diff := by
  intro n t _ kind there
  rw [Option.isSome_iff_ne_none, Ne, w.unclosed n t kind there, done, List.mem_singleton]
  exact ne_root_of_kind hd kind (by decide)

/-- What the walk has written is what was read, in some order. -/
theorem perm_entries {f : Forest Handle} {s : Sheet} {cs : List ClosingLine}
    (w : o.Written ps read) (orderly : o.diff.Orderly) (tour : o.diff.Tour f)
    (holds : s.Holds o.diff (root :: f.flatten).reverse cs)
    (closed : ∀ n ∈ root :: f.flatten, Sheet.Closed o.diff s n) :
    s.entries.toList.Perm ((ps.map o.diff.block).flatMap Block.entries) := by
  have once := List.nodup_cons.1 tour.nodup
  have inStore (n : Handle) (hn : n ∈ f.flatten) : n < o.diff.size :=
    (tour.mem_iff.1 (List.mem_cons_of_mem root hn)).lt_size orderly.toRegular
  have other (n : Handle) (hn : n ∈ f.flatten) : n ≠ root := fun e => once.1 (e ▸ hn)
  have written (c : ClosingLine) (hc : c ∈ cs) : Piece.closing c ∈ ps := by
    obtain ⟨n, t, -, recorded⟩ := holds.recorded c hc
    exact w.recorded n t c (Node.closingAt_eq_some_iff.1 recorded).2
  have nodes (n : Handle) : n ∈ f.flatten ↔ Piece.node n ∈ ps := by
    rw [w.nodes]
    refine ⟨fun hn => ⟨other n hn, inStore n hn⟩, fun ⟨below, hn⟩ => ?_⟩
    exact (List.mem_cons.1 (tour.mem_iff.2 (orderly.reaches hn))).resolve_left below
  have closings (c : ClosingLine) : c ∈ cs ↔ Piece.closing c ∈ ps := by
    refine ⟨written c, fun hc => ?_⟩
    obtain ⟨n, t, hn, kind, there, recorded⟩ := w.records c hc
    have on := closed n (tour.mem_iff.2 (orderly.reaches hn)) kind t c there recorded
    rw [holds.closed] at on
    obtain ⟨c', hc', same⟩ := List.mem_map.1 on
    rw [w.closing_inj hc (written c' hc') same.symm]
    exact hc'
  have pieces : (f.flatten.map Piece.node ++ cs.map Piece.closing).Perm ps := by
    have distinct : cs.Nodup := by
      have lines := holds.once
      rw [holds.closed] at lines
      exact lines.of_map _
    refine (List.perm_ext_iff_of_nodup (List.nodup_append.2 ⟨once.2.map fun a b e => Piece.node.inj e,
      distinct.map fun a b e => Piece.closing.inj e, ?_⟩) w.nodup).2 fun p => ?_
    · rintro p hp q hq rfl
      obtain ⟨n, -, rfl⟩ := List.mem_map.1 hp
      obtain ⟨c, -, e⟩ := List.mem_map.1 hq
      cases e
    · cases p with
      | node n => simp [nodes]
      | closing c => simp [closings]
  have first : (root :: f.flatten).flatMap (Sheet.firstEntries o.diff) =
      (f.flatten.map Piece.node).flatMap fun p => (o.diff.block p).entries := by
    have bare : Sheet.firstEntries o.diff root = [] := if_pos (look_root_kind orderly.toRegular)
    rw [List.flatMap_cons, bare, List.nil_append, List.flatMap_map]
    exact List.flatMap_congr fun n hn => if_neg (orderly.kind n (inStore n hn) (other n hn))
  have backwards := (List.reverse_perm (root :: f.flatten)).flatMap_right (Sheet.firstEntries o.diff)
  refine (holds.entries.trans (backwards.append_right _)).trans ?_
  have whole := pieces.flatMap_right fun p => (o.diff.block p).entries
  rw [List.flatMap_append, List.flatMap_map Piece.closing] at whole
  rw [first, List.flatMap_map o.diff.block]
  exact whole

end Outline.Written

/-- The lines that are printed are the lines that were read, in order. -/
theorem entries_of_written (orderly : o.diff.Orderly) (w : o.Written ps read)
    (done : ∀ t, o.opened.get t = [root]) :
    entries o.diff = .ok ((ps.map o.diff.block).flatMap Block.entries) := by
  obtain ⟨f, s, cs, tour, visited, holds, closed⟩ :=
    Sheet.exists_visit orderly.toRegular (w.closes orderly.toRegular done)
  rw [entries, visited, Outcome.ok_bind,
    Entry.inOrder_eq w.follow.pairwise_entries (w.perm_entries orderly tour holds closed)]
  rfl

/-- A line of a diff is written as it was read, but an empty one as a space. -/
theorem PhysicalLine.written_ofDiffLine {line : String}
    (h : (ofDiffLine line).change.isSome = true) :
    (ofDiffLine line).written = if line = "" then " " else line := by
  obtain ⟨cs, rfl⟩ : ∃ cs, line = String.ofList cs := ⟨line.toList, String.ofList_toList.symm⟩
  simp only [String.ofList_eq_empty_iff]
  rw [ofDiffLine, String.toList_ofList] at h ⊢
  have opens (change : Change) (cs : List Char) :
      change.symbol.toString ++ String.ofList cs = String.ofList (change.symbol :: cs) := by
    rw [← List.singleton_append, String.ofList_append, ← String.singleton_eq_ofList]
    rfl
  unfold Change.ofDiffLine? at h ⊢
  split at h
  · rfl
  · exact opens .unchanged _
  · exact opens .added _
  · exact opens .removed _
  · cases h

/-- The line diff of a text is the text, line by line, if it keeps all lines and no line breaks an
open logical line; an empty line comes out as a space. -/
theorem lineDiff_diff {options : Options} {dialect : Dialect} {source : Source} {d : Diff}
    {ls : List String} (plain : ∀ l ∈ ls, Text.Plain l) (all : options.skipBlank = false)
    (unbroken : Unbroken (ls.map PhysicalLine.ofDiffLine))
    (h : diff (Text.unlines ls) options source dialect = .ok d) :
    lineDiff d = .ok (Text.unlines (ls.map fun line => if line = "" then " " else line)) := by
  have lines : PhysicalLine.ofDiff (Text.unlines ls) = ls.map PhysicalLine.ofDiffLine := by
    rw [PhysicalLine.ofDiff, Text.lines_unlines plain]
  rw [diff, lines] at h
  obtain ⟨o, ps, rfl, w, done⟩ := written_of_ofLines all unbroken h
  rw [lineDiff, entries_of_written (ofLines_seems h).1 w done, Outcome.ok_bind,
    Block.map_written_spell, w.spell, List.map_map]
  have text : ls.map (PhysicalLine.written ∘ PhysicalLine.ofDiffLine) =
      ls.map fun line => if line = "" then " " else line := by
    refine List.map_congr_left fun line hl => PhysicalLine.written_ofDiffLine ?_
    have spelled : PhysicalLine.ofDiffLine line ∈ Block.spell (ps.map o.diff.block) := by
      rw [w.spell]
      exact List.mem_map_of_mem hl
    exact Block.change_of_mem_spell spelled
  rw [text]
  rfl

/-- A condition over two lines that is replaced, with a line of code that both sides share. -/
theorem lineDiff_diff_replaced :
    ∃ d, diff (Text.unlines ["-#if A && \\", "-  B", "+#if C", " x", "", " #endif"]) ⟨true, false⟩
        .unknown .preprocessor = .ok d ∧
      lineDiff d = .ok (Text.unlines ["-#if A && \\", "-  B", "+#if C", " x", " ", " #endif"]) := by
  have accepted : (diff (Text.unlines ["-#if A && \\", "-  B", "+#if C", " x", "", " #endif"])
      ⟨true, false⟩ .unknown .preprocessor).isOk = true := by
    decide +kernel
  cases h : diff (Text.unlines ["-#if A && \\", "-  B", "+#if C", " x", "", " #endif"])
      ⟨true, false⟩ .unknown .preprocessor with
  | error e =>
    rw [h] at accepted
    cases accepted
  | ok d =>
    have plain : ∀ l ∈ ["-#if A && \\", "-  B", "+#if C", " x", "", " #endif"], Text.Plain l := by
      simp [Text.Plain]
    have unbroken : Unbroken (["-#if A && \\", "-  B", "+#if C", " x", "", " #endif"].map
        PhysicalLine.ofDiffLine) := by
      decide +kernel
    exact ⟨d, rfl, lineDiff_diff plain rfl unbroken h⟩

end Reading

end Variation
