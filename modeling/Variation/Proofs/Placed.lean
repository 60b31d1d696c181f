import Variation.Proofs.Reprinted
import Variation.Proofs.Spelled

/-!
# The places of what is printed

A line diff puts every line at a place of its own, while the source at a time goes along a tree. So the
two agree on a time exactly as far as the places increase along the tree at that time. `placed` lists
the lines of a tree with their places. The main statement says that the lines of a line diff that are
there at a time are those of the tree at that time, in order of their places, if closing lines with
the same place are the same line; and that otherwise some time loses lines.
-/

namespace Variation

namespace Printing

open Diff

variable {d : Diff} {t u : Time} {f : Forest Handle} {s : Sides (Forest Handle)} {n m : Handle}
  {key : Position → Int} {c c' : ClosingLine}

/-! ## The lines of a tree with their places -/

/-- The lines with which a node begins. -/
def firstPlaced (key : Position → Int) (x : Node) : List Entry :=
  if x.kind = .root then [] else labelEntries (key x.start) x.change x.label

/-- A closing line with its place. -/
def closingPlaced (key : Position → Int) (c : ClosingLine) : List Entry :=
  labelEntries (key c.line) c.change c.label

/-- The recorded lines with which a node ends at a time. -/
def lastPlaced (key : Position → Int) (t : Time) (x : Node) : List Entry :=
  (x.closingAt t).toList.flatMap (closingPlaced key)

theorem lastPlaced_eq_nil {x : Node} (h : x.kind ≠ .ifBranch) : lastPlaced key t x = [] := by
  rw [lastPlaced, Node.closingAt, if_neg h]
  rfl

/-- The lines of a tree of a diff at a time, with the places that a key gives them. -/
def placed (key : Position → Int) (d : Diff) (t : Time) (f : Forest Handle) : List Entry :=
  f.spell (fun n => firstPlaced key (d.look n)) fun n => lastPlaced key t (d.look n)

theorem map_text_labelEntries (line : Int) (change : Change) (l : Label) :
    (labelEntries line change l).map (·.text) = l.lines := by
  rw [labelEntries, List.map_map]
  exact List.zipIdx_map_fst 0 l.lines

theorem map_text_firstPlaced (x : Node) : (firstPlaced key x).map (·.text) = ownLines x := by
  rw [firstPlaced, ownLines]
  split
  · rfl
  · exact map_text_labelEntries ..

theorem map_text_lastPlaced {x : Node}
    (closes : x.kind = .ifBranch → (x.closing.get t).isSome = true) :
    (lastPlaced key t x).map (·.text) = closingLines x t := by
  rw [lastPlaced, closingLines, Node.closingAt]
  split
  · next kind =>
    obtain ⟨c, hc⟩ := Option.isSome_iff_exists.1 (closes kind)
    simp only [hc, Option.toList_some, List.flatMap_singleton, closingPlaced, map_text_labelEntries]
  · rfl

/-- The lines of a tree are what it prints, if every chain has recorded what closed it. -/
theorem map_text_placed (closes : ∀ n ∈ f.flatten, (d.look n).kind = .ifBranch →
    ((d.look n).closing.get t).isSome = true) :
    (placed key d t f).map (·.text) = printed d t f := by
  rw [placed, Forest.map_spell, printed, Forest.lines_eq_spell]
  exact Forest.spell_congr fun n hn => ⟨map_text_firstPlaced _, map_text_lastPlaced (closes n hn)⟩

/-! ## The closing lines of a tree -/

/-- The closing lines that the chains of a forest have recorded for a time. -/
def closingsAt (d : Diff) (t : Time) (f : Forest Handle) : List ClosingLine :=
  f.flatten.flatMap fun n => ((d.look n).closingAt t).toList

theorem mem_closingsAt :
    c ∈ closingsAt d t f ↔ ∃ n ∈ f.flatten, (d.look n).closingAt t = some c := by
  simp only [closingsAt, List.mem_flatMap, Option.mem_toList]

theorem flatMap_lastPlaced (d : Diff) (f : Forest Handle) :
    (f.flatten.flatMap fun n => lastPlaced key t (d.look n)) =
      (closingsAt d t f).flatMap (closingPlaced key) := by
  rw [closingsAt, List.flatMap_assoc]
  rfl

/-- A twofold diff whose closing lines are those of its chains: every chain has one for each time at
which it is there, a closing line is there at the times for which it was recorded, and no two chains
share one at the same time. -/
structure Shut (d : Diff) (s : Sides (Forest Handle)) : Prop extends Twofold d s where
  top : ∀ t, d.lives t Diff.root = true
  closes : Sheet.Closes d
  mem : ∀ n t c, d.Records n t c → n ∈ (s.get t).flatten ∧ c.change.existsAt t = true
  both : ∀ n t u c, d.Records n t c → c.change.existsAt u = true → ∃ m, d.Records m u c
  apart : ∀ t n m c c', d.Records n t c → d.Records m t c' → c.line.diff = c'.line.diff → n = m

/-- Closing lines with the same place in a diff are the same line. -/
def Agree (d : Diff) : Prop :=
  ∀ n m t u c c', d.Records n t c → d.Records m u c' → c.line.diff = c'.line.diff → c = c'

/-- A label with lines has a first one. -/
theorem exists_labelEntries {line : Int} {change : Change} {l : Label} (full : l.lines ≠ []) :
    ∃ e ∈ labelEntries line change l, e.line = line ∧ e.order = 0 := by
  obtain ⟨text, texts, hl⟩ := List.exists_cons_of_ne_nil full
  exact ⟨⟨line, false, 0, change, text⟩, by simp [labelEntries, hl], rfl, rfl⟩

/-- Nodes that list lines with one place are one, if all lines have different places. -/
theorem eq_of_apart {list : Handle → List Entry} {ns : List Handle} {e e' : Entry}
    (apart : (ns.flatMap list).Pairwise fun a b => a.Precedes b ∨ b.Precedes a) (hn : n ∈ ns)
    (hm : m ∈ ns) (he : e ∈ list n) (he' : e' ∈ list m) (line : e.line = e'.line)
    (order : e.order = e'.order) : n = m := by
  by_contra other
  have : Std.Symm fun a b : Handle => ∀ x ∈ list a, ∀ y ∈ list b, x.Precedes y ∨ y.Precedes x :=
    ⟨fun a b h x hx y hy => (h y hy x hx).symm⟩
  have between := (List.pairwise_flatMap.1 apart).2.forall hn hm other e he e' he'
  simp only [Entry.Precedes] at between
  omega

section Rises

variable (rises : (placed key d t f).Pairwise Entry.Precedes) (hn : n ∈ f.flatten) (hm : m ∈ f.flatten)

include rises

theorem pairwise_of_rises :
    (f.flatten.flatMap fun n => firstPlaced key (d.look n)).Pairwise
        (fun a b => a.Precedes b ∨ b.Precedes a) ∧
      (f.flatten.flatMap fun n => lastPlaced key t (d.look n)).Pairwise
        fun a b => a.Precedes b ∨ b.Precedes a := by
  have apart : (placed key d t f).Pairwise fun a b => a.Precedes b ∨ b.Precedes a := rises.imp .inl
  rw [placed, Forest.spell_perm.pairwise_iff Or.symm] at apart
  obtain ⟨firsts, lasts, -⟩ := List.pairwise_append.1 apart
  exact ⟨firsts, lasts⟩

include hn hm

/-- If the places increase along a tree, no two of its nodes begin at one place. -/
theorem eq_of_start (kind : (d.look n).kind ≠ .root) (kind' : (d.look m).kind ≠ .root)
    (full : (d.look n).label.lines ≠ []) (full' : (d.look m).label.lines ≠ [])
    (same : key (d.look n).start = key (d.look m).start) : n = m := by
  have first {n : Handle} (kind : (d.look n).kind ≠ .root) (full : (d.look n).label.lines ≠ []) :
      ∃ e ∈ firstPlaced key (d.look n), e.line = key (d.look n).start ∧ e.order = 0 := by
    rw [firstPlaced, if_neg kind]
    exact exists_labelEntries full
  obtain ⟨e, he, line, order⟩ := first kind full
  obtain ⟨e', he', line', order'⟩ := first kind' full'
  exact eq_of_apart (pairwise_of_rises rises).1 hn hm he he' (line.trans (same.trans line'.symm))
    (order.trans order'.symm)

/-- If the places increase along a tree, no two of its chains have their closing lines at one place. -/
theorem eq_of_rises (hc : (d.look n).closingAt t = some c) (hc' : (d.look m).closingAt t = some c')
    (full : c.label.lines ≠ []) (full' : c'.label.lines ≠ []) (same : key c.line = key c'.line) :
    n = m := by
  have first {n : Handle} {c : ClosingLine} (hc : (d.look n).closingAt t = some c)
      (full : c.label.lines ≠ []) :
      ∃ e ∈ lastPlaced key t (d.look n), e.line = key c.line ∧ e.order = 0 := by
    rw [lastPlaced, hc, Option.toList_some, List.flatMap_singleton]
    exact exists_labelEntries full
  obtain ⟨e, he, line, order⟩ := first hc full
  obtain ⟨e', he', line', order'⟩ := first hc' full'
  exact eq_of_apart (pairwise_of_rises rises).2 hn hm he he' (line.trans (same.trans line'.symm))
    (order.trans order'.symm)

end Rises

namespace Shut

theorem reaches (h : Shut d s) (hn : n ∈ (s.get t).flatten) : d.Reaches n :=
  h.exists_mem_iff.1 ⟨t, List.mem_cons_of_mem _ hn⟩

/-- The lines of a tree are what it prints. -/
theorem map_text_placed (h : Shut d s) (key : Position → Int) (t : Time) :
    (placed key d t (s.get t)).map (·.text) = printed d t (s.get t) :=
  Printing.map_text_placed fun n hn kind => h.closes n t (h.reaches hn) kind (h.lives_of_mem hn)

theorem mem_closingsAt_iff (h : Shut d s) : c ∈ closingsAt d t (s.get t) ↔ ∃ n, d.Records n t c := by
  rw [mem_closingsAt]
  exact ⟨fun ⟨n, hn, hc⟩ => ⟨n, h.reaches hn, hc⟩, fun ⟨n, hc⟩ => ⟨n, (h.mem n t c hc).1, hc.2⟩⟩

theorem nodup_closingsAt (h : Shut d s) : (closingsAt d t (s.get t)).Nodup := by
  have once := (List.nodup_cons.1 (h.shape t).once).2
  refine List.nodup_flatMap.2 ⟨fun n _ => ?_, once.imp_of_mem fun {n m} hn hm other c hc hc' =>
    other ?_⟩
  · cases (d.look n).closingAt t <;> simp
  · exact h.apart t n m c c ⟨h.reaches hn, Option.mem_toList.1 hc⟩
      ⟨h.reaches hm, Option.mem_toList.1 hc'⟩ rfl

/-- The nodes of the tour that are there at a time are those of the tree. -/
theorem tour_perm (h : Shut d s) (tour : d.Tour f) (t : Time) :
    ((root :: f.flatten).filter (d.lives t ·)).Perm (root :: (s.get t).flatten) := by
  refine (List.perm_ext_iff_of_nodup (tour.nodup.filter _) (h.shape t).once).2 fun n => ?_
  rw [List.mem_filter, tour.mem_iff]
  refine ⟨fun ⟨reaches, there⟩ => (h.lives_iff h.top reaches).1 there, fun mem => ?_⟩
  have reaches := h.exists_mem_iff.1 ⟨t, mem⟩
  exact ⟨reaches, (h.lives_iff h.top reaches).2 mem⟩

end Shut

/-! ## What is written -/

/-- Lines of a diff at their places: each node once, and closing lines, one for each of their
places. -/
structure Writes (d : Diff) (s : Sides (Forest Handle)) (es : List Entry) (cs : List ClosingLine) :
    Prop where
  result : entries d = .ok es
  order : es.Pairwise fun a b => a.before b = true
  lines : ∀ t, (es.filter (·.change.existsAt t)).Perm
    (((s.get t).flatten.flatMap fun n => firstPlaced Position.diff (d.look n)) ++
      (cs.filter (·.change.existsAt t)).flatMap (closingPlaced Position.diff))
  places : (cs.map (·.line.diff)).Nodup
  known : ∀ t, ∀ c ∈ cs.filter (·.change.existsAt t), c ∈ closingsAt d t (s.get t)
  met : ∀ t, ∀ c ∈ closingsAt d t (s.get t), ∃ c' ∈ cs, c'.line.diff = c.line.diff

theorem filter_labelEntries (line : Int) (change : Change) (l : Label) (t : Time) :
    (labelEntries line change l).filter (·.change.existsAt t) =
      if change.existsAt t then labelEntries line change l else [] := by
  rw [labelEntries, List.filter_map]
  cases h : change.existsAt t <;> simp [Function.comp_def, h]

theorem flatMap_filter {α β : Type} (p : α → Bool) (g : α → List β) (as : List α) :
    (as.flatMap fun a => if p a then g a else []) = (as.filter p).flatMap g := by
  induction as with
  | nil => rfl
  | cons a as ih => cases h : p a <;> simp [h, ih]

theorem filter_firstPlaced (there : (d.look n).existsAt t = d.lives t n) :
    (firstPlaced key (d.look n)).filter (·.change.existsAt t) =
      if d.lives t n then firstPlaced key (d.look n) else [] := by
  rw [firstPlaced]
  split
  · simp
  · rw [filter_labelEntries, ← there, Node.existsAt]

/-- Printing succeeds, and writes at each time the nodes of the tree and closing lines of it. -/
theorem exists_writes (h : Shut d s) : ∃ es cs, Writes d s es cs := by
  obtain ⟨f, sheet, cs, tour, visited, holds, closed⟩ :=
    Sheet.exists_visit h.toRegular h.closes
  have inStore (n) (hn : n ∈ root :: f.flatten) : n < d.size :=
    (tour.mem_iff.1 hn).lt_size h.toRegular
  have sorted := inOrder_perm Entry.before sheet.entries.toList
  have nodes (t : Time) : ((root :: f.flatten).reverse.filter (d.lives t ·)).Perm
      (root :: (s.get t).flatten) :=
    ((List.reverse_perm _).filter _).trans (h.tour_perm tour t)
  refine ⟨_, cs, by rw [entries, visited]; rfl, pairwise_inOrder Entry.before_total
    Entry.before_trans _, fun t => ?_, holds.closed ▸ holds.once, fun t c hc => ?_,
    fun t c hc => ?_⟩
  · refine (sorted.trans holds.entries).filter _ |>.trans ?_
    rw [List.filter_append, List.filter_flatMap, List.filter_flatMap]
    refine List.Perm.append ?_ (.of_eq ?_)
    · have first : ((root :: f.flatten).reverse.flatMap fun n =>
          (Sheet.firstEntries d n).filter (·.change.existsAt t)) =
          ((root :: f.flatten).reverse.filter (d.lives t ·)).flatMap fun n =>
            firstPlaced Position.diff (d.look n) := by
        rw [← flatMap_filter]
        refine List.flatMap_congr fun n hn => ?_
        show (firstPlaced Position.diff (d.look n)).filter _ = _
        exact filter_firstPlaced (lives_look (inStore n (List.mem_reverse.1 hn))).symm
      rw [first]
      refine ((nodes t).flatMap_right _).trans (.of_eq ?_)
      rw [List.flatMap_cons, firstPlaced, if_pos (look_root_kind h.toRegular), List.nil_append]
    · rw [← flatMap_filter]
      exact List.flatMap_congr fun c _ => filter_labelEntries ..
  · obtain ⟨mem, there⟩ := List.mem_filter.1 hc
    obtain ⟨n, u, recorded⟩ := holds.recorded c mem
    exact h.mem_closingsAt_iff.2 (h.both n u t c recorded there)
  · obtain ⟨n, hn, recorded⟩ := mem_closingsAt.1 hc
    obtain ⟨kind, recorded⟩ := Node.closingAt_eq_some_iff.1 recorded
    have on := closed n (tour.mem_iff.2 (h.exists_mem_iff.1 ⟨t, List.mem_cons_of_mem _ hn⟩)) kind t c
      (h.lives_of_mem hn) recorded
    rw [holds.closed] at on
    exact List.mem_map.1 on

namespace Writes

variable {es : List Entry} {cs : List ClosingLine}

/-- If closing lines agree, the lines of a time are those of the tree. -/
theorem perm_placed (w : Writes d s es cs) (shut : Shut d s) (agree : Agree d) (t : Time) :
    (es.filter (·.change.existsAt t)).Perm (placed Position.diff d t (s.get t)) := by
  have closings : (cs.filter (·.change.existsAt t)).Perm (closingsAt d t (s.get t)) := by
    refine (List.perm_ext_iff_of_nodup (w.places.of_map _ |>.filter _)
      shut.nodup_closingsAt).2 fun c => ⟨w.known t c, fun hc => ?_⟩
    obtain ⟨c', hc', same⟩ := w.met t c hc
    obtain ⟨n, recorded⟩ := shut.mem_closingsAt_iff.1 hc
    refine List.mem_filter.2 ⟨?_, (shut.mem n t c recorded).2⟩
    obtain ⟨u, there⟩ : ∃ u, c'.change.existsAt u = true := by
      obtain there | there := c'.change.existsAt_or
      · exact ⟨_, there⟩
      · exact ⟨_, there⟩
    obtain ⟨m, recorded'⟩ := shut.mem_closingsAt_iff.1
      (w.known u c' (List.mem_filter.2 ⟨hc', there⟩))
    rwa [← agree m n u t c' c recorded' recorded same]
  refine ((w.lines t).trans ((closings.flatMap_right _).append_left _)).trans ?_
  rw [← flatMap_lastPlaced]
  exact Forest.spell_perm.symm

/-- A closing line that is left out is missing at each time for which it was recorded. -/
theorem length_lt (w : Writes d s es cs) (hc : c ∈ closingsAt d t (s.get t)) (left : c ∉ cs)
    (full : c.label.lines ≠ []) :
    (es.filter (·.change.existsAt t)).length < (placed Position.diff d t (s.get t)).length := by
  have distinct : (c :: cs.filter (·.change.existsAt t)).Nodup :=
    List.nodup_cons.2 ⟨fun mem => left (List.mem_of_mem_filter mem), (w.places.of_map _).filter _⟩
  have within : (c :: cs.filter (·.change.existsAt t)).Subperm (closingsAt d t (s.get t)) :=
    distinct.subperm (List.forall_mem_cons.2 ⟨hc, w.known t⟩)
  obtain ⟨l, same, part⟩ := within
  obtain ⟨rest, perm⟩ := part.exists_perm_append
  have closings := (perm.trans (same.append_right rest)).flatMap_right (closingPlaced Position.diff)
  have spelled := (closings.append_left
    ((s.get t).flatten.flatMap fun n => firstPlaced Position.diff (d.look n))).length_eq
  rw [← flatMap_lastPlaced] at spelled
  rw [(w.lines t).length_eq, placed, Forest.spell_perm.length_eq, spelled]
  have one : 0 < (closingPlaced Position.diff c).length := by
    rw [closingPlaced, labelEntries, List.length_map, List.length_zipIdx]
    exact List.length_pos_of_ne_nil full
  simp only [List.cons_append, List.flatMap_cons, List.flatMap_append, List.length_append]
  omega

/-- If the places increase along the tree at a time, its lines stand in order. -/
theorem filter_eq (w : Writes d s es cs) (shut : Shut d s) (agree : Agree d)
    (rises : (placed Position.diff d t (s.get t)).Pairwise Entry.Precedes) :
    es.filter (·.change.existsAt t) = placed Position.diff d t (s.get t) := by
  rw [← Entry.inOrder_eq rises (w.perm_placed shut agree t), inOrder_eq_self]
  exact w.order.filter _

/-- What is written is a line of a tree. -/
theorem mem_placed (w : Writes d s es cs) {e : Entry} (he : e ∈ es) :
    ∃ t, e ∈ placed Position.diff d t (s.get t) := by
  obtain ⟨t, there⟩ : ∃ t, e.change.existsAt t = true :=
    e.change.existsAt_or.elim (fun h => ⟨_, h⟩) fun h => ⟨_, h⟩
  refine ⟨t, Forest.spell_perm.mem_iff.2 (List.mem_append.2 ?_)⟩
  refine (List.mem_append.1 ((w.lines t).mem_iff.1 (List.mem_filter.2 ⟨he, there⟩))).imp id fun mem => ?_
  obtain ⟨c, hc, on⟩ := List.mem_flatMap.1 mem
  rw [flatMap_lastPlaced]
  exact List.mem_flatMap.2 ⟨c, w.known t c hc, on⟩

end Writes

/-! ## The text -/

theorem plain_written {e : Entry} (plain : Text.Plain e.text) : Text.Plain e.written := by
  intro c hc
  rw [Entry.written, String.toList_append, List.mem_append] at hc
  obtain hc | hc := hc
  · rw [Char.toString_eq_singleton, String.toList_singleton, List.mem_singleton] at hc
    subst hc
    cases e.change <;> decide
  · exact plain c hc

theorem ofDiffLine_written (e : Entry) :
    Reading.PhysicalLine.ofDiffLine e.written = ⟨some e.change, e.text⟩ := by
  have chars : e.written.toList = e.change.symbol :: e.text.toList := by
    rw [Entry.written, String.toList_append, Char.toString_eq_singleton, String.toList_singleton]
    rfl
  rw [Reading.PhysicalLine.ofDiffLine, chars, List.drop_one, List.tail_cons, String.ofList_toList]
  congr
  cases e.change <;> rfl

/-- A line diff has at each time the lines that are there. -/
theorem contentsAt_written {es : List Entry} (plain : ∀ e ∈ es, Text.Plain e.text) (t : Time) :
    Reading.contentsAt t (Reading.PhysicalLine.ofDiff (Text.unlines (es.map Entry.written))) =
      (es.filter (·.change.existsAt t)).map (·.text) := by
  have lines : Text.lines (Text.unlines (es.map Entry.written)) = es.map Entry.written :=
    Text.lines_unlines (List.forall_mem_map.2 fun e he => plain_written (plain e he))
  rw [Reading.PhysicalLine.ofDiff, lines, List.map_map, Reading.contentsAt]
  clear lines plain
  induction es with
  | nil => rfl
  | cons e es ih =>
    rw [List.map_cons, List.filterMap_cons, ih, Function.comp_apply, ofDiffLine_written]
    cases there : e.change.existsAt t <;> simp [there]

namespace Writes

variable {es : List Entry} {cs : List ClosingLine}

theorem lineDiff_eq (w : Writes d s es cs) :
    lineDiff d = .ok (Text.unlines (es.map Entry.written)) := by
  rw [lineDiff, w.result]
  rfl

/-- What the trees print is what the line diff has, as far as its closing lines are not lost. -/
theorem contentsAt_eq (w : Writes d s es cs) (shut : Shut d s)
    (plain : ∀ t, ∀ line ∈ printed d t (s.get t), Text.Plain line) (t : Time) :
    Reading.contentsAt t (Reading.PhysicalLine.ofDiff (Text.unlines (es.map Entry.written))) =
      (es.filter (·.change.existsAt t)).map (·.text) := by
  refine contentsAt_written (fun e he => ?_) t
  obtain ⟨u, mem⟩ := w.mem_placed he
  refine plain u e.text ?_
  rw [← shut.map_text_placed Position.diff u]
  exact List.mem_map_of_mem mem

end Writes

end Printing

end Variation
