import Variation.Proofs.Arranged
import Variation.Proofs.OwnTwins
import Variation.Proofs.Reprinted
import Variation.Proofs.Standalone

/-!
# The diff between a tree and itself

The greedy matcher pairs every entry of a tree with itself, so a construction keeps every node, and what
stands for a place of the tree after the edit is the node that was there before it. The rebuilt diff is
still, a walk through it goes along its one tree, and the lines of the diff are numbered in the order of
the text. There is room for them, since a text that is read has no more lines than can be numbered.
-/

namespace Variation

open Diff Printing
open Matching (Snapshot)

/-- The numbers of a forest do not depend on what stands at its places. -/
theorem Forest.map_snd_numbered_map {α β : Type} (h : α → β) (f : Forest α) (k : Nat) :
    ((f.map h).numbered k).map (·.2) = (f.numbered k).map (·.2) := by
  induction f generalizing k with
  | nil => rfl
  | cons a below rest ihb ihr =>
    simp only [Forest.map, Forest.numbered, Forest.flatten_map, List.length_map, ihb, ihr]

namespace Diff.Still

variable {d : Diff} {f : Forest Handle} {n : Handle} {seen : List Handle}

/-- The children of a node of a still diff are the same at both times. -/
theorem below_eq (h : d.Still f) (hn : n ∈ root :: f.flatten) : d.below .before n = d.below .after n := by
  obtain rfl | hn := List.mem_cons.1 hn
  · rw [(h.tree .before).below, (h.tree .after).below]
  · exact (h.tree .before).spans.below_unique (h.tree .after).spans hn

theorem belowBoth_eq (h : d.Still f) (hn : n ∈ root :: f.flatten) :
    d.belowBoth n = d.below .before n := by
  have new : (d.below .after n).filter (fun c => !(d.below .before n).contains c) = [] :=
    List.filter_eq_nil_iff.2 fun c hc => by simp [h.below_eq hn, hc]
  rw [belowBoth, new, List.eraseDups_nil, List.append_nil]

/-- The parent of a node of a still diff is the same at both times. -/
theorem above_eq (h : d.Still f) (hn : n ∈ root :: f.flatten) : d.above .before n = d.above .after n := by
  obtain rfl | hn := List.mem_cons.1 hn
  · rw [h.free, h.free]
  · obtain ⟨p, hp, mem⟩ := (h.tree .before).exists_above h.toSymmetric hn
    have child : n ∈ d.below .after p := h.below_eq mem ▸ h.mem_of_above hp
    rw [hp, h.above_of_mem child]

/-- A walk from nodes of a still diff that were not met goes along what hangs below them. -/
theorem tours {g : Forest Handle} (h : d.Still f) (spans : d.Spans .before g)
    (mem : ∀ n ∈ g.flatten, n ∈ f.flatten) (once : g.flatten.Nodup)
    (new : ∀ n ∈ g.flatten, n ∉ seen) : d.Tours seen g.roots g := by
  induction g generalizing seen with
  | nil => exact .nil seen
  | cons n below rest ihb ihr =>
    obtain ⟨-, children, inner, behind⟩ := spans
    simp only [Forest.flatten, List.forall_mem_cons, List.forall_mem_append] at mem new
    obtain ⟨apart, once⟩ := List.nodup_cons.1 once
    obtain ⟨onceBelow, onceRest, different⟩ := List.nodup_append.1 once
    rw [List.mem_append, not_or] at apart
    refine .visit new.1 ?_ ?_
    · rw [h.belowBoth_eq (List.mem_cons_of_mem _ mem.1), children]
      refine ihb inner mem.2.1 onceBelow fun m hm met => ?_
      obtain rfl | met := List.mem_cons.1 met
      · exact apart.1 hm
      · exact new.2.1 m hm met
    · refine ihr behind mem.2.2 onceRest fun m hm met => ?_
      simp only [List.mem_append, List.mem_reverse, List.mem_cons] at met
      obtain met | rfl | met := met
      · exact different m met m hm rfl
      · exact apart.2 hm
      · exact new.2.2 m hm met

/-- The tour of a still diff is its forest. -/
theorem tour (h : d.Still f) : d.Tour f := by
  have shape := h.tree .before
  have tours : d.Tours [root] f.roots f := h.tours shape.spans (fun _ hn => hn)
    (List.nodup_cons.1 shape.once).2 fun n hn met => shape.root_not_mem (List.mem_singleton.1 met ▸ hn)
  rw [← shape.below, ← h.belowBoth_eq List.mem_cons_self] at tours
  exact tours

end Diff.Still

namespace Reading

variable {options : Options} {dialect : Dialect} {source : Source} {text : String} {tree : Tree}

namespace Solo

variable {s s' k : Solo} {content : String} {contents : List String}

/-- A line that is read takes the next place, and unless something is left open there is a place
behind it. -/
theorem place_step (all : options.skipBlank = false)
    (h : s.step options dialect content = some s') :
    s'.place = s.place + 1 ∧ (s'.pending = {} → FitsLine (s'.place + 1)) := by
  obtain ⟨place, moved, h⟩ := Option.bind_eq_some_iff.1 h
  obtain ⟨rfl, -⟩ := lineNumber?_eq_some_iff.1 moved
  rw [all, Bool.false_and, if_neg Bool.false_ne_true] at h
  unfold flush at h
  split at h
  · obtain ⟨stop, range, h⟩ := Option.bind_eq_some_iff.1 h
    obtain ⟨nest, -, h⟩ := Option.bind_eq_some_iff.1 h
    obtain rfl := Option.some.inj h
    obtain ⟨rfl, fits⟩ := lineNumber?_eq_some_iff.1 range
    exact ⟨rfl, fun _ => fits⟩
  · obtain rfl := Option.some.inj h
    refine ⟨rfl, fun none => ?_⟩
    have lines := congrArg LogicalLine.lines none
    exact absurd lines (by simp [LogicalLine.consume])

/-- Behind lines of which none is skipped and none left open there is a place. -/
theorem place_read (all : options.skipBlank = false)
    (h : k.read options dialect contents = some s) : s.place = k.place + contents.length ∧
      (contents ≠ [] → s.pending = {} → FitsLine (s.place + 1)) := by
  induction contents generalizing k with
  | nil =>
    obtain rfl := Option.some.inj h
    exact ⟨by simp, fun none => absurd rfl none⟩
  | cons content contents ih =>
    obtain ⟨k', step, h⟩ := Option.bind_eq_some_iff.1 h
    obtain ⟨place, fits⟩ := place_step all step
    obtain ⟨place', fits'⟩ := ih h
    refine ⟨by rw [place', place, List.length_cons]; omega, fun _ ended => ?_⟩
    cases contents with
    | nil =>
      obtain rfl := Option.some.inj h
      exact fits ended
    | cons => exact fits' (List.cons_ne_nil _ _) ended

/-- A text of which no line is skipped has fewer lines than can be numbered. -/
theorem Accepts.length_lt (h : Accepts options dialect contents) (all : options.skipBlank = false) :
    contents.length < greatestLine := by
  obtain ⟨s, read, ended, -⟩ := h
  obtain ⟨place, fits⟩ := place_read all read
  cases contents with
  | nil => decide
  | cons content contents =>
    obtain ⟨-, high⟩ := fits (List.cons_ne_nil _ _) ended
    have first : start.place = 0 := rfl
    rw [place, first] at high
    unfold greatestLine
    omega

end Solo

/-- Lines of a plain text are not broken: they are all unchanged. -/
theorem unbroken_ofSource (text : String) : Unbroken (PhysicalLine.ofSource text) := by
  intro k _ line hl next hn _
  have change {l : PhysicalLine} {i : Nat} (hl : l ∈ (PhysicalLine.ofSource text)[i]?) :
      l.change = some .unchanged := by
    obtain ⟨content, -, rfl⟩ := List.mem_map.1 (List.mem_of_getElem? hl)
    rfl
  rw [change hl, change hn]

/-- What was read from a text of which no line is skipped has recorded what closes its chains. -/
theorem closes_of_tree (all : options.skipBlank = false)
    (h : Reading.tree text options source dialect = .ok tree) : Sheet.Closes tree.diff := by
  obtain ⟨d, run, asTree⟩ := Outcome.bind_eq_ok_iff.1 h
  rw [diff_of_asTree asTree]
  obtain ⟨o, ps, rfl, written, done⟩ := written_of_ofLines all (unbroken_ofSource text) run
  exact written.closes (ofLines_seems run).1.toRegular done

/-- What was read from a text of which no line is skipped takes no more lines than can be numbered. -/
theorem sum_room_lt {f : Forest Handle} (all : options.skipBlank = false)
    (h : Reading.tree text options source dialect = .ok tree) (still : tree.diff.Still f) :
    (f.flatten.map tree.diff.room).sum < 2147483647 := by
  obtain ⟨g, still', filled, printed⟩ := exists_still h
  obtain rfl := still.unique still'
  exact Nat.lt_of_le_of_lt (Construction.sum_room_le_lines still filled (printed .before))
    ((tree_isOk_iff.1 ⟨tree, h⟩).length_lt all)

end Reading

namespace Construction

variable {d d₁ d₂ d' other : Diff} {src dst : Snapshot} {m : Matching} {f g : Forest Handle}
  {z : Forest ((Handle × Nat) × Handle)} {q : (Handle × Nat) × Handle}
  {y : Forest (Handle × Handle)}

namespace Rehung

/-- If every entry is paired with itself, the node at a place stands there after the edit too. -/
theorem getElem?_seat (r : Rehung other d d₁ d₂ f g src dst m z) (fixed : m.Fixes dst.size)
    (alike : src.Alike dst) (hq : q ∈ z.flatten) : (root :: f.flatten)[q.1.2]? = some q.2 := by
  have place := r.place_mem hq
  obtain ⟨b, hb, -⟩ := r.setting.after.get?_of_getElem? (mem_numbered.1 place).2
  have inside : q.1.2 < dst.size := (Array.getElem?_eq_some_iff.1 hb).1
  have here := congrArg (Snapshot.get? · q.1.2) alike.bare_eq
  simp only [Snapshot.get?_bare, hb, Option.map_some] at here
  obtain ⟨e, he, same⟩ := Option.map_eq_some_iff.1 here
  have label := congrArg Matching.Entry.label same
  have keeps : keeper src dst m q.1.2 = some e.origin :=
    keeper_eq_some_iff.2 ⟨q.1.2, e, b, by rw [fixed.dst, if_pos inside], he, hb, label, rfl⟩
  cases r.stands hq with
  | kept keeps' _ =>
    rw [keeps] at keeps'
    rw [r.setting.before.getElem? he, Option.some.inj keeps']
  | added free _ _ _ =>
    rw [keeps] at free
    cases free

/-- If every entry is paired with itself, the tree after the edit is the tree before it. -/
theorem seats_eq (r : Rehung other d d₁ d₂ (y.map (·.1)) (y.map (·.2)) src dst m z)
    (fixed : m.Fixes dst.size) (alike : src.Alike dst) : seats z = y.map (·.1) := by
  obtain ⟨stand, stands⟩ : ∃ stand : Nat → Handle, ∀ j n,
      (root :: (y.map (·.1)).flatten)[j]? = some n → stand j = n :=
    ⟨fun j => (root :: (y.map (·.1)).flatten)[j]?.getD root, fun j n h => by simp only [h, Option.getD_some]⟩
  calc seats z = z.map (stand ∘ fun q => q.1.2) :=
        Forest.map_congr fun q hq => (stands _ _ (r.getElem?_seat fixed alike hq)).symm
    _ = (((z.map (·.1)).map (·.2)).map stand) := by
        rw [Forest.map_map, Forest.map_map]
        rfl
    _ = ((((y.map (·.1)).numbered 1).map (·.2)).map stand) := by
        rw [r.places, Forest.map_snd_numbered_map, Forest.map_snd_numbered_map]
    _ = ((y.map (·.1)).numbered 1).map (·.1) := by
        rw [Forest.map_map]
        exact Forest.map_congr fun a ha => stands _ _ (mem_numbered.1 ha).2
    _ = y.map (·.1) := Forest.map_fst_numbered ..

/-- A rebuilt diff in which the trees are the same at both times is still. -/
theorem still (r : Rehung other d d₁ d₂ f g src dst m z) (same : seats z = f)
    (redates : d₂.Redates d') : d'.Still f := by
  have twofold := redates.twofold r.twofold
  rw [same] at twofold
  refine ⟨twofold, fun n hn => ?_⟩
  rw [redates.change]
  obtain rfl | hn := List.mem_cons.1 hn
  · have change := congrArg Node.change r.payload_root
    exact change.trans (r.setting.still.unchanged root List.mem_cons_self)
  · rw [r.change_old hn, if_pos (same ▸ hn)]

/-- If no place changes, the nodes write at both times what they wrote at first. -/
theorem writes_still (r : Rehung other d d₁ d₂ f g src dst m z) (same : seats z = f) {n : Handle}
    (hn : n ∈ f.flatten) (t : Time) : d₂.Writes t (d.look n) n := by
  obtain ⟨x, payload⟩ | payload := r.payload_first hn
  · exact writes_of_payload payload rfl rfl rfl
  · have removed := congrArg Node.change payload
    have kept := r.change_old hn
    rw [if_pos (same ▸ hn), ← change_payload, removed] at kept
    cases kept

end Rehung

namespace Base

variable {tree : Tree}

/-- The greedy matcher pairs the entries of a tree that is compared with itself one by one. -/
theorem exists_fixes (h : Base tree tree d y (y.map (·.2)) src dst) :
    ∃ m, Matcher.greedy.run src dst .empty = .ok m ∧ m.Fixes dst.size ∧ src.Alike dst := by
  obtain ⟨s, hs, alike⟩ := h.alike
  rw [h.dst] at hs
  obtain rfl := Except.ok.inj hs
  have regular := h.source.toRegular
  have shape := h.source.tree .before
  have spells := Snapshot.spells_of_ofDiff regular shape h.dst
  have filled : 0 < dst.size := by
    obtain ⟨s, hs, size, -⟩ := Snapshot.ofDiff_spec regular shape
    obtain rfl := Except.ok.inj (hs.symm.trans h.dst)
    omega
  obtain ⟨m, matched, fixed⟩ := Matching.Greedy.run_alike alike spells
    (Snapshot.enrolled_of_ofDiff regular shape h.dst) (Snapshot.fostered_of_ofDiff regular shape h.dst)
    filled
  exact ⟨m, matched, fixed, alike⟩

end Base

end Construction

/-- Every line that is written has the change of the node of which it is a line. -/
theorem Diff.Spread.exists_change {d : Diff} {s : Sides (Forest Handle)} {h : Forest Handle}
    {es : List Entry} {cs : List ClosingLine} {e : Entry} (w : d.Spread s h)
    (written : Printing.Writes d s es cs) (he : e ∈ es) :
    ∃ n, d.Reaches n ∧ e.change = (d.look n).change := by
  obtain ⟨t, mem⟩ := written.mem_placed he
  obtain ⟨n, hn, first | last⟩ := Forest.mem_spell.1 mem
  · refine ⟨n, w.shut.reaches hn, ?_⟩
    rw [firstPlaced] at first
    split at first
    · cases first
    · obtain ⟨line, -, rfl⟩ := List.mem_map.1 first
      rfl
  · obtain ⟨c, recorded, mem⟩ := List.mem_flatMap.1 last
    have reaches := w.shut.reaches hn
    refine ⟨n, reaches, ?_⟩
    rw [← (w.records_iff ⟨reaches, Option.mem_toList.1 recorded⟩).1]
    obtain ⟨line, -, rfl⟩ := List.mem_map.1 mem
    rfl

/-- If nothing changed, the line diff is what is printed, with a space in front of every line. -/
theorem Diff.Spread.lineDiff_eq {d : Diff} {f : Forest Handle} (w : d.Spread ⟨f, f⟩ f)
    (still : d.Still f) :
    lineDiff d = .ok (Text.unlines ((printed d .before f).map (" " ++ ·))) := by
  obtain ⟨es, cs, written⟩ := exists_writes w.shut
  have unchanged (e : Entry) (he : e ∈ es) : e.change = .unchanged := by
    obtain ⟨n, reaches, change⟩ := w.exists_change written he
    rw [change, still.unchanged n (still.reaches_iff.1 reaches)]
  have all : es.filter (·.change.existsAt .before) = es :=
    List.filter_eq_self.2 fun e he => by rw [unchanged e he]; rfl
  have lines := w.map_text_filter written .before
  have present : walked d .before f = printed d .before f := by
    refine Forest.lines_congr fun n hn => ?_
    simp only [still.present (List.mem_cons_of_mem _ hn) .before, if_true, and_self]
  rw [all, present] at lines
  rw [written.lineDiff_eq, ← lines, List.map_map]
  have spaced : es.map Entry.written = es.map ((" " ++ ·) ∘ (·.text)) := by
    refine List.map_congr_left fun e he => ?_
    rw [Entry.written, unchanged e he]
    rfl
  rw [spaced]

namespace Construction

/-- A tree that was read from a text of which no line is skipped can be compared with itself, whether code
lines become one node or not and however often subtrees are repeated. Nothing changes, no node is lost, and
the line diff has the lines of the text in order with a space in front of each. -/
theorem diff_self {text : String} {options : Reading.Options} {source : Source} {dialect : Dialect}
    {tree : Tree} (all : options.skipBlank = false)
    (h : Reading.tree text options source dialect = .ok tree) :
    ∃ d, diff tree tree .greedy = .ok d ∧ d.Sound ∧
      (∀ n, d.Reaches n → (d.look n).change = .unchanged ∧
        d.above .before n = d.above .after n ∧ d.below .before n = d.below .after n) ∧
      (∃ count, d.reachableCount = .ok count ∧ tree.diff.reachableCount = .ok count) ∧
      lineDiff d = .ok (Text.unlines ((Text.lines text).map (" " ++ ·))) := by
  obtain ⟨e, y, g, src, dst, base⟩ := exists_base h h
  obtain rfl := base.target.unique base.source
  obtain ⟨m, matched, fixed, alike⟩ := base.exists_fixes
  obtain ⟨d₁, d₂, z, r, build⟩ := base.exists_rebuilt matched
  have same := r.seats_eq fixed alike
  -- the walk that numbers the lines goes along the tree
  have tour := (r.still same (.refl d₂)).tour
  have few : ((y.map (·.1)).flatten.map d₂.room).sum < 2147483647 := by
    rw [List.map_congr_left fun n hn => r.room_first hn, base.map_room]
    exact Reading.sum_room_lt all h base.source
  obtain ⟨d, numbered, redates, -⟩ :=
    run_number r.twofold.toRegular tour (base.start_root r) few
  have still := r.still same redates
  have writes (t : Time) (n : Handle) (hn : n ∈ (y.map (·.1)).flatten) : d.Writes t (e.look n) n :=
    redates.writes (r.writes_still same hn t)
  have closes : Sheet.Closes d := by
    intro n t reaches kind there
    have mem := (List.mem_cons.1 (still.reaches_iff.1 reaches)).resolve_left
      (ne_root_of_kind still.toRegular kind (by decide))
    obtain ⟨a, ha, rfl⟩ := Forest.mem_flatten_map.1 mem
    have origin : a.2 ∈ root :: (y.map (·.2)).flatten :=
      List.mem_cons_of_mem _ (Forest.mem_flatten_map_of_mem (·.2) ha)
    have first := Reading.closes_of_tree all h a.2 .before (base.source.reaches_iff.2 origin)
      ((base.writes ha t).kind.symm.trans ((writes t a.1 mem).kind.symm.trans kind))
      (base.source.present origin .before)
    have told : ((d.look a.1).closing.get t).map (·.label) =
        ((tree.diff.look a.2).closing.get .before).map (·.label) := by
      rw [(writes t a.1 mem).closing, (base.writes ha t).closing, Node.closing_collapse,
        Option.map_map]
      rfl
    have both := congrArg Option.isSome told
    rw [Option.isSome_map, Option.isSome_map] at both
    exact both.trans first
  have spread := r.spread numbered closes (fun n hn => base.closedOnce hn) tour
  rw [same] at spread
  have lines : printed d .before (y.map (·.1)) = Text.lines text := by
    rw [r.printed_before redates, base.printed, Reading.printed_of_tree h base.source]
    exact List.filter_eq_self.2 fun line _ => by simp [Reading.Options.reads, all]
  refine ⟨d, build d numbered, still.sound, fun n reaches => ?_,
    ⟨(root :: (y.map (·.1)).flatten).length, ?_, ?_⟩, ?_⟩
  · have mem := still.reaches_iff.1 reaches
    exact ⟨still.unchanged n mem, still.above_eq mem, still.below_eq mem⟩
  · exact reachableCount_eq still.toRegular (still.tree .before).once fun n => still.reaches_iff.symm
  · rw [reachableCount_eq base.source.toRegular (base.source.tree .before).once
      fun n => base.source.reaches_iff.symm]
    simp only [Forest.flatten_map, List.length_cons, List.length_map]
  · rw [spread.lineDiff_eq still, lines]

/-- A chain with two branches is there twice, with the same lines of code in it and around it. -/
theorem diff_self_repeated : ∃ tree d, Reading.tree
      "x\n#if A\nx\nx\n#else\nx\n#endif\nx\n#if A\nx\nx\n#else\nx\n#endif\n" ⟨true, false⟩ .unknown
      .preprocessor = .ok tree ∧ tree.diff.reachableCount = .ok 11 ∧
    diff tree tree .greedy = .ok d ∧ d.reachableCount = .ok 11 ∧
    (∀ n, d.Reaches n → (d.look n).change = .unchanged) ∧
    lineDiff d = .ok
      " x\n #if A\n x\n x\n #else\n x\n #endif\n x\n #if A\n x\n x\n #else\n x\n #endif\n" := by
  have counted : (do
      let tree ← Reading.tree
        "x\n#if A\nx\nx\n#else\nx\n#endif\nx\n#if A\nx\nx\n#else\nx\n#endif\n" ⟨true, false⟩ .unknown
        .preprocessor
      tree.diff.reachableCount : Outcome _).toOption = some 11 := by
    decide +kernel
  obtain ⟨tree, read, count⟩ := Outcome.bind_eq_ok_iff.1 (Outcome.eq_ok_of_toOption counted)
  obtain ⟨d, run, -, same, ⟨k, count', first⟩, lines⟩ := diff_self rfl read
  obtain rfl := Except.ok.inj (count.symm.trans first)
  refine ⟨tree, d, read, count, run, count', fun n reaches => (same n reaches).1, lines.trans ?_⟩
  exact congrArg Except.ok (by decide +kernel)

end Construction

end Variation
