import Variation.Proofs.Numbering
import Variation.Proofs.Rebuilt

/-!
# Diffs that were constructed

The diff between two trees that were read is right for every matching that a matcher may give: it is
sound, it is the first tree before the edit and the second one after it, exactly the pairs of equal
texts below the root are unchanged, and the lines of the diff rise along the walk from the root.
-/

namespace Variation

open Matching (Snapshot)

namespace Diff

variable {d d' : Diff} {t : Time} {f : Forest Handle}

/-! ## Trees found again in a diff -/

/-- The snapshot of a diff at a time is that of a tree, whichever nodes the entries stand for, and each
node lies on the lines of the tree. -/
structure Restores (d : Diff) (t : Time) (s : Snapshot) (tree : Tree) : Prop where
  snapshot : Snapshot.ofDiff d t = .ok s
  alike : ∃ s', Snapshot.ofTree tree = .ok s' ∧ s.Alike s' ∧
    ∀ i e b, s.get? i = some e → s'.get? i = some b →
      (d.look e.origin).start.get t = (tree.diff.look b.origin).start.get t ∧
        (d.look e.origin).stop.get t = (tree.diff.look b.origin).stop.get t

/-- What is there at both times is what a matching pairs and has equal texts, and below the root only
that is unchanged. The snapshots are those before and after the edit. -/
structure Shares (d : Diff) (m : Matching) (s s' : Snapshot) : Prop where
  pair : ∀ i j e b, s.get? i = some e → s'.get? j = some b →
    (e.origin = b.origin ↔ m.dst? i = some j ∧ e.label = b.label)
  unchanged : ∀ n, d.Reaches n → n ≠ root → ((d.look n).change = .unchanged ↔
    ∃ i j e b, s.get? i = some e ∧ s'.get? j = some b ∧ m.dst? i = some j ∧ e.label = b.label ∧
      e.origin = n ∧ b.origin = n)

/-- A diff is right for two trees and a matching between them. -/
structure Compares (d : Diff) (before after : Tree) (m : Matching) : Prop where
  sound : d.Sound
  trees : ∃ s s', d.Restores .before s before ∧ d.Restores .after s' after ∧ d.Shares m s s'
  rises : ∃ ns, d.preorder = .ok ns ∧
    ns.Pairwise (fun n k => (d.look n).start.diff < (d.look k).start.diff) ∧
    (ns.map fun n => (d.look n).stableId).Nodup

/-- A node of a diff tells at a time what a node of a tree tells. -/
structure Tells (d : Diff) (t : Time) (x : Node) (n : Handle) : Prop where
  kind : (d.look n).kind = x.kind
  text : (d.look n).matchingText = x.matchingText
  start : (d.look n).start.get t = x.start.get t
  stop : (d.look n).stop.get t = x.stop.get t

theorem tells_of_payload {n : Handle} {x y : Node} (payload : d.payload n = y)
    (kind : y.kind = x.kind) (text : y.matchingText = x.matchingText)
    (start : y.start.get t = x.start.get t) (stop : y.stop.get t = x.stop.get t) :
    d.Tells t x n := by
  have here := congrArg Node.kind payload
  have hereText := congrArg Node.matchingText payload
  have hereStart := congrArg (fun y : Node => y.start.get t) payload
  have hereStop := congrArg (fun y : Node => y.stop.get t) payload
  exact ⟨here.trans kind, hereText.trans text, hereStart.trans start, hereStop.trans stop⟩

theorem Tells.trans {n : Handle} {x : Node} (h : d'.Tells t (d.look n) n) (h' : d.Tells t x n) :
    d'.Tells t x n :=
  ⟨h.kind.trans h'.kind, h.text.trans h'.text, h.start.trans h'.start, h.stop.trans h'.stop⟩

/-- What a node tells at a time does not depend on the lines of the diff. -/
theorem Redates.tells {n : Handle} {x : Node} (h : d.Redates d') (told : d.Tells t x n) :
    d'.Tells t x n := by
  refine ⟨(h.kind n).trans told.kind, ?_, (h.start n t).trans told.start,
    (h.stop n t).trans told.stop⟩
  rw [← told.text, Node.matchingText, Node.matchingText, h.kind, h.formula, h.label]

theorem restores_of_pairs (tree : Tree) {z : Forest (Handle × Handle)} (hd : d.Regular)
    (shape : d.Shape t (z.map (·.1))) (regular : tree.diff.Regular)
    (source : tree.diff.Shape .before (z.map (·.2)))
    (tells : ∀ a ∈ (root, root) :: z.flatten, d.Tells t (tree.diff.look a.2) a.1) :
    ∃ s, d.Restores t s tree := by
  have hs := Snapshot.ofDiff_eq hd shape
  have hs' := Snapshot.ofDiff_eq regular source
  have mirrors := Snapshot.mirrors_of_ofDiff hd shape hs
  have mirrors' := Snapshot.mirrors_of_ofDiff regular source hs'
  refine ⟨_, hs, _, hs', ?_, fun i e b he hb => ?_⟩
  · have trees : Forest.tree root (z.map (·.1)) = (Forest.tree (root, root) z).map (·.1) := rfl
    have trees' : Forest.tree root (z.map (·.2)) = (Forest.tree (root, root) z).map (·.2) := rfl
    rw [trees, trees']
    refine Snapshot.Alike.pushForest rfl fun a ha => ?_
    rw [Forest.flatten_tree] at ha
    exact ⟨(tells a ha).kind, (tells a ha).text⟩
  · have here := mirrors.getElem? he
    have there := mirrors'.getElem? hb
    have first : root :: (z.map (·.1)).flatten = ((root, root) :: z.flatten).map (·.1) :=
      Forest.cons_flatten_map (·.1) (root, root) z
    have second : root :: (z.map (·.2)).flatten = ((root, root) :: z.flatten).map (·.2) :=
      Forest.cons_flatten_map (·.2) (root, root) z
    rw [first, List.getElem?_map] at here
    rw [second, List.getElem?_map] at there
    obtain ⟨a, ha, origin⟩ := Option.map_eq_some_iff.1 here
    rw [ha, Option.map_some] at there
    have told := tells a (List.mem_of_getElem? ha)
    rw [← origin, ← Option.some.inj there]
    exact ⟨told.start, told.stop⟩

end Diff

namespace Construction

open Diff

variable {d other : Diff} {src dst : Snapshot} {m : Matching} {f g : Forest Handle}

/-- What is used of a matcher is a setting for a construction. -/
theorem setting_of_run {matcher : Matcher} (still : d.Still f) (target : other.Still g)
    (hsrc : Snapshot.ofDiff d .before = .ok src) (hdst : Snapshot.ofDiff other .before = .ok dst)
    (run : matcher.run src dst .empty = .ok m) : Setting d other f g src dst m := by
  obtain ⟨s, hs, size, lists⟩ := Snapshot.ofDiff_spec target.toRegular (target.tree .before)
  rw [hdst] at hs
  obtain rfl := Except.ok.inj hs
  have fits := Matcher.fits_of_run run
  exact ⟨⟨Snapshot.mirrors_of_ofDiff still.toRegular (still.tree .before) hsrc,
    Snapshot.mirrors_of_ofDiff target.toRegular (target.tree .before) hdst,
    (still.tree .before).once, (target.tree .before).once, fits.roots, fits.pair⟩, still, target,
    size, lists⟩

/-! ## What the nodes tell at the times -/

namespace Rehung

variable {d₁ d₂ d' : Diff} {z : Forest ((Handle × Nat) × Handle)} {q : (Handle × Nat) × Handle}
  {n : Handle} {i j : Nat}

/-- A node of the first tree tells before the edit what it told at first. -/
theorem tells_first (r : Rehung other d d₁ d' f g src dst m z) (hn : n ∈ root :: f.flatten) :
    d'.Tells .before (d.look n) n := by
  obtain rfl | hn := List.mem_cons.1 hn
  · exact tells_of_payload r.payload_root rfl rfl rfl rfl
  · obtain ⟨y, payload⟩ | payload := r.payload_first hn
    · exact tells_of_payload payload rfl rfl rfl rfl
    · exact tells_of_payload payload rfl rfl rfl rfl

/-- What stands for a place tells after the edit what the node there tells. -/
theorem tells_seat (r : Rehung other d d₁ d' f g src dst m z) (hq : q ∈ z.flatten) :
    d'.Tells .after (other.look q.1.1) q.2 := by
  have place := r.place_mem hq
  cases r.stands hq with
  | kept keeps payload =>
    obtain ⟨-, kind, text⟩ := r.setting.keeper_spec place keeps
    exact tells_of_payload payload kind text rfl rfl
  | added _ _ _ payload => exact tells_of_payload payload rfl rfl rfl rfl

/-! ## What is shared -/

theorem exists_seat (r : Rehung other d d₁ d₂ f g src dst m z)
    (hn : (root :: (seats z).flatten)[j + 1]? = some n) :
    ∃ a, ((a, j + 1), n) ∈ z.flatten ∧ (root :: g.flatten)[j + 1]? = some a := by
  rw [List.getElem?_cons_succ, seats, Forest.flatten_map, List.getElem?_map] at hn
  obtain ⟨q, hq, rfl⟩ := Option.map_eq_some_iff.1 hn
  have numbered := congrArg (fun h => h.flatten[j]?) r.places
  simp only [Forest.flatten_map, Forest.flatten_numbered, List.getElem?_map, hq, Option.map_some,
    List.getElem?_zipIdx] at numbered
  obtain ⟨a, ha, place⟩ := Option.map_eq_some_iff.1 numbered.symm
  refine ⟨a, ?_, ha⟩
  rw [Nat.add_comm j 1, place]
  exact List.mem_of_getElem? hq

/-- A node stands at a place before and after the edit exactly if the places are a pair with equal
texts. -/
theorem pair_iff (r : Rehung other d d₁ d₂ f g src dst m z) (redates : d₂.Redates d') {n k : Handle}
    (hn : (root :: f.flatten)[i]? = some n) (hk : (root :: (seats z).flatten)[j]? = some k) :
    n = k ↔ m.dst? i = some j ∧ (d'.look n).matchingText = (d'.look k).matchingText := by
  have told := redates.tells (r.tells_first (List.mem_of_getElem? hn))
  obtain ⟨e, he, rfl⟩ := r.setting.before.get?_of_getElem? hn
  have text : e.label = (d'.look e.origin).matchingText :=
    (r.setting.before.entry i e he).2.trans told.text.symm
  cases j with
  | zero =>
    obtain rfl : root = k := Option.some.inj hk
    constructor
    · intro top
      have first : i = 0 := by
        obtain ⟨lt, -⟩ := List.getElem?_eq_some_iff.1 hn
        rw [top] at hn
        exact (List.getElem?_inj lt (r.setting.still.tree .before).once).1 hn
      rw [first, top]
      exact ⟨r.setting.roots, rfl⟩
    · rintro ⟨pair, -⟩
      obtain rfl := Matching.source_inj pair r.setting.roots
      exact (Option.some.inj hn).symm
  | succ j =>
    obtain ⟨a, hq, ha⟩ := r.exists_seat hk
    obtain ⟨b, hb, rfl⟩ := r.setting.after.get?_of_getElem? ha
    have text' : b.label = (d'.look k).matchingText :=
      (r.setting.after.entry (j + 1) b hb).2.trans (redates.tells (r.tells_seat hq)).text.symm
    constructor
    · rintro rfl
      refine ⟨?_, rfl⟩
      cases r.stands hq with
      | kept keeps _ =>
        obtain ⟨i', e', b', pair, he', -, -, same⟩ := keeper_eq_some_iff.1 keeps
        rw [← r.setting.src_inj he' he same]
        exact pair
      | added _ new _ _ =>
        have old := r.setting.still.lt_size (t := .before) (List.mem_of_getElem? hn)
        exact absurd old (Nat.not_lt.2 new)
    · rintro ⟨pair, same⟩
      rw [← text, ← text'] at same
      have keeps : keeper src dst m (j + 1) = some e.origin :=
        keeper_eq_some_iff.2 ⟨i, e, b, pair, he, hb, same, rfl⟩
      cases r.stands hq with
      | kept keeps' _ =>
        rw [keeps] at keeps'
        exact Option.some.inj keeps'
      | added free _ _ _ =>
        rw [keeps] at free
        cases free

theorem shares (r : Rehung other d d₁ d₂ f g src dst m z) (redates : d₂.Redates d')
    {s s' : Snapshot} (before : s.Mirrors d' (root :: f.flatten))
    (after : s'.Mirrors d' (root :: (seats z).flatten)) : d'.Shares m s s' := by
  have pair (i j e b) (he : s.get? i = some e) (hb : s'.get? j = some b) :
      e.origin = b.origin ↔ m.dst? i = some j ∧ e.label = b.label := by
    rw [(before.entry i e he).2, (after.entry j b hb).2]
    exact r.pair_iff redates (before.getElem? he) (after.getElem? hb)
  refine ⟨pair, fun n reached below => ?_⟩
  rw [redates.change]
  constructor
  · intro unchanged
    obtain ⟨t, mem⟩ := (redates.twofold r.twofold).exists_mem_iff.2 reached
    have mem := List.mem_of_ne_of_mem below mem
    have both (u : Time) : n ∈ ((⟨f, seats z⟩ : Sides (Forest Handle)).get u).flatten := by
      have inStore := r.twofold.lt_size (List.mem_cons_of_mem _ mem)
      exact (r.lives_iff mem).1 ((unchanged_iff inStore).1 unchanged u)
    obtain ⟨i, hi⟩ := List.getElem?_of_mem (List.mem_cons_of_mem root (both .before))
    obtain ⟨j, hj⟩ := List.getElem?_of_mem (List.mem_cons_of_mem root (both .after))
    obtain ⟨e, he, origin⟩ := before.get?_of_getElem? hi
    obtain ⟨b, hb, origin'⟩ := after.get?_of_getElem? hj
    obtain ⟨paired, same⟩ := (pair i j e b he hb).1 (origin.trans origin'.symm)
    exact ⟨i, j, e, b, he, hb, paired, same, origin, origin'⟩
  · rintro ⟨i, j, e, b, he, hb, -, -, rfl, same⟩
    have first := List.mem_of_ne_of_mem below (List.mem_of_getElem? (before.getElem? he))
    have second := List.mem_of_getElem? (after.getElem? hb)
    rw [same] at second
    rw [r.change_old first, if_pos (List.mem_of_ne_of_mem below second)]

/-! ## The room for the lines of the diff -/

theorem room_first (r : Rehung other d d₁ d₂ f g src dst m z) (hn : n ∈ f.flatten) :
    d₂.room n = d.room n := by
  have label : (d₂.look n).label = (d.look n).label := by
    obtain ⟨y, payload⟩ | payload := r.payload_first hn
    · have label := congrArg Node.label payload
      exact label
    · have label := congrArg Node.label payload
      exact label
  rw [room, room, label, r.kind_first hn]

theorem room_added (r : Rehung other d d₁ d₂ f g src dst m z) (hq : q ∈ z.flatten)
    (new : q.2 ∉ f.flatten) : d₂.room q.2 = other.room q.1.1 := by
  have place := r.place_mem hq
  have kind := r.kind_seat hq
  cases r.stands hq with
  | kept keeps _ => exact absurd (r.setting.keeper_spec place keeps).1 new
  | added _ _ _ payload =>
    have label := congrArg Node.label payload
    rw [room, room, kind]
    exact congrArg (fun l : Label => max l.lines.length 1 + _) label

/-- The nodes of the tour take no more lines than those of both trees. -/
theorem sum_room_le (r : Rehung other d d₁ d₂ f g src dst m z) {h : Forest Handle}
    (tour : d₂.Tour h) : (h.flatten.map d₂.room).sum ≤
      (f.flatten.map d.room).sum + (g.flatten.map other.room).sum := by
  let added := z.flatten.filter fun q => q.2 ∉ f.flatten
  have sub : h.flatten ⊆ f.flatten ++ added.map (·.2) := by
    intro n hn
    have reached := tour.mem_iff.1 (List.mem_cons_of_mem _ hn)
    have below : n ≠ root := fun top => (List.nodup_cons.1 tour.nodup).1 (top ▸ hn)
    obtain ⟨t, mem⟩ := r.twofold.exists_mem_iff.2 reached
    have mem := List.mem_of_ne_of_mem below mem
    rw [List.mem_append, List.mem_map]
    by_cases first : n ∈ f.flatten
    · exact .inl first
    · cases t with
      | before => exact absurd mem first
      | after =>
        obtain ⟨q, hq, rfl⟩ := mem_seats.1 mem
        exact .inr ⟨q, List.mem_filter.2 ⟨hq, decide_eq_true first⟩, rfl⟩
  have first : (f.flatten.map d₂.room).sum = (f.flatten.map d.room).sum := by
    rw [List.map_congr_left fun n hn => r.room_first hn]
  have second : ((added.map (·.2)).map d₂.room).sum ≤ (g.flatten.map other.room).sum := by
    have places : g.flatten = z.flatten.map fun q => q.1.1 := by
      rw [← Forest.map_fst_numbered g 1, ← r.places, Forest.map_map, Forest.flatten_map]
      rfl
    have same : (added.map (·.2)).map d₂.room = added.map fun q => other.room q.1.1 := by
      rw [List.map_map]
      refine List.map_congr_left fun q hq => ?_
      obtain ⟨hq, new⟩ := List.mem_filter.1 hq
      exact r.room_added hq (of_decide_eq_true new)
    rw [same, places, List.map_map]
    exact (List.filter_sublist.map _).sum_le_sum fun _ _ => Nat.zero_le _
  obtain ⟨l, perm, sublist⟩ := (List.nodup_cons.1 tour.nodup).2.subperm sub
  calc (h.flatten.map d₂.room).sum = (l.map d₂.room).sum := ((perm.map _).sum_eq).symm
    _ ≤ ((f.flatten ++ added.map (·.2)).map d₂.room).sum :=
      (sublist.map _).sum_le_sum fun _ _ => Nat.zero_le _
    _ ≤ (f.flatten.map d.room).sum + (g.flatten.map other.room).sum := by
      rw [List.map_append, List.sum_append, first]
      exact Nat.add_le_add_left second _

end Rehung

/-! ## The whole construction -/

/-- What a construction starts with: the first tree as a diff that changes nothing, and the snapshots
between which a matcher is asked. The forests are those of the trees, the first one together with its
copy. -/
structure Base (before after : Tree) (d : Diff) (y : Forest (Handle × Handle)) (g : Forest Handle)
    (src dst : Snapshot) : Prop where
  copy : ∃ p, before.diff.unchanged = .ok p ∧
    d = { p with source := .compared before.diff.source after.diff.source }
  still : d.Still (y.map (·.1))
  payload : ∀ a ∈ (root, root) :: y.flatten, d.payload a.1 = (before.diff.look a.2).collapse .before
  source : before.diff.Still (y.map (·.2))
  target : after.diff.Still g
  top : before.diff.payload root = Node.rootNode
  top' : after.diff.payload root = Node.rootNode
  src : Snapshot.ofDiff d .before = .ok src
  dst : Snapshot.ofTree after = .ok dst

/-- There is room for the lines of all nodes that a construction starts with. -/
structure Start (before after : Tree) (d : Diff) (y : Forest (Handle × Handle)) (g : Forest Handle)
    (src dst : Snapshot) : Prop extends Base before after d y g src dst where
  few : ((y.map (·.1)).flatten.map d.room).sum + (g.flatten.map after.diff.room).sum < 2147483647

variable {before after : Tree} {y : Forest (Handle × Handle)}

/-- The nodes of a tree that was read take no more lines than the text has. -/
theorem sum_room_le_lines {text : String} {tree : Tree} {f : Forest Handle} {options : Reading.Options}
    (still : tree.diff.Still f) (filled : tree.diff.Filled)
    (printed : Printing.printed tree.diff .before f = (Text.lines text).filter options.reads) :
    (f.flatten.map tree.diff.room).sum ≤ (Text.lines text).length := by
  have shape := still.tree .before
  have paid := filled.sum_room_le shape.spans shape.root_not_mem (still.kind .before)
  rw [printed] at paid
  exact Nat.le_trans paid (List.length_filter_le ..)

/-- The copy from which a construction starts takes the lines of its tree. -/
theorem Base.map_room {d : Diff} {src dst : Snapshot} (h : Base before after d y g src dst) :
    (y.map (·.1)).flatten.map d.room = (y.map (·.2)).flatten.map before.diff.room := by
  rw [Forest.flatten_map, Forest.flatten_map, List.map_map, List.map_map]
  refine List.map_congr_left fun a ha => ?_
  have same := congrArg (fun x : Node => max x.label.lines.length 1 +
    if x.kind = .ifBranch then 1 else 0) (h.payload a (List.mem_cons_of_mem _ ha))
  exact same

section Reading

variable {text text' : String} {options options' : Reading.Options} {s s' : Source}
  {dialect dialect' : Dialect}

/-- Any two trees that were read can be compared. -/
theorem exists_base (hb : Reading.tree text options s dialect = .ok before)
    (ha : Reading.tree text' options' s' dialect' = .ok after) :
    ∃ d y g src dst, Base before after d y g src dst := by
  obtain ⟨f, source, filled, -⟩ := Reading.exists_still hb
  obtain ⟨g, target, filled', -⟩ := Reading.exists_still ha
  obtain ⟨p, y, copied, still, rfl, payload⟩ :=
    source.exists_copy (.compared before.diff.source after.diff.source)
  obtain ⟨src, hsrc, -⟩ := Snapshot.ofDiff_spec still.toRegular (still.tree .before)
  obtain ⟨dst, hdst, -⟩ := Snapshot.ofDiff_spec target.toRegular (target.tree .before)
  exact ⟨_, y, g, src, dst, ⟨p, copied, rfl⟩, still, payload, source, target, filled.top,
    filled'.top, hsrc, hdst⟩

/-- There is room for all lines if the texts are short enough. -/
theorem exists_start (hb : Reading.tree text options s dialect = .ok before)
    (ha : Reading.tree text' options' s' dialect' = .ok after)
    (few : (Text.lines text).length + (Text.lines text').length < 2147483647) :
    ∃ d y g src dst, Start before after d y g src dst := by
  obtain ⟨d, y, g, src, dst, base⟩ := exists_base hb ha
  refine ⟨d, y, g, src, dst, base, ?_⟩
  obtain ⟨f, source, filled, printed⟩ := Reading.exists_still hb
  obtain ⟨g', target, filled', printed'⟩ := Reading.exists_still ha
  obtain rfl := source.unique base.source
  obtain rfl := target.unique base.target
  have first : ((y.map (·.2)).flatten.map before.diff.room).sum ≤ (Text.lines text).length :=
    sum_room_le_lines source filled (printed .before)
  have second := sum_room_le_lines target filled' (printed' .before)
  rw [base.map_room]
  omega

end Reading

section Matched

variable {d : Diff} {src dst : Snapshot} {m : Matching} {matcher : Matcher}

namespace Base

/-- The matcher is asked about the snapshot of the first tree. -/
theorem alike (h : Base before after d y g src dst) :
    ∃ s, Snapshot.ofTree before = .ok s ∧ src.Alike s := by
  obtain ⟨s, restores⟩ := restores_of_pairs before h.still.toRegular (h.still.tree .before)
    h.source.toRegular (h.source.tree .before) fun a ha =>
      tells_of_payload (t := .before) (h.payload a ha) rfl rfl rfl rfl
  have same := restores.snapshot
  rw [h.src] at same
  obtain rfl := Except.ok.inj same
  obtain ⟨s', hs', alike, -⟩ := restores.alike
  exact ⟨s', hs', alike⟩

/-- The root tells nothing after the edit either. -/
theorem tells_root {d₁ d₂ : Diff} {z : Forest ((Handle × Nat) × Handle)}
    (h : Base before after d y g src dst)
    (r : Rehung after.diff d d₁ d₂ (y.map (·.1)) g src dst m z) :
    d₂.Tells .after (after.diff.look root) root := by
  have copied : d₂.payload root = (before.diff.payload root).collapse .before :=
    r.payload_root.trans (h.payload (root, root) List.mem_cons_self)
  rw [h.top] at copied
  have kind := congrArg Node.kind h.top'
  have text := congrArg Node.matchingText h.top'
  have start := congrArg (fun x : Node => x.start.after) h.top'
  have stop := congrArg (fun x : Node => x.stop.after) h.top'
  exact tells_of_payload copied kind.symm text.symm start.symm stop.symm

/-- What was constructed is both trees, and shares what was kept. -/
theorem spec {d₁ d₂ d' : Diff} {z : Forest ((Handle × Nat) × Handle)}
    (h : Base before after d y g src dst)
    (r : Rehung after.diff d d₁ d₂ (y.map (·.1)) g src dst m z) (redates : d₂.Redates d') :
    ∃ s s', d'.Restores .before s before ∧ d'.Restores .after s' after ∧ d'.Shares m s s' := by
  have twofold := redates.twofold r.twofold
  have regular := twofold.toRegular
  have shapeBefore : d'.Shape .before (y.map (·.1)) := twofold.shape .before
  have shapeAfter : d'.Shape .after (seats z) := twofold.shape .after
  have pairs : (z.map fun q => (q.2, q.1.1)).map (·.1) = seats z := Forest.map_map ..
  have places : (z.map fun q => (q.2, q.1.1)).map (·.2) = g := by
    rw [← Forest.map_fst_numbered g 1, ← r.places, Forest.map_map, Forest.map_map]
    rfl
  obtain ⟨s, first⟩ := restores_of_pairs before regular shapeBefore h.source.toRegular
    (h.source.tree .before) fun a ha => by
      have mem : a.1 ∈ root :: (y.map (·.1)).flatten :=
        (Forest.cons_flatten_map (·.1) (root, root) y).symm ▸ List.mem_map_of_mem ha
      exact redates.tells ((r.tells_first mem).trans
        (tells_of_payload (h.payload a ha) rfl rfl rfl rfl))
  obtain ⟨s', second⟩ := restores_of_pairs after (t := .after)
    (z := z.map fun q => (q.2, q.1.1)) regular (pairs ▸ shapeAfter) h.target.toRegular
    (places ▸ h.target.tree .before) fun a ha => by
      obtain rfl | ha := List.mem_cons.1 ha
      · exact redates.tells (h.tells_root r)
      · obtain ⟨q, hq, rfl⟩ := Forest.mem_flatten_map.1 ha
        exact redates.tells (r.tells_seat hq)
  exact ⟨s, s', first, second, r.shares redates
    (Snapshot.mirrors_of_ofDiff regular shapeBefore first.snapshot)
    (Snapshot.mirrors_of_ofDiff regular shapeAfter second.snapshot)⟩

/-- A construction succeeds only if its matcher does. -/
theorem exists_matching (h : Base before after d y g src dst) {d' : Diff}
    (run : diff before after matcher = .ok d') : ∃ m, matcher.run src dst .empty = .ok m := by
  obtain ⟨p, copied, rfl⟩ := h.copy
  rw [diff, copied] at run
  simp only [Outcome.ok_bind, h.src, h.dst] at run
  obtain ⟨m, matched, -⟩ := Outcome.bind_eq_ok_iff.1 run
  exact ⟨m, matched⟩

/-- What was constructed is the rebuilt diff with its lines numbered. -/
theorem exists_rehung (h : Base before after d y g src dst) {d' : Diff}
    (run : diff before after matcher = .ok d') : ∃ m d₁ d₂ z,
      Rehung after.diff d d₁ d₂ (y.map (·.1)) g src dst m z ∧ number.run d₂ = .ok () d' := by
  obtain ⟨m, matched⟩ := h.exists_matching run
  obtain ⟨d₁, d₂, z, removed, rehung, r⟩ :=
    (setting_of_run h.still h.target h.src h.dst matched).run_rebuild
  refine ⟨m, d₁, d₂, z, r, ?_⟩
  obtain ⟨p, copied, rfl⟩ := h.copy
  rw [diff, copied] at run
  simp only [Outcome.ok_bind, h.src, h.dst, matched] at run
  obtain ⟨⟨_, d₃⟩, result, run⟩ := Outcome.bind_eq_ok_iff.1 run
  obtain ⟨_, -, run⟩ := Outcome.bind_eq_ok_iff.1 run
  obtain rfl : d₃ = d' := Except.ok.inj run
  cases numbered : number.run d₂ with
  | error e d₄ => simp [Edit.result, rebuild, EStateM.run_bind, removed, rehung, numbered] at result
  | ok a d₄ =>
    simp only [Edit.result, rebuild, EStateM.run_bind, removed, rehung, numbered] at result
    obtain rfl : d₄ = d₃ := (Prod.mk.inj (Except.ok.inj result)).2
    rfl

end Base

/-- The root starts before the first line. -/
theorem Base.start_root (h : Base before after d y g src dst) {d₁ d₂ : Diff}
    {z : Forest ((Handle × Nat) × Handle)}
    (r : Rehung after.diff d d₁ d₂ (y.map (·.1)) g src dst m z) : (d₂.look root).start.diff = 0 := by
  have kept := congrArg (fun x : Node => x.start.diff) r.payload_root
  have copied := congrArg (fun x : Node => x.start.diff) (h.payload (root, root) List.mem_cons_self)
  have first := congrArg (fun x : Node => x.start.before) h.top
  exact (kept.trans copied).trans first

/-- Once the matcher succeeds the edges are built anew, and the construction succeeds if the lines can
be numbered. -/
theorem Base.exists_rebuilt (h : Base before after d y g src dst)
    (matched : matcher.run src dst .empty = .ok m) : ∃ d₁ d₂ z,
      Rehung after.diff d d₁ d₂ (y.map (·.1)) g src dst m z ∧
      ∀ d', number.run d₂ = .ok () d' → diff before after matcher = .ok d' := by
  obtain ⟨d₁, d₂, z, removed, rehung, r⟩ :=
    (setting_of_run h.still h.target h.src h.dst matched).run_rebuild
  refine ⟨d₁, d₂, z, r, fun d' numbered => ?_⟩
  have run : (rebuild after.diff src dst m).run d = .ok () d' := by
    simp only [rebuild, EStateM.run_bind, removed, rehung, numbered]
  obtain ⟨p, copied, rfl⟩ := h.copy
  have twofold := (keeps_number.ok (.refl d₂) numbered : d₂.Redates d').twofold r.twofold
  have accepted := twofold.sound.accepted twofold.toRegular
  rw [diff, copied]
  simp only [Outcome.ok_bind, h.src, h.dst, matched, Edit.result, run, accepted]
  rfl

/-- Once the matcher succeeds the construction does: the edges are built anew, and the lines are
numbered. -/
theorem Start.exists_diff (h : Start before after d y g src dst)
    (matched : matcher.run src dst .empty = .ok m) : ∃ d₁ d₂ d' z,
      Rehung after.diff d d₁ d₂ (y.map (·.1)) g src dst m z ∧ d₂.Redates d' ∧
      diff before after matcher = .ok d' ∧ ∃ ns, d'.preorder = .ok ns ∧
        ns.Pairwise (fun n k => (d'.look n).start.diff < (d'.look k).start.diff) ∧
        (ns.map fun n => (d'.look n).stableId).Nodup := by
  obtain ⟨d₁, d₂, z, r, build⟩ := h.exists_rebuilt matched
  obtain ⟨f, tour⟩ := Tour.exists_tour r.twofold.toRegular
  obtain ⟨d', numbered, redates, order⟩ := run_number r.twofold.toRegular tour (h.start_root r)
    (Nat.lt_of_le_of_lt (r.sum_room_le tour) h.few)
  exact ⟨d₁, d₂, d', z, r, redates, build d' numbered, _, order⟩

end Matched

/-- Two trees that were read from short texts can be compared with every matching that obeys the
contract, whether it keeps the order and the ancestors of nodes or not. The matcher is asked about the
snapshots of both trees. -/
theorem diff_compares {text text' : String} {options options' : Reading.Options}
    {source source' : Source} {dialect dialect' : Dialect}
    (hb : Reading.tree text options source dialect = .ok before)
    (ha : Reading.tree text' options' source' dialect' = .ok after)
    (few : (Text.lines text).length < 2 ^ 30) (few' : (Text.lines text').length < 2 ^ 30) :
    ∃ s src dst, Snapshot.ofTree before = .ok s ∧ src.Alike s ∧ Snapshot.ofTree after = .ok dst ∧
      ∀ (matcher : Matcher) (m : Matching), matcher src dst .empty = .ok m → m.Obeys src dst →
        ∃ d, diff before after matcher = .ok d ∧ d.Compares before after m := by
  obtain ⟨d, y, g, src, dst, start⟩ := exists_start hb ha (by omega)
  obtain ⟨s, snapshot, alike⟩ := start.alike
  refine ⟨s, src, dst, snapshot, alike, start.dst, fun matcher m asked obeys => ?_⟩
  obtain ⟨d₁, d₂, d', z, r, redates, run, rises⟩ :=
    start.exists_diff (Matcher.run_of_obeys asked obeys)
  exact ⟨d', run, (redates.twofold r.twofold).sound, start.spec r redates, rises⟩

/-- The pairs of two annotations of which each takes the place of the other one. -/
def swap : Matching := Matching.empty.addAll [(0, 0), (1, 2), (2, 1)]

theorem dst?_swap {i j : Nat} : swap.dst? i = some j ↔ (i, j) ∈ [(0, 0), (1, 2), (2, 1)] := by
  simp only [swap, Matching.addAll, List.foldl, Matching.dst?_add, Matching.src?_add,
    Matching.dst?_empty, Matching.src?_empty]
  grind

theorem obeys_swap (hs : src.entries.map (·.kind) = #[.root, .ifBranch, .ifBranch])
    (hd : dst.entries.map (·.kind) = #[.root, .ifBranch, .ifBranch]) : swap.Obeys src dst := by
  refine ⟨dst?_swap.2 List.mem_cons_self, fun i j pair => ?_⟩
  have entry (s : Snapshot) (h : s.entries.map (·.kind) = #[.root, .ifBranch, .ifBranch]) (k : Nat)
      (kind : Kind) (hk : (#[.root, .ifBranch, .ifBranch] : Array Kind)[k]? = some kind) :
      ∃ e, s.get? k = some e ∧ e.kind = kind := by
    rw [← h, Array.getElem?_map] at hk
    exact Option.map_eq_some_iff.1 hk
  have pairs := dst?_swap.1 pair
  simp only [List.mem_cons, Prod.mk.injEq, List.not_mem_nil, or_false] at pairs
  have kinds : ∃ kind, (#[.root, .ifBranch, .ifBranch] : Array Kind)[i]? = some kind ∧
      (#[.root, .ifBranch, .ifBranch] : Array Kind)[j]? = some kind := by
    obtain ⟨rfl, rfl⟩ | ⟨rfl, rfl⟩ | ⟨rfl, rfl⟩ := pairs <;> exact ⟨_, rfl, rfl⟩
  obtain ⟨kind, hi, hj⟩ := kinds
  obtain ⟨a, ha, first⟩ := entry src hs i kind hi
  obtain ⟨b, hb, second⟩ := entry dst hd j kind hj
  exact ⟨a, b, ha, hb, first.trans second.symm⟩

/-- What stands above another annotation before the edit may stand below it after the edit. -/
theorem diff_compares_swapped : ∃ before after d,
    Reading.tree "#if A\n#if B\n#endif\n#endif\n" {} .unknown .preprocessor = .ok before ∧
    Reading.tree "#if B\n#if A\n#endif\n#endif\n" {} .unknown .preprocessor = .ok after ∧
    diff before after (fun _ _ _ => .ok swap) = .ok d ∧ d.Compares before after swap := by
  have kinds (text : String) (h : text = "#if A\n#if B\n#endif\n#endif\n" ∨
      text = "#if B\n#if A\n#endif\n#endif\n") : (do
        let tree ← Reading.tree text {} .unknown .preprocessor
        let s ← Snapshot.ofTree tree
        return s.entries.map (·.kind) : Outcome _).toOption = some #[.root, .ifBranch, .ifBranch] := by
    obtain rfl | rfl := h <;> decide +kernel
  obtain ⟨before, hb, rest⟩ := Outcome.bind_eq_ok_iff.1 (Outcome.eq_ok_of_toOption (kinds _ (.inl rfl)))
  obtain ⟨s, hs, sourceKinds⟩ := Outcome.bind_eq_ok_iff.1 rest
  obtain ⟨after, ha, rest⟩ := Outcome.bind_eq_ok_iff.1 (Outcome.eq_ok_of_toOption (kinds _ (.inr rfl)))
  obtain ⟨s', hs', targetKinds⟩ := Outcome.bind_eq_ok_iff.1 rest
  obtain ⟨s₀, src, dst, snapshot, alike, target, compares⟩ :=
    diff_compares hb ha (by decide +kernel) (by decide +kernel)
  rw [hs] at snapshot
  obtain rfl := Except.ok.inj snapshot
  rw [hs'] at target
  obtain rfl := Except.ok.inj target
  have kindsOf (s : Snapshot) : s.entries.map (·.kind) =
      (s.entries.map fun e => { e with origin := root }).map (·.kind) := by
    rw [Array.map_map]
    rfl
  have same : src.entries.map (·.kind) = s.entries.map (·.kind) := by
    rw [kindsOf src, kindsOf s, alike]
  obtain ⟨d, built, right⟩ := compares (fun _ _ _ => .ok swap) swap rfl
    (obeys_swap (same.trans (Outcome.pure_eq_ok_iff.1 sourceKinds))
      (Outcome.pure_eq_ok_iff.1 targetKinds))
  exact ⟨before, after, d, hb, ha, built, right⟩

end Construction

end Variation
