import Variation.Diff.Copy
import Variation.Proofs.Compared
import Variation.Proofs.Printed

/-!
# Copies under other names

`Copies` relates a diff to another one that holds what hangs below its root under other names, each
node once, with everything a node holds and all its edges, and nothing besides. The store of the copy
needs not have the size of the first one, since nodes that hang nowhere are left behind. What is worked
out from the root on is the same for both: which nodes hang below others, the tour, the trees at both
times, the source, and what the comparison finds. `compact` makes such a copy in which the names are
the places in preorder, and so a copy of a copy changes nothing.
-/

namespace Variation.Diff

/-- A diff holds exactly what hangs below the root of another one, under other names. -/
structure Copies (d c : Diff) (name : Handle → Handle) : Prop where
  source : c.source = d.source
  top : name root = root
  apart : ∀ n m, d.Reaches n → d.Reaches m → name n = name m → n = m
  size : ∀ n, d.Reaches n → name n < c.size
  onto : ∀ k < c.size, ∃ n, d.Reaches n ∧ name n = k
  payload : ∀ n, d.Reaches n → c.payload (name n) = d.payload n
  above : ∀ t n, d.Reaches n → c.above t (name n) = (d.above t n).map name
  below : ∀ t n, d.Reaches n → c.below t (name n) = (d.below t n).map name

/-- A list in which nothing comes twice has no duplicates to remove. -/
theorem eraseDups_of_nodup {ns : List Handle} (once : ns.Nodup) : ns.eraseDups = ns := by
  induction ns with
  | nil => rfl
  | cons n ns ih =>
    obtain ⟨new, once⟩ := List.nodup_cons.1 once
    have others : (ns.filter fun m => !m == n) = ns := by
      refine List.filter_eq_self.2 fun m hm => ?_
      simpa using fun same : m = n => new (same ▸ hm)
    rw [List.eraseDups_cons, others, ih once]

/-- The children of a node before the edit, and those that it has after it only. -/
theorem belowBoth_eq {d : Diff} {n : Handle} (hd : d.Regular) : d.belowBoth n =
    d.below .before n ++ (d.below .after n).filter fun c => !(d.below .before n).contains c := by
  rw [belowBoth, eraseDups_of_nodup ((hd.once .after n).filter _)]

namespace Copies

variable {d c : Diff} {name : Handle → Handle} {t : Time} {n m k : Handle} {ns seen : List Handle}
  {f : Forest Handle}

/-! ## What the copy is like -/

/-- A copied node holds the same as its model, apart from the edges. -/
theorem tells {α : Type} (h : d.Copies c name) (g : Node → α) (own : ∀ x : Node, g x.detached = g x)
    (hn : d.Reaches n) : g (c.look (name n)) = g (d.look n) := by
  rw [← own, ← own (d.look n)]
  exact congrArg g (h.payload n hn)

theorem change (h : d.Copies c name) (hn : d.Reaches n) :
    (c.look (name n)).change = (d.look n).change := h.tells (·.change) (fun _ => rfl) hn

theorem kind (h : d.Copies c name) (hn : d.Reaches n) :
    (c.look (name n)).kind = (d.look n).kind := h.tells (·.kind) (fun _ => rfl) hn

theorem face (h : d.Copies c name) (hn : d.Reaches n) : c.face (name n) = d.face n :=
  h.tells Node.face (fun _ => rfl) hn

/-- The edges of the copy are those among the nodes that are copied. -/
theorem regular (hd : d.Regular) (enclosed : d.Enclosed) (h : d.Copies c name) : c.Regular := by
  refine ⟨⟨fun t p k => ?_, fun t p => ?_, fun t k p hp => ?_⟩, ?_⟩
  · constructor
    · intro mem
      obtain ⟨n, hn, rfl⟩ := h.onto p (lt_size_of_mem_below mem)
      rw [h.below t n hn] at mem
      obtain ⟨m, hm, rfl⟩ := List.mem_map.1 mem
      rw [h.above t m (hn.child hm), hd.above_of_mem hm, Option.map_some]
    · intro up
      obtain ⟨m, hm, rfl⟩ := h.onto k (lt_size_of_above up)
      rw [h.above t m hm] at up
      obtain ⟨n, hn, rfl⟩ := Option.map_eq_some_iff.1 up
      rw [h.below t n (enclosed m hm t n hn)]
      exact List.mem_map_of_mem (hd.mem_of_above hn)
  · by_cases hp : p < c.size
    · obtain ⟨n, hn, rfl⟩ := h.onto p hp
      rw [h.below t n hn]
      exact (hd.once t n).map_on fun a ha b hb => h.apart a b (hn.child ha) (hn.child hb)
    · rw [below_eq_nil hp]
      exact .nil
  · obtain ⟨m, hm, rfl⟩ := h.onto k (lt_size_of_above hp)
    rw [h.above t m hm] at hp
    obtain ⟨n, hn, rfl⟩ := Option.map_eq_some_iff.1 hp
    have there := hd.lives t m n hn
    rw [lives_look (hm.lt_size hd), Node.existsAt] at there
    rw [lives_look (h.size m hm), Node.existsAt, h.change hm, there]
  · have inStore := h.size root .root
    rw [h.top] at inStore
    rw [kindOf, getElem?_look inStore, Option.map_some, ← h.top, h.kind .root, look_root_kind hd]

theorem reaches (h : d.Copies c name) (hn : d.Reaches n) : c.Reaches (name n) := by
  induction hn with
  | root =>
    rw [h.top]
    exact .root
  | @child t p k hp hk ih => exact ih.child (h.below t p hp ▸ List.mem_map_of_mem hk)

/-! ## The tour -/

theorem belowBoth (hd : d.Regular) (enclosed : d.Enclosed) (h : d.Copies c name)
    (hn : d.Reaches n) : c.belowBoth (name n) = (d.belowBoth n).map name := by
  rw [belowBoth_eq (h.regular hd enclosed), belowBoth_eq hd, List.map_append, h.below _ n hn,
    h.below _ n hn, List.filter_map]
  congr 2
  refine List.filter_congr fun k hk => ?_
  rw [Function.comp_apply, Bool.not_inj_iff, Bool.eq_iff_iff, List.contains_iff_mem,
    List.contains_iff_mem, List.mem_map]
  constructor
  · rintro ⟨m, hm, same⟩
    exact h.apart m k (hn.child hm) (hn.child hk) same ▸ hm
  · exact fun hm => ⟨k, hm, rfl⟩

/-- The copy is toured as the diff is, under the other names. -/
theorem tours (hd : d.Regular) (enclosed : d.Enclosed) (h : d.Copies c name)
    (tour : d.Tours seen ns f) (met : ∀ n ∈ seen, d.Reaches n) (waiting : ∀ n ∈ ns, d.Reaches n) :
    c.Tours (seen.map name) (ns.map name) (f.map name) := by
  induction tour with
  | nil seen => exact .nil _
  | skip old rest ih =>
    exact .skip (List.mem_map_of_mem old) (ih met (List.forall_mem_cons.1 waiting).2)
  | @visit seen ns n below rest new inner outer ihb ihr =>
    obtain ⟨here, waiting⟩ := List.forall_mem_cons.1 waiting
    have unmet : name n ∉ seen.map name := fun mem => by
      obtain ⟨k, hk, same⟩ := List.mem_map.1 mem
      exact new (h.apart k n (met k hk) here same ▸ hk)
    have innerTour := ihb (List.forall_mem_cons.2 ⟨here, met⟩) fun k hk => here.of_mem_belowBoth hk
    have outerTour := ihr (inner.reaches_met here met) waiting
    rw [← h.belowBoth hd enclosed here] at innerTour
    refine .visit unmet innerTour ?_
    rw [Forest.flatten_map, ← List.map_reverse, ← List.map_cons, ← List.map_append]
    exact outerTour

theorem tour (hd : d.Regular) (enclosed : d.Enclosed) (h : d.Copies c name) (tour : d.Tour f) :
    c.Tour (f.map name) := by
  have tours := h.tours hd enclosed (Diff.Tour.eq_1 d f ▸ tour)
    (List.forall_mem_singleton.2 .root) fun k hk => Reaches.root.of_mem_belowBoth hk
  rw [← h.belowBoth hd enclosed .root, List.map_singleton, h.top] at tours
  exact tours

/-- The copy has room for exactly what it holds. -/
theorem size_eq (h : d.Copies c name) (tour : d.Tour f) :
    c.size = f.flatten.length + 1 := by
  have once : ((root :: f.flatten).map name).Nodup :=
    tour.nodup.map_on fun a ha b hb => h.apart a b (tour.mem_iff.1 ha) (tour.mem_iff.1 hb)
  have all : ((root :: f.flatten).map name).Perm (List.range c.size) := by
    refine (List.perm_ext_iff_of_nodup once List.nodup_range).2 fun k => ?_
    rw [List.mem_map, List.mem_range]
    constructor
    · rintro ⟨n, hn, rfl⟩
      exact h.size n (tour.mem_iff.1 hn)
    · intro hk
      obtain ⟨n, hn, same⟩ := h.onto k hk
      exact ⟨n, tour.mem_iff.2 hn, same⟩
  have length := all.length_eq
  rw [List.length_map, List.length_cons, List.length_range] at length
  exact length.symm

/-! ## The trees and what they print -/

theorem shape (hd : d.Regular) (h : d.Copies c name) (shape : d.Shape t f) :
    c.Shape t (f.map name) := by
  have reached : ∀ n ∈ root :: f.flatten, d.Reaches n := fun n hn =>
    ((shape.mem_iff hd.toSymmetric).1 hn).reaches hd
  refine ⟨?_, shape.spans.map fun n hn => ?_, ?_⟩
  · rw [Forest.roots_map, ← shape.below, ← h.below t root .root, h.top]
  · have hn := reached n (List.mem_cons_of_mem _ hn)
    exact ⟨h.size n hn, h.below t n hn⟩
  · rw [Forest.flatten_map, ← h.top, ← List.map_cons]
    exact shape.once.map_on fun a ha b hb => h.apart a b (reached a ha) (reached b hb)

/-- A diff and its copy have the same source. -/
theorem source_eq (hd : d.Regular) (sound : d.Sound) (h : d.Copies c name) (t : Time) :
    ∃ text, Printing.source d t = .ok text ∧ Printing.source c t = .ok text := by
  obtain ⟨f, twofold⟩ := sound.exists_twofold hd
  have shape := twofold.shape t
  refine ⟨_, Printing.source_eq hd shape, ?_⟩
  rw [Printing.source_eq (h.regular hd (sound.enclosed hd)) (h.shape hd shape), Printing.printed,
    Printing.printed, Forest.lines_map]
  congr 2
  refine Forest.lines_congr fun n hn => ?_
  have hn := ((shape.mem_iff hd.toSymmetric).1 (List.mem_cons_of_mem _ hn)).reaches hd
  exact ⟨h.tells Printing.ownLines (fun _ => rfl) hn,
    h.tells (Printing.closingLines · t) (fun _ => rfl) hn⟩

/-! ## The comparison with the copy -/

/-- A node of the diff stands opposite its copy only. -/
theorem opposite (hd : d.Regular) (enclosed : d.Enclosed) (h : d.Copies c name)
    {p : Handle × Handle} (along : Opposite d c p) : d.Reaches p.1 ∧ p.2 = name p.1 := by
  induction along with
  | root => exact ⟨.root, h.top.symm⟩
  | @child p q _ mem ih =>
    obtain ⟨reached, partner⟩ := ih
    refine ⟨reached.of_mem_belowBoth (mem_belowBoth_of_mem_meet mem).1, ?_⟩
    rw [meet, partner, h.belowBoth hd enclosed reached] at mem
    obtain ⟨i, hi, rfl⟩ := List.getElem_of_mem mem
    rw [List.getElem_zip, List.getElem_map]

/-- A diff and its copy are not told apart. -/
theorem similar (hd : d.Regular) (enclosed : d.Enclosed) (h : d.Copies c name) :
    Similar d c := fun p along => by
  obtain ⟨reached, partner⟩ := h.opposite hd enclosed along
  rw [Corresponds, partner, h.face reached, h.belowBoth hd enclosed reached, List.length_map]
  exact ⟨rfl, rfl⟩

end Copies

/-! ## Naming by place -/

variable {d c : Diff} {t : Time} {n m k : Handle} {ns : List Handle} {size : Nat}
  {names : Array (Option Handle)}

theorem getElem?_placesFrom (k : Nat) (names : Array (Option Handle)) (once : ns.Nodup)
    (inside : n < names.size) :
    ((ns.zipIdx k).foldl (fun names (n, i) => names.setIfInBounds n (some i)) names)[n]? =
      if n ∈ ns then some (some (k + ns.idxOf n)) else names[n]? := by
  induction ns generalizing k names with
  | nil => rfl
  | cons m ns ih =>
    obtain ⟨new, once⟩ := List.nodup_cons.1 once
    rw [List.zipIdx_cons, List.foldl_cons, ih (k + 1) _ once (by simpa using inside),
      Array.getElem?_setIfInBounds]
    by_cases here : m = n
    · subst here
      simp [new, inside]
    · have other : n ≠ m := fun same => here same.symm
      have place : (m :: ns).idxOf n = ns.idxOf n + 1 := List.idxOf_cons_ne _ here
      simp only [here, if_false, List.mem_cons, other, false_or, place]
      rw [Nat.add_assoc, Nat.add_comm 1]

/-- A listed node is named by its place. -/
theorem renamed_placesOf (once : ns.Nodup) (mem : n ∈ ns) (inside : n < size) (blamed : Handle) :
    renamed (placesOf size ns) blamed n = .ok (ns.idxOf n) := by
  have place : (placesOf size ns)[n]? = some (some (ns.idxOf n)) := by
    rw [placesOf, getElem?_placesFrom 0 _ once (by simpa using inside), if_pos mem, Nat.zero_add]
  rw [renamed, place]
  rfl

/-- The node with other names for the nodes at its edges. -/
def renameAll (name : Handle → Handle) (x : Node) : Node :=
  { x with parent := x.parent.map (Option.map name), children := x.children.map (List.map name) }

theorem renameEdges_placesOf {x : Node} (once : ns.Nodup) (inside : ∀ m ∈ ns, m < size)
    (up : ∀ t p, x.parent.get t = some p → p ∈ ns) (down : ∀ t, ∀ k ∈ x.children.get t, k ∈ ns) :
    renameEdges (placesOf size ns) n x = .ok (renameAll ns.idxOf x) := by
  have parent (t : Time) (p : Handle) (hp : x.parent.get t = some p) :
      some <$> renamed (placesOf size ns) n p = .ok (some (ns.idxOf p)) := by
    rw [renamed_placesOf once (up t p hp) (inside p (up t p hp))]
    rfl
  have children (t : Time) : ((x.children.get t).mapM fun k => renamed (placesOf size ns) k k) =
      .ok ((x.children.get t).map ns.idxOf) :=
    Outcome.mapM_eq_map fun k hk => renamed_placesOf once (down t k hk) (inside k (down t k hk)) k
  have renamed : renameAll ns.idxOf x = { x with
      parent := ⟨(x.parent.get .before).map ns.idxOf, (x.parent.get .after).map ns.idxOf⟩
      children := ⟨(x.children.get .before).map ns.idxOf, (x.children.get .after).map ns.idxOf⟩ } :=
    rfl
  rw [renameEdges, renamed]
  dsimp only
  rw [children .before, children .after]
  cases hb : x.parent.get .before <;> cases ha : x.parent.get .after
  · rfl
  · dsimp only
    rw [parent .after _ ha]
    rfl
  · dsimp only
    rw [parent .before _ hb]
    rfl
  · dsimp only
    rw [parent .before _ hb, parent .after _ ha]
    rfl

/-- The nodes of a list with their places for names. -/
def gathered (d : Diff) (ns : List Handle) : Diff :=
  ⟨(ns.map fun n => renameAll ns.idxOf (d.look n)).toArray, d.source⟩

theorem look_gathered (mem : n ∈ ns) :
    (d.gathered ns).look (ns.idxOf n) = renameAll ns.idxOf (d.look n) := by
  have inside : ns.idxOf n < ns.length := List.idxOf_lt_length_of_mem mem
  have here : (d.gathered ns).nodes[ns.idxOf n]? = some (renameAll ns.idxOf (d.look n)) := by
    rw [gathered, List.getElem?_toArray, List.getElem?_map, List.getElem?_idxOf mem]
    rfl
  exact look_of_node here

theorem size_gathered : (d.gathered ns).size = ns.length := by simp [gathered, size]

/-- What a tour lists is a copy of the diff, each node under its place. -/
theorem copies_gathered (hd : d.Regular) (once : (root :: ns).Nodup)
    (mem : ∀ n, n ∈ root :: ns ↔ d.Reaches n) :
    d.Copies (d.gathered (root :: ns)) (root :: ns).idxOf := by
  have place (n) (hn : d.Reaches n) :
      (root :: ns).idxOf n < (d.gathered (root :: ns)).size := by
    rw [size_gathered]
    exact List.idxOf_lt_length_of_mem ((mem n).2 hn)
  refine ⟨rfl, List.idxOf_cons_self, fun n m hn hm same => ?_, place, fun k hk => ?_,
    fun n hn => ?_, fun t n hn => ?_, fun t n hn => ?_⟩
  · exact (List.idxOf_inj ((mem n).2 hn)).1 same
  · rw [size_gathered] at hk
    exact ⟨(root :: ns)[k], (mem _).1 (List.getElem_mem hk), once.idxOf_getElem k hk⟩
  · rw [payload, look_gathered ((mem n).2 hn)]
    rfl
  · rw [above_look (place n hn), look_gathered ((mem n).2 hn), above_look (hn.lt_size hd)]
    cases t <;> rfl
  · rw [below_look (place n hn), look_gathered ((mem n).2 hn), below_look (hn.lt_size hd)]
    cases t <;> rfl

/-- A deep copy holds what the walk from the root lists, each node under its place. -/
theorem compact_eq (hd : d.Regular) (enclosed : d.Enclosed) (walk : d.preorder = .ok ns)
    (once : ns.Nodup) (mem : ∀ n, n ∈ ns ↔ d.Reaches n) : d.compact = .ok (d.gathered ns) := by
  have inside (n) (hn : n ∈ ns) : n < d.size := ((mem n).1 hn).lt_size hd
  have nodes : (ns.mapM fun n => do renameEdges (placesOf d.size ns) n (← d.node n)) =
      .ok (ns.map fun n => renameAll ns.idxOf (d.look n)) := by
    refine Outcome.mapM_eq_map fun n hn => ?_
    rw [node_look (inside n hn), Outcome.ok_bind]
    refine renameEdges_placesOf once inside (fun t p hp => ?_) fun t k hk => ?_
    · exact (mem p).2 (enclosed n ((mem n).1 hn) t p (above_look (inside n hn) ▸ hp))
    · exact (mem k).2 (((mem n).1 hn).child (below_look (inside n hn) ▸ hk))
  rw [compact, walk, Outcome.ok_bind]
  dsimp only
  rw [nodes]
  rfl

theorem idxOf_range (h : n < k) : (List.range k).idxOf n = n := by
  have place := List.nodup_range.idxOf_getElem n (by rwa [List.length_range] : n < _)
  rwa [List.getElem_range] at place

/-- Gathering the whole store in its order changes nothing. -/
theorem gathered_range (hd : d.Regular) : d.gathered (List.range d.size) = d := by
  have same (n) (hn : n < d.size) :
      renameAll (List.range d.size).idxOf (d.look n) = d.look n := by
    have parents (t) : ((d.look n).parent.get t).map (List.range d.size).idxOf =
        (d.look n).parent.get t := by
      cases hp : (d.look n).parent.get t with
      | none => rfl
      | some p =>
        rw [Option.map_some, idxOf_range (hd.parent_lt (above_look hn ▸ hp))]
    have children (t) : ((d.look n).children.get t).map (List.range d.size).idxOf =
        (d.look n).children.get t := by
      refine (List.map_congr_left fun k hk => ?_).trans (List.map_id _)
      exact idxOf_range (hd.child_lt (below_look hn ▸ hk))
    refine Node.ext_edges (fun t => ?_) (fun t => ?_) rfl
    · rw [← parents t]
      cases t <;> rfl
    · rw [← children t]
      cases t <;> rfl
  have nodes : ((List.range d.size).map fun n =>
      renameAll (List.range d.size).idxOf (d.look n)).toArray = d.nodes := by
    apply Array.ext_getElem?
    intro n
    rw [List.getElem?_toArray, List.getElem?_map]
    by_cases hn : n < d.size
    · rw [List.getElem?_range hn, Option.map_some, same n hn, getElem?_look hn]
    · rw [List.getElem?_eq_none (by simpa using hn), Array.getElem?_eq_none (Nat.le_of_not_lt hn)]
      rfl
  rw [gathered, nodes]

/-- What a tour lists, gathered in its order, is toured in the order of its store. -/
theorem preorder_gathered (hd : d.Regular) (enclosed : d.Enclosed) {f : Forest Handle}
    (tour : d.Tour f) : (d.gathered (root :: f.flatten)).preorder =
      .ok (List.range (d.gathered (root :: f.flatten)).size) := by
  have copies := copies_gathered hd tour.nodup fun _ => tour.mem_iff
  have listed : (root :: f.flatten).map (root :: f.flatten).idxOf =
      List.range (root :: f.flatten).length := by
    refine List.ext_getElem (by simp) fun i hi _ => ?_
    rw [List.getElem_map, List.getElem_range, tour.nodup.idxOf_getElem]
  rw [preorder_eq (copies.regular hd enclosed) (copies.tour hd enclosed tour), size_gathered,
    ← listed, Forest.flatten_map, List.map_cons, copies.top]

/-- A copy that was gathered along a tour is copied as it is. -/
theorem compact_gathered (hd : d.Regular) (enclosed : d.Enclosed) {f : Forest Handle}
    (tour : d.Tour f) : (d.gathered (root :: f.flatten)).compact =
      .ok (d.gathered (root :: f.flatten)) := by
  have copies := copies_gathered hd tour.nodup fun _ => tour.mem_iff
  have regular := copies.regular hd enclosed
  have all (n) : n ∈ List.range (d.gathered (root :: f.flatten)).size ↔
      (d.gathered (root :: f.flatten)).Reaches n := by
    rw [List.mem_range]
    refine ⟨fun hn => ?_, fun hn => hn.lt_size regular⟩
    obtain ⟨m, hm, rfl⟩ := copies.onto n hn
    exact copies.reaches hm
  have enclosed' : (d.gathered (root :: f.flatten)).Enclosed := fun n _ t p hp =>
    (all p).1 (List.mem_range.2 (regular.parent_lt hp))
  rw [compact_eq regular enclosed' (preorder_gathered hd enclosed tour) List.nodup_range all,
    gathered_range regular]

end Variation.Diff
