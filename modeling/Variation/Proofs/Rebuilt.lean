import Variation.Proofs.Pairs
import Variation.Proofs.Rebuilding
import Variation.Proofs.Still

/-!
# The rebuilt diff

With a matching that pairs entries of one kind, a construction starts from a still diff and the tree
that it is compared with. What is kept is a pair of equal texts; the other nodes of the first tree are
removed and places of the second tree without a kept node get an added one. The rebuilt diff is twofold:
before the edit it has the forest of the first tree, and after it the nodes that stand for the places of
the second one.
-/

namespace Variation

namespace Construction

open Diff
open Matching (Snapshot Entry)

variable {d d' other : Diff} {src dst : Snapshot} {m : Matching} {f g : Forest Handle}
  {n a : Handle} {i j : Nat}

/-! ## What is kept -/

theorem kept?_eq_some_iff : kept? src dst m i = some j ↔ m.dst? i = some j ∧
    ∃ e b, src.get? i = some e ∧ dst.get? j = some b ∧ e.label = b.label := by
  simp only [kept?, Option.bind_eq_bind, Option.bind_eq_some_iff]
  constructor
  · rintro ⟨k, hk, e, he, b, hb, chosen⟩
    split at chosen
    · next same =>
      obtain rfl := Option.some.inj chosen
      exact ⟨hk, e, b, he, hb, same⟩
    · cases chosen
  · rintro ⟨hj, e, b, he, hb, same⟩
    exact ⟨j, hj, e, he, b, hb, if_pos same⟩

theorem keeper_eq_some_iff : keeper src dst m j = some n ↔
    ∃ i e b, m.dst? i = some j ∧ src.get? i = some e ∧ dst.get? j = some b ∧ e.label = b.label ∧
      e.origin = n := by
  have unfolded : keeper src dst m j = some n ↔ ∃ i e, m.src? j = some i ∧
      kept? src dst m i = some j ∧ src.get? i = some e ∧ e.origin = n := by
    unfold keeper keptBy?
    cases hi : m.src? j with
    | none => simp
    | some i =>
      by_cases kept : kept? src dst m i = some j
      · simp [kept]
      · simp [kept]
  rw [unfolded]
  constructor
  · rintro ⟨i, e, -, kept, he, origin⟩
    obtain ⟨hj, e', b, he', hb, same⟩ := kept?_eq_some_iff.1 kept
    rw [he] at he'
    obtain rfl := Option.some.inj he'
    exact ⟨i, e, b, hj, he, hb, same, origin⟩
  · rintro ⟨i, e, b, hj, he, hb, same, origin⟩
    exact ⟨i, e, (m.dst?_iff i j).1 hj, kept?_eq_some_iff.2 ⟨hj, e, b, he, hb, same⟩, he, origin⟩

/-- What a construction starts from: a still diff, a tree that it is compared with, and a matching
between their snapshots. -/
structure Setting (d other : Diff) (f g : Forest Handle) (src dst : Snapshot) (m : Matching) : Prop
    extends m.Pairing d other f.flatten g.flatten src dst where
  still : d.Still f
  target : other.Still g
  size : dst.size = g.flatten.length + 1
  lists : Snapshot.Lists other dst ((Forest.tree Diff.root g).numbered 0)

theorem mem_numbered : (a, j) ∈ (g.numbered 1).flatten ↔
    j ≠ 0 ∧ (Diff.root :: g.flatten)[j]? = some a := by
  rw [Forest.flatten_numbered, List.mk_mem_zipIdx_iff_le_and_getElem?_sub]
  cases j with
  | zero => simp
  | succ j => simp

theorem mem_of_numbered (h : (a, j) ∈ (g.numbered 1).flatten) : a ∈ g.flatten := by
  rw [Forest.flatten_numbered] at h
  exact List.fst_mem_of_mem_zipIdx h

namespace Setting

/-- The node of a source that is not the first one is in the first tree. -/
theorem mem_of_source {e : Entry} (h : Setting d other f g src dst m) (he : src.get? i = some e)
    (hi : i ≠ 0) : e.origin ∈ f.flatten := by
  have here := h.before.getElem? he
  cases i with
  | zero => exact absurd rfl hi
  | succ i => exact List.mem_of_getElem? here

/-- A node that is kept is of the first tree and says what its counterpart says. -/
theorem keeper_spec (h : Setting d other f g src dst m) (ha : (a, j) ∈ (g.numbered 1).flatten)
    (keeps : keeper src dst m j = some n) : n ∈ f.flatten ∧
      (d.look n).kind = (other.look a).kind ∧
      (d.look n).matchingText = (other.look a).matchingText := by
  obtain ⟨i, e, b, hj, he, hb, same, rfl⟩ := keeper_eq_some_iff.1 keeps
  obtain ⟨notFirst, place⟩ := mem_numbered.1 ha
  have here := h.after.getElem? hb
  rw [place] at here
  obtain rfl := Option.some.inj here
  have kinds := h.kind_eq hj he hb
  refine ⟨h.mem_of_source he ?_, ?_, ?_⟩
  · rintro rfl
    rw [h.roots] at hj
    exact notFirst (Option.some.inj hj).symm
  · rw [← (h.before.entry i e he).1, ← (h.after.entry j b hb).1, kinds]
  · rw [← (h.before.entry i e he).2, ← (h.after.entry j b hb).2, same]

/-- No node is kept twice. -/
theorem keeper_inj {j' : Nat} (h : Setting d other f g src dst m)
    (keeps : keeper src dst m j = some n) (keeps' : keeper src dst m j' = some n) : j = j' := by
  obtain ⟨i, e, b, hj, he, -, -, rfl⟩ := keeper_eq_some_iff.1 keeps
  obtain ⟨i', e', b', hj', he', -, -, same⟩ := keeper_eq_some_iff.1 keeps'
  obtain rfl := h.src_inj he' he same
  rw [hj] at hj'
  exact Option.some.inj hj'

theorem keepers_nodup (h : Setting d other f g src dst m) :
    (keepers (keeper src dst m) (g.numbered 1)).Nodup := by
  have places : keepers (keeper src dst m) (g.numbered 1) =
      (List.range' 1 g.flatten.length).filterMap (keeper src dst m) := by
    rw [← List.zipIdx_map_snd, List.filterMap_map, keepers, Forest.flatten_numbered]
    rfl
  rw [places]
  exact List.Nodup.filterMap (fun j j' n keeps keeps' => h.keeper_inj keeps keeps')
    (List.nodup_range' 1)

/-- A kept node takes a place. -/
theorem exists_place (h : Setting d other f g src dst m) (hn : n ∈ f.flatten)
    (keeps : keeper src dst m j = some n) : ∃ a, (a, j) ∈ (g.numbered 1).flatten := by
  obtain ⟨i, e, b, hj, he, hb, -, rfl⟩ := keeper_eq_some_iff.1 keeps
  refine ⟨b.origin, mem_numbered.2 ⟨?_, h.after.getElem? hb⟩⟩
  rintro rfl
  obtain rfl := Matching.source_inj hj h.roots
  have top : root = e.origin := Option.some.inj (h.before.getElem? he)
  rw [← top] at hn
  exact (h.still.tree .before).root_not_mem hn

/-! ## What is not kept -/

theorem mem_sources {e : Entry} : (e, i) ∈ src.entries.toList.zipIdx.drop 1 ↔
    i ≠ 0 ∧ src.get? i = some e := by
  have get : src.get? i = src.entries.toList[i]? := Array.getElem?_toList.symm
  rw [get]
  cases src.entries.toList with
  | nil => simp
  | cons first rest =>
    rw [List.zipIdx_cons, List.drop_one, List.tail_cons, List.mk_mem_zipIdx_iff_le_and_getElem?_sub]
    cases i with
    | zero => simp
    | succ i => simp

/-- What is not kept is removed. -/
theorem mem_forsaken_iff (h : Setting d other f g src dst m) :
    n ∈ forsaken src dst m ↔ n ∈ f.flatten ∧ ∀ j, keeper src dst m j ≠ some n := by
  simp only [forsaken, List.mem_map, List.mem_filter, Prod.exists, mem_sources,
    Option.isNone_iff_eq_none]
  constructor
  · rintro ⟨e, i, ⟨⟨hi, he⟩, none⟩, rfl⟩
    refine ⟨h.mem_of_source he hi, fun j keeps => ?_⟩
    obtain ⟨i', e', b, hj, he', hb, same, origin⟩ := keeper_eq_some_iff.1 keeps
    obtain rfl := h.src_inj he' he origin
    rw [kept?_eq_some_iff.2 ⟨hj, e', b, he', hb, same⟩] at none
    cases none
  · rintro ⟨hn, notKept⟩
    obtain ⟨i, hi⟩ := List.getElem?_of_mem hn
    obtain ⟨e, he, rfl⟩ := h.before.get?_of_getElem? (i := i + 1) hi
    refine ⟨e, i + 1, ⟨⟨Nat.succ_ne_zero i, he⟩, ?_⟩, rfl⟩
    cases kept : kept? src dst m (i + 1) with
    | none => rfl
    | some j =>
      obtain ⟨hj, e', b, he', hb, same⟩ := kept?_eq_some_iff.1 kept
      rw [he] at he'
      obtain rfl := Option.some.inj he'
      exact absurd (keeper_eq_some_iff.2 ⟨i + 1, e, b, hj, he, hb, same, rfl⟩) (notKept j)

theorem forsaken_nodup (h : Setting d other f g src dst m) : (forsaken src dst m).Nodup := by
  have origins : src.entries.toList.map (·.origin) = Diff.root :: f.flatten := by
    apply List.ext_getElem?
    intro i
    rw [List.getElem?_map, Array.getElem?_toList]
    exact h.before.origin i
  have below : (src.entries.toList.zipIdx.drop 1).map (·.1.origin) = f.flatten := by
    rw [List.map_drop, ← Function.comp_def (fun e : Entry => e.origin), ← List.map_map,
      List.zipIdx_map_fst, origins]
    rfl
  have sub : (forsaken src dst m).Sublist f.flatten := by
    rw [← below]
    exact List.filter_sublist.map _
  exact (h.still.tree .before).once.tail.sublist sub

end Setting

/-! ## The rebuilt diff -/

/-- What was not kept is removed, the edges below the root after the edit are unlinked, and nodes were
found for all places of the second tree. -/
structure Rehung (other d d₁ d' : Diff) (f g : Forest Handle) (src dst : Snapshot) (m : Matching)
    (z : Forest ((Handle × Nat) × Handle)) : Prop where
  setting : Setting d other f g src dst m
  places : z.map (·.1) = g.numbered 1
  prunes : d.Prunes d₁ (forsaken src dst m)
  takes : Takes other (keeper src dst m) (d₁.unlinkAll root .after) d' [root] z
  hangs : Hangs (d₁.unlinkAll root .after) d' [root] root z

namespace Setting

variable {d₁ : Diff} {z : Forest ((Handle × Nat) × Handle)}

theorem root_not_forsaken (h : Setting d other f g src dst m) : root ∉ forsaken src dst m := fun top =>
  (h.still.tree .before).root_not_mem (h.mem_forsaken_iff.1 top).1

/-- A kept node is not removed. -/
theorem not_forsaken (h : Setting d other f g src dst m) (keeps : keeper src dst m j = some n) :
    n ∉ forsaken src dst m := fun gone => (h.mem_forsaken_iff.1 gone).2 j keeps

/-- When the first tree was pruned and nothing hangs below the root after the edit, the places of the
second tree can be taken. -/
theorem ready (h : Setting d other f g src dst m) (prunes : d.Prunes d₁ (forsaken src dst m)) :
    Ready (keeper src dst m) (d₁.unlinkAll root .after) [root] root (g.numbered 1) := by
  have mem {n : Handle} (hn : n ∈ keepers (keeper src dst m) (g.numbered 1)) :
      n ∈ f.flatten ∧ n ∉ forsaken src dst m := by
    obtain ⟨⟨a, j⟩, ha, keeps⟩ := List.mem_filterMap.1 hn
    exact ⟨(h.keeper_spec ha keeps).1, h.not_forsaken keeps⟩
  refine ⟨prunes.regular.unlinkAll root .after, fun c p up => ?_, List.mem_singleton.2 rfl,
    fun n hn => ?_, h.keepers_nodup, fun n hn => ?_, fun n hn => ?_⟩
  · rw [above_unlinkAll] at up
    split at up
    · cases up
    · next left =>
      rw [List.mem_singleton, List.mem_singleton]
      constructor
      · rintro rfl
        exact absurd ⟨rfl, prunes.regular.mem_of_above up⟩ left
      · rintro rfl
        rw [prunes.above, if_neg h.root_not_forsaken, h.still.free] at up
        cases up
  · rw [List.mem_singleton.1 hn, size_unlinkAll, prunes.size]
    exact h.still.root_lt
  · rw [List.mem_singleton]
    rintro rfl
    exact (h.still.tree .before).root_not_mem (mem hn).1
  · have inTree : n ∈ root :: f.flatten := List.mem_cons_of_mem _ (mem hn).1
    rw [lives_unlinkAll]
    refine lives_congr (fun old => ?_) ?_ (h.still.present inTree .after)
    · rw [prunes.size]
      exact old
    · rw [prunes.payload, if_neg (mem hn).2]

/-- Removing what is not kept and building the edges anew succeeds. -/
theorem run_rebuild (h : Setting d other f g src dst m) : ∃ d₁ d' z,
    (removeUnkept src dst m).run d = .ok () d₁ ∧
    (attachDestinations other src dst m).run d₁ = .ok () d' ∧
    Rehung other d d₁ d' f g src dst m z := by
  obtain ⟨d₁, pruned, prunes⟩ := run_removeAll h.still.toRegular h.forsaken_nodup fun n hn =>
    h.still.lt_size (t := .before) (List.mem_cons_of_mem _ (h.mem_forsaken_iff.1 hn).1)
  have first : Forest.numbered (.tree root g) 0 = .tree (root, 0) (g.numbered 1) := rfl
  have lists := h.lists
  rw [first] at lists
  obtain ⟨⟨parent, entry⟩, listsBelow, -⟩ := lists
  have deep : (g.numbered 1).flatten.length ≤ dst.size := by
    rw [Forest.flatten_numbered, List.length_zipIdx, h.size]
    exact Nat.le_succ _
  have laws (a) (ha : a ∈ (g.numbered 1).flatten) : a.1 < other.size ∧
      (other.look a.1).kind ≠ .root ∧
      (other.look a.1).formula.isSome = (other.look a.1).kind.isConditional := by
    obtain ⟨-, place⟩ := mem_numbered.1 ha
    have mem : a.1 ∈ root :: g.flatten := List.mem_of_getElem? place
    have below : a.1 ∈ g.flatten := mem_of_numbered ha
    exact ⟨h.target.lt_size (t := .before) mem, h.target.kind .before a.1 below,
      h.target.formula .before a.1 mem⟩
  obtain ⟨d', z, places, run, takes, hangs⟩ :=
    run_attachBelow listsBelow deep laws (h.ready prunes)
  refine ⟨d₁, d', z, ?_, ?_, h, places, prunes, takes, hangs⟩
  · rw [removeUnkept_eq]
    exact pruned
  · have rootLt : root < d₁.size := by
      rw [prunes.size]
      exact h.still.root_lt
    have cleared := Edit.run_detachChildren (t := .after) prunes.regular.toSymmetric rootLt
    simp only [attachDestinations, EStateM.run_bind, cleared, entry]
    exact run

end Setting

namespace Rehung

variable {d₁ : Diff} {z : Forest ((Handle × Nat) × Handle)} {q : (Handle × Nat) × Handle}

theorem place_mem (r : Rehung other d d₁ d' f g src dst m z) (hq : q ∈ z.flatten) :
    q.1 ∈ (g.numbered 1).flatten := by
  rw [← r.places]
  exact Forest.mem_flatten_map_of_mem _ hq

theorem size_le (r : Rehung other d d₁ d' f g src dst m z) : d.size ≤ d'.size := by
  have grows := r.takes.size
  rw [size_unlinkAll, r.prunes.size] at grows
  exact grows

theorem not_root (r : Rehung other d d₁ d' f g src dst m z) (hn : n ∈ (seats z).flatten) :
    n ≠ root := by
  have ready := r.setting.ready r.prunes
  rw [← r.places] at ready
  exact fun top => r.takes.not_settled ready hn (top ▸ List.mem_singleton.2 rfl)

/-- A node that takes a place stands for it as the diff was at first. -/
theorem stands (r : Rehung other d d₁ d' f g src dst m z) (hq : q ∈ z.flatten) :
    Stands other d d' (keeper src dst m) q := by
  refine (r.takes.stands q hq).earlier ?_ fun n keeps => ?_
  · rw [size_unlinkAll, r.prunes.size]
  · rw [payload_unlinkAll, r.prunes.payload, if_neg (r.setting.not_forsaken keeps)]

/-- What is kept for a place stands there. -/
theorem mem_of_keeps (r : Rehung other d d₁ d' f g src dst m z)
    (place : (a, j) ∈ (g.numbered 1).flatten) (keeps : keeper src dst m j = some n) :
    ((a, j), n) ∈ z.flatten := by
  rw [← r.places] at place
  obtain ⟨⟨⟨a', j'⟩, n'⟩, hq, same⟩ := Forest.mem_flatten_map.1 place
  obtain ⟨rfl, rfl⟩ := Prod.mk.inj same
  cases r.stands hq with
  | kept keeps' _ =>
    rw [keeps] at keeps'
    rw [Option.some.inj keeps']
    exact hq
  | added none _ _ _ =>
    rw [keeps] at none
    cases none

/-- A node of the first tree is removed unless it takes a place. -/
theorem mem_forsaken_iff (r : Rehung other d d₁ d' f g src dst m z) (hn : n ∈ f.flatten) :
    n ∈ forsaken src dst m ↔ n ∉ (seats z).flatten := by
  constructor
  · intro gone taken
    obtain ⟨q, hq, rfl⟩ := mem_seats.1 taken
    cases r.stands hq with
    | kept keeps _ => exact r.setting.not_forsaken keeps gone
    | added _ new _ _ =>
      have old := r.setting.still.lt_size (t := .before) (List.mem_cons_of_mem _ hn)
      exact Nat.not_lt.2 new old
  · intro free
    refine r.setting.mem_forsaken_iff.2 ⟨hn, fun j keeps => free ?_⟩
    obtain ⟨a, ha⟩ := r.setting.exists_place hn keeps
    exact mem_seats.2 ⟨_, r.mem_of_keeps ha keeps, rfl⟩

/-- What takes no place is as it was, or removed. -/
theorem payload_old (r : Rehung other d d₁ d' f g src dst m z) (old : n < d.size)
    (free : n ∉ (seats z).flatten) : d'.payload n =
      if n ∈ forsaken src dst m then asRemoved (d.payload n) else d.payload n := by
  have same := r.takes.payload n (by rw [size_unlinkAll, r.prunes.size]; exact old) free
  rw [same, payload_unlinkAll, r.prunes.payload]

theorem payload_root (r : Rehung other d d₁ d' f g src dst m z) :
    d'.payload root = d.payload root := by
  have free : root ∉ (seats z).flatten := fun taken => r.not_root taken rfl
  rw [r.payload_old r.setting.still.root_lt free, if_neg r.setting.root_not_forsaken]

theorem payload_gone (r : Rehung other d d₁ d' f g src dst m z) (hn : n ∈ f.flatten)
    (free : n ∉ (seats z).flatten) : d'.payload n = asRemoved (d.payload n) := by
  have old := r.setting.still.lt_size (t := .before) (List.mem_cons_of_mem _ hn)
  rw [r.payload_old old free, if_pos ((r.mem_forsaken_iff hn).2 free)]

/-- What stands for a place has the kind of the node there. -/
theorem kind_seat (r : Rehung other d d₁ d' f g src dst m z) (hq : q ∈ z.flatten) :
    (d'.look q.2).kind = (other.look q.1.1).kind := by
  have place := r.place_mem hq
  cases r.stands hq with
  | kept keeps payload =>
    have kind := congrArg Node.kind payload
    exact kind.trans (r.setting.keeper_spec place keeps).2.1
  | added _ _ _ payload =>
    have kind := congrArg Node.kind payload
    exact kind

theorem formula_seat (r : Rehung other d d₁ d' f g src dst m z) (hq : q ∈ z.flatten) :
    (d'.look q.2).formula.isSome = (d'.look q.2).kind.isConditional := by
  have place := r.place_mem hq
  cases r.stands hq with
  | @kept a j n keeps payload =>
    have kind := congrArg Node.kind payload
    have formula := congrArg Node.formula payload
    have law := r.setting.still.formula .before n
      (List.mem_cons_of_mem _ (r.setting.keeper_spec place keeps).1)
    change (d'.payload n).formula.isSome = (d'.payload n).kind.isConditional
    rw [kind, formula]
    exact law
  | @added a j n _ _ _ payload =>
    have kind := congrArg Node.kind payload
    have formula := congrArg Node.formula payload
    have law := r.setting.target.formula .before a (List.mem_of_getElem? (mem_numbered.1 place).2)
    change (d'.payload n).formula.isSome = (d'.payload n).kind.isConditional
    rw [kind, formula]
    exact law

/-- What stands for a place is unchanged if it is of the first tree, and added if it is not. -/
theorem change_seat (r : Rehung other d d₁ d' f g src dst m z) (hq : q ∈ z.flatten) :
    q.2 < d'.size ∧ (d'.look q.2).change = if q.2 ∈ f.flatten then .unchanged else .added := by
  have place := r.place_mem hq
  cases r.stands hq with
  | @kept a j n keeps payload =>
    have change := congrArg Node.change payload
    have mem := (r.setting.keeper_spec place keeps).1
    have old := r.setting.still.lt_size (t := .before) (List.mem_cons_of_mem _ mem)
    rw [if_pos mem]
    exact ⟨Nat.lt_of_lt_of_le old r.size_le,
      change.trans (r.setting.still.unchanged n (List.mem_cons_of_mem _ mem))⟩
  | @added a j n _ new inStore payload =>
    have change := congrArg Node.change payload
    have notOld : n ∉ f.flatten := fun mem => Nat.not_lt.2 new
      (r.setting.still.lt_size (t := .before) (List.mem_cons_of_mem _ mem))
    rw [if_neg notOld]
    exact ⟨inStore, change⟩

/-- A node of the first tree stays unchanged exactly if it takes a place. -/
theorem change_old (r : Rehung other d d₁ d' f g src dst m z) (hn : n ∈ f.flatten) :
    (d'.look n).change = if n ∈ (seats z).flatten then .unchanged else .removed := by
  split
  · next taken =>
    obtain ⟨q, hq, rfl⟩ := mem_seats.1 taken
    rw [(r.change_seat hq).2, if_pos hn]
  · next free =>
    rw [← change_payload, r.payload_gone hn free]
    rfl

/-- A node of the first tree is kept, with the lines of its counterpart, or removed. -/
theorem payload_first (r : Rehung other d d₁ d' f g src dst m z) (hn : n ∈ f.flatten) :
    (∃ y, d'.payload n = reused y (d.payload n)) ∨ d'.payload n = asRemoved (d.payload n) := by
  by_cases taken : n ∈ (seats z).flatten
  · obtain ⟨q, hq, rfl⟩ := mem_seats.1 taken
    cases r.stands hq with
    | kept _ payload => exact .inl ⟨_, payload⟩
    | added _ new _ _ =>
      have old := r.setting.still.lt_size (t := .before) (List.mem_cons_of_mem _ hn)
      exact absurd old (Nat.not_lt.2 new)
  · exact .inr (r.payload_gone hn taken)

theorem kind_first (r : Rehung other d d₁ d' f g src dst m z) (hn : n ∈ f.flatten) :
    (d'.look n).kind = (d.look n).kind := by
  obtain ⟨y, payload⟩ | payload := r.payload_first hn
  · have kind := congrArg Node.kind payload
    exact kind
  · have kind := congrArg Node.kind payload
    exact kind

theorem formula_first (r : Rehung other d d₁ d' f g src dst m z) (hn : n ∈ f.flatten) :
    (d'.look n).formula = (d.look n).formula := by
  obtain ⟨y, payload⟩ | payload := r.payload_first hn
  · have formula := congrArg Node.formula payload
    exact formula
  · have formula := congrArg Node.formula payload
    exact formula

theorem sameBefore (r : Rehung other d d₁ d' f g src dst m z) : d.SameBefore d' := by
  refine (r.prunes.before.trans ⟨fun n => ?_, fun n => ?_⟩).trans r.takes.before
  · rw [below_unlinkAll, if_neg fun e => nomatch e.1]
  · rw [above_unlinkAll, if_neg fun e => nomatch e.1]

theorem lives_root (r : Rehung other d d₁ d' f g src dst m z) (t : Time) :
    d'.lives t root = true :=
  lives_congr (fun old => Nat.lt_of_lt_of_le old r.size_le) r.payload_root
    (r.setting.still.present List.mem_cons_self t)

/-- A node of either tree is there at a time exactly if it is in the tree at that time. -/
theorem lives_iff (r : Rehung other d d₁ d' f g src dst m z) {u t : Time}
    (hn : n ∈ ((⟨f, seats z⟩ : Sides (Forest Handle)).get u).flatten) :
    d'.lives t n = true ↔ n ∈ ((⟨f, seats z⟩ : Sides (Forest Handle)).get t).flatten := by
  by_cases taken : n ∈ (seats z).flatten
  · obtain ⟨q, hq, rfl⟩ := mem_seats.1 taken
    obtain ⟨inStore, change⟩ := r.change_seat hq
    rw [lives_look inStore, Node.existsAt, change]
    by_cases first : q.2 ∈ f.flatten
    · rw [if_pos first]
      cases t
      · exact iff_of_true rfl first
      · exact iff_of_true rfl taken
    · rw [if_neg first]
      cases t
      · exact iff_of_false Bool.false_ne_true first
      · exact iff_of_true rfl taken
  · have first : n ∈ f.flatten := by
      cases u
      · exact hn
      · exact absurd hn taken
    have old := r.setting.still.lt_size (t := .before) (List.mem_cons_of_mem _ first)
    rw [lives_look (Nat.lt_of_lt_of_le old r.size_le), Node.existsAt, r.change_old first,
      if_neg taken]
    cases t
    · exact iff_of_true rfl first
    · exact iff_of_false Bool.false_ne_true taken

/-- Nothing hangs below a removed node any more: what hung there was taken over or removed too. -/
theorem bare_of_gone (r : Rehung other d d₁ d' f g src dst m z) (hn : n ∈ f.flatten)
    (free : n ∉ (seats z).flatten) : d'.below .after n = [] := by
  rw [List.eq_nil_iff_forall_not_mem]
  intro c hc
  have up := r.takes.regular.above_of_mem hc
  have notTop : n ≠ root := fun top => (r.setting.still.tree .before).root_not_mem (top ▸ hn)
  have loose : c ∉ (seats z).flatten := by
    intro taken
    have settled := (r.takes.apart c n up).2 (List.mem_append_left _ taken)
    obtain settled | settled := List.mem_append.1 settled
    · exact free settled
    · exact notTop (List.mem_singleton.1 settled)
  have left := r.takes.left c n loose up
  rw [above_unlinkAll] at left
  split at left
  · cases left
  · rw [r.prunes.above] at left
    split at left
    · cases left
    · next spared =>
      have child := r.setting.still.mem_of_above left
      have mem := (r.setting.still.tree .after).spans.mem_of_mem_below hn child
      exact spared ((r.mem_forsaken_iff mem).2 loose)

/-- What has children at a time is there at that time. -/
theorem lives_of_child (r : Rehung other d d₁ d' f g src dst m z) {u t : Time} {c : Handle}
    (hn : n ∈ ((⟨f, seats z⟩ : Sides (Forest Handle)).get u).flatten) (hc : c ∈ d'.below t n) :
    d'.lives t n = true := by
  rw [r.lives_iff hn]
  cases t with
  | before =>
    rw [r.sameBefore.below] at hc
    cases u with
    | before => exact hn
    | after =>
      obtain ⟨q, hq, rfl⟩ := mem_seats.1 hn
      have place := r.place_mem hq
      cases r.stands hq with
      | kept keeps _ => exact (r.setting.keeper_spec place keeps).1
      | added _ new _ _ => exact absurd (lt_size_of_mem_below hc) (Nat.not_lt.2 new)
  | after =>
    cases u with
    | after => exact hn
    | before =>
      by_contra free
      rw [r.bare_of_gone hn free] at hc
      cases hc

theorem kinds_seats (r : Rehung other d d₁ d' f g src dst m z) :
    (seats z).map (fun n => (d'.look n).kind) = g.map fun n => (other.look n).kind := by
  have same : g = (z.map (·.1)).map (·.1) := by
    rw [r.places, Forest.map_fst_numbered]
  rw [same, seats, Forest.map_map, Forest.map_map, Forest.map_map]
  exact Forest.map_congr fun q hq => r.kind_seat hq

/-- Nothing is above the root. -/
theorem above_root (r : Rehung other d d₁ d' f g src dst m z) (t : Time) : d'.above t root = none := by
  cases t with
  | before => rw [r.sameBefore.above, r.setting.still.free]
  | after =>
    cases up : d'.above .after root with
    | none => rfl
    | some p =>
      have left := r.takes.left root p (fun taken => r.not_root taken rfl) up
      rw [above_unlinkAll] at left
      split at left
      · cases left
      · rw [r.prunes.above, if_neg r.setting.root_not_forsaken, r.setting.still.free] at left
        cases left

theorem below_root (r : Rehung other d d₁ d' f g src dst m z) (t : Time) :
    d'.below t root = ((⟨f, seats z⟩ : Sides (Forest Handle)).get t).roots := by
  cases t with
  | before =>
    rw [r.sameBefore.below]
    exact (r.setting.still.tree .before).below
  | after =>
    rw [r.hangs.parent, below_unlinkAll, if_pos ⟨rfl, rfl⟩]
    rfl

theorem spans (r : Rehung other d d₁ d' f g src dst m z) (t : Time) :
    d'.Spans t ((⟨f, seats z⟩ : Sides (Forest Handle)).get t) := by
  have first := (r.setting.still.tree .before).spans
  cases t with
  | before =>
    exact first.congr fun n hn =>
      ⟨Nat.lt_of_lt_of_le (first.lt_size hn) r.size_le, r.sameBefore.below n⟩
  | after => exact r.hangs.spans

theorem ranked (r : Rehung other d d₁ d' f g src dst m z) (t : Time) :
    (((⟨f, seats z⟩ : Sides (Forest Handle)).get t).map fun n => (d'.look n).kind).Ranked .root := by
  cases t with
  | before =>
    have same : f.map (fun n => (d'.look n).kind) = f.map fun n => (d.look n).kind :=
      Forest.map_congr fun n hn => r.kind_first hn
    rw [show (⟨f, seats z⟩ : Sides (Forest Handle)).get .before = f from rfl, same]
    exact r.setting.still.ranked .before
  | after =>
    rw [show (⟨f, seats z⟩ : Sides (Forest Handle)).get .after = seats z from rfl, r.kinds_seats]
    exact r.setting.target.ranked .before

/-- The rebuilt diff has a tree at each time, in which exactly what is there at that time hangs. -/
theorem twofold (r : Rehung other d d₁ d' f g src dst m z) : d'.Twofold ⟨f, seats z⟩ := by
  have still := r.setting.still
  refine .of_spans r.takes.regular r.above_root r.below_root r.spans (fun u t n hn there => ?_)
    (fun u t n c hn hc => ?_) (fun t n hn => ?_) r.ranked fun t n hn => ?_
  · obtain rfl | hn := List.mem_cons.1 hn
    · exact List.mem_cons_self
    · exact List.mem_cons_of_mem _ ((r.lives_iff hn).1 there)
  · obtain rfl | hn := List.mem_cons.1 hn
    · exact r.lives_root t
    · exact r.lives_of_child hn hc
  · cases t with
    | before =>
      rw [r.kind_first hn]
      exact still.kind .before n hn
    | after =>
      obtain ⟨q, hq, rfl⟩ := mem_seats.1 hn
      rw [r.kind_seat hq]
      exact r.setting.target.kind .before _ (mem_of_numbered (r.place_mem hq))
  · obtain rfl | hn := List.mem_cons.1 hn
    · have kind := congrArg Node.kind r.payload_root
      have formula := congrArg Node.formula r.payload_root
      change (d'.payload root).formula.isSome = (d'.payload root).kind.isConditional
      rw [kind, formula]
      exact still.formula .before root List.mem_cons_self
    · cases t with
      | before =>
        rw [r.formula_first hn, r.kind_first hn]
        exact still.formula .before n (List.mem_cons_of_mem _ hn)
      | after =>
        obtain ⟨q, hq, rfl⟩ := mem_seats.1 hn
        exact r.formula_seat hq

end Rehung

end Construction

end Variation
