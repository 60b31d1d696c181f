import Variation.Proofs.Removing
import Variation.Proofs.Snapshots

/-!
# Building the edges after the edit anew

The nodes of the second tree are seated one after the other: a kept node is taken from where it hangs,
another one is added, and the node becomes the last child of the one above it and loses the children
that it had in the first tree. A node is settled once it is seated. Until then it may hang anywhere
after the edit, and what hangs below it is left over from the first tree. That this does no harm rests
on one invariant: no edge after the edit leads between a settled node and one that is not.
-/

namespace Variation

namespace Diff

variable {d d' d'' : Diff} {n m p c : Handle} {t : Time} {settled settled' : List Handle}

/-- No edge after the edit leads between settled nodes and others. -/
def Apart (d : Diff) (settled : List Handle) : Prop :=
  ∀ c p, d.above .after c = some p → (p ∈ settled ↔ c ∈ settled)

theorem Apart.congr (h : d.Apart settled) (same : ∀ m, m ∈ settled ↔ m ∈ settled') :
    d.Apart settled' := by
  intro c p up
  rw [← same, ← same]
  exact h c p up

/-- What hangs below a settled node is settled. -/
theorem Apart.not_mem_below (h : d.Apart settled) (hd : d.Symmetric) (hm : m ∈ settled)
    (hn : n ∉ settled) : n ∉ d.below .after m := fun child =>
  hn ((h n m (hd.above_of_mem child)).1 hm)

/-! ## Seating a node -/

/-- A diff whose only new edges can be those of a node that waits to be seated. -/
structure Offers (d d' : Diff) (settled : List Handle) (n : Handle) : Prop where
  regular : d'.Regular
  size : d.size ≤ d'.size
  before : d.SameBefore d'
  below : ∀ m ∈ settled, d'.below .after m = d.below .after m
  above : ∀ m, d'.above .after m = if m = n then none else d.above .after m
  payload : ∀ m, m < d.size → m ≠ n → d'.payload m = d.payload m
  lives : d'.lives .after n = true

/-- Links a node behind the other children of another one after the edit, without its own children. -/
def seated (d : Diff) (p n : Handle) : Diff := (d.linkLast p n .after).unlinkAll n .after

theorem size_seated : (d.seated p n).size = d.size := size_unlinkAll.trans size_linkLast

theorem payload_seated : (d.seated p n).payload m = d.payload m :=
  payload_unlinkAll.trans payload_link

theorem below_seated (hp : p < d.size) : (d.seated p n).below .after m =
    if m = n then [] else if m = p then d.below .after m ++ [n] else d.below .after m := by
  rw [seated, below_unlinkAll, below_linkLast hp]
  simp only [true_and]

theorem above_seated (hp : p < d.size) (hn : n < d.size) (other : p ≠ n) :
    (d.seated p n).above .after m =
      if m ∈ d.below .after n then none else if m = n then some p else d.above .after m := by
  have own : (d.linkLast p n .after).below .after n = d.below .after n := by
    rw [below_linkLast hp, if_neg fun e => other e.2.symm]
  rw [seated, above_unlinkAll, own, above_linkLast hn]
  simp only [true_and]

theorem sameBefore_seated (hp : p < d.size) (hn : n < d.size) :
    d.SameBefore (d.seated p n) := by
  refine ⟨fun m => ?_, fun m => ?_⟩
  · rw [seated, below_unlinkAll, if_neg fun e => (nomatch e.1), below_linkLast hp,
      if_neg fun e => (nomatch e.1)]
  · rw [seated, above_unlinkAll, if_neg fun e => (nomatch e.1), above_linkLast hn,
      if_neg fun e => (nomatch e.1)]

theorem Regular.seated (hd : d.Regular) (hp : p < d.size) (there : d.lives .after n = true)
    (free : d.above .after n = none) : (d.seated p n).Regular :=
  Regular.unlinkAll (hd.link hp there free (Nat.le_refl _)) n .after

/-- After a node was taken from its place it can be seated. -/
theorem offers_freed (hd : d.Regular) (apart : d.Apart settled) (hn : n ∉ settled)
    (there : d.lives .after n = true) : d.Offers (d.freed n) settled n := by
  refine ⟨hd.freed, Nat.le_of_eq size_freed.symm, sameBefore_freed hd.toSymmetric,
    fun m hm => ?_, fun m => ?_, fun m _ _ => payload_freed, ?_⟩
  · rw [below_freed hd.toSymmetric, if_pos rfl, List.filter_eq_self]
    intro c hc
    exact bne_iff_ne.2 fun e => apart.not_mem_below hd.toSymmetric hm hn (e ▸ hc)
  · rw [above_freed]
    simp only [true_and]
  · rw [lives_freed]
    exact there

/-- A node that waits may change in all but its edges and its times. -/
theorem Offers.update {f : Node → Node} (h : d.Offers d' settled n)
    (edges : ∀ x : Node, (f x).children = x.children ∧ (f x).parent = x.parent)
    (kind : ∀ x : Node, (f x).kind = x.kind) (change : ∀ x : Node, (f x).change = x.change) :
    d.Offers (d'.update n f) settled n := by
  have there (t) (x : Node) : (f x).existsAt t = x.existsAt t := by
    rw [Node.existsAt, Node.existsAt, change]
  have below (t) (m) : (d'.update n f).below t m = d'.below t m :=
    below_update_of fun x => by rw [(edges x).1]
  have above (t) (m) : (d'.update n f).above t m = d'.above t m :=
    above_update_of fun x => by rw [(edges x).2]
  have inStore := lt_size_of_lives h.lives
  refine ⟨h.regular.update kind (fun x => (edges x).1) (fun x => (edges x).2)
      fun x t _ _ here => by rw [there, here],
    by rw [size_update]; exact h.size, h.before.trans ⟨below .before, above .before⟩,
    fun m hm => (below ..).trans (h.below m hm), fun m => (above ..).trans (h.above m),
    fun m hm other => ?_, ?_⟩
  · rw [payload_update inStore, if_neg other.symm]
    exact h.payload m hm other
  · rw [lives_update_of fun x => there .after x]
    exact h.lives

/-- A new node that is there after the edit can be seated. -/
theorem offers_append {x : Node} (hd : d.Regular) (children : ∀ t, x.children.get t = [])
    (parent : ∀ t, x.parent.get t = none) (there : x.existsAt .after = true) :
    d.Offers (d.append x) settled d.size := by
  refine ⟨hd.append children parent, by rw [size_append]; exact Nat.le_succ _,
    ⟨fun m => below_append children, fun m => above_append parent⟩,
    fun m _ => below_append children, fun m => ?_, fun m hm _ => ?_, ?_⟩
  · rw [above_append parent]
    split
    · next here => rw [here, above_eq_none (Nat.lt_irrefl _)]
    · rfl
  · rw [payload_append, if_neg (Nat.ne_of_lt hm)]
  · rw [lives, getElem?_append, if_pos rfl]
    exact there

end Diff

namespace Construction

open Diff
open Matching (Snapshot Entry)

/-! ## What the nodes say -/

/-- A kept node has the lines of its counterpart after the edit. -/
def reused (y x : Node) : Node :=
  { x with start := x.start.set y.start.after .after, stop := x.stop.set y.stop.after .after }

/-- The node that is added for a node of the second tree. -/
def addition (y : Node) : Node where
  change := .added
  kind := y.kind
  start := addedPosition y.start.after
  stop := addedPosition y.stop.after
  formula := y.formula
  label := y.label
  closing := (Sides.both none).set .after
    (y.closing.after.map fun c => ⟨.added, c.line.restrict .added, c.label⟩)

/-- A node stands for a place of the second tree: the one that is kept there, or an added one. -/
inductive Stands (after d d' : Diff) (keeper : Nat → Option Handle) :
    (Handle × Nat) × Handle → Prop
  | kept {a : Handle} {j : Nat} {n : Handle} (keeps : keeper j = some n)
      (payload : d'.payload n = reused (after.look a) (d.payload n)) :
      Stands after d d' keeper ((a, j), n)
  | added {a : Handle} {j : Nat} {n : Handle} (free : keeper j = none) (new : d.size ≤ n)
      (inStore : n < d'.size) (payload : d'.payload n = addition (after.look a)) :
      Stands after d d' keeper ((a, j), n)

/-- The nodes that are kept for places of the second tree. -/
def keepers (keeper : Nat → Option Handle) (g : Forest (Handle × Nat)) : List Handle :=
  g.flatten.filterMap fun a => keeper a.2

/-- The nodes that stand for places. -/
def seats (z : Forest ((Handle × Nat) × Handle)) : Forest Handle := z.map (·.2)

/-- The places below a settled node can be taken: no edge after the edit parts the settled nodes from
the others, and no node that is kept for a place is settled yet. -/
structure Ready (keeper : Nat → Option Handle) (d : Diff) (settled : List Handle) (p : Handle)
    (g : Forest (Handle × Nat)) : Prop where
  regular : d.Regular
  apart : d.Apart settled
  parent : p ∈ settled
  inStore : ∀ m ∈ settled, m < d.size
  once : (keepers keeper g).Nodup
  waits : ∀ n ∈ keepers keeper g, n ∉ settled
  lives : ∀ n ∈ keepers keeper g, d.lives .after n = true

/-- Nodes were found for places of the second tree, and nothing but edges of these nodes is new. -/
structure Takes (after : Diff) (keeper : Nat → Option Handle) (d d' : Diff) (settled : List Handle)
    (z : Forest ((Handle × Nat) × Handle)) : Prop where
  regular : d'.Regular
  size : d.size ≤ d'.size
  before : d.SameBefore d'
  apart : d'.Apart ((seats z).flatten ++ settled)
  left : ∀ m q, m ∉ (seats z).flatten → d'.above .after m = some q → d.above .after m = some q
  payload : ∀ m, m < d.size → m ∉ (seats z).flatten → d'.payload m = d.payload m
  stands : ∀ q ∈ z.flatten, Stands after d d' keeper q

/-- Nodes were hung below a settled node in the shape of the places that they stand for. -/
structure Hangs (d d' : Diff) (settled : List Handle) (p : Handle)
    (z : Forest ((Handle × Nat) × Handle)) : Prop where
  parent : d'.below .after p = d.below .after p ++ (seats z).roots
  below : ∀ m ∈ settled, m ≠ p → d'.below .after m = d.below .after m
  spans : d'.Spans .after (seats z)

section Seats

variable {after d d' d'' : Diff} {keeper : Nat → Option Handle} {settled : List Handle}
  {n p p' : Handle} {g g' : Forest (Handle × Nat)} {y z : Forest ((Handle × Nat) × Handle)}
  {q : (Handle × Nat) × Handle}

theorem keepers_append : keepers keeper (g ++ g') = keepers keeper g ++ keepers keeper g' := by
  rw [keepers, Forest.flatten_append, List.filterMap_append]
  rfl

theorem mem_keepers (hq : q ∈ z.flatten) (keeps : keeper q.1.2 = some n) :
    n ∈ keepers keeper (z.map (·.1)) := by
  exact List.mem_filterMap.2 ⟨q.1, Forest.mem_flatten_map_of_mem _ hq, keeps⟩

theorem mem_seats : n ∈ (seats z).flatten ↔ ∃ q ∈ z.flatten, q.2 = n :=
  Forest.mem_flatten_map

theorem seats_append : seats (y ++ z) = seats y ++ seats z := Forest.map_append ..

/-- A node that takes a place was not settled. -/
theorem Takes.not_settled (h : Takes after keeper d d' settled z)
    (ready : Ready keeper d settled p (z.map (·.1))) (hn : n ∈ (seats z).flatten) :
    n ∉ settled := by
  obtain ⟨q, hq, rfl⟩ := mem_seats.1 hn
  cases h.stands q hq with
  | kept keeps _ => exact ready.waits _ (mem_keepers hq keeps)
  | added _ new _ _ => exact fun old => absurd (ready.inStore _ old) (Nat.not_lt.2 new)

/-- A node that takes a place is in the store. -/
theorem Takes.lt_size (h : Takes after keeper d d' settled z)
    (ready : Ready keeper d settled p (z.map (·.1))) (hn : n ∈ (seats z).flatten) :
    n < d'.size := by
  obtain ⟨q, hq, rfl⟩ := mem_seats.1 hn
  cases h.stands q hq with
  | kept keeps _ =>
    exact Nat.lt_of_lt_of_le (lt_size_of_lives (ready.lives _ (mem_keepers hq keeps))) h.size
  | added _ _ inStore _ => exact inStore

/-- What stands for a place still does so if it does not change any more. -/
theorem Stands.later (h : Stands after d d' keeper q) (size : d'.size ≤ d''.size)
    (same : d''.payload q.2 = d'.payload q.2) : Stands after d d'' keeper q := by
  cases h with
  | kept keeps payload => exact .kept keeps (same.trans payload)
  | added free new inStore payload =>
    exact .added free new (Nat.lt_of_lt_of_le inStore size) (same.trans payload)

/-- A node that stands for a place was already kept for it when it had not changed yet. -/
theorem Stands.earlier (h : Stands after d' d'' keeper q) (size : d.size ≤ d'.size)
    (same : ∀ n, keeper q.1.2 = some n → d'.payload n = d.payload n) :
    Stands after d d'' keeper q := by
  cases h with
  | kept keeps payload =>
    rw [same _ keeps] at payload
    exact .kept keeps payload
  | added free new inStore payload => exact .added free (Nat.le_trans size new) inStore payload

/-- Some of the places that can be taken can be taken. -/
theorem Ready.part (h : Ready keeper d settled p g)
    (sub : (keepers keeper g').Sublist (keepers keeper g)) : Ready keeper d settled p g' :=
  ⟨h.regular, h.apart, h.parent, h.inStore, h.once.sublist sub, fun n hn => h.waits n (sub.mem hn),
    fun n hn => h.lives n (sub.mem hn)⟩

/-- Places behind those that were taken can be taken then, below whatever is settled. -/
theorem Ready.next (h : Ready keeper d settled p (z.map (·.1) ++ g))
    (takes : Takes after keeper d d' settled z) (hp : p' ∈ (seats z).flatten ++ settled) :
    Ready keeper d' ((seats z).flatten ++ settled) p' g := by
  have once := h.once
  rw [keepers_append] at once
  obtain ⟨-, once, different⟩ := List.nodup_append.1 once
  have here : Ready keeper d settled p (z.map (·.1)) :=
    h.part (keepers_append ▸ List.sublist_append_left ..)
  have there : Ready keeper d settled p g :=
    h.part (keepers_append ▸ List.sublist_append_right ..)
  -- a node that is kept for a place to come has not taken another one
  have waits (n) (hn : n ∈ keepers keeper g) : n ∉ (seats z).flatten := by
    intro taken
    obtain ⟨q, hq, rfl⟩ := mem_seats.1 taken
    cases takes.stands q hq with
    | kept keeps _ => exact different _ (mem_keepers hq keeps) _ hn rfl
    | added _ new _ _ => exact absurd (lt_size_of_lives (there.lives _ hn)) (Nat.not_lt.2 new)
  refine ⟨takes.regular, takes.apart, hp, fun m hm => ?_, once, fun n hn => ?_, fun n hn => ?_⟩
  · obtain hm | hm := List.mem_append.1 hm
    · exact takes.lt_size here hm
    · exact Nat.lt_of_lt_of_le (h.inStore m hm) takes.size
  · rw [List.mem_append, not_or]
    exact ⟨waits n hn, there.waits n hn⟩
  · have old := lt_size_of_lives (there.lives n hn)
    exact lives_congr (fun _ => Nat.lt_of_lt_of_le old takes.size)
      (takes.payload n old (waits n hn)) (there.lives n hn)

/-- Taking places and then others is taking them all. -/
theorem Takes.trans (ready : Ready keeper d settled p (y.map (·.1) ++ z.map (·.1)))
    (hy : Takes after keeper d d' settled y) (hp : p' ∈ (seats y).flatten ++ settled)
    (hz : Takes after keeper d' d'' ((seats y).flatten ++ settled) z) :
    Takes after keeper d d'' settled (y ++ z) := by
  have behind := ready.next hy hp
  have here : Ready keeper d settled p (y.map (·.1)) :=
    ready.part (keepers_append ▸ List.sublist_append_left ..)
  have all (m) : m ∈ (seats (y ++ z)).flatten ↔ m ∈ (seats y).flatten ∨ m ∈ (seats z).flatten := by
    rw [seats_append, Forest.flatten_append, List.mem_append]
  have split (m) (hm : m ∉ (seats (y ++ z)).flatten) :
      m ∉ (seats y).flatten ∧ m ∉ (seats z).flatten := by
    rwa [all, not_or] at hm
  refine ⟨hz.regular, Nat.le_trans hy.size hz.size, hy.before.trans hz.before,
    hz.apart.congr fun m => ?_, fun m q hm up => ?_, fun m old hm => ?_, fun q hq => ?_⟩
  · simp only [List.mem_append, all]
    tauto
  · obtain ⟨first, second⟩ := split m hm
    exact hy.left m q first (hz.left m q second up)
  · obtain ⟨first, second⟩ := split m hm
    exact (hz.payload m (Nat.lt_of_lt_of_le old hy.size) second).trans (hy.payload m old first)
  · rw [Forest.flatten_append, List.mem_append] at hq
    obtain hq | hq := hq
    · have taken : q.2 ∈ (seats y).flatten := mem_seats.2 ⟨q, hq, rfl⟩
      -- what has its place already does not take another one
      have stays : q.2 ∉ (seats z).flatten := fun again =>
        hz.not_settled behind again (List.mem_append_left _ taken)
      exact (hy.stands q hq).later hz.size (hz.payload q.2 (hy.lt_size here taken) stays)
    · refine (hz.stands q hq).earlier hy.size fun n keeps => ?_
      have waits := behind.waits n (mem_keepers hq keeps)
      rw [List.mem_append, not_or] at waits
      refine hy.payload n ?_ waits.1
      refine lt_size_of_lives (ready.lives n ?_)
      rw [keepers_append]
      exact List.mem_append_right _ (mem_keepers hq keeps)

/-- Nodes are hung behind others. -/
theorem Hangs.behind (ready : Ready keeper d settled p (y.map (·.1) ++ z.map (·.1)))
    (takes : Takes after keeper d d' settled y) (hy : Hangs d d' settled p y)
    (next : Takes after keeper d' d'' ((seats y).flatten ++ settled) z)
    (hz : Hangs d' d'' ((seats y).flatten ++ settled) p z) :
    Hangs d d'' settled p (y ++ z) := by
  have here : Ready keeper d settled p (y.map (·.1)) :=
    ready.part (keepers_append ▸ List.sublist_append_left ..)
  refine ⟨?_, fun m hm other => ?_, ?_⟩
  · rw [hz.parent, hy.parent, seats_append, Forest.roots_append, List.append_assoc]
  · rw [hz.below m (List.mem_append_right _ hm) other, hy.below m hm other]
  · rw [seats_append, spans_append]
    refine ⟨hy.spans.congr fun m hm => ?_, hz.spans⟩
    have other : m ≠ p := fun e => takes.not_settled here hm (e ▸ ready.parent)
    exact ⟨Nat.lt_of_lt_of_le (takes.lt_size here hm) next.size,
      hz.below m (List.mem_append_left _ hm) other⟩

/-- Nodes are hung below one that was hung itself. -/
theorem Hangs.nest
    (ready : Ready keeper d settled p ((Forest.tree q .nil).map (·.1) ++ z.map (·.1)))
    (takes : Takes after keeper d d' settled (.tree q .nil)) (hq : Hangs d d' settled p (.tree q .nil))
    (next : Takes after keeper d' d'' (q.2 :: settled) z) (hz : Hangs d' d'' (q.2 :: settled) q.2 z) :
    Hangs d d'' settled p (.tree q z) := by
  have here : Ready keeper d settled p ((Forest.tree q .nil).map (·.1)) :=
    ready.part (keepers_append ▸ List.sublist_append_left ..)
  have new : q.2 ∉ settled := takes.not_settled here List.mem_cons_self
  have top : p ≠ q.2 := fun e => new (e ▸ ready.parent)
  obtain ⟨inStore, bare, -, -⟩ := hq.spans
  refine ⟨?_, fun m hm other => ?_, Nat.lt_of_lt_of_le inStore next.size, ?_, hz.spans, trivial⟩
  · rw [hz.below p (List.mem_cons_of_mem _ ready.parent) top]
    exact hq.parent
  · rw [hz.below m (List.mem_cons_of_mem _ hm) fun e => new (e ▸ hm), hq.below m hm other]
  · rw [hz.parent, bare]
    rfl

/-- Which places were taken does not depend on how they hang together. -/
theorem Takes.congr (h : Takes after keeper d d' settled y) (same : y.flatten = z.flatten) :
    Takes after keeper d d' settled z := by
  have names : (seats y).flatten = (seats z).flatten := by
    rw [seats, seats, Forest.flatten_map, Forest.flatten_map, same]
  refine ⟨h.regular, h.size, h.before, ?_, ?_, ?_, ?_⟩
  · rw [← names]
    exact h.apart
  · rw [← names]
    exact h.left
  · rw [← names]
    exact h.payload
  · rw [← same]
    exact h.stands

/-- Seating a node that waits takes one place. -/
theorem takes_seated {a : Handle × Nat} (ready : Ready keeper d settled p g)
    (offers : d.Offers d' settled n) (new : n ∉ settled) (stands : Stands after d d' keeper (a, n)) :
    Takes after keeper d (d'.seated p n) settled (.tree (a, n) .nil) ∧
      Hangs d (d'.seated p n) settled p (.tree (a, n) .nil) := by
  have other : p ≠ n := fun e => new (e ▸ ready.parent)
  have hp : p < d'.size := Nat.lt_of_lt_of_le (ready.inStore p ready.parent) offers.size
  have hn : n < d'.size := lt_size_of_lives offers.lives
  have free : d'.above .after n = none := by rw [offers.above, if_pos rfl]
  have only (m) : m ∈ (seats (.tree (a, n) .nil)).flatten ↔ m = n := List.mem_singleton
  refine ⟨⟨offers.regular.seated hp offers.lives free, ?_,
    offers.before.trans (sameBefore_seated hp hn), fun c q up => ?_, fun m q hm up => ?_,
    fun m old hm => ?_, fun q hq => ?_⟩, ⟨?_, fun m hm notTop => ?_, ?_, ?_, trivial, trivial⟩⟩
  · rw [size_seated]
    exact offers.size
  · rw [above_seated hp hn other] at up
    split at up
    · cases up
    · next left =>
      simp only [List.mem_append, only]
      split at up
      · next self =>
        obtain rfl := Option.some.inj up
        simp [self, ready.parent]
      · next notSelf =>
        -- what hung below the node is loose now, so this edge is an old one
        have notBelow : q ≠ n := by
          rintro rfl
          exact left (offers.regular.mem_of_above up)
        rw [offers.above, if_neg notSelf] at up
        simp [notSelf, notBelow, ready.apart c q up]
  · rw [only] at hm
    rw [above_seated hp hn other, if_neg hm, offers.above, if_neg hm] at up
    split at up
    · cases up
    · exact up
  · rw [only] at hm
    rw [payload_seated, offers.payload m old hm]
  · obtain rfl := List.mem_singleton.1 hq
    exact stands.later (Nat.le_of_eq size_seated.symm) payload_seated
  · rw [below_seated hp, if_neg other, if_pos rfl, offers.below p ready.parent]
    rfl
  · have notSelf : m ≠ n := fun e => new (e ▸ hm)
    rw [below_seated hp, if_neg notSelf, if_neg notTop, offers.below m hm]
  · rw [size_seated]
    exact hn
  · rw [below_seated hp, if_pos rfl]
    rfl

end Seats

/-! ## The run -/

/-- The node that is kept for a destination. -/
def keeper (src dst : Snapshot) (m : Matching) (j : Nat) : Option Handle :=
  (keptBy? src dst m j).map (·.origin)

/-- Puts the node that stands for a node of the second tree below another one. -/
def seat (after : Diff) (kept : Option Entry) (a p : Handle) : Edit Handle := do
  let y ← Edit.ask fun _ => after.node a
  let n ← match kept with
    | some s => do
      reuse s.origin y
      pure s.origin
    | none => addCopy y
  Edit.attachLast p n .after
  let _ ← Edit.detachChildren n .after
  return n

section Run

variable {after d d' : Diff} {src dst : Snapshot} {m : Matching} {settled : List Handle}
  {n p a : Handle} {j levels : Nat} {e : Entry} {g : Forest (Handle × Nat)}

theorem attachDestination_succ (he : dst.get? j = some e) :
    attachDestination after src dst m (levels + 1) p j =
      seat after (keptBy? src dst m j) e.origin p >>= fun n =>
        e.children.forM (attachDestination after src dst m levels n) := by
  cases kept : keptBy? src dst m j <;>
    simp only [attachDestination, he, seat, kept, bind_assoc, pure_bind]

theorem run_reuse {y : Node} (hd : d.Symmetric) (hn : n < d.size) :
    (reuse n y).run d = .ok () ((d.freed n).update n (reused y)) := by
  have size : n < (d.freed n).size := by
    rw [size_freed]
    exact hn
  simp only [reuse, EStateM.run_bind, run_dropAt_after hd hn]
  exact Edit.run_update (getElem?_look size) (reused y)

theorem update_append {x : Node} {f : Node → Node} :
    (d.append x).update d.size f = d.append (f x) := by
  unfold Diff.update Diff.append
  congr 1
  apply Array.ext_getElem?
  intro i
  rw [Array.getElem?_modify, Array.getElem?_push, Array.getElem?_push]
  by_cases here : i = d.nodes.size
  · simp [here, Diff.size]
  · simp [here, Diff.size, Ne.symm here]

theorem run_addCopy {y : Node} (kind : y.kind ≠ .root)
    (law : y.formula.isSome = y.kind.isConditional) :
    (addCopy y).run d = .ok d.size (d.append (addition y)) := by
  have allowed : ¬ (y.kind = .root ∨ y.formula.isSome ≠ y.kind.isConditional) := by
    rw [not_or, not_not]
    exact ⟨kind, law⟩
  let x : Node :=
    { change := .added, kind := y.kind, start := addedPosition y.start.after,
      stop := addedPosition y.stop.after, formula := y.formula, label := y.label }
  have added : (Edit.addNode .added y.kind (addedPosition y.start.after)
      (addedPosition y.stop.after) y.formula y.label).run d = .ok d.size (d.append x) := by
    rw [Edit.addNode, if_neg allowed]
    rfl
  have inStore : (d.append x).nodes[d.size]? = some x := by
    rw [getElem?_append, if_pos rfl]
  simp only [addCopy, EStateM.run_bind, added, Edit.run_update inStore, update_append]
  rfl

/-- A node that is offered can be put below a settled one, and then loses its children. -/
theorem run_seated {f : Forest (Handle × Nat)} {n : Handle} {d' : Diff}
    (ready : Ready (keeper src dst m) d settled p f) (offers : d.Offers d' settled n)
    (new : n ∉ settled) :
    (Edit.attachLast p n .after).run d' = .ok () (d'.linkLast p n .after) ∧
      (Edit.detachChildren n .after).run (d'.linkLast p n .after) =
        .ok (d'.below .after n) (d'.seated p n) := by
  have parent := ready.inStore p ready.parent
  have other : p ≠ n := fun e => new (e ▸ ready.parent)
  have hp : p < d'.size := Nat.lt_of_lt_of_le parent offers.size
  have hn : n < d'.size := lt_size_of_lives offers.lives
  have free : d'.above .after n = none := by rw [offers.above, if_pos rfl]
  refine ⟨Edit.run_attachLast_ok hp offers.lives free, ?_⟩
  have linked : (d'.linkLast p n .after).Regular :=
    offers.regular.link hp offers.lives free (Nat.le_refl _)
  rw [Edit.run_detachChildren linked.toSymmetric (by rw [size_linkLast]; exact hn),
    below_linkLast hp, if_neg fun e => other e.2.symm]
  rfl

/-- A node of the second tree is seated, whether one is kept for it or not. -/
theorem run_seat (ready : Ready (keeper src dst m) d settled p (.tree (a, j) .nil))
    (inStore : a < after.size) (kind : (after.look a).kind ≠ .root)
    (law : (after.look a).formula.isSome = (after.look a).kind.isConditional) :
    ∃ n d', (seat after (keptBy? src dst m j) a p).run d = .ok n d' ∧
      Takes after (keeper src dst m) d d' settled (.tree ((a, j), n) .nil) ∧
      Hangs d d' settled p (.tree ((a, j), n) .nil) := by
  have asked := Edit.run_ask_ok (d := d) (q := fun _ => after.node a) (node_look inStore)
  cases kept : keptBy? src dst m j with
  | some s =>
    have keeps : keeper src dst m j = some s.origin := by rw [keeper, kept]; rfl
    have mem : s.origin ∈ keepers (keeper src dst m) (.tree (a, j) .nil) :=
      List.mem_filterMap.2 ⟨(a, j), List.mem_cons_self, keeps⟩
    have new := ready.waits _ mem
    have there := ready.lives _ mem
    have old := lt_size_of_lives there
    have offers : d.Offers ((d.freed s.origin).update s.origin (reused (after.look a))) settled
        s.origin :=
      (offers_freed ready.regular ready.apart new there).update (fun _ => ⟨rfl, rfl⟩)
        (fun _ => rfl) fun _ => rfl
    have stands : Stands after d ((d.freed s.origin).update s.origin (reused (after.look a)))
        (keeper src dst m) ((a, j), s.origin) := by
      refine .kept keeps ?_
      rw [payload_update (by rw [size_freed]; exact old), if_pos rfl, ← payload_freed (n := s.origin)]
      rfl
    obtain ⟨linked, cleared⟩ := run_seated ready offers new
    refine ⟨s.origin, _, ?_, takes_seated ready offers new stands⟩
    simp only [seat, EStateM.run_bind, asked, run_reuse ready.regular.toSymmetric old,
      EStateM.run_pure, linked, cleared]
  | none =>
    have free : keeper src dst m j = none := by rw [keeper, kept]; rfl
    have new : d.size ∉ settled := fun old => Nat.lt_irrefl _ (ready.inStore _ old)
    have offers : d.Offers (d.append (addition (after.look a))) settled d.size :=
      offers_append ready.regular (fun t => by cases t <;> rfl) (fun t => by cases t <;> rfl) rfl
    have stands : Stands after d (d.append (addition (after.look a))) (keeper src dst m)
        ((a, j), d.size) := by
      refine .added free (Nat.le_refl _) (by rw [size_append]; exact Nat.lt_succ_self _) ?_
      rw [payload_append, if_pos rfl]
      rfl
    obtain ⟨linked, cleared⟩ := run_seated ready offers new
    refine ⟨d.size, _, ?_, takes_seated ready offers new stands⟩
    simp only [seat, EStateM.run_bind, asked, run_addCopy kind law, EStateM.run_pure, linked, cleared]

/-- All places below a settled node are taken. -/
theorem run_attachBelow (lists : Snapshot.Lists after dst g) (deep : g.flatten.length ≤ levels)
    (laws : ∀ a ∈ g.flatten, a.1 < after.size ∧ (after.look a.1).kind ≠ .root ∧
      (after.look a.1).formula.isSome = (after.look a.1).kind.isConditional)
    (ready : Ready (keeper src dst m) d settled p g) :
    ∃ d' z, z.map (·.1) = g ∧
      ((g.roots.map (·.2)).forM (attachDestination after src dst m levels p)).run d = .ok () d' ∧
      Takes after (keeper src dst m) d d' settled z ∧ Hangs d d' settled p z := by
  induction g generalizing d settled p levels with
  | nil =>
    refine ⟨d, .nil, rfl, rfl, ⟨ready.regular, Nat.le_refl _, .refl d, ready.apart, fun _ _ _ => id,
      fun _ _ _ => rfl, fun q hq => absurd hq List.not_mem_nil⟩, ⟨?_, fun _ _ _ => rfl, trivial⟩⟩
    exact (List.append_nil _).symm
  | cons a below rest ihb ihr =>
    obtain ⟨⟨parent, entry⟩, listsBelow, listsRest⟩ := lists
    simp only [Forest.flatten, List.length_cons, List.length_append] at deep
    simp only [Forest.flatten, List.forall_mem_cons, List.forall_mem_append] at laws
    obtain ⟨⟨inStore, kind, law⟩, lawsBelow, lawsRest⟩ := laws
    obtain ⟨levels, rfl⟩ : ∃ l, levels = l + 1 := ⟨levels - 1, by omega⟩
    have sub (f : Forest (Handle × Nat)) (hf : f.flatten.Sublist (Forest.cons a below rest).flatten) :
        Ready (keeper src dst m) d settled p f := ready.part (hf.filterMap _)
    obtain ⟨n, d₁, run₁, takes₁, hangs₁⟩ := run_seat (a := a.1) (j := a.2)
      (sub (.tree a .nil) (by simp [Forest.flatten])) inStore kind law
    have ready₁ : Ready (keeper src dst m) d₁ (n :: settled) n below :=
      Ready.next (sub (.tree a .nil ++ below) (by simp [Forest.flatten])) takes₁ List.mem_cons_self
    obtain ⟨d₂, y, rfl, run₂, takes₂, hangs₂⟩ :=
      @ihb d₁ (n :: settled) n levels listsBelow (by omega) lawsBelow ready₁
    have both : Ready (keeper src dst m) d settled p
        ((Forest.tree (a, n) .nil).map (·.1) ++ y.map (·.1)) :=
      sub (.tree a .nil ++ y.map (·.1)) (by simp [Forest.flatten])
    have takes : Takes after (keeper src dst m) d d₂ settled (.tree (a, n) y) :=
      (takes₁.trans both List.mem_cons_self takes₂).congr (by simp [Forest.flatten])
    have hangs : Hangs d d₂ settled p (.tree (a, n) y) := hangs₁.nest both takes₁ takes₂ hangs₂
    have all : Ready (keeper src dst m) d settled p ((Forest.tree (a, n) y).map (·.1) ++ rest) :=
      sub (.tree a (y.map (·.1)) ++ rest) (by simp [Forest.flatten])
    have ready₂ := all.next takes (List.mem_append_right _ ready.parent)
    obtain ⟨d₃, z, rfl, run₃, takes₃, hangs₃⟩ :=
      ihr listsRest (by omega : _ ≤ levels + 1) lawsRest ready₂
    refine ⟨d₃, .tree (a, n) y ++ z, by rw [Forest.map_append]; rfl, ?_,
      takes.trans all (List.mem_append_right _ ready.parent) takes₃,
      hangs.behind all takes takes₃ hangs₃⟩
    change EStateM.run (attachDestination after src dst m (levels + 1) p a.2 >>= fun _ =>
      ((z.map (·.1)).roots.map (·.2)).forM (attachDestination after src dst m (levels + 1) p)) d = _
    have entered : (attachDestination after src dst m (levels + 1) p a.2).run d = .ok () d₂ := by
      rw [attachDestination_succ entry, EStateM.run_bind]
      simp only [Snapshot.entryOf, run₁, run₂]
    simp only [EStateM.run_bind, entered, run₃]

end Run

end Construction

end Variation
