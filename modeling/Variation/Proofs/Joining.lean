import Variation.Proofs.History
import Variation.Proofs.Shape

/-!
# Joining two nodes

A removed node is joined with an added one of its kind: after the edit it stands in the place of the
added node, with the same children. Seen as a whole, the tree after the edit is the former one with
one node put for another, and the tree before the edit is the same.
-/

namespace Variation

open Edit

/-- The node with another closing line after the edit. -/
def Node.closedBy (x : Node) (closing : Option ClosingLine) : Node :=
  { x with closing := x.closing.set .after closing }

/-- The node as an unchanged one with another closing line after the edit. -/
def Node.shared (x : Node) (closing : Option ClosingLine) : Node :=
  { x with change := .unchanged, closing := x.closing.set .after closing }

theorem Node.detached_closedBy (x : Node) (closing : Option ClosingLine) :
    (x.closedBy closing).detached = x.detached.closedBy closing := rfl

theorem Node.detached_shared (x : Node) (closing : Option ClosingLine) :
    (x.shared closing).detached = x.detached.shared closing := rfl

/-- A node stands in for another one. -/
def standIn (a n m : Handle) : Handle := if m = a then n else m

section StandIn

variable {a n m : Handle} {cs : List Handle} {i : Nat}

theorem standIn_self : standIn a n a = n := if_pos rfl

theorem standIn_of_ne (h : m ≠ a) : standIn a n m = m := if_neg h

theorem standIn_inj {k : Handle} (hm : m ≠ n) (hk : k ≠ n) (h : standIn a n m = standIn a n k) :
    m = k := by
  unfold standIn at h
  split at h <;> split at h
  · next here here' => rw [here, here']
  · exact absurd h.symm hk
  · exact absurd h hm
  · exact h

theorem standIn_lt {k : Nat} (hn : n < k) (hm : m < k) : standIn a n m < k := by
  unfold standIn
  split
  · exact hn
  · exact hm

theorem map_standIn_of_not_mem (h : a ∉ cs) : cs.map (standIn a n) = cs := by
  refine (List.map_congr_left fun m hm => standIn_of_ne ?_).trans (List.map_id cs)
  rintro rfl
  exact h hm

/-- A node that stood in for another one leaves again. -/
theorem standIn_standIn (h : m ≠ a) : standIn a n (standIn n a m) = m := by
  by_cases here : m = n
  · rw [here, standIn_self, standIn_self]
  · rw [standIn_of_ne here, standIn_of_ne h]

/-- What is taken out of a list and replaced at its place. -/
theorem insertIdx_filter (once : cs.Nodup) (h : cs.idxOf? a = some i) :
    i ≤ (cs.filter (· != a)).length ∧
      (cs.filter (· != a)).insertIdx i n = cs.map (standIn a n) := by
  induction cs generalizing i with
  | nil => cases h
  | cons c cs ih =>
    obtain ⟨new, once⟩ := List.nodup_cons.1 once
    rw [List.idxOf?_cons] at h
    by_cases here : c = a
    · subst here
      rw [beq_self_eq_true, if_pos rfl] at h
      obtain rfl := Option.some.inj h
      have rest : cs.filter (· != c) = cs := by
        rw [List.filter_eq_self]
        intro m hm
        exact bne_iff_ne.2 fun e => new (e ▸ hm)
      have first : (c :: cs).filter (· != c) = cs := by
        rw [List.filter_cons_of_neg (by simp), rest]
      rw [first, List.map_cons, standIn_self, map_standIn_of_not_mem new]
      exact ⟨Nat.zero_le _, rfl⟩
    · rw [if_neg fun e => here (beq_iff_eq.1 e)] at h
      obtain ⟨j, hj, rfl⟩ := Option.map_eq_some_iff.1 h
      obtain ⟨le, image⟩ := ih once hj
      have first : (c :: cs).filter (· != a) = c :: cs.filter (· != a) :=
        List.filter_cons_of_pos (bne_iff_ne.2 here)
      rw [first, List.insertIdx_succ_cons, image, List.map_cons, standIn_of_ne here]
      exact ⟨Nat.succ_le_succ le, rfl⟩

end StandIn

namespace Diff

variable {d : Diff} {p c n m a : Handle} {cs : List Handle} {t u : Time} {f : Node → Node} {i : Nat}

theorem change_payload : (d.payload n).change = (d.look n).change := rfl

theorem closing_payload : (d.payload n).closing = (d.look n).closing := rfl

theorem lives_update (hn : n < d.size) :
    (d.update n f).lives t m = if n = m then (f (d.look m)).existsAt t else d.lives t m := by
  by_cases hm : m < d.size
  · have size : m < (d.update n f).size := by
      rw [size_update]
      exact hm
    rw [lives_look size, look_update hn, lives_look hm]
    split <;> rfl
  · have other : n ≠ m := fun e => hm (e ▸ hn)
    rw [if_neg other, lives_eq_false hm, lives_eq_false]
    rw [size_update]
    exact hm

/-! ## A node in the place of another one -/

/-- At a time a node has the place of another one below a parent, and the children of that one. -/
structure Replaces (d d' : Diff) (t : Time) (a n p : Handle) : Prop where
  parent : d.above t a = some p
  loop : p ≠ a
  above_new : d'.above t n = some p
  above_rest : ∀ m, m ≠ n → m ≠ a →
    d'.above t m = if m ∈ d.below t a then some n else d.above t m
  below_new : d'.below t n = d.below t a
  below_rest : ∀ m, m ≠ n → m ≠ a →
    d'.below t m = if m = p then (d.below t p).map (standIn a n) else d.below t m

namespace Replaces

variable {d' : Diff}

/-- The parents are the former ones, one node standing in for another. -/
theorem above (h : d.Replaces d' t a n p) (hd : d.Symmetric) (hm : m ≠ n) :
    d'.above t (standIn a n m) = (d.above t m).map (standIn a n) := by
  by_cases self : m = a
  · subst self
    rw [standIn_self, h.above_new, h.parent, Option.map_some, standIn_of_ne h.loop]
  · rw [standIn_of_ne self, h.above_rest m hm self]
    split
    · next child => rw [hd.above_of_mem child, Option.map_some, standIn_self]
    · next other =>
      cases hq : d.above t m with
      | none => rfl
      | some q =>
        have apart : q ≠ a := by
          rintro rfl
          exact other (hd.mem_of_above hq)
        rw [Option.map_some, standIn_of_ne apart]

/-- The children are the former ones, one node standing in for another. -/
theorem below (h : d.Replaces d' t a n p) (hd : d.Symmetric) (hm : m ≠ n) :
    d'.below t (standIn a n m) = (d.below t m).map (standIn a n) := by
  by_cases self : m = a
  · subst self
    have apart : m ∉ d.below t m := fun child =>
      h.loop (Option.some.inj (h.parent.symm.trans (hd.above_of_mem child)))
    rw [standIn_self, h.below_new, map_standIn_of_not_mem apart]
  · rw [standIn_of_ne self, h.below_rest m hm self]
    split
    · next parent => rw [parent]
    · next other =>
      rw [map_standIn_of_not_mem fun child => other ?_]
      exact Option.some.inj ((hd.above_of_mem child).symm.trans h.parent)

end Replaces

/-! ## Several children at once -/

/-- The diff with nodes linked behind the other children of a node. -/
def adopt (d : Diff) (p : Handle) (cs : List Handle) (t : Time) : Diff :=
  cs.foldl (fun d c => d.linkLast p c t) d

@[simp] theorem size_linkLast : (d.linkLast p c t).size = d.size := size_link

@[simp] theorem size_adopt : (d.adopt p cs t).size = d.size := by
  induction cs generalizing d with
  | nil => rfl
  | cons c cs ih => exact ih.trans size_linkLast

theorem source_adopt : (d.adopt p cs t).source = d.source := by
  induction cs generalizing d with
  | nil => rfl
  | cons c cs ih => exact ih.trans source_link

@[simp] theorem payload_adopt : (d.adopt p cs t).payload m = d.payload m := by
  induction cs generalizing d with
  | nil => rfl
  | cons c cs ih => exact ih.trans payload_link

@[simp] theorem lives_adopt : (d.adopt p cs t).lives u m = d.lives u m := by
  induction cs generalizing d with
  | nil => rfl
  | cons c cs ih => exact ih.trans lives_link

theorem below_adopt (hp : p < d.size) : (d.adopt p cs t).below u m =
    if u = t ∧ m = p then d.below u m ++ cs else d.below u m := by
  induction cs generalizing d with
  | nil => simp [adopt]
  | cons c cs ih =>
    have step : ((d.linkLast p c t).adopt p cs t).below u m =
        if u = t ∧ m = p then (d.linkLast p c t).below u m ++ cs
        else (d.linkLast p c t).below u m :=
      ih (by rw [size_linkLast]; exact hp)
    rw [below_linkLast hp] at step
    refine step.trans ?_
    split
    · rw [List.append_assoc]
      rfl
    · rfl

theorem above_adopt (hcs : ∀ c ∈ cs, c < d.size) : (d.adopt p cs t).above u m =
    if u = t ∧ m ∈ cs then some p else d.above u m := by
  induction cs generalizing d with
  | nil => simp [adopt]
  | cons c cs ih =>
    obtain ⟨hc, hcs⟩ := List.forall_mem_cons.1 hcs
    have step : ((d.linkLast p c t).adopt p cs t).above u m =
        if u = t ∧ m ∈ cs then some p else (d.linkLast p c t).above u m :=
      ih fun m hm => by rw [size_linkLast]; exact hcs m hm
    rw [above_linkLast hc] at step
    refine step.trans ?_
    by_cases hu : u = t
    · by_cases hm : m ∈ cs
      · rw [if_pos ⟨hu, hm⟩, if_pos ⟨hu, List.mem_cons_of_mem c hm⟩]
      · rw [if_neg fun h => hm h.2]
        simp only [List.mem_cons, hm, or_false]
    · rw [if_neg fun h => hu h.1, if_neg fun h => hu h.1, if_neg fun h => hu h.1]

end Diff

namespace Edit

open Diff

variable {d : Diff} {p : Handle} {cs : List Handle} {t : Time}

theorem run_attachAll (hp : p < d.size) (once : cs.Nodup)
    (lives : ∀ c ∈ cs, d.lives t c = true) (free : ∀ c ∈ cs, d.above t c = none) :
    (attachAll p cs t).run d = .ok () (d.adopt p cs t) := by
  induction cs generalizing d with
  | nil => rfl
  | cons c cs ih =>
    obtain ⟨new, once⟩ := List.nodup_cons.1 once
    obtain ⟨there, lives⟩ := List.forall_mem_cons.1 lives
    obtain ⟨out, free⟩ := List.forall_mem_cons.1 free
    change EStateM.run (attachLast p c t >>= fun _ => attachAll p cs t) d = _
    rw [EStateM.run_bind, run_attachLast_ok hp there out]
    refine ih ?_ once (fun m hm => ?_) fun m hm => ?_
    · rw [size_linkLast]
      exact hp
    · rw [linkLast, lives_link]
      exact lives m hm
    · have other : ¬ (t = t ∧ m = c) := fun h => new (h.2 ▸ hm)
      rw [above_linkLast (lt_size_of_lives there), if_neg other]
      exact free m hm

end Edit

namespace Diff

/-! ## The joined diff -/

/-- A removed node without children after the edit and an added node, with the place of the latter
below its parent. -/
structure Meets (d : Diff) (n a p : Handle) (i : Nat) : Prop extends Regular d where
  inStore : n < d.size
  removed : (d.look n).change = .removed
  added : (d.look a).change = .added
  leaf : d.below .after n = []
  parent : d.above .after a = some p
  place : (d.below .after p).idxOf? a = some i
  loop : p ≠ a

/-- The diff with an added node taken out. -/
def vacated (d : Diff) (a p : Handle) : Diff :=
  ((d.unlinkAll a .after).unlink p a .after).update a (·.closedBy none)

/-- The diff with a removed node put in the place of an added one. -/
def joined (d : Diff) (n a p : Handle) (i : Nat) : Diff :=
  (((d.vacated a p).update n (·.shared (d.look a).closing.after)).adopt n (d.below .after a)
    .after).link p n i .after

variable {d : Diff} {n a p m c : Handle} {i : Nat} {t : Time}

theorem size_vacated : (d.vacated a p).size = d.size := by
  rw [vacated, size_update, size_unlink, size_unlinkAll]

theorem lives_vacated : (d.vacated a p).lives t m = d.lives t m := by
  rw [vacated, lives_update_of (f := (·.closedBy none)) fun _ => rfl, lives_unlink, lives_unlinkAll]

theorem below_vacated (hp : p < d.size) (loop : p ≠ a) : (d.vacated a p).below t m =
    if t = .after ∧ m = a then [] else
    if t = .after ∧ m = p then (d.below .after p).filter (· != a) else d.below t m := by
  rw [vacated, below_update_of (f := (·.closedBy none)) fun _ => rfl,
    below_unlink (by rw [size_unlinkAll]; exact hp)]
  simp only [below_unlinkAll]
  by_cases here : t = .after ∧ m = p
  · obtain ⟨rfl, rfl⟩ := here
    simp [loop]
  · simp [here]

theorem above_vacated : (d.vacated a p).above t m =
    if t = .after ∧ (m = a ∨ m ∈ d.below .after a) then none else d.above t m := by
  rw [vacated, above_update_of (f := (·.closedBy none)) fun _ => rfl, above_unlink, above_unlinkAll]
  by_cases here : t = .after
  · by_cases self : m = a
    · simp [here, self]
    · simp [here, self]
  · simp [here]

theorem payload_vacated (ha : a < d.size) : (d.vacated a p).payload m =
    if a = m then (d.payload m).closedBy none else d.payload m := by
  have size : a < ((d.unlinkAll a .after).unlink p a .after).size := by
    rw [size_unlink, size_unlinkAll]
    exact ha
  rw [vacated, payload_update size, Node.detached_closedBy, ← payload, payload_unlink,
    payload_unlinkAll]

namespace Meets

theorem other (h : d.Meets n a p i) : n ≠ a := by
  rintro rfl
  have := h.removed
  rw [h.added] at this
  cases this

theorem lt_size (h : d.Meets n a p i) : a < d.size := lt_size_of_above h.parent

theorem parent_lt_size (h : d.Meets n a p i) : p < d.size := h.parent_lt h.parent

theorem mem (h : d.Meets n a p i) : a ∈ d.below .after p := h.mem_of_above h.parent

theorem parent_ne (h : d.Meets n a p i) : p ≠ n := by
  rintro rfl
  have := h.mem
  rw [h.leaf] at this
  cases this

theorem free (h : d.Meets n a p i) : d.above .after n = none := by
  cases hn : d.above .after n with
  | none => rfl
  | some q =>
    have there := h.lives .after n q hn
    rw [lives_look h.inStore, Node.existsAt, h.removed] at there
    cases there

theorem not_mem (h : d.Meets n a p i) : n ∉ d.below .after a := fun hn => by
  have := h.above_of_mem hn
  rw [h.free] at this
  cases this

theorem self_not_mem (h : d.Meets n a p i) : a ∉ d.below .after a := fun ha => by
  have := h.above_of_mem ha
  rw [h.parent] at this
  exact h.loop (Option.some.inj this)

/-- The children of an added node are there, and nothing holds them once it is taken out. -/
theorem children (h : d.Meets n a p i) (hc : c ∈ d.below .after a) :
    c < d.size ∧ c ≠ n ∧ c ≠ a ∧ d.lives .after c = true := by
  have up := h.above_of_mem hc
  exact ⟨lt_size_of_above up, fun e => h.not_mem (e ▸ hc), fun e => h.self_not_mem (e ▸ hc),
    h.lives .after c a up⟩

end Meets

/-! ### The stages of joining -/

/-- The added node is taken out, and the removed one is there at both times. -/
def unified (d : Diff) (n a p : Handle) : Diff :=
  (d.vacated a p).update n (·.shared (d.look a).closing.after)

/-- The children of the added node hang below the removed one. -/
def inherited (d : Diff) (n a p : Handle) : Diff :=
  (d.unified n a p).adopt n (d.below .after a) .after

theorem joined_eq : d.joined n a p i = (d.inherited n a p).link p n i .after := rfl

theorem size_unified : (d.unified n a p).size = d.size := by
  rw [unified, size_update, size_vacated]

theorem lives_unified (hn : n < d.size) :
    (d.unified n a p).lives t m = if n = m then true else d.lives t m := by
  rw [unified, lives_update (by rw [size_vacated]; exact hn), lives_vacated]
  rfl

theorem below_unified : (d.unified n a p).below t m = (d.vacated a p).below t m :=
  below_update_of (f := (·.shared (d.look a).closing.after)) fun _ => rfl

theorem above_unified : (d.unified n a p).above t m = (d.vacated a p).above t m :=
  above_update_of (f := (·.shared (d.look a).closing.after)) fun _ => rfl

theorem payload_unified (h : d.Meets n a p i) : (d.unified n a p).payload m =
    if n = m then (d.payload m).shared (d.look a).closing.after
    else if a = m then (d.payload m).closedBy none else d.payload m := by
  have size : n < (d.vacated a p).size := by
    rw [size_vacated]
    exact h.inStore
  rw [unified, payload_update size, Node.detached_shared, ← payload, payload_vacated h.lt_size]
  by_cases here : n = m
  · have apart : a ≠ m := fun e => h.other (here.trans e.symm)
    rw [if_pos here, if_pos here, if_neg apart]
  · rw [if_neg here, if_neg here]

theorem size_inherited : (d.inherited n a p).size = d.size := by
  rw [inherited, size_adopt, size_unified]

theorem lives_inherited (hn : n < d.size) :
    (d.inherited n a p).lives t m = if n = m then true else d.lives t m := by
  rw [inherited, lives_adopt, lives_unified hn]

theorem below_inherited (h : d.Meets n a p i) : (d.inherited n a p).below t m =
    if t = .after ∧ m = n then d.below .after a else (d.vacated a p).below t m := by
  rw [inherited, below_adopt (by rw [size_unified]; exact h.inStore), below_unified,
    below_vacated h.parent_lt_size h.loop]
  by_cases here : t = .after ∧ m = n
  · obtain ⟨rfl, rfl⟩ := here
    simp only [h.other, h.parent_ne.symm, h.leaf, and_false, if_false, List.nil_append]
  · rw [if_neg here, if_neg here]

theorem above_inherited (h : d.Meets n a p i) : (d.inherited n a p).above t m =
    if t = .after ∧ m ∈ d.below .after a then some n else (d.vacated a p).above t m := by
  rw [inherited, above_adopt fun c hc => by rw [size_unified]; exact (h.children hc).1, above_unified]

/-! ### What becomes of the diff -/

theorem size_joined : (d.joined n a p i).size = d.size := by
  rw [joined_eq, size_link, size_inherited]

theorem source_joined : (d.joined n a p i).source = d.source := by
  rw [joined, source_link, source_adopt, source_update, vacated, source_update, source_unlink,
    source_unlinkAll]

theorem payload_joined (h : d.Meets n a p i) : (d.joined n a p i).payload m =
    if n = m then (d.payload m).shared (d.look a).closing.after
    else if a = m then (d.payload m).closedBy none else d.payload m := by
  rw [joined_eq, payload_link, inherited, payload_adopt, payload_unified h]

theorem lives_joined (h : d.Meets n a p i) :
    (d.joined n a p i).lives t m = if n = m then true else d.lives t m := by
  rw [joined_eq, lives_link, lives_inherited h.inStore]

theorem below_joined (h : d.Meets n a p i) : (d.joined n a p i).below t m =
    if t = .after ∧ m = n then d.below .after a
    else if t = .after ∧ m = a then []
    else if t = .after ∧ m = p then ((d.below .after p).filter (· != a)).insertIdx i n
    else d.below t m := by
  rw [joined_eq, below_link (by rw [size_inherited]; exact h.parent_lt_size)]
  simp only [below_inherited h, below_vacated h.parent_lt_size h.loop]
  by_cases after : t = .after
  · subst after
    simp only [true_and, h.loop, h.parent_ne, if_false, if_true]
    by_cases first : m = p
    · subst first
      simp only [h.loop, h.parent_ne, if_false, if_true]
    · simp only [first, if_false]
  · simp [after]

theorem above_joined (h : d.Meets n a p i) : (d.joined n a p i).above t m =
    if t = .after ∧ m = n then some p
    else if t = .after ∧ m = a then none
    else if t = .after ∧ m ∈ d.below .after a then some n
    else d.above t m := by
  rw [joined_eq, above_link (by rw [size_inherited]; exact h.inStore), above_inherited h,
    above_vacated]
  by_cases after : t = .after
  · subst after
    simp only [true_and]
    by_cases self : m = a
    · subst self
      simp [h.self_not_mem, Ne.symm h.other]
    · by_cases child : m ∈ d.below .after a
      · simp [self, child]
      · simp [self, child]
  · simp [after]

end Diff

namespace Refinement

open Diff

variable {d : Diff} {n a p : Handle} {i : Nat} {change : Change}

theorem run_expect (hn : n < d.size) (h : (d.look n).change = change) :
    (expect n change).run d = .ok () d := by
  simp only [expect, EStateM.run_bind, run_ask_node (getElem?_look hn), h, ne_eq, not_true_eq_false,
    if_false]
  rfl

theorem run_expect_of_ne (hn : n < d.size) (h : (d.look n).change ≠ change) :
    (expect n change).run d =
      .error (.fault (.unexpectedChange n change (d.look n).change)) d := by
  simp only [expect, EStateM.run_bind, run_ask_node (getElem?_look hn), ne_eq, h, not_false_eq_true,
    if_true]
  rfl

theorem run_slotAfter (hd : d.Symmetric) (parent : d.above .after a = some p)
    (place : (d.below .after p).idxOf? a = some i) : (slotAfter a).run d = .ok (p, i) d := by
  have inStore := hd.parent_lt parent
  have index : (ask (·.indexOfChild? p a .after)).run d = .ok (some i) d := by
    apply run_ask_ok
    rw [indexOfChild?, node_look inStore, Outcome.ok_bind, ← below_look inStore, place]
    rfl
  simp only [slotAfter, EStateM.run_bind, run_ask_parent (lt_size_of_above parent), parent, index]
  rfl

theorem run_drop_added (h : d.Meets n a p i) : (dropAt a .after).run (d.unlinkAll a .after) =
    .ok () ((d.unlinkAll a .after).unlink p a .after) := by
  have size : a < (d.unlinkAll a .after).size := by
    rw [size_unlinkAll]
    exact h.lt_size
  have parent : (d.unlinkAll a .after).above .after a = some p := by
    rw [above_unlinkAll, if_neg fun e => h.self_not_mem e.2, h.parent]
  have dropped := run_dropAt (t := .after) (h.toSymmetric.unlinkAll a .after) size
  simp only [parent] at dropped
  exact dropped

theorem run_attachAll_unified (h : d.Meets n a p i) :
    (attachAll n (d.below .after a) .after).run (d.unified n a p) = .ok () (d.inherited n a p) := by
  refine run_attachAll (by rw [size_unified]; exact h.inStore) (h.once .after a) (fun c hc => ?_)
    fun c hc => ?_
  · obtain ⟨-, other, -, there⟩ := h.children hc
    rw [lives_unified h.inStore, if_neg (Ne.symm other)]
    exact there
  · rw [above_unified, above_vacated, if_pos ⟨rfl, .inr hc⟩]

theorem run_attach_inherited (h : d.Meets n a p i) :
    (attach p n i .after).run (d.inherited n a p) = .ok () (d.joined n a p i) := by
  refine run_attach (attachable_eq_ok_iff.2 ⟨?_, ?_, ?_, ?_⟩)
  · rw [size_inherited]
    exact h.parent_lt_size
  · rw [lives_inherited h.inStore, if_pos rfl]
  · rw [above_inherited h, if_neg fun e => h.not_mem e.2, above_vacated, h.free, ite_self]
  · rw [below_inherited h, if_neg fun e => h.parent_ne e.2, below_vacated h.parent_lt_size h.loop,
      if_neg fun e => h.loop e.2, if_pos ⟨rfl, rfl⟩]
    exact (insertIdx_filter (n := n) (h.once .after p) h.place).1

/-- Nodes that meet can be joined. -/
theorem run_join (h : d.Meets n a p i) : (join n a).run d = .ok () (d.joined n a p i) := by
  have cleared := run_detachChildren (t := .after) h.toSymmetric h.lt_size
  -- what the added node holds is asked for once it hangs nowhere
  have size : a < ((d.unlinkAll a .after).unlink p a .after).size := by
    rw [size_unlink, size_unlinkAll]
    exact h.lt_size
  have asked := run_ask_node (getElem?_look size)
  have closing : (((d.unlinkAll a .after).unlink p a .after).look a).closing =
      (d.look a).closing := by
    rw [← closing_payload, payload_unlink, payload_unlinkAll, closing_payload]
  have emptied : (Edit.update a fun x => { x with closing := x.closing.set .after none }).run
      ((d.unlinkAll a .after).unlink p a .after) = .ok () (d.vacated a p) :=
    run_update (getElem?_look size) (·.closedBy none)
  have shared : (Edit.update n fun x =>
      { x with change := .unchanged, closing := x.closing.set .after (d.look a).closing.after }).run
      (d.vacated a p) = .ok () (d.unified n a p) :=
    run_update (getElem?_look (by rw [size_vacated]; exact h.inStore))
      (·.shared (d.look a).closing.after)
  simp only [join, EStateM.run_bind, run_expect h.inStore h.removed, run_expect h.lt_size h.added,
    run_slotAfter h.toSymmetric h.parent h.place, cleared, run_drop_added h, asked, closing, emptied,
    shared, run_attachAll_unified h, run_attach_inherited h]

end Refinement

namespace Diff

/-! ## Other names in the trees -/

/-- A diff has the trees of another one, in which the nodes have other names. -/
structure Renamed (d d' : Diff) (s s' : Sides (Forest Handle)) (name : Time → Handle → Handle) :
    Prop extends Regular d' where
  free : ∀ t, d'.above t Diff.root = none
  tree : ∀ t, s'.get t = (s.get t).map (name t)
  top : ∀ t, name t Diff.root = Diff.root
  apart : ∀ t, ∀ m ∈ Diff.root :: (s.get t).flatten, ∀ k ∈ Diff.root :: (s.get t).flatten,
    name t m = name t k → m = k
  size : ∀ t, ∀ m ∈ Diff.root :: (s.get t).flatten, name t m < d'.size
  below : ∀ t, ∀ m ∈ Diff.root :: (s.get t).flatten,
    d'.below t (name t m) = (d.below t m).map (name t)
  kind : ∀ t, ∀ m ∈ Diff.root :: (s.get t).flatten,
    (d'.look (name t m)).kind = (d.look m).kind
  formula : ∀ t, ∀ m ∈ Diff.root :: (s.get t).flatten,
    (d'.look (name t m)).formula.isSome = (d.look m).formula.isSome
  here : ∀ u t m, m ∈ Diff.root :: (s'.get u).flatten → d'.lives t m = true →
    m ∈ Diff.root :: (s'.get t).flatten
  there : ∀ u t m c, m ∈ Diff.root :: (s'.get u).flatten → c ∈ d'.below t m → d'.lives t m = true

/-- What the trees of a diff are made of does not depend on the names of the nodes. -/
theorem Renamed.twofold {d d' : Diff} {s s' : Sides (Forest Handle)}
    {name : Time → Handle → Handle} (r : Renamed d d' s s' name) (h : d.Twofold s) :
    d'.Twofold s' := by
  have nodes (t) : root :: (s'.get t).flatten = (root :: (s.get t).flatten).map (name t) := by
    rw [r.tree, Forest.flatten_map, List.map_cons, r.top]
  have shape (t) : d'.Shape t (s'.get t) := by
    refine ⟨?_, ?_, ?_⟩
    · have top := r.below t root List.mem_cons_self
      rw [r.top, (h.shape t).below] at top
      rw [top, r.tree, Forest.roots_map]
    · rw [r.tree]
      exact (h.shape t).spans.map fun m hm =>
        ⟨r.size t m (List.mem_cons_of_mem _ hm), r.below t m (List.mem_cons_of_mem _ hm)⟩
    · rw [nodes]
      exact (h.shape t).once.map_on fun m hm k hk => r.apart t m hm k hk
  refine ⟨r.toRegular, r.free, shape, r.here, r.there, fun t m hm => ?_,
    fun t m p hm hp continuation => ?_, fun t m hm => ?_⟩
  · rw [r.tree] at hm
    obtain ⟨k, hk, rfl⟩ := Forest.mem_flatten_map.1 hm
    rw [r.kind t k (List.mem_cons_of_mem _ hk)]
    exact h.kind t k hk
  · rw [r.tree] at hm
    obtain ⟨k, hk, rfl⟩ := Forest.mem_flatten_map.1 hm
    obtain ⟨q, hq, mem⟩ := (h.shape t).exists_above h.toSymmetric hk
    have child : name t k ∈ d'.below t (name t q) := by
      rw [r.below t q mem]
      exact List.mem_map_of_mem (h.mem_of_above hq)
    rw [r.above_of_mem child] at hp
    obtain rfl := Option.some.inj hp
    rw [r.kind t k (List.mem_cons_of_mem _ hk)] at continuation
    rw [r.kind t q mem]
    exact h.branch t k q hk hq continuation
  · rw [nodes] at hm
    obtain ⟨k, hk, rfl⟩ := List.mem_map.1 hm
    rw [r.formula t k hk, r.kind t k hk]
    exact h.formula t k hk

/-! ## The trees of the joined diff -/

variable {d : Diff} {n a p m : Handle} {i : Nat} {t : Time} {s : Sides (Forest Handle)}

namespace Meets

/-- A join changes of a node no more than the times at which it is there and what closes it. -/
theorem look_joined {α : Type} (h : d.Meets n a p i) (told : Node → α)
    (detached : ∀ x : Node, told x.detached = told x)
    (shared : ∀ (x : Node) (c), told (x.shared c) = told x)
    (closedBy : ∀ (x : Node) (c), told (x.closedBy c) = told x) :
    told ((d.joined n a p i).look m) = told (d.look m) := by
  rw [← detached, ← payload, payload_joined h]
  split
  · rw [shared, payload, detached]
  · split
    · rw [closedBy, payload, detached]
    · rw [payload, detached]

theorem kind_joined (h : d.Meets n a p i) :
    ((d.joined n a p i).look m).kind = (d.look m).kind :=
  h.look_joined Node.kind (fun _ => rfl) (fun _ _ => rfl) fun _ _ => rfl

theorem formula_joined (h : d.Meets n a p i) :
    ((d.joined n a p i).look m).formula = (d.look m).formula :=
  h.look_joined Node.formula (fun _ => rfl) (fun _ _ => rfl) fun _ _ => rfl

theorem label_joined (h : d.Meets n a p i) :
    ((d.joined n a p i).look m).label = (d.look m).label :=
  h.look_joined Node.label (fun _ => rfl) (fun _ _ => rfl) fun _ _ => rfl

theorem start_joined (h : d.Meets n a p i) :
    ((d.joined n a p i).look m).start = (d.look m).start :=
  h.look_joined Node.start (fun _ => rfl) (fun _ _ => rfl) fun _ _ => rfl

theorem stop_joined (h : d.Meets n a p i) :
    ((d.joined n a p i).look m).stop = (d.look m).stop :=
  h.look_joined Node.stop (fun _ => rfl) (fun _ _ => rfl) fun _ _ => rfl

theorem closing_joined (h : d.Meets n a p i) : ((d.joined n a p i).look m).closing =
    if n = m then (d.look m).closing.set .after (d.look a).closing.after
    else if a = m then (d.look m).closing.set .after none else (d.look m).closing := by
  rw [← closing_payload, payload_joined h, ← closing_payload (n := m)]
  split
  · rfl
  · split <;> rfl

theorem change_joined (h : d.Meets n a p i) : ((d.joined n a p i).look m).change =
    if n = m then .unchanged else (d.look m).change := by
  rw [← change_payload, payload_joined h, ← change_payload]
  split
  · rfl
  · split <;> rfl

theorem below_before (h : d.Meets n a p i) :
    (d.joined n a p i).below .before m = d.below .before m := by
  rw [below_joined h]
  simp

theorem above_before (h : d.Meets n a p i) :
    (d.joined n a p i).above .before m = d.above .before m := by
  rw [above_joined h]
  simp

/-- After the edit the removed node has the place of the added one. -/
theorem replaces (h : d.Meets n a p i) : d.Replaces (d.joined n a p i) .after a n p where
  parent := h.parent
  loop := h.loop
  above_new := by rw [above_joined h, if_pos ⟨rfl, rfl⟩]
  above_rest m hm self := by simp only [above_joined h, true_and, if_neg hm, if_neg self]
  below_new := by rw [below_joined h, if_pos ⟨rfl, rfl⟩]
  below_rest m hm self := by
    simp only [below_joined h, true_and, if_neg hm, if_neg self,
      (insertIdx_filter (h.once .after p) h.place).2]

end Meets

namespace Twofold

/-- No node of a tree is its own parent. -/
theorem parent_ne (h : d.Twofold s) (hm : m ∈ (s.get t).flatten) (parent : d.above t m = some p) :
    p ≠ m := by
  rintro rfl
  have up := ((h.shape t).mem_iff h.toSymmetric).1 (List.mem_cons_of_mem _ hm)
  exact (up.ends (h.free t)).not_above (.parent parent)

theorem meets (h : d.Twofold s) (hn : n ∈ s.before.flatten) (ha : a ∈ s.after.flatten)
    (removed : (d.look n).change = .removed) (added : (d.look a).change = .added) :
    ∃ p i, d.Meets n a p i ∧ p ∈ root :: s.after.flatten := by
  have inStore : n < d.size := (h.shape .before).spans.lt_size hn
  obtain ⟨p, parent, hp⟩ := (h.shape .after).exists_above h.toSymmetric ha
  obtain ⟨i, place⟩ := Option.isSome_iff_exists.1
    (List.isSome_idxOf?.2 (h.mem_of_above parent))
  refine ⟨p, i, ⟨h.toRegular, inStore, removed, added, ?_, parent, place,
    h.parent_ne (t := .after) ha parent⟩, hp⟩
  rw [List.eq_nil_iff_forall_not_mem]
  intro c hc
  have there := h.there .before .after n c (List.mem_cons_of_mem _ hn) hc
  rw [lives_look inStore, Node.existsAt, removed] at there
  cases there

/-- A removed node is not in the tree after the edit. -/
theorem ne_removed (h : d.Twofold s) (meets : d.Meets n a p i) (hn : n ∈ s.before.flatten)
    (hm : m ∈ root :: s.after.flatten) : m ≠ n := by
  rintro rfl
  have below : m ≠ root := fun e => (h.shape .before).root_not_mem (e ▸ hn)
  have there := h.lives_of_mem (t := .after) (List.mem_of_ne_of_mem below hm)
  rw [lives_look meets.inStore, Node.existsAt, meets.removed] at there
  cases there

theorem root_ne (h : d.Twofold s) (ha : a ∈ s.after.flatten) : root ≠ a := fun e =>
  (h.shape .after).root_not_mem (e ▸ ha)

/-- An added node is not in the tree before the edit. -/
theorem ne_added (h : d.Twofold s) (meets : d.Meets n a p i) (ha : a ∈ s.after.flatten)
    (hm : m ∈ root :: s.before.flatten) : m ≠ a := by
  rintro rfl
  have there := h.lives_of_mem (t := .before) (List.mem_of_ne_of_mem (h.root_ne ha).symm hm)
  rw [lives_look meets.lt_size, Node.existsAt, meets.added] at there
  cases there

theorem flatten_standIn (h : d.Twofold s) (ha : a ∈ s.after.flatten) :
    root :: (s.after.map (standIn a n)).flatten = (root :: s.after.flatten).map (standIn a n) := by
  rw [Forest.flatten_map, List.map_cons, standIn_of_ne (h.root_ne ha)]

/-- What is in a tree of the joined diff was in one before, and the node that the other one stands in
for is gone. -/
theorem mem_of_joined {u : Time} (h : d.Twofold s) (meets : d.Meets n a p i)
    (hn : n ∈ s.before.flatten) (ha : a ∈ s.after.flatten) (hm : m ∈ root ::
      ((⟨s.before, s.after.map (standIn a n)⟩ : Sides (Forest Handle)).get u).flatten) :
    (∃ v, m ∈ root :: (s.get v).flatten) ∧ m ≠ a := by
  cases u with
  | before => exact ⟨⟨.before, hm⟩, h.ne_added meets ha hm⟩
  | after =>
    obtain ⟨x, hx, rfl⟩ := List.mem_map.1 (h.flatten_standIn ha ▸ hm)
    by_cases self : x = a
    · rw [self, standIn_self]
      exact ⟨⟨.before, List.mem_cons_of_mem _ hn⟩, meets.other⟩
    · rw [standIn_of_ne self]
      exact ⟨⟨.after, hx⟩, self⟩

/-- What is there in the joined diff is in its tree. -/
theorem mem_joined {u t : Time} (h : d.Twofold s) (meets : d.Meets n a p i)
    (hn : n ∈ s.before.flatten) (ha : a ∈ s.after.flatten) (hm : m ∈ root ::
      ((⟨s.before, s.after.map (standIn a n)⟩ : Sides (Forest Handle)).get u).flatten)
    (there : (d.joined n a p i).lives t m = true) : m ∈ root ::
      ((⟨s.before, s.after.map (standIn a n)⟩ : Sides (Forest Handle)).get t).flatten := by
  obtain ⟨⟨v, old⟩, gone⟩ := h.mem_of_joined meets hn ha hm
  have image {x} (hx : x ∈ root :: s.after.flatten) :
      standIn a n x ∈ root :: (s.after.map (standIn a n)).flatten :=
    h.flatten_standIn ha ▸ List.mem_map_of_mem hx
  rw [lives_joined meets] at there
  by_cases self : n = m
  · subst self
    cases t with
    | before => exact List.mem_cons_of_mem _ hn
    | after =>
      have mem := image (List.mem_cons_of_mem root ha)
      rw [standIn_self] at mem
      exact mem
  · rw [if_neg self] at there
    have stays := h.here v t m old there
    cases t with
    | before => exact stays
    | after =>
      have mem := image stays
      rw [standIn_of_ne gone] at mem
      exact mem

/-- What has children in the joined diff at a time is there at that time. -/
theorem lives_joined_of_child {u t : Time} {c : Handle} (h : d.Twofold s) (meets : d.Meets n a p i)
    (hn : n ∈ s.before.flatten) (ha : a ∈ s.after.flatten) (hm : m ∈ root ::
      ((⟨s.before, s.after.map (standIn a n)⟩ : Sides (Forest Handle)).get u).flatten)
    (hc : c ∈ (d.joined n a p i).below t m) : (d.joined n a p i).lives t m = true := by
  obtain ⟨⟨v, old⟩, gone⟩ := h.mem_of_joined meets hn ha hm
  rw [lives_joined meets]
  split
  · rfl
  · next other =>
    cases t with
    | before =>
      rw [meets.below_before] at hc
      exact h.there v .before m c old hc
    | after =>
      have children := meets.replaces.below h.toSymmetric (Ne.symm other)
      rw [standIn_of_ne gone] at children
      rw [children] at hc
      obtain ⟨c', hc', -⟩ := List.mem_map.1 hc
      exact h.there v .after m c' old hc'

/-- The joined diff has the same tree before the edit, and the former tree with the one node standing
in for the other after it. -/
theorem renamed_joined (h : d.Twofold s) (meets : d.Meets n a p i) (hn : n ∈ s.before.flatten)
    (ha : a ∈ s.after.flatten) (kinds : (d.look n).kind = (d.look a).kind) :
    Renamed d (d.joined n a p i) s ⟨s.before, s.after.map (standIn a n)⟩
      fun t => t.select id (standIn a n) := by
  have others (m) (hm : m ∈ root :: s.after.flatten) : m ≠ n := h.ne_removed meets hn hm
  have sameKind (x) : (d.look (standIn a n x)).kind = (d.look x).kind := by
    by_cases self : x = a
    · rw [self, standIn_self, kinds]
    · rw [standIn_of_ne self]
  have inTree (x) (hx : x ∈ root :: s.after.flatten) :
      ∃ v, standIn a n x ∈ root :: (s.get v).flatten :=
    (h.mem_of_joined (u := .after) meets hn ha
      (h.flatten_standIn ha ▸ List.mem_map_of_mem hx)).1
  refine ⟨Refinement.keeps_join.ok h.toRegular (Refinement.run_join meets), fun t => ?_,
    fun t => ?_, fun t => ?_, fun t m hm k hk e => ?_, fun t m hm => ?_, fun t m hm => ?_,
    fun t m hm => ?_, fun t m hm => ?_, fun u t m hm there => h.mem_joined meets hn ha hm there,
    fun u t m c hm hc => h.lives_joined_of_child meets hn ha hm hc⟩
  · cases t with
    | before =>
      rw [meets.above_before]
      exact h.free .before
    | after =>
      have top := meets.replaces.above h.toSymmetric (others root List.mem_cons_self)
      rw [standIn_of_ne (h.root_ne ha), h.free] at top
      exact top
  · cases t with
    | before => exact (Forest.map_id s.before).symm
    | after => rfl
  · cases t with
    | before => rfl
    | after => exact standIn_of_ne (h.root_ne ha)
  · cases t with
    | before => exact e
    | after => exact standIn_inj (others m hm) (others k hk) e
  · rw [size_joined]
    cases t with
    | before => exact h.lt_size hm
    | after =>
      obtain ⟨v, mem⟩ := inTree m hm
      exact h.lt_size mem
  · cases t with
    | before => exact meets.below_before.trans (List.map_id _).symm
    | after => exact meets.replaces.below h.toSymmetric (others m hm)
  · rw [meets.kind_joined]
    cases t with
    | before => rfl
    | after => exact sameKind m
  · rw [meets.formula_joined]
    cases t with
    | before => rfl
    | after =>
      obtain ⟨v, mem⟩ := inTree m hm
      exact ((h.formula v _ mem).trans (congrArg _ (sameKind m))).trans (h.formula .after m hm).symm

theorem joined (h : d.Twofold s) (meets : d.Meets n a p i) (hn : n ∈ s.before.flatten)
    (ha : a ∈ s.after.flatten) (kinds : (d.look n).kind = (d.look a).kind) :
    (d.joined n a p i).Twofold ⟨s.before, s.after.map (standIn a n)⟩ :=
  (h.renamed_joined meets hn ha kinds).twofold h

end Twofold

end Diff

end Variation
