import Variation.Refinement
import Mathlib.Data.List.Nodup
import Mathlib.Data.List.InsertIdx

/-!
# Edges and the edits that change them

Every edit is a sequence of four steps: a node is added without edges, an edge is linked, an edge is
unlinked, or all edges to the children of a node at a time are unlinked. `below`, `above` and
`lives` read an edge from either end, and each step has one lemma for each of them. A diff is
`Symmetric` if both ends of every edge agree, and `Regular` if its first node is the root besides;
the main statements say that each step keeps it so.
-/

namespace Variation

/-- A node is made of its edges and of what it holds apart from them. -/
theorem Node.ext_edges {x y : Node} (parent : ∀ t, x.parent.get t = y.parent.get t)
    (children : ∀ t, x.children.get t = y.children.get t) (rest : x.detached = y.detached) :
    x = y := by
  have parents := Sides.ext_get parent
  have below := Sides.ext_get children
  cases x
  cases y
  simp_all [Node.detached]

end Variation

namespace Variation.Diff

/-- The children of a node at a time; a handle without node has none. -/
def below (d : Diff) (t : Time) (n : Handle) : List Handle :=
  d.nodes[n]?.elim [] (·.children.get t)

/-- The parent of a node at a time. -/
def above (d : Diff) (t : Time) (n : Handle) : Option Handle :=
  d.nodes[n]?.elim none (·.parent.get t)

/-- Whether a handle belongs to a node that is there at a time. -/
def lives (d : Diff) (t : Time) (n : Handle) : Bool :=
  d.nodes[n]?.elim false (·.existsAt t)

/-- The kind of the node of a handle. -/
def kindOf (d : Diff) (n : Handle) : Option Kind := d.nodes[n]?.map (·.kind)

/-- The node of a handle; a handle without node stands for a node of no interest. -/
def look (d : Diff) (n : Handle) : Node := d.nodes[n]?.getD default

/-- What the node of a handle holds apart from its edges. -/
def payload (d : Diff) (n : Handle) : Node := (d.look n).detached

section Lookup

variable {d : Diff} {t : Time} {n c p : Handle} {x : Node}

theorem lt_size_of_getElem? (h : d.nodes[n]? = some x) : n < d.size :=
  (Array.getElem?_eq_some_iff.1 h).1

theorem exists_node (h : n < d.size) : ∃ x, d.nodes[n]? = some x := ⟨_, Array.getElem?_eq_getElem h⟩

theorem below_of_node (h : d.nodes[n]? = some x) (t : Time) : d.below t n = x.children.get t := by
  simp [below, h]

theorem above_of_node (h : d.nodes[n]? = some x) (t : Time) : d.above t n = x.parent.get t := by
  simp [above, h]

theorem lives_of_node (h : d.nodes[n]? = some x) (t : Time) : d.lives t n = x.existsAt t := by
  simp [lives, h]

theorem lt_size_of_mem_below (h : c ∈ d.below t p) : p < d.size := by
  cases hp : d.nodes[p]? with
  | none => simp [below, hp] at h
  | some y => exact lt_size_of_getElem? hp

theorem lt_size_of_above (h : d.above t c = some p) : c < d.size := by
  cases hc : d.nodes[c]? with
  | none => simp [above, hc] at h
  | some y => exact lt_size_of_getElem? hc

theorem lt_size_of_lives (h : d.lives t n = true) : n < d.size := by
  cases hn : d.nodes[n]? with
  | none => simp [lives, hn] at h
  | some y => exact lt_size_of_getElem? hn

theorem node_of_getElem? (h : d.nodes[n]? = some x) : d.node n = .ok x := node_eq_ok_iff.2 h

theorem look_of_node (h : d.nodes[n]? = some x) : d.look n = x := by simp [look, h]

theorem getElem?_look (h : n < d.size) : d.nodes[n]? = some (d.look n) := by
  obtain ⟨x, hx⟩ := exists_node h
  rw [hx, look_of_node hx]

theorem node_look (h : n < d.size) : d.node n = .ok (d.look n) := node_of_getElem? (getElem?_look h)

theorem below_look (h : n < d.size) : d.below t n = (d.look n).children.get t :=
  below_of_node (getElem?_look h) t

theorem above_look (h : n < d.size) : d.above t n = (d.look n).parent.get t :=
  above_of_node (getElem?_look h) t

theorem lives_look (h : n < d.size) : d.lives t n = (d.look n).existsAt t :=
  lives_of_node (getElem?_look h) t

/-- A node of the store lives as its payload says. -/
theorem lives_payload (h : n < d.size) : d.lives t n = (d.payload n).existsAt t := lives_look h

theorem unchanged_iff (h : n < d.size) :
    (d.look n).change = .unchanged ↔ ∀ t, d.lives t n = true := by
  simp only [Change.eq_unchanged_iff, lives_look h, Node.existsAt]

theorem children_eq (h : n < d.size) (t : Time) : d.children n t = .ok (d.below t n) := by
  obtain ⟨x, hx⟩ := exists_node h
  simp only [children, node_of_getElem? hx, below_of_node hx]
  rfl

theorem parent_eq (h : n < d.size) (t : Time) : d.parent n t = .ok (d.above t n) := by
  obtain ⟨x, hx⟩ := exists_node h
  simp only [parent, node_of_getElem? hx, above_of_node hx]
  rfl

/-- A diff is told by its edges and by what its nodes hold apart from them. -/
theorem ext_edges {e : Diff} (source : d.source = e.source) (size : d.size = e.size)
    (above : ∀ t m, d.above t m = e.above t m) (below : ∀ t m, d.below t m = e.below t m)
    (payload : ∀ m < d.size, d.payload m = e.payload m) : d = e := by
  have nodes : d.nodes = e.nodes := by
    apply Array.ext_getElem?
    intro m
    by_cases hm : m < d.size
    · have hm' : m < e.size := size ▸ hm
      rw [getElem?_look hm, getElem?_look hm', Node.ext_edges (fun t => ?_) (fun t => ?_) (payload m hm)]
      · rw [← above_look hm, ← above_look hm', above]
      · rw [← below_look hm, ← below_look hm', below]
    · have hm' : ¬ m < e.size := size ▸ hm
      rw [Array.getElem?_eq_none (Nat.le_of_not_lt hm),
        Array.getElem?_eq_none (Nat.le_of_not_lt hm')]
  cases d
  cases e
  simp_all

end Lookup

/-- Both ends of every edge agree: a node lists exactly those as its children that name it as their
parent, each once, and a node with a parent at a time is there at that time. -/
structure Symmetric (d : Diff) : Prop where
  edge : ∀ t p c, c ∈ d.below t p ↔ d.above t c = some p
  once : ∀ t p, (d.below t p).Nodup
  lives : ∀ t c p, d.above t c = some p → d.lives t c = true

namespace Symmetric

variable {d : Diff} {t : Time} {n c p : Handle}

theorem above_of_mem (h : d.Symmetric) (hc : c ∈ d.below t p) : d.above t c = some p :=
  (h.edge t p c).1 hc

theorem mem_of_above (h : d.Symmetric) (hc : d.above t c = some p) : c ∈ d.below t p :=
  (h.edge t p c).2 hc

theorem child_lt (h : d.Symmetric) (hc : c ∈ d.below t p) : c < d.size :=
  lt_size_of_above (h.above_of_mem hc)

theorem parent_lt (h : d.Symmetric) (hc : d.above t c = some p) : p < d.size :=
  lt_size_of_mem_below (h.mem_of_above hc)

end Symmetric

/-! ## The four steps -/

/-- Rewrites the list of children of a node. -/
def relist (d : Diff) (n : Handle) (t : Time) (f : List Handle → List Handle) : Diff :=
  d.update n fun x => { x with children := x.children.set t (f (x.children.get t)) }

/-- Rewrites the parent of a node. -/
def reparent (d : Diff) (n : Handle) (t : Time) (p : Option Handle) : Diff :=
  d.update n fun x => { x with parent := x.parent.set t p }

/-- Links a node below another one, at a position in its list of children. -/
def link (d : Diff) (p c : Handle) (i : Nat) (t : Time) : Diff :=
  (d.relist p t (·.insertIdx i c)).reparent c t (some p)

/-- Links a node behind the other children of another one. -/
def linkLast (d : Diff) (p c : Handle) (t : Time) : Diff := d.link p c (d.below t p).length t

/-- Links a node behind the other children of a node of each of the given times. -/
def linkAll (d : Diff) (ps : Time → Handle) (c : Handle) (ts : List Time) : Diff :=
  ts.foldl (fun d t => d.linkLast (ps t) c t) d

/-- Unlinks a node from its parent. -/
def unlink (d : Diff) (p c : Handle) (t : Time) : Diff :=
  (d.relist p t (·.filter (· != c))).reparent c t none

/-- Takes the parent from each of the given nodes. -/
def orphan (d : Diff) (cs : List Handle) (t : Time) : Diff :=
  cs.foldl (fun d c => d.reparent c t none) d

/-- Unlinks all children of a node. -/
def unlinkAll (d : Diff) (n : Handle) (t : Time) : Diff :=
  (d.relist n t fun _ => []).orphan (d.below t n) t

section Update

variable {d : Diff} {n m : Handle} {t u : Time} {f : Node → Node}

theorem below_eq_nil (h : ¬ n < d.size) : d.below t n = [] := by
  cases hb : d.below t n with
  | nil => rfl
  | cons c cs => exact absurd (lt_size_of_mem_below (hb ▸ List.mem_cons_self)) h

theorem above_eq_none (h : ¬ n < d.size) : d.above t n = none := by
  cases ha : d.above t n with
  | none => rfl
  | some p => exact absurd (lt_size_of_above ha) h

theorem lives_eq_false (h : ¬ n < d.size) : d.lives t n = false := by
  cases hl : d.lives t n with
  | false => rfl
  | true => exact absurd (lt_size_of_lives hl) h

theorem below_update_of (h : ∀ x : Node, (f x).children.get t = x.children.get t) :
    (d.update n f).below t m = d.below t m := by
  simp only [below, getElem?_update]
  by_cases hm : n = m
  · cases d.nodes[m]? <;> simp [hm, h]
  · simp [hm]

theorem above_update_of (h : ∀ x : Node, (f x).parent.get t = x.parent.get t) :
    (d.update n f).above t m = d.above t m := by
  simp only [above, getElem?_update]
  by_cases hm : n = m
  · cases d.nodes[m]? <;> simp [hm, h]
  · simp [hm]

theorem lives_update_of (h : ∀ x : Node, (f x).existsAt t = x.existsAt t) :
    (d.update n f).lives t m = d.lives t m := by
  simp only [lives, getElem?_update]
  by_cases hm : n = m
  · cases d.nodes[m]? <;> simp [hm, h]
  · simp [hm]

theorem kindOf_update_of (h : ∀ x : Node, (f x).kind = x.kind) :
    (d.update n f).kindOf m = d.kindOf m := by
  simp only [kindOf, getElem?_update]
  by_cases hm : n = m
  · cases d.nodes[m]? <;> simp [hm, h]
  · simp [hm]

theorem look_update (hn : n < d.size) :
    (d.update n f).look m = if n = m then f (d.look m) else d.look m := by
  simp only [look, getElem?_update]
  split
  · next h =>
    subst h
    rw [getElem?_look hn]
    rfl
  · rfl

theorem payload_update_of (h : ∀ x : Node, (f x).detached = x.detached) :
    (d.update n f).payload m = d.payload m := by
  simp only [payload, look, getElem?_update]
  by_cases hm : n = m
  · cases d.nodes[m]? <;> simp [hm, h]
  · simp [hm]

theorem payload_update (hn : n < d.size) :
    (d.update n f).payload m = if n = m then (f (d.look m)).detached else d.payload m := by
  simp only [payload, look_update hn]
  split <;> rfl

variable {p : Option Handle} {g : List Handle → List Handle}

@[simp] theorem payload_relist : (d.relist n t g).payload m = d.payload m :=
  payload_update_of fun _ => rfl

@[simp] theorem payload_reparent : (d.reparent n t p).payload m = d.payload m :=
  payload_update_of fun _ => rfl

@[simp] theorem size_relist : (d.relist n t g).size = d.size := size_update ..

@[simp] theorem size_reparent : (d.reparent n t p).size = d.size := size_update ..

@[simp] theorem above_relist : (d.relist n t g).above u m = d.above u m :=
  above_update_of fun _ => rfl

@[simp] theorem lives_relist : (d.relist n t g).lives u m = d.lives u m :=
  lives_update_of fun _ => rfl

@[simp] theorem below_reparent : (d.reparent n t p).below u m = d.below u m :=
  below_update_of fun _ => rfl

@[simp] theorem lives_reparent : (d.reparent n t p).lives u m = d.lives u m :=
  lives_update_of fun _ => rfl

@[simp] theorem kindOf_relist : (d.relist n t g).kindOf m = d.kindOf m :=
  kindOf_update_of fun _ => rfl

@[simp] theorem kindOf_reparent : (d.reparent n t p).kindOf m = d.kindOf m :=
  kindOf_update_of fun _ => rfl

theorem below_relist (hn : n < d.size) :
    (d.relist n t g).below u m = if u = t ∧ m = n then g (d.below t n) else d.below u m := by
  simp only [below, relist, getElem?_update]
  by_cases hm : n = m
  · subst hm
    obtain ⟨x, hx⟩ := exists_node hn
    simp [hx, Sides.get_set]
  · simp [hm, Ne.symm hm]

theorem relist_eq_self (hn : ¬ n < d.size) : d.relist n t g = d := by
  simp only [relist, update]
  congr 1
  apply Array.ext_getElem?
  intro k
  rw [Array.getElem?_modify]
  split
  · next h =>
    have : d.nodes[k]? = none := Array.getElem?_eq_none (h ▸ Nat.le_of_not_lt hn)
    simp [this]
  · rfl

theorem above_reparent (hn : n < d.size) :
    (d.reparent n t p).above u m = if u = t ∧ m = n then p else d.above u m := by
  simp only [above, reparent, getElem?_update]
  by_cases hm : n = m
  · subst hm
    obtain ⟨x, hx⟩ := exists_node hn
    simp [hx, Sides.get_set]
  · simp [hm, Ne.symm hm]

theorem above_reparent_none :
    (d.reparent n t none).above u m = if u = t ∧ m = n then none else d.above u m := by
  by_cases hn : n < d.size
  · exact above_reparent hn
  · simp only [above, reparent, getElem?_update]
    by_cases hm : n = m
    · subst hm
      have : d.nodes[n]? = none := Array.getElem?_eq_none (Nat.le_of_not_lt hn)
      simp [this]
    · simp [hm, Ne.symm hm]

end Update

section Append

variable {d : Diff} {x : Node} {t : Time} {n : Handle}

theorem getElem?_size (d : Diff) : d.nodes[d.size]? = none :=
  Array.getElem?_eq_none (Nat.le_refl _)

/-- A new node without edges changes nobody's children. -/
theorem below_append (h : ∀ t, x.children.get t = []) : (d.append x).below t n = d.below t n := by
  simp only [below, getElem?_append]
  split
  · next hn => rw [hn, getElem?_size]; exact h t
  · rfl

theorem above_append (h : ∀ t, x.parent.get t = none) : (d.append x).above t n = d.above t n := by
  simp only [above, getElem?_append]
  split
  · next hn => rw [hn, getElem?_size]; exact h t
  · rfl

theorem look_append : (d.append x).look n = if n = d.size then x else d.look n := by
  simp only [look, getElem?_append]
  split <;> rfl

theorem payload_append :
    (d.append x).payload n = if n = d.size then x.detached else d.payload n := by
  simp only [payload, look_append]
  split <;> rfl

theorem lives_append_of_lt (h : n < d.size) : (d.append x).lives t n = d.lives t n := by
  simp only [lives, getElem?_append, if_neg (Nat.ne_of_lt h)]

theorem kindOf_append_of_lt (h : n < d.size) : (d.append x).kindOf n = d.kindOf n := by
  simp only [kindOf, getElem?_append, if_neg (Nat.ne_of_lt h)]

end Append

section Steps

variable {d : Diff} {p c n m : Handle} {i : Nat} {t u : Time} {cs : List Handle}

@[simp] theorem size_link : (d.link p c i t).size = d.size := by simp [link]

@[simp] theorem size_unlink : (d.unlink p c t).size = d.size := by simp [unlink]

@[simp] theorem size_orphan : (d.orphan cs t).size = d.size := by
  induction cs generalizing d with
  | nil => rfl
  | cons c cs ih => exact ih.trans size_reparent

@[simp] theorem size_unlinkAll : (d.unlinkAll n t).size = d.size := by simp [unlinkAll]

theorem source_link : (d.link p c i t).source = d.source := rfl

theorem source_unlink : (d.unlink p c t).source = d.source := rfl

theorem source_orphan : (d.orphan cs t).source = d.source := by
  induction cs generalizing d with
  | nil => rfl
  | cons c cs ih => exact ih.trans rfl

theorem source_unlinkAll : (d.unlinkAll n t).source = d.source := source_orphan

theorem below_link (hp : p < d.size) :
    (d.link p c i t).below u m =
      if u = t ∧ m = p then (d.below t p).insertIdx i c else d.below u m := by
  rw [link, below_reparent, below_relist hp]

theorem above_link (hc : c < d.size) :
    (d.link p c i t).above u m = if u = t ∧ m = c then some p else d.above u m := by
  rw [link, above_reparent (by simpa using hc), above_relist]

@[simp] theorem lives_link : (d.link p c i t).lives u m = d.lives u m := by simp [link]

@[simp] theorem kindOf_link : (d.link p c i t).kindOf m = d.kindOf m := by simp [link]

@[simp] theorem payload_link : (d.link p c i t).payload m = d.payload m := by simp [link]

@[simp] theorem payload_unlink : (d.unlink p c t).payload m = d.payload m := by simp [unlink]

@[simp] theorem payload_orphan : (d.orphan cs t).payload m = d.payload m := by
  induction cs generalizing d with
  | nil => rfl
  | cons c cs ih => exact ih.trans payload_reparent

@[simp] theorem payload_unlinkAll : (d.unlinkAll n t).payload m = d.payload m := by
  simp [unlinkAll]

theorem below_unlink (hp : p < d.size) :
    (d.unlink p c t).below u m =
      if u = t ∧ m = p then (d.below t p).filter (· != c) else d.below u m := by
  rw [unlink, below_reparent, below_relist hp]

theorem above_unlink :
    (d.unlink p c t).above u m = if u = t ∧ m = c then none else d.above u m := by
  rw [unlink, above_reparent_none, above_relist]

@[simp] theorem lives_unlink : (d.unlink p c t).lives u m = d.lives u m := by simp [unlink]

@[simp] theorem kindOf_unlink : (d.unlink p c t).kindOf m = d.kindOf m := by simp [unlink]

@[simp] theorem below_orphan : (d.orphan cs t).below u m = d.below u m := by
  induction cs generalizing d with
  | nil => rfl
  | cons c cs ih => exact ih.trans below_reparent

theorem above_orphan :
    (d.orphan cs t).above u m = if u = t ∧ m ∈ cs then none else d.above u m := by
  induction cs generalizing d with
  | nil => simp [orphan]
  | cons c cs ih =>
    refine ih.trans ?_
    rw [above_reparent_none]
    by_cases h : u = t <;> by_cases hm : m = c <;> simp [h, hm]

@[simp] theorem lives_orphan : (d.orphan cs t).lives u m = d.lives u m := by
  induction cs generalizing d with
  | nil => rfl
  | cons c cs ih => exact ih.trans lives_reparent

@[simp] theorem kindOf_orphan : (d.orphan cs t).kindOf m = d.kindOf m := by
  induction cs generalizing d with
  | nil => rfl
  | cons c cs ih => exact ih.trans kindOf_reparent

theorem below_unlinkAll :
    (d.unlinkAll n t).below u m = if u = t ∧ m = n then [] else d.below u m := by
  rw [unlinkAll, below_orphan]
  by_cases hn : n < d.size
  · exact below_relist hn
  · rw [relist_eq_self hn]
    split
    · next h => rw [h.1, h.2, below_eq_nil hn]
    · rfl

theorem above_unlinkAll :
    (d.unlinkAll n t).above u m =
      if u = t ∧ m ∈ d.below t n then none else d.above u m := by
  rw [unlinkAll, above_orphan, above_relist]

@[simp] theorem lives_unlinkAll : (d.unlinkAll n t).lives u m = d.lives u m := by
  simp [unlinkAll]

@[simp] theorem kindOf_unlinkAll : (d.unlinkAll n t).kindOf m = d.kindOf m := by
  simp [unlinkAll]

end Steps

section LinkAll

variable {d : Diff} {ps : Time → Handle} {p c m : Handle} {t u : Time} {ts : List Time}

theorem below_linkLast (hp : p < d.size) :
    (d.linkLast p c t).below u m =
      if u = t ∧ m = p then d.below u m ++ [c] else d.below u m := by
  rw [linkLast, below_link hp]
  split
  · next h => rw [h.1, h.2, List.insertIdx_length_self]
  · rfl

theorem above_linkLast (hc : c < d.size) :
    (d.linkLast p c t).above u m = if u = t ∧ m = c then some p else d.above u m := above_link hc

@[simp] theorem size_linkAll : (d.linkAll ps c ts).size = d.size := by
  induction ts generalizing d with
  | nil => rfl
  | cons t ts ih => exact ih.trans size_link

@[simp] theorem payload_linkAll : (d.linkAll ps c ts).payload m = d.payload m := by
  induction ts generalizing d with
  | nil => rfl
  | cons t ts ih => exact ih.trans payload_link

@[simp] theorem lives_linkAll : (d.linkAll ps c ts).lives u m = d.lives u m := by
  induction ts generalizing d with
  | nil => rfl
  | cons t ts ih => exact ih.trans lives_link

theorem below_linkAll (once : ts.Nodup) (hp : ∀ t ∈ ts, ps t < d.size) :
    (d.linkAll ps c ts).below u m =
      if u ∈ ts ∧ m = ps u then d.below u m ++ [c] else d.below u m := by
  induction ts generalizing d with
  | nil => simp [linkAll]
  | cons t ts ih =>
    obtain ⟨new, once⟩ := List.nodup_cons.1 once
    obtain ⟨here, hp⟩ := List.forall_mem_cons.1 hp
    have step : (d.linkAll ps c (t :: ts)).below u m =
        ((d.linkLast (ps t) c t).linkAll ps c ts).below u m := rfl
    rw [step, ih once fun v hv => by rw [linkLast, size_link]; exact hp v hv, below_linkLast here]
    by_cases hu : u = t
    · subst hu
      by_cases hm : m = ps u <;> simp [hm, new]
    · simp [hu]

theorem above_linkAll (hc : c < d.size) :
    (d.linkAll ps c ts).above u m = if u ∈ ts ∧ m = c then some (ps u) else d.above u m := by
  induction ts generalizing d with
  | nil => simp [linkAll]
  | cons t ts ih =>
    have step : (d.linkAll ps c (t :: ts)).above u m =
        ((d.linkLast (ps t) c t).linkAll ps c ts).above u m := rfl
    rw [step, ih (by rw [linkLast, size_link]; exact hc), above_linkLast hc]
    by_cases hu : u = t
    · subst hu
      by_cases hm : m = c <;> simp [hm]
    · simp [hu]

end LinkAll

/-! ## What keeps a diff symmetric -/

namespace Symmetric

variable {d : Diff} {p c n : Handle} {i : Nat} {t : Time} {x : Node}

/-- A change that leaves edges and times of existence alone keeps a diff symmetric. -/
theorem of_same {d' : Diff} (h : d.Symmetric) (hb : ∀ t n, d'.below t n = d.below t n)
    (ha : ∀ t n, d'.above t n = d.above t n)
    (hl : ∀ t n p, d.above t n = some p → d.lives t n = true → d'.lives t n = true) :
    d'.Symmetric where
  edge t p c := by rw [hb, ha]; exact h.edge t p c
  once t p := by rw [hb]; exact h.once t p
  lives t c p hc := by
    rw [ha] at hc
    exact hl t c p hc (h.lives t c p hc)

theorem link (h : d.Symmetric) (hp : p < d.size) (hc : d.lives t c = true)
    (free : d.above t c = none) (hi : i ≤ (d.below t p).length) :
    (d.link p c i t).Symmetric := by
  have hcs : c < d.size := lt_size_of_lives hc
  -- nobody lists a node without parent
  have out : ∀ q, c ∉ d.below t q := fun q hq => by
    rw [h.above_of_mem hq] at free; cases free
  refine ⟨fun u q m => ?_, fun u q => ?_, fun u m q hm => ?_⟩
  · rw [below_link hp, above_link hcs]
    by_cases hu : u = t
    · subst hu
      by_cases hq : q = p <;> by_cases hm : m = c
      · simp [hq, hm, List.mem_insertIdx hi]
      · simp [hq, hm, List.mem_insertIdx hi, h.edge]
      · simp only [hq, hm, and_false, and_self, if_true, if_false]
        exact ⟨fun k => absurd k (out q), fun k => absurd (Option.some.inj k).symm hq⟩
      · simp [hq, hm, h.edge]
    · simp [hu, h.edge]
  · rw [below_link hp]
    split
    · exact ((List.perm_insertIdx c _ hi).nodup_iff).2 (List.nodup_cons.2 ⟨out p, h.once t p⟩)
    · exact h.once u q
  · rw [lives_link]
    rw [above_link hcs] at hm
    split at hm
    · next e => rw [e.1, e.2]; exact hc
    · exact h.lives u m q hm

theorem unlink (h : d.Symmetric) (hc : d.above t c = some p) : (d.unlink p c t).Symmetric := by
  have hp := h.parent_lt hc
  refine ⟨fun u q m => ?_, fun u q => ?_, fun u m q hm => ?_⟩
  · rw [below_unlink hp, above_unlink]
    by_cases hu : u = t
    · subst hu
      by_cases hm : m = c
      · subst hm
        by_cases hq : q = p
        · simp [hq]
        · simp only [hq, and_false, if_false, and_self, if_true, h.edge, hc]
          exact ⟨fun k => absurd (Option.some.inj k).symm hq, fun k => by cases k⟩
      · by_cases hq : q = p <;> simp [hq, hm, h.edge]
    · simp [hu, h.edge]
  · rw [below_unlink hp]
    split
    · exact (h.once t p).filter _
    · exact h.once u q
  · rw [lives_unlink]
    rw [above_unlink] at hm
    split at hm
    · cases hm
    · exact h.lives u m q hm

theorem unlinkAll (h : d.Symmetric) (n : Handle) (t : Time) : (d.unlinkAll n t).Symmetric := by
  refine ⟨fun u q m => ?_, fun u q => ?_, fun u m q hm => ?_⟩
  · rw [below_unlinkAll, above_unlinkAll]
    by_cases hu : u = t
    · subst hu
      by_cases hq : q = n
      · subst hq
        by_cases hm : m ∈ d.below u q
        · simp [hm]
        · simp only [and_self, if_true, hm, and_false, if_false, List.not_mem_nil, false_iff]
          exact fun k => hm (h.mem_of_above k)
      · by_cases hm : m ∈ d.below u n
        · simp only [hq, and_false, if_false, hm, and_self, if_true, h.edge, h.above_of_mem hm]
          exact ⟨fun k => absurd (Option.some.inj k).symm hq, fun k => by cases k⟩
        · simp [hq, hm, h.edge]
    · simp [hu, h.edge]
  · rw [below_unlinkAll]
    split
    · exact .nil
    · exact h.once u q
  · rw [lives_unlinkAll]
    rw [above_unlinkAll] at hm
    split at hm
    · cases hm
    · exact h.lives u m q hm

theorem append (h : d.Symmetric) (hc : ∀ t, x.children.get t = [])
    (hp : ∀ t, x.parent.get t = none) : (d.append x).Symmetric :=
  h.of_same (fun _ _ => below_append hc) (fun _ _ => above_append hp) fun _ _ _ ha hl => by
    rwa [lives_append_of_lt (lt_size_of_above ha)]

/-- A node may change in all but its edges, as long as it stays there at the times at which it has a
parent. -/
theorem update (h : d.Symmetric) {f : Node → Node}
    (hc : ∀ x : Node, (f x).children = x.children) (hp : ∀ x : Node, (f x).parent = x.parent)
    (hl : ∀ x t, d.nodes[n]? = some x → (x.parent.get t).isSome = true → x.existsAt t = true →
      (f x).existsAt t = true) : (d.update n f).Symmetric := by
  refine h.of_same (fun t m => below_update_of fun x => by rw [hc])
    (fun t m => above_update_of fun x => by rw [hp]) fun t m p ha hm => ?_
  obtain ⟨x, hx⟩ := exists_node (lt_size_of_above ha)
  rw [above_of_node hx] at ha
  rw [lives_of_node hx] at hm
  by_cases e : n = m
  · subst e
    rw [lives_of_node (x := f x) (by rw [getElem?_update, if_pos rfl, hx]; rfl)]
    exact hl x t hx (by rw [ha]; rfl) hm
  · rwa [lives_of_node (x := x) (by rw [getElem?_update, if_neg e, hx])]

/-- A diff of one node without edges has no edges. -/
theorem single {s : Source} {x : Node} (hc : ∀ t, x.children.get t = [])
    (hp : ∀ t, x.parent.get t = none) : (⟨#[x], s⟩ : Diff).Symmetric := by
  have only (n : Handle) : (⟨#[x], s⟩ : Diff).nodes[n]? = none ∨
      (⟨#[x], s⟩ : Diff).nodes[n]? = some x := by
    cases n with
    | zero => exact .inr rfl
    | succ n => exact .inl rfl
  have nobody : ∀ t n, (⟨#[x], s⟩ : Diff).below t n = [] := by
    intro t n
    rcases only n with h | h
    · rw [below, h]
      rfl
    · rw [below_of_node h, hc]
  have free : ∀ t n, (⟨#[x], s⟩ : Diff).above t n = none := by
    intro t n
    rcases only n with h | h
    · rw [above, h]
      rfl
    · rw [above_of_node h, hp]
  exact ⟨fun t p c => by simp [nobody, free], fun t p => by simp [nobody],
    fun t c p h => by rw [free] at h; cases h⟩

/-- The diff that has only a root has no edges. -/
theorem empty (s : Source) : (Diff.empty s).Symmetric :=
  single (fun _ => Sides.get_both ..) fun _ => Sides.get_both ..

end Symmetric

/-- The edges of a diff agree at both ends, and its first node is the root. -/
structure Regular (d : Diff) : Prop extends Symmetric d where
  root : d.kindOf Diff.root = some .root

namespace Regular

variable {d : Diff} {p c n : Handle} {i : Nat} {t : Time} {x : Node} {f : Node → Node}

theorem root_lt (h : d.Regular) : Diff.root < d.size := by
  cases hx : d.nodes[Diff.root]? with
  | none => have := h.root; simp [kindOf, hx] at this
  | some x => exact lt_size_of_getElem? hx

theorem link (h : d.Regular) (hp : p < d.size) (hc : d.lives t c = true)
    (free : d.above t c = none) (hi : i ≤ (d.below t p).length) : (d.link p c i t).Regular :=
  ⟨h.toSymmetric.link hp hc free hi, by rw [kindOf_link]; exact h.root⟩

theorem unlink (h : d.Regular) (hc : d.above t c = some p) : (d.unlink p c t).Regular :=
  ⟨h.toSymmetric.unlink hc, by rw [kindOf_unlink]; exact h.root⟩

theorem unlinkAll (h : d.Regular) (n : Handle) (t : Time) : (d.unlinkAll n t).Regular :=
  ⟨h.toSymmetric.unlinkAll n t, by rw [kindOf_unlinkAll]; exact h.root⟩

theorem append (h : d.Regular) (hc : ∀ t, x.children.get t = [])
    (hp : ∀ t, x.parent.get t = none) : (d.append x).Regular :=
  ⟨h.toSymmetric.append hc hp, by rw [kindOf_append_of_lt h.root_lt]; exact h.root⟩

theorem update (h : d.Regular) (hk : ∀ x : Node, (f x).kind = x.kind)
    (hc : ∀ x : Node, (f x).children = x.children) (hp : ∀ x : Node, (f x).parent = x.parent)
    (hl : ∀ x t, d.nodes[n]? = some x → (x.parent.get t).isSome = true → x.existsAt t = true →
      (f x).existsAt t = true) : (d.update n f).Regular :=
  ⟨h.toSymmetric.update hc hp hl, by rw [kindOf_update_of hk]; exact h.root⟩

theorem empty (s : Source) : (Diff.empty s).Regular := ⟨.empty s, rfl⟩

end Regular

end Variation.Diff
