import Variation.Matching.Snapshot
import Variation.Proofs.Shape

/-!
# Snapshots of a shape

A snapshot numbers the places of a tree in preorder. For a diff with a shape at a time the walk never
fails, and the entry of each number says the kind and the text of the node at that place, and has the
numbers of the places below it as its children. A walk over any diff that comes to an end leaves entries
that are linked: they have as their children those entries that name them as their parent.
-/

namespace Variation

namespace Forest

variable {α : Type}

/-- The forest with its places numbered in preorder, from a number on. -/
def numbered : Forest α → Nat → Forest (α × Nat)
  | nil, _ => nil
  | cons a below rest, k =>
    cons (a, k) (below.numbered (k + 1)) (rest.numbered (k + 1 + below.flatten.length))

theorem flatten_numbered (f : Forest α) (k : Nat) :
    (f.numbered k).flatten = f.flatten.zipIdx k := by
  induction f generalizing k with
  | nil => rfl
  | cons a below rest ihb ihr =>
    simp only [numbered, flatten, List.zipIdx_cons, List.zipIdx_append, ihb, ihr]

theorem map_fst_numbered (f : Forest α) (k : Nat) : (f.numbered k).map (·.1) = f := by
  induction f generalizing k with
  | nil => rfl
  | cons a below rest ihb ihr => rw [numbered, map, ihb, ihr]

theorem bounds_of_mem_numbered {f : Forest α} {k i : Nat} {a : α}
    (h : (a, i) ∈ (f.numbered k).flatten) : k ≤ i ∧ i < k + f.flatten.length := by
  rw [flatten_numbered] at h
  obtain ⟨le, lt, -⟩ := List.mem_zipIdx h
  exact ⟨le, lt⟩

end Forest

namespace Matching.Snapshot

variable {d : Diff} {t : Time} {s s' : Snapshot} {f : Forest Handle} {parent : Option Nat}
  {n : Handle} {i k : Nat}

/-- The snapshot after a forest was taken below an entry. -/
def pushForest (d : Diff) : Snapshot → Forest Handle → Option Nat → Snapshot
  | s, .nil, _ => s
  | s, .cons n below rest, parent =>
    pushForest d (pushForest d (s.push (d.look n) n parent) below (some s.size)) rest parent

/-- Taking a forest puts its entries into the snapshot. -/
theorem takeFrom_spans (h : d.Spans t f) (room : Nat) (s : Snapshot) (parent : Option Nat)
    (rest : List (Handle × Option Nat)) :
    takeFrom d t (f.flatten.length + room) s (f.roots.map (·, parent) ++ rest) =
      takeFrom d t room (s.pushForest d f parent) rest := by
  induction f generalizing room s parent rest with
  | nil =>
    rw [Forest.flatten, List.length_nil, Nat.zero_add]
    rfl
  | cons n below behind ihb ihr =>
    obtain ⟨hn, children, hb, hr⟩ := h
    have inner : (d.look n).children.get t = below.roots := by
      rw [← Diff.below_look hn, children]
    rw [Forest.length_flatten_cons_add, Forest.roots, List.map_cons, List.cons_append, takeFrom, Diff.node_look hn,
      Outcome.ok_bind, inner, ihb hb, ihr hr]
    rfl

/-- The entry of a node when it is taken. -/
def entryOf (d : Diff) (n : Handle) (parent : Option Nat) (children : List Nat) : Entry :=
  ⟨(d.look n).kind, (d.look n).matchingText, parent, children, n⟩

/-- An entry with further children, if it is the given one. -/
def withChildren (parent : Option Nat) (i : Nat) (more : List Nat) (e : Entry) : Entry :=
  if parent = some i then { e with children := e.children ++ more } else e

theorem size_push (x : Node) (n : Handle) (parent : Option Nat) :
    (s.push x n parent).size = s.size + 1 := by
  cases parent <;> simp [push, size]

theorem lt_size_of_get? {e : Entry} (he : s.get? i = some e) : i < s.size :=
  (Array.getElem?_eq_some_iff.1 he).1

theorem mem_zipIdx_entries {q : Entry × Nat} : q ∈ s.entries.toList.zipIdx ↔ s.get? q.2 = some q.1 := by
  rw [List.mem_zipIdx_iff_getElem?, Array.getElem?_toList]
  rfl

theorem get?_push (inside : ∀ p, parent = some p → p < s.size) :
    (s.push (d.look n) n parent).get? i = if i = s.size then some (entryOf d n parent [])
      else (s.get? i).map (withChildren parent i [s.size]) := by
  have pushed : (s.entries.push (entryOf d n parent []))[i]? =
      if i = s.size then some (entryOf d n parent []) else s.get? i := Array.getElem?_push
  cases parent with
  | none =>
    have same (e : Entry) : withChildren none i [s.size] e = e := if_neg fun h => nomatch h
    have all : withChildren none i [s.size] = id := funext same
    rw [all, Option.map_id, id]
    exact pushed
  | some p =>
    have modified : (s.push (d.look n) n (some p)).get? i =
        if p = i then (s.entries.push (entryOf d n (some p) []))[i]?.map
          (fun e => { e with children := e.children ++ [s.size] })
        else (s.entries.push (entryOf d n (some p) []))[i]? := Array.getElem?_modify
    have apart : p ≠ s.size := Nat.ne_of_lt (inside p rfl)
    rw [modified, pushed]
    by_cases here : p = i
    · have changed (e : Entry) : withChildren (some p) i [s.size] e =
          { e with children := e.children ++ [s.size] } := if_pos (congrArg some here)
      rw [if_pos here, if_neg (here ▸ apart), if_neg (here ▸ apart), funext changed]
    · have same (e : Entry) : withChildren (some p) i [s.size] e = e :=
        if_neg fun h => here (Option.some.inj h)
      have all : withChildren (some p) i [s.size] = id := funext same
      rw [if_neg here, all, Option.map_id, id]

/-- A snapshot lists the places of a numbered forest. -/
def Lists (d : Diff) (s : Snapshot) : Forest (Handle × Nat) → Prop
  | .nil => True
  | .cons a below rest =>
    (∃ parent, s.get? a.2 = some (entryOf d a.1 parent (below.roots.map (·.2)))) ∧
      Lists d s below ∧ Lists d s rest

theorem Lists.congr {g : Forest (Handle × Nat)} (h : Lists d s g)
    (same : ∀ a ∈ g.flatten, s'.get? a.2 = s.get? a.2) : Lists d s' g := by
  induction g with
  | nil => trivial
  | cons a below rest ihb ihr =>
    obtain ⟨⟨parent, here⟩, hb, hr⟩ := h
    simp only [Forest.flatten, List.forall_mem_cons, List.forall_mem_append] at same
    exact ⟨⟨parent, by rw [same.1, here]⟩, ihb hb same.2.1, ihr hr same.2.2⟩

theorem Lists.get? {g : Forest (Handle × Nat)} (h : Lists d s g) {a : Handle × Nat}
    (ha : a ∈ g.flatten) : ∃ parent children, s.get? a.2 = some (entryOf d a.1 parent children) := by
  induction g with
  | nil => cases ha
  | cons b below rest ihb ihr =>
    obtain ⟨⟨parent, here⟩, hb, hr⟩ := h
    simp only [Forest.flatten, List.mem_cons, List.mem_append] at ha
    obtain rfl | ha | ha := ha
    · exact ⟨parent, _, here⟩
    · exact ihb hb ha
    · exact ihr hr ha

theorem parent_withChildren (i : Nat) (more : List Nat) (e : Entry) :
    (withChildren parent i more e).parent = e.parent := by
  unfold withChildren
  split <;> rfl

theorem mem_children_withChildren {c : Nat} {more : List Nat} {e : Entry} :
    c ∈ (withChildren parent i more e).children ↔
      c ∈ e.children ∨ (parent = some i ∧ c ∈ more) := by
  unfold withChildren
  split
  · next here => simp [here]
  · next other => simp [other]

theorem withChildren_nil : withChildren parent i [] = id := by
  funext e
  unfold withChildren
  split
  · rw [List.append_nil]
    rfl
  · rfl

theorem withChildren_append (as bs : List Nat) (e : Entry) :
    withChildren parent i bs (withChildren parent i as e) = withChildren parent i (as ++ bs) e := by
  unfold withChildren
  split
  · rw [List.append_assoc]
  · rfl

theorem withChildren_of_ne {p : Nat} (h : p ≠ i) (more : List Nat) :
    withChildren (some p) i more = id :=
  funext fun _ => if_neg fun e => h (Option.some.inj e)

/-- What is taken below an entry changes nothing but the children of that entry, and the new entries
list the forest. -/
theorem pushForest_spec (inside : ∀ p, parent = some p → p < s.size) :
    (s.pushForest d f parent).size = s.size + f.flatten.length ∧
      (∀ i, i < s.size → (s.pushForest d f parent).get? i =
        (s.get? i).map (withChildren parent i ((f.numbered s.size).roots.map (·.2)))) ∧
      Lists d (s.pushForest d f parent) (f.numbered s.size) := by
  induction f generalizing s parent with
  | nil =>
    refine ⟨rfl, fun i _ => ?_, trivial⟩
    rw [Forest.numbered, Forest.roots, List.map_nil, withChildren_nil, Option.map_id]
    rfl
  | cons n below rest ihb ihr =>
    have size₁ : (s.push (d.look n) n parent).size = s.size + 1 := size_push ..
    have inside₂ : ∀ p, some s.size = some p → p < (s.push (d.look n) n parent).size := by
      intro p hp
      rw [size₁, ← Option.some.inj hp]
      exact Nat.lt_succ_self _
    obtain ⟨size₂, old₂, lists₂⟩ := @ihb (s.push (d.look n) n parent) (some s.size) inside₂
    have inside₃ : ∀ p, parent = some p →
        p < ((s.push (d.look n) n parent).pushForest d below (some s.size)).size := by
      intro p hp
      have lt := inside p hp
      rw [size₂, size₁]
      omega
    obtain ⟨size₃, old₃, lists₃⟩ :=
      @ihr ((s.push (d.look n) n parent).pushForest d below (some s.size)) parent inside₃
    rw [size₁] at size₂ old₂ lists₂
    rw [size₂] at size₃ old₃ lists₃
    have apart (i : Nat) (hi : s.size ≤ i) : withChildren parent i
        ((rest.numbered (s.size + 1 + below.flatten.length)).roots.map (·.2)) = id := by
      cases parent with
      | none => exact funext fun _ => if_neg fun e => by cases e
      | some p => exact withChildren_of_ne (Nat.ne_of_lt (Nat.lt_of_lt_of_le (inside p rfl) hi)) _
    refine ⟨?_, fun i hi => ?_, ⟨parent, ?_⟩, lists₂.congr fun a ha => ?_, lists₃⟩
    · show (((s.push (d.look n) n parent).pushForest d below (some s.size)).pushForest d rest
        parent).size = _
      rw [size₃, Forest.flatten, List.length_cons, List.length_append]
      omega
    · have first := get?_push (d := d) (n := n) (i := i) inside
      rw [if_neg (Nat.ne_of_lt hi)] at first
      show (((s.push (d.look n) n parent).pushForest d below (some s.size)).pushForest d rest
        parent).get? i = _
      rw [old₃ i (by omega), old₂ i (by omega), first,
        withChildren_of_ne (Nat.ne_of_gt hi), Option.map_id, id, Option.map_map]
      congr 1
      funext e
      exact withChildren_append _ _ e
    · have first := get?_push (d := d) (n := n) (i := s.size) inside
      rw [if_pos rfl] at first
      show (((s.push (d.look n) n parent).pushForest d below (some s.size)).pushForest d rest
        parent).get? s.size = _
      rw [old₃ s.size (by omega), old₂ s.size (Nat.lt_succ_self _), first, apart _ (Nat.le_refl _),
        Option.map_id, id, Option.map_some]
      exact congrArg some (if_pos rfl)
    · obtain ⟨le, lt⟩ := Forest.bounds_of_mem_numbered ha
      show (((s.push (d.look n) n parent).pushForest d below (some s.size)).pushForest d rest
        parent).get? a.2 = _
      rw [old₃ a.2 (by omega), apart _ (by omega), Option.map_id, id]

/-- The snapshot of a forest that spans the root is what taking it gives, if there is room for it. -/
theorem ofDiff_of_spans (spans : d.Spans t (.tree Diff.root f))
    (few : (Forest.tree Diff.root f).flatten.length ≤ d.size + 1) :
    ofDiff d t = .ok (pushForest d ⟨#[]⟩ (.tree Diff.root f) none) := by
  obtain ⟨room, steps⟩ := Nat.exists_eq_add_of_le few
  have taken := takeFrom_spans spans room ⟨#[]⟩ none []
  rw [ofDiff, steps]
  rw [List.append_nil] at taken
  rw [show ((Forest.tree Diff.root f).roots.map fun n => (n, (none : Option Nat))) =
    [(Diff.root, none)] from rfl] at taken
  rw [taken]
  cases room <;> rfl

/-- The snapshot of a shape is what taking it from the root gives. -/
theorem ofDiff_eq (hd : d.Regular) (h : d.Shape t f) :
    ofDiff d t = .ok (pushForest d ⟨#[]⟩ (.tree Diff.root f) none) := by
  have few := h.length_lt hd
  refine ofDiff_of_spans ⟨hd.root_lt, h.below, h.spans, trivial⟩ ?_
  rw [Forest.flatten_tree, List.length_cons]
  omega

/-- A diff with a shape at a time has a snapshot, and it lists the root and the shape. -/
theorem ofDiff_spec (hd : d.Regular) (h : d.Shape t f) : ∃ s, ofDiff d t = .ok s ∧
    s.size = f.flatten.length + 1 ∧ Lists d s ((Forest.tree Diff.root f).numbered 0) := by
  have inside : ∀ p, (none : Option Nat) = some p → p < (⟨#[]⟩ : Snapshot).size :=
    fun p hp => nomatch hp
  obtain ⟨size, -, lists⟩ := pushForest_spec (d := d) (f := .tree Diff.root f) inside
  refine ⟨_, ofDiff_eq hd h, ?_, lists⟩
  rw [size, Forest.flatten_tree, List.length_cons]
  show 0 + (f.flatten.length + 1) = f.flatten.length + 1
  omega

/-- A snapshot says of each node of a list, in order, what it is. -/
structure Mirrors (d : Diff) (s : Snapshot) (ns : List Handle) : Prop where
  origin : ∀ i, (s.get? i).map (·.origin) = ns[i]?
  entry : ∀ i e, s.get? i = some e →
    e.kind = (d.look e.origin).kind ∧ e.label = (d.look e.origin).matchingText

/-- The snapshot at a time mirrors the root and what hangs below it. -/
theorem mirrors_of_ofDiff (hd : d.Regular) (h : d.Shape t f) (hs : ofDiff d t = .ok s) :
    Mirrors d s (Diff.root :: f.flatten) := by
  obtain ⟨s', hs', size, lists⟩ := ofDiff_spec hd h
  rw [hs] at hs'
  obtain rfl := Except.ok.inj hs'
  have listed (i : Nat) (hi : i < s.size) : ∃ n parent children,
      (Diff.root :: f.flatten)[i]? = some n ∧ s.get? i = some (entryOf d n parent children) := by
    have lt : i < (Diff.root :: f.flatten).length := by
      rw [List.length_cons, ← size]
      exact hi
    have mem : ((Diff.root :: f.flatten)[i], i) ∈
        ((Forest.tree Diff.root f).numbered 0).flatten := by
      rw [Forest.flatten_numbered, Forest.flatten_tree, List.mem_zipIdx_iff_getElem?]
      exact List.getElem?_eq_getElem lt
    obtain ⟨parent, children, here⟩ := lists.get? mem
    exact ⟨_, parent, children, List.getElem?_eq_getElem lt, here⟩
  refine ⟨fun i => ?_, fun i e he => ?_⟩
  · by_cases hi : i < s.size
    · obtain ⟨n, parent, children, hn, here⟩ := listed i hi
      rw [here, hn]
      rfl
    · have outside : s.get? i = none := Array.getElem?_eq_none (Nat.le_of_not_lt hi)
      have beyond : (Diff.root :: f.flatten)[i]? = none := by
        apply List.getElem?_eq_none
        rw [List.length_cons]
        omega
      rw [outside, beyond]
      rfl
  · obtain ⟨n, parent, children, -, here⟩ := listed i (lt_size_of_get? he)
    rw [here] at he
    obtain rfl := Option.some.inj he
    exact ⟨rfl, rfl⟩

theorem Mirrors.get?_of_getElem? {ns : List Handle} (h : Mirrors d s ns) (hn : ns[i]? = some n) :
    ∃ e, s.get? i = some e ∧ e.origin = n := by
  rw [← h.origin] at hn
  obtain ⟨e, he, origin⟩ := Option.map_eq_some_iff.1 hn
  exact ⟨e, he, origin⟩

/-- The first entry is that of the first node. -/
theorem Mirrors.exists_first {ns : List Handle} (h : Mirrors d s (n :: ns)) :
    ∃ e es, s.entries.toList = e :: es ∧ s.get? 0 = some e ∧ e.origin = n := by
  obtain ⟨e, he, origin⟩ := h.get?_of_getElem? (i := 0) rfl
  have head : s.entries.toList[0]? = some e := (Array.getElem?_toList ..).trans he
  cases entries : s.entries.toList with
  | nil => simp [entries] at head
  | cons e' es =>
    rw [entries] at head
    exact ⟨e, es, congrArg (· :: es) (Option.some.inj head), he, origin⟩

theorem Mirrors.getElem? {ns : List Handle} (h : Mirrors d s ns) {e : Entry}
    (he : s.get? i = some e) : ns[i]? = some e.origin := by
  rw [← h.origin, he]
  rfl

/-- No node of the list stands for two entries. -/
theorem Mirrors.index_inj {ns : List Handle} (h : Mirrors d s ns) (once : ns.Nodup) {j : Nat}
    {e e' : Entry} (he : s.get? i = some e) (he' : s.get? j = some e')
    (same : e.origin = e'.origin) : i = j := by
  have here := h.getElem? he
  have there := h.getElem? he'
  obtain ⟨lt, -⟩ := List.getElem?_eq_some_iff.1 here
  rw [same, ← there] at here
  exact (List.getElem?_inj lt once).1 here

/-! ## What holds of all snapshots -/

/-- What every new entry preserves, if its parent comes before it, holds after a walk over any diff that
comes to an end. -/
theorem takeFrom_induct {P : Snapshot → Prop} {room : Nat} {waiting : List (Handle × Option Nat)}
    (push : ∀ s n parent, (∀ p, parent = some p → p < s.size) → P s → P (s.push (d.look n) n parent))
    (h : P s) (inside : ∀ w ∈ waiting, ∀ p, w.2 = some p → p < s.size)
    (run : takeFrom d t room s waiting = .ok s') : P s' := by
  induction room generalizing s waiting with
  | zero =>
    cases waiting with
    | nil =>
      obtain rfl := Except.ok.inj run
      exact h
    | cons w rest => cases run
  | succ room ih =>
    obtain _ | ⟨⟨n, parent⟩, rest⟩ := waiting
    · obtain rfl := Except.ok.inj run
      exact h
    · rw [takeFrom] at run
      obtain ⟨x, hx, run⟩ := Outcome.bind_eq_ok_iff.1 run
      obtain rfl := Diff.look_of_node (Diff.node_eq_ok_iff.1 hx)
      obtain ⟨here, rest⟩ := List.forall_mem_cons.1 inside
      refine ih (push s n parent here h) (fun w hw p hp => ?_) run
      rw [size_push]
      obtain child | old := List.mem_append.1 hw
      · obtain ⟨c, -, rfl⟩ := List.mem_map.1 child
        obtain rfl := Option.some.inj hp
        exact Nat.lt_succ_self _
      · exact Nat.lt_succ_of_lt (rest w old p hp)

/-- So what holds of the snapshot without entries too holds of every snapshot. -/
theorem ofDiff_induct {P : Snapshot → Prop}
    (push : ∀ s n parent, (∀ p, parent = some p → p < s.size) → P s → P (s.push (d.look n) n parent))
    (h : P ⟨#[]⟩) (hs : ofDiff d t = .ok s) : P s := by
  refine takeFrom_induct push h (fun w hw p hp => ?_) hs
  obtain rfl := List.mem_singleton.1 hw
  cases hp

/-- An entry lists exactly those entries as its children that name it as their parent, in the order of
their indices, and a parent comes before its children. -/
structure Linked (s : Snapshot) : Prop where
  before : ∀ i e p, s.get? i = some e → e.parent = some p → p < i
  child : ∀ i e, s.get? i = some e →
    ∀ c, c ∈ e.children ↔ ∃ x, s.get? c = some x ∧ x.parent = some i
  order : ∀ i e, s.get? i = some e → e.children.Pairwise (· < ·)

/-- What a new entry says of its parent, and an old one of its own. -/
theorem exists_parent_push (inside : ∀ p, parent = some p → p < s.size) {c p : Nat} :
    (∃ x, (s.push (d.look n) n parent).get? c = some x ∧ x.parent = some p) ↔
      (∃ x, s.get? c = some x ∧ x.parent = some p) ∨ (c = s.size ∧ parent = some p) := by
  rw [get?_push inside]
  split
  · next new =>
    constructor
    · rintro ⟨x, hx, up⟩
      obtain rfl := Option.some.inj hx
      exact .inr ⟨new, up⟩
    · rintro (⟨x, hx, -⟩ | ⟨-, up⟩)
      · have old := lt_size_of_get? hx
        omega
      · exact ⟨_, rfl, up⟩
  · next old =>
    simp only [Option.map_eq_some_iff, exists_exists_and_eq_and, parent_withChildren, old, false_and,
      or_false]

theorem Linked.child_lt_size (h : s.Linked) {e : Entry} (he : s.get? i = some e) :
    ∀ c ∈ e.children, c < s.size := by
  intro c hc
  obtain ⟨x, hx, -⟩ := (h.child i e he c).1 hc
  exact lt_size_of_get? hx

/-- A new entry has no children yet, it comes behind those of its parent, and its parent is old. -/
theorem Linked.push (h : s.Linked) (inside : ∀ p, parent = some p → p < s.size) :
    (s.push (d.look n) n parent).Linked := by
  constructor
  · intro i e p he up
    obtain ⟨x, hx, up'⟩ | ⟨rfl, up'⟩ := (exists_parent_push inside).1 ⟨e, he, up⟩
    · exact h.before i x p hx up'
    · exact inside p up'
  · intro i e he c
    rw [exists_parent_push inside]
    rw [get?_push inside] at he
    split at he
    · next new =>
      obtain rfl := Option.some.inj he
      constructor
      · intro hc
        cases hc
      · -- the parent of a new entry and those of old ones come before it
        rintro (⟨x, hx, up⟩ | ⟨-, up⟩)
        · have lt := h.before c x i hx up
          have old := lt_size_of_get? hx
          omega
        · have lt := inside i up
          omega
    · obtain ⟨x, hx, rfl⟩ := Option.map_eq_some_iff.1 he
      rw [mem_children_withChildren, h.child i x hx c, List.mem_singleton, and_comm (a := parent = _)]
  · intro i e he
    rw [get?_push inside] at he
    split at he
    · obtain rfl := Option.some.inj he
      exact List.Pairwise.nil
    · obtain ⟨x, hx, rfl⟩ := Option.map_eq_some_iff.1 he
      unfold withChildren
      split
      · refine List.pairwise_append.2 ⟨h.order i x hx, List.pairwise_singleton _ _, ?_⟩
        intro c hc c' new
        rw [List.mem_singleton.1 new]
        exact h.child_lt_size hx c hc
      · exact h.order i x hx

theorem linked_of_ofDiff (hs : ofDiff d t = .ok s) : s.Linked := by
  refine ofDiff_induct (P := Linked) (fun s n parent inside h => h.push inside) ?_ hs
  constructor
  · intro i e p he
    cases he
  · intro i e he
    cases he
  · intro i e he
    cases he

/-! ## Snapshots that differ in the nodes they stand for -/

/-- Snapshots of one tree, whichever nodes its entries stand for. -/
def Alike (s s' : Snapshot) : Prop :=
  s.entries.map (fun e => { e with origin := Diff.root }) =
    s'.entries.map fun e => { e with origin := Diff.root }

theorem Alike.size (h : s.Alike s') : s.size = s'.size := by
  have sizes := congrArg Array.size h
  rwa [Array.size_map, Array.size_map] at sizes

theorem Alike.push {d' : Diff} {n' : Handle} (h : s.Alike s')
    (kind : (d.look n).kind = (d'.look n').kind)
    (text : (d.look n).matchingText = (d'.look n').matchingText) :
    (s.push (d.look n) n parent).Alike (s'.push (d'.look n') n' parent) := by
  have size : s.entries.size = s'.entries.size := h.size
  have entry (i : Nat) : s.entries[i]?.map (fun e => { e with origin := Diff.root }) =
      s'.entries[i]?.map fun e => { e with origin := Diff.root } := by
    rw [← Array.getElem?_map, ← Array.getElem?_map, h]
  cases parent with
  | none =>
    apply Array.ext_getElem?
    intro i
    simp only [Snapshot.push, Array.getElem?_map, Array.getElem?_push, size]
    split
    · simp only [Option.map_some, kind, text]
    · exact entry i
  | some p =>
    -- the new child is added to the same entry on either side
    have grown (i : Nat) :=
      congrArg (Option.map fun e : Entry => { e with children := e.children ++ [s.entries.size] })
        (entry i)
    simp only [Option.map_map] at grown
    apply Array.ext_getElem?
    intro i
    simp only [Snapshot.push, Array.getElem?_map, Array.getElem?_modify, Array.getElem?_push, size]
    split <;> split
    · simp only [Option.map_some, kind, text]
    · rw [Option.map_map, Option.map_map, ← size]
      exact grown i
    · simp only [Option.map_some, kind, text]
    · exact entry i

/-- Forests whose nodes say the same have snapshots alike. -/
theorem Alike.pushForest {d' : Diff} {z : Forest (Handle × Handle)} (h : s.Alike s')
    (same : ∀ a ∈ z.flatten, (d.look a.1).kind = (d'.look a.2).kind ∧
      (d.look a.1).matchingText = (d'.look a.2).matchingText) :
    (s.pushForest d (z.map (·.1)) parent).Alike (s'.pushForest d' (z.map (·.2)) parent) := by
  induction z generalizing s s' parent with
  | nil => exact h
  | cons a below rest ihb ihr =>
    simp only [Forest.flatten, List.forall_mem_cons, List.forall_mem_append] at same
    obtain ⟨⟨kind, text⟩, inner, behind⟩ := same
    have pushed : (s.push (d.look a.1) a.1 parent).Alike (s'.push (d'.look a.2) a.2 parent) :=
      h.push kind text
    have size : s.size = s'.size := h.size
    simp only [Forest.map, Snapshot.pushForest, size]
    exact ihr (ihb pushed inner) behind

/-- Forests whose nodes say the same under other names have snapshots alike. -/
theorem Alike.renamed {d' : Diff} {f : Forest Handle} {name : Handle → Handle}
    (same : ∀ n ∈ f.flatten, (d.look (name n)).kind = (d'.look n).kind ∧
      (d.look (name n)).matchingText = (d'.look n).matchingText) :
    (s.pushForest d (f.map name) parent).Alike (s.pushForest d' f parent) := by
  have alike : (s.pushForest d ((f.map fun n => (name n, n)).map (·.1)) parent).Alike
      (s.pushForest d' ((f.map fun n => (name n, n)).map (·.2)) parent) :=
    .pushForest rfl fun a ha => by
      obtain ⟨n, hn, rfl⟩ := Forest.mem_flatten_map.1 ha
      exact same n hn
  rw [Forest.map_map, Forest.map_map] at alike
  simpa only [Function.comp_def, Forest.map_id] using alike

end Matching.Snapshot

end Variation
