import Variation.Proofs.Handled
import Variation.Proofs.Selection
import Variation.Proofs.Snapshots
import Variation.Proofs.Standalone

/-!
# Walks that meet a loop

The walks over the tree at one time bound themselves in different ways: one counts the nodes before it
takes the next one, one counts them behind that, and one counts the levels down to which it goes. A walk
that comes to an end has met a forest, and nothing in a forest hangs below itself. If there is no loop
below the root, the tree has a shape, even if the root has a parent, and every walk has room for a
shape. So all of them fail on the same diffs, and otherwise they meet the same nodes.
-/

namespace Variation

open Relation

namespace Forest

variable {α : Type}

/-- Where the roots of a forest can be cut in two, so can the forest. -/
theorem exists_append_of_roots {f : Forest α} {as bs : List α} (h : f.roots = as ++ bs) :
    ∃ g k : Forest α, f = g ++ k ∧ g.roots = as ∧ k.roots = bs := by
  induction f generalizing as with
  | nil =>
    obtain ⟨rfl, rfl⟩ := List.nil_eq_append_iff.1 h
    exact ⟨.nil, .nil, rfl, rfl, rfl⟩
  | cons a below rest _ ih =>
    cases as with
    | nil => exact ⟨.nil, .cons a below rest, rfl, rfl, h⟩
    | cons b as =>
      obtain ⟨rfl, behind⟩ := List.cons.inj h
      obtain ⟨g, k, rfl, rfl, roots⟩ := ih behind
      exact ⟨.cons a below g, k, rfl, rfl, roots⟩

end Forest

/-- A walk comes to an end, or it fails since the ancestors of a node do not end at the root. -/
def Outcome.Settles {α : Type} (x : Outcome α) : Prop :=
  (∃ a, x = .ok a) ∨ ∃ n, x = .fail (.notRooted n)

theorem Outcome.Settles.bind {α β : Type} {x : Outcome α} {f : α → Outcome β} (h : x.Settles)
    (next : ∀ a, x = .ok a → (f a).Settles) : (x >>= f).Settles := by
  obtain ⟨a, run⟩ | ⟨n, run⟩ := h
  · rw [run, Outcome.ok_bind]
    exact next a run
  · exact .inr ⟨n, by rw [run]; rfl⟩

theorem Outcome.settles_mapM {α β : Type} {as : List α} {f : α → Outcome β}
    (h : ∀ a ∈ as, (f a).Settles) : (as.mapM f).Settles := by
  induction as with
  | nil => exact .inl ⟨[], rfl⟩
  | cons a as ih =>
    obtain ⟨here, h⟩ := List.forall_mem_cons.1 h
    rw [List.mapM_cons]
    exact here.bind fun b _ => (ih h).bind fun bs _ => .inl ⟨b :: bs, rfl⟩

theorem Outcome.ok_of_mapM {α β : Type} {as : List α} {bs : List β} {f : α → Outcome β}
    (h : as.mapM f = .ok bs) : ∀ a ∈ as, ∃ b, f a = .ok b := by
  induction as generalizing bs with
  | nil => exact fun a ha => absurd ha List.not_mem_nil
  | cons a as ih =>
    rw [List.mapM_cons] at h
    obtain ⟨b, here, h⟩ := Outcome.bind_eq_ok_iff.1 h
    obtain ⟨bs, behind, -⟩ := Outcome.bind_eq_ok_iff.1 h
    exact List.forall_mem_cons.2 ⟨⟨b, here⟩, ih behind⟩

namespace Diff

/-- A node hangs right below another one at a time. -/
def UnderAt (d : Diff) (t : Time) (p c : Handle) : Prop := c ∈ d.below t p

instance (d : Diff) (t : Time) (p c : Handle) : Decidable (d.UnderAt t p c) :=
  inferInstanceAs (Decidable (c ∈ d.below t p))

/-- Among the edges at a time that lead down from the root there is a loop. -/
def LoopsAt (d : Diff) (t : Time) : Prop := ∃ n, d.Descends t n ∧ TransGen (d.UnderAt t) n n

variable {d : Diff} {t : Time} {n p : Handle} {f : Forest Handle}

/-! ## Loops and shapes -/

/-- No node of a forest that spans hangs below itself. -/
theorem Spans.not_below_itself (h : d.Spans t f) (hn : n ∈ f.flatten) :
    ¬ TransGen (d.UnderAt t) n n := by
  induction f generalizing n with
  | nil => cases hn
  | cons m below rest ihb ihr =>
    obtain ⟨-, children, hb, hr⟩ := h
    simp only [Forest.flatten, List.mem_cons, List.mem_append] at hn
    obtain rfl | hn | hn := hn
    · intro loop
      -- a loop at the root of a tree goes on through the trees below it
      obtain ⟨c, hc, back⟩ := TransGen.head'_iff.1 loop
      have root : c ∈ below.roots := children ▸ hc
      exact ihb hb (Forest.mem_flatten_of_mem_roots root) (TransGen.tail' back hc)
    · exact ihb hb hn
    · exact ihr hr hn

/-- What is met on the way down from the root is in every forest that spans the root. -/
theorem Spans.mem_of_descends (h : d.Spans t (.tree root f)) (hn : d.Descends t n) :
    n ∈ (Forest.tree root f).flatten := by
  induction hn with
  | root =>
    rw [Forest.flatten_tree]
    exact List.mem_cons_self
  | child _ hc ih => exact h.mem_of_mem_below ih hc

theorem Spans.not_loopsAt (h : d.Spans t (.tree root f)) : ¬ d.LoopsAt t := by
  rintro ⟨n, down, loop⟩
  exact h.not_below_itself (h.mem_of_descends down) loop

/-- Where the parents of a node lead to the root, the root leads down to the node. -/
theorem Ascends.under (hd : d.Symmetric) (h : d.Ascends t n) :
    ReflTransGen (d.UnderAt t) Diff.root n := by
  induction h with
  | root => exact .refl
  | step hp _ ih => exact ih.tail (hd.mem_of_above hp)

/-- If there is no loop below the root, there is a shape: a root with a parent can be unlinked from it,
since that parent does not hang below the root. -/
theorem exists_shape_of_not_loopsAt (hd : d.Regular) (h : ¬ d.LoopsAt t) : ∃ f, d.Shape t f := by
  cases up : d.above t root with
  | none => exact exists_shape hd.toSymmetric up
  | some p =>
    have cut : (d.unlink p root t).Regular := hd.unlink up
    have free : (d.unlink p root t).above t root = none := by simp [above_unlink]
    obtain ⟨f, shape⟩ := exists_shape cut.toSymmetric free
    have below (n : Handle) (hn : n ≠ p) : (d.unlink p root t).below t n = d.below t n := by
      rw [below_unlink (hd.parent_lt up), if_neg fun e => hn e.2]
    have apart : p ∉ root :: f.flatten := by
      intro hp
      -- the way down to the parent of the root goes on to the root
      have down := ((shape.mem_iff cut.toSymmetric).1 hp).under cut.toSymmetric
      have same (q c : Handle) (hc : (d.unlink p root t).UnderAt t q c) : d.UnderAt t q c := by
        have parent := cut.above_of_mem hc
        rw [above_unlink] at parent
        split at parent
        · cases parent
        · exact hd.mem_of_above parent
      exact h ⟨root, .root, TransGen.tail' (ReflTransGen.mono same _ _ down) (hd.mem_of_above up)⟩
    have others (n : Handle) (hn : n ∈ root :: f.flatten) : n ≠ p := fun e => apart (e ▸ hn)
    refine ⟨f, ?_, shape.spans.congr fun n hn => ⟨?_, ?_⟩, shape.once⟩
    · rw [← below root (others root List.mem_cons_self)]
      exact shape.below
    · rw [← size_unlink (d := d) (p := p) (c := root) (t := t)]
      exact shape.spans.lt_size hn
    · exact (below n (others n (List.mem_cons_of_mem _ hn))).symm

/-! ## Walks that come to an end -/

/-- Forests that span each of some nodes make up a forest. -/
theorem exists_spans_of_each {ns : List Handle} (h : ∀ n ∈ ns, ∃ f, d.Spans t (.tree n f)) :
    ∃ f, f.roots = ns ∧ d.Spans t f := by
  induction ns with
  | nil => exact ⟨.nil, rfl, trivial⟩
  | cons n ns ih =>
    obtain ⟨⟨f, here⟩, h⟩ := List.forall_mem_cons.1 h
    obtain ⟨g, roots, behind⟩ := ih h
    exact ⟨.cons n f g, congrArg (n :: ·) roots, here.1, here.2.1, here.2.2.1, behind⟩

/-- There is a forest of some nodes that spans, and it has no more places than there is room for. -/
def HasRoom (d : Diff) (t : Time) (ns : List Handle) (room : Nat) : Prop :=
  ∃ f : Forest Handle, f.roots = ns ∧ d.Spans t f ∧ f.flatten.length ≤ room

theorem hasRoom_nil (room : Nat) : d.HasRoom t [] room := ⟨.nil, rfl, trivial, Nat.zero_le room⟩

/-- A forest that begins with the children of a node makes up a tree below the node. -/
theorem HasRoom.cons {rest : List Handle} {room : Nat} (hn : n < d.size)
    (h : d.HasRoom t (d.below t n ++ rest) room) : d.HasRoom t (n :: rest) (room + 1) := by
  obtain ⟨f, roots, spans, few⟩ := h
  obtain ⟨g, k, rfl, children, behind⟩ := Forest.exists_append_of_roots roots
  obtain ⟨hg, hk⟩ := spans_append.1 spans
  refine ⟨.cons n g k, congrArg (n :: ·) behind, ⟨hn, children.symm, hg, hk⟩, ?_⟩
  rw [Forest.flatten_append, List.length_append] at few
  rw [Forest.flatten, List.length_cons, List.length_append]
  omega

/-- A forest with one root is a tree. -/
theorem HasRoom.exists_tree {room : Nat} (h : d.HasRoom t [n] room) :
    ∃ f, d.Spans t (.tree n f) ∧ (Forest.tree n f).flatten.length ≤ room := by
  obtain ⟨f, roots, spans, few⟩ := h
  cases f with
  | nil => cases roots
  | cons m below rest =>
    obtain ⟨rfl, last⟩ := List.cons.inj roots
    cases rest with
    | nil => exact ⟨below, spans, few⟩
    | cons k deeper rest => cases last

/-- What is found in the store has the children that are asked for. -/
theorem below_of_children {cs : List Handle} (h : d.children n t = .ok cs) :
    n < d.size ∧ cs = d.below t n := by
  obtain ⟨x, hx, last⟩ := Outcome.bind_eq_ok_iff.1 h
  have look := node_eq_ok_iff.1 hx
  exact ⟨lt_size_of_getElem? look, by rw [below_of_node look, Outcome.pure_eq_ok_iff.1 last]⟩

theorem hasRoom_of_preorderAtFrom {room : Nat} {waiting seen ns : List Handle}
    (run : d.preorderAtFrom t room waiting seen = .ok ns) : d.HasRoom t waiting room := by
  induction room generalizing waiting seen with
  | zero =>
    cases waiting with
    | nil => exact hasRoom_nil _
    | cons n rest =>
      rw [preorderAtFrom] at run
      obtain ⟨cs, -, run⟩ := Outcome.bind_eq_ok_iff.1 run
      cases run
  | succ room ih =>
    cases waiting with
    | nil => exact hasRoom_nil _
    | cons n rest =>
      rw [preorderAtFrom] at run
      obtain ⟨cs, children, run⟩ := Outcome.bind_eq_ok_iff.1 run
      obtain ⟨hn, rfl⟩ := below_of_children children
      exact (ih run).cons hn

theorem settles_preorderAtFrom (hd : d.Symmetric) {room : Nat} {waiting seen : List Handle}
    (inside : ∀ n ∈ waiting, n < d.size) : (d.preorderAtFrom t room waiting seen).Settles := by
  induction room generalizing waiting seen with
  | zero =>
    cases waiting with
    | nil => exact .inl ⟨_, rfl⟩
    | cons n rest =>
      rw [preorderAtFrom, children_eq (inside n List.mem_cons_self)]
      exact .inr ⟨n, rfl⟩
  | succ room ih =>
    cases waiting with
    | nil => exact .inl ⟨_, rfl⟩
    | cons n rest =>
      obtain ⟨hn, rest⟩ := List.forall_mem_cons.1 inside
      rw [preorderAtFrom, children_eq hn]
      refine ih fun c hc => ?_
      obtain child | old := List.mem_append.1 hc
      · exact hd.child_lt child
      · exact rest c old

end Diff

namespace Printing

open Diff

variable {d : Diff} {t : Time} {n : Handle} {levels : Nat}

theorem spans_of_linesBelow {ls : List String} (run : linesBelow d t levels n = .ok ls) :
    ∃ f, d.Spans t (.tree n f) := by
  induction levels generalizing n ls with
  | zero => cases run
  | succ levels ih =>
    rw [linesBelow] at run
    obtain ⟨x, hx, run⟩ := Outcome.bind_eq_ok_iff.1 run
    obtain ⟨inner, below, -⟩ := Outcome.bind_eq_ok_iff.1 run
    have look := node_eq_ok_iff.1 hx
    have each := Outcome.ok_of_mapM below
    rw [← below_of_node look] at each
    obtain ⟨f, roots, spans⟩ := exists_spans_of_each fun c hc => by
      obtain ⟨ls, run⟩ := each c hc
      exact ih run
    exact ⟨f, lt_size_of_getElem? look, roots.symm, spans, trivial⟩

theorem settles_linesBelow (hd : d.Symmetric) (hn : n < d.size) :
    (linesBelow d t levels n).Settles := by
  induction levels generalizing n with
  | zero => exact .inr ⟨n, rfl⟩
  | succ levels ih =>
    rw [linesBelow, node_look hn, Outcome.ok_bind, ← below_look hn]
    have inner : ((d.below t n).mapM (linesBelow d t levels)).Settles := by
      apply Outcome.settles_mapM
      intro c hc
      exact ih (hd.child_lt hc)
    exact inner.bind fun ls _ => .inl ⟨_, rfl⟩

end Printing

namespace Matching.Snapshot

open Diff

variable {d : Diff} {t : Time} {s s' : Snapshot} {room : Nat} {waiting : List (Handle × Option Nat)}

theorem hasRoom_of_takeFrom (run : takeFrom d t room s waiting = .ok s') :
    d.HasRoom t (waiting.map (·.1)) room := by
  induction room generalizing s waiting with
  | zero =>
    cases waiting with
    | nil => exact hasRoom_nil _
    | cons w rest => cases run
  | succ room ih =>
    obtain _ | ⟨⟨n, parent⟩, rest⟩ := waiting
    · exact hasRoom_nil _
    · rw [takeFrom] at run
      obtain ⟨x, hx, run⟩ := Outcome.bind_eq_ok_iff.1 run
      have look := node_eq_ok_iff.1 hx
      have behind := ih run
      have names : ((x.children.get t).map fun c => (c, some s.size)).map (·.1) = d.below t n := by
        rw [List.map_map, below_of_node look]
        exact List.map_id _
      rw [List.map_append, names] at behind
      exact behind.cons (lt_size_of_getElem? look)

theorem settles_takeFrom (hd : d.Symmetric) (inside : ∀ w ∈ waiting, w.1 < d.size) :
    (takeFrom d t room s waiting).Settles := by
  induction room generalizing s waiting with
  | zero =>
    cases waiting with
    | nil => exact .inl ⟨_, rfl⟩
    | cons w rest => exact .inr ⟨w.1, rfl⟩
  | succ room ih =>
    obtain _ | ⟨⟨n, parent⟩, rest⟩ := waiting
    · exact .inl ⟨_, rfl⟩
    · obtain ⟨hn, rest⟩ := List.forall_mem_cons.1 inside
      rw [takeFrom, node_look hn, Outcome.ok_bind, ← below_look hn]
      refine ih fun w hw => ?_
      obtain child | old := List.mem_append.1 hw
      · obtain ⟨c, hc, rfl⟩ := List.mem_map.1 child
        exact hd.child_lt hc
      · exact rest w old

/-- The entries of a snapshot stand for the nodes of the tree, in preorder. -/
theorem origins_of_ofDiff {f : Forest Handle} (hd : d.Regular) (h : d.Shape t f)
    (hs : ofDiff d t = .ok s) : s.entries.toList.map (·.origin) = Diff.root :: f.flatten := by
  apply List.ext_getElem?
  intro i
  rw [List.getElem?_map, Array.getElem?_toList]
  exact (mirrors_of_ofDiff hd h hs).origin i

end Matching.Snapshot

namespace Diff

open Matching

variable {d : Diff} {t : Time}

/-- A walk that settles and ends only where a forest spans the root fails if there is a loop. -/
theorem LoopsAt.fails {α : Type} {x : Outcome α} (loop : d.LoopsAt t) (settles : x.Settles)
    (spans : ∀ a, x = .ok a → ∃ f, d.Spans t (.tree root f)) :
    ∃ n, x = .fail (.notRooted n) := by
  refine settles.resolve_left ?_
  rintro ⟨a, run⟩
  obtain ⟨f, spans⟩ := spans a run
  exact spans.not_loopsAt loop

/-- The walks over the tree at a time, the one that lists the nodes, the one that prints the source and
the one that takes the snapshot, all come to an end or all fail since the nodes are not rooted. They
fail exactly if there is a loop below the root, and otherwise the entries of the snapshot stand for the
nodes that are listed, in their order. -/
theorem walks_agree (h : d.Handled) (t : Time) :
    (¬ d.LoopsAt t ∧ ∃ ns text s, d.preorderAt t = .ok ns ∧ Printing.source d t = .ok text ∧
      Snapshot.ofDiff d t = .ok s ∧ s.entries.toList.map (·.origin) = ns) ∨
    (d.LoopsAt t ∧ (∃ n, d.preorderAt t = .fail (.notRooted n)) ∧
      (∃ n, Printing.source d t = .fail (.notRooted n)) ∧
      ∃ n, Snapshot.ofDiff d t = .fail (.notRooted n)) := by
  have hd := h.regular
  by_cases loop : d.LoopsAt t
  · have top : ∀ n ∈ [root], n < d.size := List.forall_mem_singleton.2 hd.root_lt
    refine .inr ⟨loop, ?_, ?_, ?_⟩
    · refine loop.fails (settles_preorderAtFrom hd.toSymmetric top) fun ns run => ?_
      obtain ⟨f, spans, -⟩ := (hasRoom_of_preorderAtFrom run).exists_tree
      exact ⟨f, spans⟩
    · refine loop.fails ?_ fun text run => ?_
      · have lines : (Printing.linesBelow d t (d.size + 1) root).Settles :=
          Printing.settles_linesBelow hd.toSymmetric hd.root_lt
        exact lines.bind fun ls _ => .inl ⟨_, rfl⟩
      · obtain ⟨ls, run, -⟩ := Outcome.bind_eq_ok_iff.1 run
        exact Printing.spans_of_linesBelow run
    · refine loop.fails (Snapshot.settles_takeFrom hd.toSymmetric fun w hw => ?_) fun s run => ?_
      · rw [List.mem_singleton.1 hw]
        exact hd.root_lt
      · obtain ⟨f, spans, -⟩ := (Snapshot.hasRoom_of_takeFrom run).exists_tree
        exact ⟨f, spans⟩
  · obtain ⟨f, shape⟩ := exists_shape_of_not_loopsAt hd loop
    obtain ⟨s, taken, -⟩ := Snapshot.ofDiff_spec hd shape
    exact .inl ⟨loop, _, _, s, shape.preorderAt_eq hd, Printing.source_eq hd shape, taken,
      Snapshot.origins_of_ofDiff hd shape taken⟩

/-- The root and some code that hang below each other before the edit. After it the root hangs below the
code, which is detached, so that there is no loop below the root. -/
def reparented : Diff :=
  [newCode, .attachLast 0 1 .before, .attachLast 1 0 .before, .attachLast 1 0 .after].foldl
    (fun d c => c.apply d) (.empty .unknown)

theorem handled_reparented : reparented.Handled :=
  .call _ (.call _ (.call _ (.call _ (.empty .unknown))))

/-- All walks fail at the time at which the root hangs below its child, and all come to an end at the
time at which its parent is detached. -/
theorem reparented_walks_agree : reparented.Handled ∧
    (reparented.LoopsAt .before ∧ (∃ n, reparented.preorderAt .before = .fail (.notRooted n)) ∧
      (∃ n, Printing.source reparented .before = .fail (.notRooted n)) ∧
      ∃ n, Snapshot.ofDiff reparented .before = .fail (.notRooted n)) ∧
    reparented.above .after root = some 1 ∧ ¬ reparented.LoopsAt .after ∧
      ∃ ns text s, reparented.preorderAt .after = .ok ns ∧
        Printing.source reparented .after = .ok text ∧
        Snapshot.ofDiff reparented .after = .ok s ∧ s.entries.toList.map (·.origin) = ns := by
  have loop : reparented.LoopsAt .before := by
    have down : reparented.UnderAt .before 0 1 := by decide
    have up : reparented.UnderAt .before 1 0 := by decide
    exact ⟨root, .root, .tail (.single down) up⟩
  have ends : reparented.preorderAt .after = .ok [root] := by decide
  refine ⟨handled_reparented, ?_, by decide, ?_⟩
  · exact (walks_agree handled_reparented .before).resolve_left fun h => h.1 loop
  · refine (walks_agree handled_reparented .after).resolve_right ?_
    rintro ⟨-, ⟨n, failed⟩, -⟩
    rw [ends] at failed
    cases failed

end Diff

end Variation
