import Variation.Proofs.Looped
import Variation.Proofs.Maximal

/-!
# The subtrees of a snapshot

A snapshot takes nodes from a stack, puts each of them behind all the others and lists it under an entry
that it took before. Whatever diff it takes, what has been taken when it ends is a tree in preorder. So
an entry begins its subtree: what is below it follows it without a gap, as many entries as its size says,
and its children are among them in the order in which the node has them. How the entries of a subtree
hang together is told by their distances from the first one alone. So two subtrees of one shape agree
entry by entry at equal distances.
-/

namespace Variation.Matching.Snapshot

open Diff Relation

/-- An entry is among the children of another one. -/
def Under (s : Snapshot) (i j : Nat) : Prop := ∃ e, s.get? i = some e ∧ j ∈ e.children

/-- Entries begin subtrees of one shape if they have equally many children, and these begin subtrees of
one shape in their order. -/
inductive SameShape (s s' : Snapshot) : Nat → Nat → Prop
  | intro {i j : Nat} {e e' : Entry} (he : s.get? i = some e) (he' : s'.get? j = some e')
    (children : List.Forall₂ (SameShape s s') e.children e'.children) : SameShape s s' i j

variable {d : Diff} {t : Time} {s s' : Snapshot} {f : Forest Handle} {n : Handle}
  {parent : Option Nat} {i j k : Nat} {e : Entry}

/-! ## The tree that was taken -/

/-- Whatever diff is taken, a snapshot lists a tree that spans its root. -/
theorem exists_lists (hs : ofDiff d t = .ok s) : ∃ f, d.Spans t (.tree Diff.root f) ∧
    s.size = f.flatten.length + 1 ∧ Lists d s ((Forest.tree Diff.root f).numbered 0) := by
  have inside : ∀ p, (none : Option Nat) = some p → p < (⟨#[]⟩ : Snapshot).size := by
    intro p hp
    cases hp
  obtain ⟨f, spans, few⟩ := (hasRoom_of_takeFrom hs).exists_tree
  obtain ⟨size, -, lists⟩ := pushForest_spec (d := d) (f := .tree Diff.root f) inside
  obtain rfl := Except.ok.inj (hs.symm.trans (ofDiff_of_spans spans few))
  refine ⟨f, spans, ?_, lists⟩
  rw [size, Forest.flatten_tree, List.length_cons]
  show 0 + (f.flatten.length + 1) = f.flatten.length + 1
  omega

/-- Each entry of a forest begins a tree, and its children are the numbers of the places below it. -/
theorem Lists.tree_at (h : Lists d s (f.numbered k)) (spans : d.Spans t f) (le : k ≤ i)
    (lt : i < k + f.flatten.length) : ∃ n below parent,
      s.get? i = some (entryOf d n parent ((below.numbered (i + 1)).roots.map (·.2))) ∧
        Lists d s ((Forest.tree n below).numbered i) ∧ d.Spans t (.tree n below) := by
  induction f generalizing k with
  | nil =>
    simp only [Forest.flatten, List.length_nil] at lt
    omega
  | cons n below rest ihb ihr =>
    obtain ⟨⟨parent, here⟩, hb, hr⟩ := h
    obtain ⟨hn, children, sb, sr⟩ := spans
    rw [Forest.flatten, List.length_cons, List.length_append] at lt
    obtain rfl | above := Nat.eq_or_lt_of_le le
    · exact ⟨n, below, parent, here, ⟨⟨parent, here⟩, hb, trivial⟩, hn, children, sb, trivial⟩
    · by_cases inner : i < k + 1 + below.flatten.length
      · exact ihb hb sb above inner
      · exact ihr hr sr (by omega) (by omega)

/-- The entries of the roots stand for the roots. -/
theorem Lists.origins (h : Lists d s (f.numbered k)) :
    ((f.numbered k).roots.map (·.2)).map (fun c => (s.get? c).map (·.origin)) =
      f.roots.map some := by
  induction f generalizing k with
  | nil => rfl
  | cons n below rest _ ih =>
    obtain ⟨⟨parent, here⟩, -, hr⟩ := h
    have first : (s.get? k).map (·.origin) = some n := by
      rw [here]
      rfl
    simp only [Forest.numbered, Forest.roots, List.map_cons, first, ih hr]

/-! ## Intervals -/

/-- What is below the roots of a forest, these included, are its numbers. -/
theorem Holds.under_iff {f : Forest (Kind × String)} (h : s.Holds k f) :
    (∃ r ∈ (f.numbered k).roots.map (·.2), ReflTransGen s.Under r j) ↔
      k ≤ j ∧ j < k + f.flatten.length := by
  induction f generalizing k with
  | nil =>
    constructor
    · rintro ⟨r, hr, -⟩
      cases hr
    · simp only [Forest.flatten, List.length_nil]
      omega
  | cons key below rest ihb ihr =>
    obtain ⟨⟨e, he, -, children⟩, hb, hr⟩ := h
    have first : ReflTransGen s.Under k j ↔
        j = k ∨ ∃ r ∈ (below.numbered (k + 1)).roots.map (·.2), ReflTransGen s.Under r j := by
      rw [ReflTransGen.cases_head_iff, eq_comm]
      refine or_congr_right (exists_congr fun c => and_congr_left fun _ => ?_)
      rw [← children]
      constructor
      · rintro ⟨e', he', hc⟩
        obtain rfl := Option.some.inj (he.symm.trans he')
        exact hc
      · exact fun hc => ⟨e, he, hc⟩
    rw [Forest.numbered, Forest.roots, List.map_cons, List.exists_mem_cons_iff, first, ihb hb, ihr hr,
      Forest.flatten, List.length_cons, List.length_append]
    omega

/-! ## Shapes -/

/-- Forests whose roots begin subtrees of one shape have one shape. -/
theorem Holds.shape_eq {f g : Forest (Kind × String)} (h : s.Holds i f) (h' : s'.Holds j g)
    (same : List.Forall₂ (SameShape s s') ((f.numbered i).roots.map (·.2))
      ((g.numbered j).roots.map (·.2))) : f.map (fun _ => ()) = g.map fun _ => () := by
  induction f generalizing i j g with
  | nil =>
    cases g with
    | nil => rfl
    | cons key below rest => cases same
  | cons key below rest ihb ihr =>
    cases g with
    | nil => cases same
    | cons key' below' rest' =>
      obtain ⟨⟨a, ha, -, children⟩, hb, hr⟩ := h
      obtain ⟨⟨b, hb', -, children'⟩, hi, hr'⟩ := h'
      obtain ⟨first, others⟩ := List.forall₂_cons.1 same
      obtain ⟨ha', hb'', inner⟩ := first
      obtain rfl := Option.some.inj (ha.symm.trans ha')
      obtain rfl := Option.some.inj (hb'.symm.trans hb'')
      rw [children, children'] at inner
      rw [Forest.map, Forest.map, ihb hb hi inner, ihr hr hr' others]

/-- The numbers of the roots move along with the first number. -/
theorem roots_numbered_add {α : Type} (f : Forest α) (k m : Nat) :
    (f.numbered (k + m)).roots.map (·.2) = ((f.numbered m).roots.map (·.2)).map (k + ·) := by
  induction f generalizing m with
  | nil => rfl
  | cons a below rest _ ih =>
    have next : k + m + 1 + below.flatten.length = k + (m + 1 + below.flatten.length) := by omega
    simp only [Forest.numbered, Forest.roots, List.map_cons, next, ih]

/-- The children of two entries are at the same distances from two indices. -/
def SameOffsets (i j : Nat) (a b : Entry) : Prop :=
  ∃ ms : List Nat, a.children = ms.map (i + ·) ∧ b.children = ms.map (j + ·)

/-- What is at the same distances from two indices is so from indices that are equally far before them. -/
theorem SameOffsets.farther {a b : Entry} {m : Nat} (h : SameOffsets (i + m) (j + m) a b) :
    SameOffsets i j a b := by
  obtain ⟨ms, ca, cb⟩ := h
  have shifted (i : Nat) : (ms.map (m + ·)).map (i + ·) = ms.map (i + m + ·) := by
    rw [List.map_map]
    exact List.map_congr_left fun x _ => (Nat.add_assoc i m x).symm
  exact ⟨ms.map (m + ·), by rw [ca, shifted], by rw [cb, shifted]⟩

/-- In forests of one shape the entries at equal distances have their children at equal distances. -/
theorem Holds.offsets {f g : Forest (Kind × String)} (h : s.Holds i f) (h' : s'.Holds j g)
    (same : f.map (fun _ => ()) = g.map fun _ => ()) (hk : k < f.flatten.length) :
    ∃ a b, s.get? (i + k) = some a ∧ s'.get? (j + k) = some b ∧ SameOffsets i j a b := by
  induction f generalizing i j k g with
  | nil => cases hk
  | cons key below rest ihb ihr =>
    cases g with
    | nil => cases same
    | cons key' below' rest' =>
      obtain ⟨⟨a, ha, -, children⟩, hb, hr⟩ := h
      obtain ⟨⟨b, hb', -, children'⟩, hi, hr'⟩ := h'
      obtain ⟨-, inner, behind⟩ := (Forest.cons.injEq ..).mp same
      have count : below'.flatten.length = below.flatten.length := by
        simpa using congrArg (fun f : Forest Unit => f.flatten.length) inner.symm
      rw [count, Nat.add_assoc] at hr'
      rw [Nat.add_assoc] at hr
      rw [Forest.flatten, List.length_cons, List.length_append] at hk
      rcases Nat.eq_zero_or_pos k with rfl | pos
      · refine ⟨a, b, ha, hb', (below.numbered 1).roots.map (·.2), ?_, ?_⟩
        · rw [children, roots_numbered_add]
        · rw [children', roots_numbered_add, ← roots_numbered_map (fun _ => ()) below', ← inner,
            roots_numbered_map]
      · by_cases here : k < 1 + below.flatten.length
        · obtain ⟨m, rfl⟩ : ∃ m, k = 1 + m := ⟨k - 1, by omega⟩
          obtain ⟨a, b, ha, hb, offsets⟩ := ihb hb hi inner (k := m) (by omega)
          rw [Nat.add_assoc] at ha hb
          exact ⟨a, b, ha, hb, offsets.farther⟩
        · obtain ⟨m, rfl⟩ := Nat.exists_eq_add_of_le (Nat.le_of_not_lt here)
          obtain ⟨a, b, ha, hb, offsets⟩ := ihr hr hr' behind (k := m) (by omega)
          rw [Nat.add_assoc] at ha hb
          exact ⟨a, b, ha, hb, offsets.farther⟩

/-! ## Snapshots of a diff -/

/-- Each entry of a snapshot begins the tree of its node. -/
theorem exists_tree_of_ofDiff (hs : ofDiff d t = .ok s) (he : s.get? i = some e) :
    ∃ below, d.Spans t (.tree e.origin below) ∧ Lists d s ((Forest.tree e.origin below).numbered i) ∧
      e.children = (below.numbered (i + 1)).roots.map (·.2) := by
  obtain ⟨f, spans, size, lists⟩ := exists_lists hs
  have inside := lt_size_of_get? he
  obtain ⟨n, below, parent, here, own, spans⟩ := lists.tree_at spans (Nat.zero_le i)
    (by rw [Forest.flatten_tree, List.length_cons]; omega)
  obtain rfl := Option.some.inj (he.symm.trans here)
  exact ⟨below, spans, own, rfl⟩

/-- The first entry is that of the root, which has no parent. -/
theorem first_of_ofDiff (hs : ofDiff d t = .ok s) :
    ∃ e, s.get? 0 = some e ∧ e.origin = Diff.root ∧ e.parent = none := by
  obtain ⟨f, spans, size, lists⟩ := exists_lists hs
  obtain ⟨⟨parent, here⟩, -, -⟩ := lists
  refine ⟨_, here, rfl, ?_⟩
  cases parent with
  | none => rfl
  | some p =>
    have before := (linked_of_ofDiff hs).before 0 _ p here rfl
    omega

/-- The children of an entry stand for those of its node. -/
theorem children_of_ofDiff (hs : ofDiff d t = .ok s) (he : s.get? i = some e) : ∃ cs,
    d.children e.origin t = .ok cs ∧
      e.children.map (fun c => (s.get? c).map (·.origin)) = cs.map some := by
  obtain ⟨below, ⟨inside, roots, -, -⟩, ⟨-, lists, -⟩, children⟩ := exists_tree_of_ofDiff hs he
  refine ⟨below.roots, ?_, ?_⟩
  · rw [Diff.children_eq inside, ← roots]
  · rw [children]
    exact lists.origins

theorem getElem?_sizes (he : s.get? i = some e) :
    (Greedy.sizes s)[i]? = some ((Greedy.sizes s).getD i 1) := by
  have inside : i < (Greedy.sizes s).size := by
    rw [size_sizes]
    exact lt_size_of_get? he
  rw [Array.getD_eq_getD_getElem?, Array.getElem?_eq_getElem inside, Option.getD_some]

/-- An entry has as many entries in its tree as its size says. -/
theorem Holds.size_eq {key : Kind × String} {below : Forest (Kind × String)}
    (h : s.Holds i (.tree key below)) :
    (Greedy.sizes s)[i]? = some (Forest.tree key below).flatten.length := by
  obtain ⟨e, he, -⟩ := h.1
  have own := h.sizes 0
  simp only [Forest.tree, Forest.numbered, Forest.roots, List.map_cons, List.map_nil,
    List.foldr_cons, List.foldr_nil, Nat.add_zero] at own
  rw [getElem?_sizes he, own, Forest.tree]

/-- Each entry of a snapshot holds a tree of kinds and texts. -/
theorem exists_holds_of_ofDiff (hs : ofDiff d t = .ok s) (he : s.get? i = some e) :
    ∃ key below, s.Holds i (.tree key below) := by
  obtain ⟨below, -, lists, -⟩ := exists_tree_of_ofDiff hs he
  exact ⟨_, _, lists.holds⟩

/-- The entries of a subtree are the next ones from its first entry on. -/
theorem under_iff_of_ofDiff (hs : ofDiff d t = .ok s) (he : s.get? i = some e) :
    ∃ size, (Greedy.sizes s)[i]? = some size ∧
      ∀ j, ReflTransGen s.Under i j ↔ i ≤ j ∧ j < i + size := by
  obtain ⟨key, below, holds⟩ := exists_holds_of_ofDiff hs he
  refine ⟨_, holds.size_eq, fun j => ?_⟩
  rw [← holds.under_iff]
  simp [Forest.tree, Forest.numbered, Forest.roots]

/-- Subtrees of one shape agree entry by entry at equal distances from their roots. -/
theorem offsets_of_ofDiff {d' : Diff} {t' : Time} (hs : ofDiff d t = .ok s)
    (hs' : ofDiff d' t' = .ok s') (same : SameShape s s' i j) :
    ∃ size, (Greedy.sizes s)[i]? = some size ∧ (Greedy.sizes s')[j]? = some size ∧
      ∀ k < size, ∃ a b, s.get? (i + k) = some a ∧ s'.get? (j + k) = some b ∧
        SameOffsets i j a b := by
  obtain ⟨he, he', -⟩ := id same
  obtain ⟨key, below, holds⟩ := exists_holds_of_ofDiff hs he
  obtain ⟨key', below', holds'⟩ := exists_holds_of_ofDiff hs' he'
  have shape := holds.shape_eq holds' (.cons same .nil)
  have count := congrArg (fun f : Forest Unit => f.flatten.length) shape
  simp only [Forest.flatten_map, List.length_map] at count
  refine ⟨_, holds.size_eq, ?_, ?_⟩
  · rw [holds'.size_eq, count]
  · intro k hk
    exact holds.offsets holds' shape hk

/-- A snapshot that was taken is a tree in preorder. The first entry is the root. The children of an
entry come in the order in which its node has them, and they are the entries that name it as their
parent. A subtree is an interval that begins with its root and is as long as its size says, and in
subtrees of one shape the entries at equal distances from the roots correspond. -/
theorem ofDiff_contiguous (hs : ofDiff d t = .ok s) :
    (∃ e, s.get? 0 = some e ∧ e.origin = Diff.root ∧ e.parent = none) ∧
    (∀ i e, s.get? i = some e →
      e.children.Pairwise (· < ·) ∧
      (∀ c, c ∈ e.children ↔ ∃ x, s.get? c = some x ∧ x.parent = some i) ∧
      (∃ cs, d.children e.origin t = .ok cs ∧
        e.children.map (fun c => (s.get? c).map (·.origin)) = cs.map some) ∧
      ∃ size, (Greedy.sizes s)[i]? = some size ∧
        ∀ j, ReflTransGen s.Under i j ↔ i ≤ j ∧ j < i + size) ∧
    ∀ {d' : Diff} {t' : Time} {s' : Snapshot}, ofDiff d' t' = .ok s' →
      ∀ i j, SameShape s s' i j → ∃ size,
        (Greedy.sizes s)[i]? = some size ∧ (Greedy.sizes s')[j]? = some size ∧
          ∀ k < size, ∃ a b, s.get? (i + k) = some a ∧ s'.get? (j + k) = some b ∧
            SameOffsets i j a b := by
  refine ⟨first_of_ofDiff hs, ?_, ?_⟩
  · intro i e he
    have linked := linked_of_ofDiff hs
    exact ⟨linked.order i e he, linked.child i e he, children_of_ofDiff hs he,
      under_iff_of_ofDiff hs he⟩
  · intro d' t' s' hs' i j same
    exact offsets_of_ofDiff hs hs' same

/-- Two runs of code below the root, and one below each of them. -/
def forked : Diff :=
  [newCode, newCode, newCode, newCode, .attachLast 0 1 .before, .attachLast 0 3 .before,
    .attachLast 1 2 .before, .attachLast 3 4 .before].foldl (fun d c => c.apply d) (.empty .unknown)

/-- The snapshot of the fork, of which the second and the fourth entry begin subtrees of one shape. -/
theorem forked_contiguous : ∃ s, ofDiff forked .before = .ok s ∧ SameShape s s 1 3 ∧
    (∃ e, s.get? 0 = some e ∧ e.origin = Diff.root ∧ e.parent = none) ∧
    (∀ j, ReflTransGen s.Under 1 j ↔ 1 ≤ j ∧ j < 3) ∧
    ∀ k < 2, ∃ a b, s.get? (1 + k) = some a ∧ s.get? (3 + k) = some b ∧ SameOffsets 1 3 a b := by
  obtain ⟨s, taken⟩ : ∃ s, ofDiff forked .before = .ok s := ⟨_, rfl⟩
  obtain ⟨first, each, shapes⟩ := ofDiff_contiguous taken
  have leaves : SameShape s s 2 4 := by
    obtain rfl := Except.ok.inj taken
    exact .intro rfl rfl .nil
  have same : SameShape s s 1 3 := by
    obtain rfl := Except.ok.inj taken
    exact .intro rfl rfl (.cons leaves .nil)
  have two : (Greedy.sizes s)[1]? = some 2 := by
    obtain rfl := Except.ok.inj taken
    decide
  obtain ⟨e, he⟩ : ∃ e, s.get? 1 = some e := by
    obtain rfl := Except.ok.inj taken
    exact ⟨_, rfl⟩
  refine ⟨s, taken, same, first, ?_, ?_⟩
  · obtain ⟨-, -, -, size, own, interval⟩ := each 1 e he
    obtain rfl := Option.some.inj (own.symm.trans two)
    exact interval
  · obtain ⟨size, own, -, offsets⟩ := shapes taken 1 3 same
    obtain rfl := Option.some.inj (own.symm.trans two)
    exact offsets

end Variation.Matching.Snapshot
