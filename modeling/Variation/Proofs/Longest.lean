import Variation.Proofs.Alignments
import Variation.Proofs.Maximal

/-!
# Aligning children along a longest common subsequence

The children of a pair that are still unpaired are aligned in two steps: like children at the beginning
of both lists are paired as they are, and the rest along the table. A common beginning belongs to some
longest common subsequence, since elements of one key can be exchanged for each other; and the table
holds at each place a longest common subsequence of what follows. So, whatever keys come several times,
no common subsequence of the keys is longer than what is aligned.
-/

namespace Variation.Matching

/-! ## Longest common subsequences -/

/-- The number of elements of a longest common subsequence of two lists. -/
structure LongestCommon {γ : Type} (n : Nat) (xs ys : List γ) : Prop where
  found : ∃ zs : List γ, zs.Sublist xs ∧ zs.Sublist ys ∧ zs.length = n
  most : ∀ zs : List γ, zs.Sublist xs → zs.Sublist ys → zs.length ≤ n

namespace LongestCommon

variable {γ : Type} {n k : Nat} {x y : γ} {xs ys : List γ}

theorem nil_left : LongestCommon 0 [] ys :=
  ⟨⟨[], List.nil_sublist _, List.nil_sublist _, rfl⟩, fun _ left _ => left.length_le⟩

theorem nil_right : LongestCommon 0 xs [] :=
  ⟨⟨[], List.nil_sublist _, List.nil_sublist _, rfl⟩, fun _ _ right => right.length_le⟩

/-- Equal first elements can always be taken: a common subsequence that does not begin with the two of
them loses one element at most. -/
theorem cons (h : LongestCommon n xs ys) : LongestCommon (n + 1) (x :: xs) (x :: ys) := by
  obtain ⟨zs, left, right, length⟩ := h.found
  refine ⟨⟨x :: zs, left.cons_cons x, right.cons_cons x, congrArg (· + 1) length⟩, ?_⟩
  intro zs left right
  cases zs with
  | nil => exact Nat.zero_le _
  | cons z zs => exact Nat.succ_le_succ (h.most zs left.tail right.tail)

/-- Of different first elements one is left out. -/
theorem of_ne (apart : x ≠ y) (h : LongestCommon n xs (y :: ys)) (h' : LongestCommon k (x :: xs) ys) :
    LongestCommon (max n k) (x :: xs) (y :: ys) := by
  refine ⟨?_, fun zs left right => ?_⟩
  · obtain le | le := Nat.le_total n k
    · obtain ⟨zs, left, right, length⟩ := h'.found
      exact ⟨zs, left, right.cons y, by rw [length, Nat.max_eq_right le]⟩
    · obtain ⟨zs, left, right, length⟩ := h.found
      exact ⟨zs, left.cons x, right, by rw [length, Nat.max_eq_left le]⟩
  · obtain without | ⟨r, rfl, -⟩ := List.sublist_cons_iff.1 left
    · exact Nat.le_trans (h.most zs without right) (Nat.le_max_left n k)
    · obtain without | ⟨r', same, -⟩ := List.sublist_cons_iff.1 right
      · exact Nat.le_trans (h'.most _ left without) (Nat.le_max_right n k)
      · exact absurd (List.cons.inj same).1 apart

end LongestCommon

/-! ## The table and the common beginning -/

section Keys

variable {α β γ : Type} {key : α → γ} {key' : β → γ}

/-- Elements of two lists are alike if they have one key. -/
def Keyed (like : α → β → Bool) (key : α → γ) (key' : β → γ) (xs : List α) (ys : List β) : Prop :=
  ∀ x ∈ xs, ∀ y ∈ ys, like x y = true ↔ key x = key' y

theorem Keyed.sublist {like : α → β → Bool} {xs xs' : List α} {ys ys' : List β}
    (h : Keyed like key key' xs ys) (sub : xs'.Sublist xs) (sub' : ys'.Sublist ys) :
    Keyed like key key' xs' ys' := fun x hx y hy => h x (sub.subset hx) y (sub'.subset hy)

/-- The best alignment of two lists is as long as a longest common subsequence of their keys. -/
theorem Alignment.longestCommon_longest {like : α → β → Bool} {xs : List α} {ys : List β}
    (same : Keyed like key key' xs ys) :
    LongestCommon (longest like xs ys).length (xs.map key) (ys.map key') := by
  induction xs generalizing ys with
  | nil => exact .nil_left
  | cons x xs ihx =>
    induction ys with
    | nil =>
      rw [longest_nil_right]
      exact .nil_right
    | cons y ys ihy =>
      have fewer := List.sublist_cons_self x xs
      have fewer' := List.sublist_cons_self y ys
      have first := same x List.mem_cons_self y List.mem_cons_self
      rw [longest_cons, List.map_cons, List.map_cons]
      by_cases alike : like x y = true
      · rw [if_pos alike, first.1 alike]
        exact (ihx (same.sublist fewer fewer')).cons
      · have down := ihx (same.sublist fewer (List.Sublist.refl _))
        have right := ihy (same.sublist (List.Sublist.refl _) fewer')
        have both := LongestCommon.of_ne (mt first.2 alike) down right
        rw [if_neg alike]
        split
        · next le => rwa [Nat.max_eq_left le] at both
        · next less => rwa [Nat.max_eq_right (Nat.le_of_not_le less)] at both

end Keys

namespace Greedy

section Lists

variable {γ : Type} {like : Nat → Nat → Bool} {key key' : Nat → γ} {ls rs : List Nat}

/-- The elements that are left of two lists behind their common beginning. -/
def leftOver (like : Nat → Nat → Bool) (ls rs : List Nat) : List Nat × List Nat :=
  (commonStart like ls rs).2

/-- The rests of two lists fit into a table. -/
def TableFits (like : Nat → Nat → Bool) (ls rs : List Nat) : Prop :=
  (leftOver like ls rs).1.length * (leftOver like ls rs).2.length ≤ tableLimit

instance : Decidable (TableFits like ls rs) := inferInstanceAs (Decidable (_ ≤ tableLimit))

theorem align_of_fits (fits : TableFits like ls rs) : align like ls rs = (commonStart like ls rs).1 ++
    (Alignment.longest like (leftOver like ls rs).1 (leftOver like ls rs).2).pairs := if_pos fits

/-- What is paired at the beginning of two lists and what is left of them make up the lists. -/
theorem commonStart_append (like : Nat → Nat → Bool) (ls rs : List Nat) :
    ls = (commonStart like ls rs).1.map Prod.fst ++ (leftOver like ls rs).1 ∧
      rs = (commonStart like ls rs).1.map Prod.snd ++ (leftOver like ls rs).2 := by
  unfold leftOver
  fun_induction commonStart like ls rs with
  | case1 l ls r rs here ps ls' rs' found ih =>
    rw [found] at ih
    exact ⟨congrArg (l :: ·) ih.1, congrArg (r :: ·) ih.2⟩
  | case2 l ls r rs apart => exact ⟨rfl, rfl⟩
  | case3 ls rs end_ => exact ⟨rfl, rfl⟩

/-- A common beginning lengthens a longest common subsequence of the rests by itself. -/
theorem longestCommon_commonStart {n : Nat} (same : Keyed like key key' ls rs)
    (h : LongestCommon n ((leftOver like ls rs).1.map key) ((leftOver like ls rs).2.map key')) :
    LongestCommon ((commonStart like ls rs).1.length + n) (ls.map key) (rs.map key') := by
  unfold leftOver at h
  fun_induction commonStart like ls rs with
  | case1 l ls r rs here ps ls' rs' found ih =>
    rw [found] at ih
    have rest := ih (same.sublist (List.sublist_cons_self l ls) (List.sublist_cons_self r rs)) h
    have first := (same l List.mem_cons_self r List.mem_cons_self).1 here
    rw [List.length_cons, Nat.add_right_comm, List.map_cons, List.map_cons, first]
    exact rest.cons
  | case2 l ls r rs apart => rwa [List.length_nil, Nat.zero_add]
  | case3 ls rs end_ => rwa [List.length_nil, Nat.zero_add]

/-- What is aligned of two lists is as long as a longest common subsequence of their keys. -/
theorem longestCommon_align (same : Keyed like key key' ls rs) (fits : TableFits like ls rs) :
    LongestCommon (align like ls rs).length (ls.map key) (rs.map key') := by
  obtain ⟨left, right⟩ := commonStart_append like ls rs
  have sub : (leftOver like ls rs).1.Sublist ls := by
    conv_rhs => rw [left]
    exact List.sublist_append_right _ _
  have sub' : (leftOver like ls rs).2.Sublist rs := by
    conv_rhs => rw [right]
    exact List.sublist_append_right _ _
  have rest := Alignment.longestCommon_longest (same.sublist sub sub')
  rw [(Alignment.sublist_longest like _ _).2.2] at rest
  rw [align_of_fits fits, List.length_append]
  exact longestCommon_commonStart same rest

/-- What is aligned stands in the order of both lists. -/
theorem sublist_align (fits : TableFits like ls rs) : ((align like ls rs).map Prod.fst).Sublist ls ∧
    ((align like ls rs).map Prod.snd).Sublist rs := by
  obtain ⟨left, right⟩ := commonStart_append like ls rs
  obtain ⟨sub, sub', -⟩ :=
    Alignment.sublist_longest like (leftOver like ls rs).1 (leftOver like ls rs).2
  rw [align_of_fits fits, List.map_append, List.map_append]
  constructor
  · conv_rhs => rw [left]
    exact sub.append_left _
  · conv_rhs => rw [right]
    exact sub'.append_left _

end Lists

end Greedy

/-! ## Adding pairs none of which is in the way of another -/

section Fresh

variable {m : Matching} {ps : List (Nat × Nat)} {i j : Nat}

/-- A matching that has exactly the pairs of another one and those of a list. -/
structure Gains (m m' : Matching) (ps : List (Nat × Nat)) : Prop where
  dst : ∀ i j, m'.dst? i = some j ↔ m.dst? i = some j ∨ (i, j) ∈ ps
  src : ∀ i j, m'.src? j = some i ↔ m.src? j = some i ∨ (i, j) ∈ ps
  size : m'.size = m.size + ps.length

theorem gains_add (free : m.dst? i = none) (free' : m.src? j = none) :
    m.Gains (m.add i j) [(i, j)] := by
  refine ⟨fun x y => ?_, fun x y => ?_, ?_⟩
  · rw [dst?_add, List.mem_singleton, Prod.mk.injEq]
    obtain rfl | other := eq_or_ne i x
    · simp [free, free', eq_comm]
    · simp [other, other.symm]
  · rw [src?_add, List.mem_singleton, Prod.mk.injEq]
    obtain rfl | other := eq_or_ne j y
    · simp [free, free', eq_comm]
    · simp [other, other.symm]
  · have absent : ¬ m.toDst.contains i = true := by
      rw [Std.TreeMap.contains_eq_isSome_getElem?]
      exact Option.not_isSome_iff_eq_none.2 free
    have added : (m.add i j).toDst = m.toDst.insert i j := by rw [add, dif_pos ⟨free, free'⟩]
    rw [size, added, Std.TreeMap.size_insert, if_neg absent]
    rfl

/-- Pairs of free entries, no two of which share a side, are all added. -/
theorem gains_addAll (free : ∀ p ∈ ps, m.dst? p.1 = none ∧ m.src? p.2 = none)
    (once : (ps.map Prod.fst).Nodup) (once' : (ps.map Prod.snd).Nodup) :
    m.Gains (m.addAll ps) ps := by
  induction ps generalizing m with
  | nil => exact ⟨fun _ _ => by simp [addAll], fun _ _ => by simp [addAll], rfl⟩
  | cons p ps ih =>
    obtain ⟨⟨freeSrc, freeDst⟩, free⟩ := List.forall_mem_cons.1 free
    obtain ⟨apart, once⟩ := List.nodup_cons.1 once
    obtain ⟨apart', once'⟩ := List.nodup_cons.1 once'
    have first := gains_add freeSrc freeDst
    -- the pair that was added does not stand in the way of the others
    have others : ∀ q ∈ ps, (m.add p.1 p.2).dst? q.1 = none ∧ (m.add p.1 p.2).src? q.2 = none := by
      intro q hq
      have left : p.1 ≠ q.1 := fun e => apart (e ▸ List.mem_map_of_mem hq)
      have right : p.2 ≠ q.2 := fun e => apart' (e ▸ List.mem_map_of_mem hq)
      rw [dst?_add, src?_add, if_neg fun e => left e.1, if_neg fun e => right e.1]
      exact free q hq
    have rest := ih others once once'
    refine ⟨fun x y => ?_, fun x y => ?_, ?_⟩
    · rw [List.mem_cons, ← or_assoc, ← List.mem_singleton (a := (x, y)), ← first.dst]
      exact rest.dst x y
    · rw [List.mem_cons, ← or_assoc, ← List.mem_singleton (a := (x, y)), ← first.src]
      exact rest.src x y
    · have count := first.size
      rw [List.length_singleton] at count
      rw [List.length_cons, ← Nat.add_assoc, Nat.add_right_comm, ← count]
      exact rest.size

end Fresh

/-! ## The children of an entry -/

namespace Snapshot

variable {d : Diff} {t : Time} {s : Snapshot}

/-- The children of every entry are entries, in the order of their indices. -/
def Ordered (s : Snapshot) : Prop :=
  ∀ i e, s.get? i = some e → e.children.Pairwise (· < ·) ∧ ∀ c ∈ e.children, c < s.size

theorem ordered_of_ofDiff (hs : ofDiff d t = .ok s) : s.Ordered := by
  intro i e he
  have linked := linked_of_ofDiff hs
  exact ⟨linked.order i e he, linked.child_lt_size he⟩

/-- The kind and the label of an entry. -/
def key? (s : Snapshot) (i : Nat) : Option (Kind × String) := (s.get? i).map Entry.key

end Snapshot

/-- The sources of a list that are unpaired. -/
def freeSrcs (m : Matching) (is : List Nat) : List Nat := is.filter fun i => !m.hasSrc i

/-- The destinations of a list that are unpaired. -/
def freeDsts (m : Matching) (js : List Nat) : List Nat := js.filter fun j => !m.hasDst j

theorem mem_freeSrcs {m : Matching} {is : List Nat} {i : Nat} :
    i ∈ m.freeSrcs is ↔ i ∈ is ∧ m.dst? i = none := by
  rw [freeSrcs, List.mem_filter, not_hasSrc]

theorem mem_freeDsts {m : Matching} {js : List Nat} {j : Nat} :
    j ∈ m.freeDsts js ↔ j ∈ js ∧ m.src? j = none := by
  rw [freeDsts, List.mem_filter, not_hasDst]

namespace Greedy

variable {d e : Diff} {t u : Time} {src dst : Snapshot} {m : Matching} {a b : Entry} {i j : Nat}

/-- Entries of two snapshots are alike if they have one kind and one label. -/
theorem keyed_alike {ls rs : List Nat} (within : ∀ l ∈ ls, l < src.size)
    (within' : ∀ r ∈ rs, r < dst.size) : Keyed (alike src dst) src.key? dst.key? ls rs := by
  intro l hl r hr
  obtain ⟨x, hx⟩ : ∃ x, src.get? l = some x := ⟨_, Array.getElem?_eq_getElem (within l hl)⟩
  obtain ⟨y, hy⟩ : ∃ y, dst.get? r = some y := ⟨_, Array.getElem?_eq_getElem (within' r hr)⟩
  rw [alike_iff, Snapshot.key?, Snapshot.key?, hx, hy]
  simp

/-- The alignment of children is a longest common subsequence: for the unpaired children of an entry and
of its counterpart, in order, if what is left of them behind their common beginning fits into the
table, exactly as many pairs are added as a longest common subsequence of their kinds and labels has
elements; the two sides of each have the same kind and label; and they are in order on both sides. -/
theorem alignChildren_longest (taken : Snapshot.ofDiff d t = .ok src)
    (taken' : Snapshot.ofDiff e u = .ok dst) (ha : src.get? i = some a) (hb : dst.get? j = some b)
    (fits : TableFits (alike src dst) (m.freeSrcs a.children) (m.freeDsts b.children)) :
    ∃ ps m', alignChildren src dst a j m = .ok m' ∧ m.Gains m' ps ∧
      LongestCommon ps.length ((m.freeSrcs a.children).map src.key?)
        ((m.freeDsts b.children).map dst.key?) ∧
      (∀ p ∈ ps, p.1 ∈ m.freeSrcs a.children ∧ p.2 ∈ m.freeDsts b.children ∧ ∃ x y,
        src.get? p.1 = some x ∧ dst.get? p.2 = some y ∧ x.kind = y.kind ∧ x.label = y.label) ∧
      ps.Pairwise (fun p q => p.1 < q.1 ∧ p.2 < q.2) := by
  obtain ⟨order, within⟩ := Snapshot.ordered_of_ofDiff taken i a ha
  obtain ⟨order', within'⟩ := Snapshot.ordered_of_ofDiff taken' j b hb
  let ps := align (alike src dst) (m.freeSrcs a.children) (m.freeDsts b.children)
  have run : alignChildren src dst a j m = .ok (m.addAll ps) := by
    rw [alignChildren, get_of_get? hb]
    rfl
  have sub : (m.freeSrcs a.children).Sublist a.children := List.filter_sublist
  have sub' : (m.freeDsts b.children).Sublist b.children := List.filter_sublist
  have keyed : Keyed (alike src dst) src.key? dst.key? (m.freeSrcs a.children)
      (m.freeDsts b.children) :=
    keyed_alike (fun l hl => within l (sub.subset hl)) fun r hr => within' r (sub'.subset hr)
  obtain ⟨left, right⟩ := sublist_align fits
  have rising : (ps.map Prod.fst).Pairwise (· < ·) := order.sublist (left.trans sub)
  have rising' : (ps.map Prod.snd).Pairwise (· < ·) := order'.sublist (right.trans sub')
  have members : ∀ p ∈ ps, p.1 ∈ m.freeSrcs a.children ∧ p.2 ∈ m.freeDsts b.children := fun p hp =>
    ⟨left.subset (List.mem_map_of_mem hp), right.subset (List.mem_map_of_mem hp)⟩
  have added : m.Gains (m.addAll ps) ps := gains_addAll (fun p hp =>
    ⟨(mem_freeSrcs.1 (members p hp).1).2, (mem_freeDsts.1 (members p hp).2).2⟩)
    (rising.imp Nat.ne_of_lt) (rising'.imp Nat.ne_of_lt)
  refine ⟨ps, m.addAll ps, run, added, longestCommon_align keyed fits,
    fun p hp => ⟨(members p hp).1, (members p hp).2, ?_⟩,
    (List.pairwise_map.1 rising).and (List.pairwise_map.1 rising')⟩
  obtain ⟨x, y, hx, hy, same⟩ := alike_iff.1 (align_spec (R := Akin src dst) (fun _ _ _ _ h => h) p hp)
  exact ⟨x, y, hx, hy, congrArg Prod.fst same, congrArg Prod.snd same⟩

/-- Behind a line that begins both texts, two lines are common to the rests, of which one comes twice in
the first text and the order of which is not the same. -/
theorem alignChildren_longest_three : ∃ before after src dst a b,
    Reading.diff " x\n y\n z\n w\n y\n" {} .unknown .preprocessor = .ok before ∧
    Reading.diff " x\n w\n y\n z\n" {} .unknown .preprocessor = .ok after ∧
    Snapshot.ofDiff before .before = .ok src ∧ Snapshot.ofDiff after .after = .ok dst ∧
    src.get? 0 = some a ∧ dst.get? 0 = some b ∧
    TableFits (alike src dst) ((Matching.empty.add 0 0).freeSrcs a.children)
      ((Matching.empty.add 0 0).freeDsts b.children) ∧
    LongestCommon 3 (((Matching.empty.add 0 0).freeSrcs a.children).map src.key?)
      (((Matching.empty.add 0 0).freeDsts b.children).map dst.key?) := by
  have run : (do
      let before ← Reading.diff " x\n y\n z\n w\n y\n" {} .unknown .preprocessor
      let after ← Reading.diff " x\n w\n y\n z\n" {} .unknown .preprocessor
      let src ← Snapshot.ofDiff before .before
      let dst ← Snapshot.ofDiff after .after
      let a ← src.get 0
      let b ← dst.get 0
      let m ← alignChildren src dst a 0 (Matching.empty.add 0 0)
      return (decide (TableFits (alike src dst) ((Matching.empty.add 0 0).freeSrcs a.children)
        ((Matching.empty.add 0 0).freeDsts b.children)), m.size) : Outcome _).toOption =
      some (true, 4) := by
    decide +kernel
  obtain ⟨before, hb, rest⟩ := Outcome.bind_eq_ok_iff.1 (Outcome.eq_ok_of_toOption run)
  obtain ⟨after, ha, rest⟩ := Outcome.bind_eq_ok_iff.1 rest
  obtain ⟨src, hsrc, rest⟩ := Outcome.bind_eq_ok_iff.1 rest
  obtain ⟨dst, hdst, rest⟩ := Outcome.bind_eq_ok_iff.1 rest
  obtain ⟨a, first, rest⟩ := Outcome.bind_eq_ok_iff.1 rest
  obtain ⟨b, first', rest⟩ := Outcome.bind_eq_ok_iff.1 rest
  obtain ⟨m, aligned, rest⟩ := Outcome.bind_eq_ok_iff.1 rest
  simp only [Outcome.pure_eq_ok_iff, Prod.mk.injEq, decide_eq_true_eq] at rest
  obtain ⟨fits, size⟩ := rest
  have top : src.get? 0 = some a := get?_of_get first
  have top' : dst.get? 0 = some b := get?_of_get first'
  obtain ⟨ps, m', run', gains, longest, -⟩ := alignChildren_longest hsrc hdst top top' fits
  obtain rfl := Except.ok.inj (run'.symm.trans aligned)
  have three : ps.length = 3 := by
    have count := gains.size
    have one : (Matching.empty.add 0 0).size = 1 := by decide +kernel
    omega
  rw [three] at longest
  exact ⟨before, after, src, dst, a, b, hb, ha, hsrc, hdst, top, top', fits, longest⟩

end Greedy

end Variation.Matching
