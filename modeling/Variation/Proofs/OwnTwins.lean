import Variation.Proofs.Saturated

/-!
# The greedy matcher on one tree

Given the same tree twice, the greedy matcher pairs every entry with itself, however often subtrees are
repeated. It pairs subtrees in the order of their sources, so while it does, the pairs are those of the
entries up to a place with themselves. The next source has its parent among them. The entries that
share its digest are listed in order, those before it are taken, and so it is the first free one below
the counterpart of its parent. Nothing about the digests is assumed.
-/

namespace Variation.Matching

/-! ## Parents -/

/-- Every entry but the first one has a parent. -/
def Snapshot.Fostered (s : Snapshot) : Prop :=
  ∀ i e, s.get? i = some e → i ≠ 0 → ∃ p, e.parent = some p

namespace Snapshot

variable {d : Diff} {t : Time} {s : Snapshot} {f : Forest Handle} {parent : Option Nat} {n : Handle}

theorem Fostered.push (h : s.Fostered) (inside : ∀ p, parent = some p → p < s.size)
    (given : s.size ≠ 0 → ∃ p, parent = some p) : (s.push (d.look n) n parent).Fostered := by
  intro i e he below
  rw [get?_push inside] at he
  split at he
  · next new =>
    obtain rfl := Option.some.inj he
    exact given (new ▸ below)
  · obtain ⟨x, hx, rfl⟩ := Option.map_eq_some_iff.1 he
    rw [parent_withChildren]
    exact h i x hx below

theorem Fostered.pushForest {p : Nat} (h : s.Fostered) (inside : p < s.size) :
    (s.pushForest d f (some p)).Fostered := by
  induction f generalizing s p with
  | nil => exact h
  | cons n below rest ihb ihr =>
    have within : ∀ q, some p = some q → q < s.size := fun q e => Option.some.inj e ▸ inside
    have pushed : (s.push (d.look n) n (some p)).size = s.size + 1 := size_push ..
    have inner : s.size < (s.push (d.look n) n (some p)).size := pushed ▸ Nat.lt_succ_self _
    have inside' : ∀ q, some s.size = some q → q < (s.push (d.look n) n (some p)).size :=
      fun q e => Option.some.inj e ▸ inner
    obtain ⟨size, -, -⟩ := pushForest_spec (d := d) (f := below) inside'
    refine ihr (ihb (h.push within fun _ => ⟨p, rfl⟩) inner) ?_
    rw [size]
    omega

theorem fostered_of_ofDiff (hd : d.Regular) (h : d.Shape t f) (hs : ofDiff d t = .ok s) :
    s.Fostered := by
  rw [ofDiff_eq hd h] at hs
  obtain rfl := Except.ok.inj hs
  have none : (⟨#[]⟩ : Snapshot).Fostered := fun i e he => by simp [get?] at he
  have top : ((⟨#[]⟩ : Snapshot).push (d.look Diff.root) Diff.root Option.none).Fostered :=
    none.push (by rintro p ⟨⟩) fun some => absurd rfl some
  exact top.pushForest (f := f) (p := 0) (Nat.zero_lt_succ 0)

end Snapshot

/-! ## Pairs of entries with themselves -/

/-- The entries up to a place are paired with themselves, and no others are paired. -/
structure Fixes (m : Matching) (k : Nat) : Prop where
  dst : ∀ i, m.dst? i = if i < k then some i else none
  src : ∀ j, m.src? j = if j < k then some j else none

section Fixes

variable {m : Matching} {k : Nat}

theorem fixes_empty : empty.Fixes 0 := ⟨by simp, by simp⟩

theorem Fixes.add (h : m.Fixes k) : (m.add k k).Fixes (k + 1) := by
  have free : m.dst? k = none := by simp [h.dst]
  have free' : m.src? k = none := by simp [h.src]
  refine ⟨fun i => ?_, fun j => ?_⟩
  · rw [dst?_add, h.dst i]
    simp only [free, free', and_self, and_true]
    obtain rfl | other := eq_or_ne k i
    · simp
    · have less : i < k + 1 ↔ i < k := by omega
      simp only [if_neg other, less]
  · rw [src?_add, h.src j]
    simp only [free, free', and_self, and_true]
    obtain rfl | other := eq_or_ne k j
    · simp
    · have less : j < k + 1 ↔ j < k := by omega
      simp only [if_neg other, less]

/-- The entries of a subtree that comes next are paired with themselves one after the other. -/
theorem Fixes.addAll (h : m.Fixes k) (n : Nat) :
    (m.addAll (Greedy.shifted k k n)).Fixes (k + n) := by
  induction n with
  | zero => exact h
  | succ n ih =>
    have last : Greedy.shifted k k (n + 1) = Greedy.shifted k k n ++ [(k + n, k + n)] := by
      simp [Greedy.shifted, List.range_succ]
    rw [last, Matching.addAll, List.foldl_append]
    exact ih.add

end Fixes

namespace Greedy

variable {hash : String → String} {s : Snapshot} {m : Matching} {i k : Nat} {g : String}
  {f : Forest (Kind × String)}

/-- The entries that have a digest are listed in order. -/
theorem pairwise_bearers (s : Snapshot) (g : String) : (bearers hash s g).Pairwise (· < ·) := by
  have listed := (List.filter_sublist (p := (·.1 == g)) (l := (digests hash s).toList.zipIdx)).map
    Prod.snd
  rw [List.zipIdx_map_snd] at listed
  rw [bearers, places_getD]
  exact (List.pairwise_lt_range' ..).sublist listed

/-- The first of the places in order that are not below one of them is that place. -/
theorem exists_cons_of_pairwise {is : List Nat} (order : is.Pairwise (· < ·)) (hk : k ∈ is) :
    ∃ rest, is.filter (fun i => decide (k ≤ i)) = k :: rest := by
  have order' := order.filter fun i => decide (k ≤ i)
  have mem : k ∈ is.filter fun i => decide (k ≤ i) := List.mem_filter.2 ⟨hk, by simp⟩
  cases left : is.filter fun i => decide (k ≤ i) with
  | nil =>
    rw [left] at mem
    cases mem
  | cons i rest =>
    have least : k ≤ i := by
      have here : i ∈ is.filter fun i => decide (k ≤ i) := left ▸ List.mem_cons_self
      exact of_decide_eq_true (List.mem_filter.1 here).2
    rw [left] at mem order'
    obtain rfl | mem := List.mem_cons.1 mem
    · exact ⟨rest, rfl⟩
    · have less := (List.pairwise_cons.1 order').1 k mem
      omega

/-- The entries of a subtree are in the snapshot. -/
theorem exists_size (hf : s.Spells f) (hi : i < s.size) :
    ∃ n, (sizes s).getD i 0 = n + 1 ∧ i + n < s.size := by
  have inside : i < (sizes s).size := Snapshot.size_sizes ▸ hi
  obtain ⟨key, below, here⟩ := hf.tree_at hi
  have count := here.sizes 0
  simp only [Forest.tree, Forest.numbered, Forest.roots, List.map_cons, List.map_nil,
    List.foldr_cons, List.foldr_nil, Nat.add_zero, Forest.flatten, List.length_cons,
    List.append_nil, Array.getD_eq_getD_getElem?, Array.getElem?_eq_getElem inside,
    Option.getD_some] at count
  refine ⟨below.flatten.length, ?_, ?_⟩
  · rw [Array.getD_eq_getD_getElem?, Array.getElem?_eq_getElem inside, Option.getD_some, count]
  · have last : below.flatten.length < (Forest.tree key below).flatten.length := by simp
    obtain ⟨e, he, -⟩ := here.get? (List.getElem?_eq_getElem last)
    exact Snapshot.lt_size_of_get? he

/-- The source that comes next has itself as its twin: its parent is paired, and the others that have
its digest come later or are taken. -/
theorem twin?_self (hm : m.Fixes k) (hf : s.Spells f) (hs : s.Enrolled) (ht : s.Fostered)
    (first : k ≠ 0) (hk : k < s.size) : twin? s s (places (digests hash s))
      (places (digests hash s)) (digestAt hash s k) k m = some k := by
  obtain ⟨a, ha⟩ : ∃ a, s.get? k = some a := ⟨_, Array.getElem?_eq_getElem hk⟩
  obtain ⟨p, hp⟩ := ht k a ha first
  obtain ⟨b, hb, child⟩ := hs k a p ha hp
  have above : p < k := hf.later hb k child
  have paired : m.dst? p = some p := by rw [hm.dst, if_pos above]
  have untaken : (fun i => !m.hasDst i) = fun i => decide (k ≤ i) := by
    funext i
    rw [hasDst_eq, hm.src]
    by_cases lt : i < k
    · simp [lt]
    · simp [lt, Nat.le_of_not_lt lt]
  obtain ⟨rest, free⟩ := exists_cons_of_pairwise (pairwise_bearers s (digestAt hash s k))
    (mem_bearers_self hash hk)
  have free : ((places (digests hash s)).getD (digestAt hash s k) []).filter (fun i => !m.hasDst i) =
      k :: rest := by
    rw [untaken]
    exact free
  simp [twin?, free, ha, hp, paired]

/-- Pairing the subtree of the next source, or of one that is paired already. -/
theorem fixes_pairTwin (hm : m.Fixes k) (hf : s.Spells f) (hs : s.Enrolled) (ht : s.Fostered)
    (first : i ≠ 0) (hi : i < s.size) (le : i ≤ k) (within : k ≤ s.size) :
    ∃ k', (pairTwin hash s s m i).Fixes k' ∧ i + 1 ≤ k' ∧ k' ≤ s.size := by
  rw [pairTwin]
  obtain rfl | less := Nat.eq_or_lt_of_le le
  · have free : m.hasSrc i = false := by
      rw [hasSrc_eq, hm.dst, if_neg (Nat.lt_irrefl i)]
      rfl
    obtain ⟨n, size, inside⟩ := exists_size hf hi
    rw [free, if_neg Bool.false_ne_true, twin?_self hm hf hs ht first hi, size]
    exact ⟨i + (n + 1), hm.addAll (n + 1), by omega, by omega⟩
  · have taken : m.hasSrc i = true := by
      rw [hasSrc_eq, hm.dst, if_pos less]
      rfl
    rw [if_pos taken]
    exact ⟨k, hm, less, within⟩

/-- Once all sources were visited, every entry is paired with itself. -/
theorem fixes_pairTwins (hm : m.Fixes 1) (hf : s.Spells f) (hs : s.Enrolled) (ht : s.Fostered)
    (filled : 0 < s.size) : (pairTwins hash s s m).Fixes s.size := by
  have all (n i k : Nat) (m : Matching) (hm : m.Fixes k) (first : i ≠ 0) (le : i ≤ k)
      (within : k ≤ s.size) (last : i + n = s.size) :
      ((List.range' i n).foldl (pairTwin hash s s) m).Fixes s.size := by
    induction n generalizing i k m with
    | zero =>
      obtain rfl : k = s.size := by omega
      exact hm
    | succ n ih =>
      obtain ⟨k', hm', le', within'⟩ := fixes_pairTwin hm hf hs ht first (by omega) le within
      rw [List.range'_succ, List.foldl_cons]
      exact ih (i + 1) k' _ hm' (Nat.succ_ne_zero i) le' within' (by omega)
  rw [pairTwins_eq]
  exact all (s.size - 1) 1 1 m hm Nat.one_ne_zero (Nat.le_refl 1) filled (by omega)

/-- If every entry is paired, there is nothing left to align. -/
theorem Full.of_fixes (hm : m.Fixes s.size) : Full s s m i := by
  intro j a b _ _ _ l _ r _ free _ akin
  obtain ⟨e, -, he, -⟩ := alike_iff.1 akin
  have inside : l < s.size := Snapshot.lt_size_of_get? he
  rw [hm.dst, if_pos inside] at free
  cases free

/-- The greedy matcher pairs every entry of a tree with itself. -/
theorem matcherWith_self (hf : s.Spells f) (hs : s.Enrolled) (ht : s.Fostered)
    (filled : 0 < s.size) : ∃ m, matcherWith hash s s .empty = .ok m ∧ m.Fixes s.size := by
  have fixed : (pairTwins hash s s (Matching.empty.add 0 0)).Fixes s.size :=
    fixes_pairTwins fixes_empty.add hf hs ht filled
  have partner {i : Nat} {a : Entry} (ha : s.get? i = some a) {j : Nat}
      (hj : (pairTwins hash s s (Matching.empty.add 0 0)).dst? i = some j) : s.get? j = some a := by
    have inside : i < s.size := Snapshot.lt_size_of_get? ha
    rw [fixed.dst, if_pos inside] at hj
    exact Option.some.inj hj ▸ ha
  have aligned := forPairs_idle fun i a j ha hj =>
    (Full.of_fixes fixed).alignChildren_eq ha hj (partner ha hj)
  have rest := forPairs_idle fun i a j ha hj =>
    (Full.of_fixes fixed).pairLeftovers_eq ha hj (partner ha hj)
  have admits : Matching.empty.admits 0 0 = true := by simp [admits]
  refine ⟨_, ?_, fixed⟩
  rw [matcherWith, if_neg (by omega), admits, if_neg (by simp)]
  dsimp only
  rw [aligned, Outcome.ok_bind, rest]

/-- The greedy matcher pairs two snapshots of one tree entry by entry, and keeps its contract. -/
theorem run_alike {src dst : Snapshot} (alike : src.Alike dst) (hf : dst.Spells f)
    (hs : dst.Enrolled) (ht : dst.Fostered) (filled : 0 < dst.size) :
    ∃ m, Matcher.greedy.run src dst .empty = .ok m ∧ m.Fixes dst.size := by
  obtain ⟨m, asked, fixed⟩ : ∃ m, matcherWith Text.Digest.ofText dst dst .empty = .ok m ∧
      m.Fixes dst.size := matcherWith_self hf hs ht filled
  refine ⟨m, Matcher.run_of_obeys ((matcherWith_alike alike rfl).trans asked) ?_, fixed⟩
  refine ⟨by rw [fixed.dst, if_pos filled], fun i j pair => ?_⟩
  rw [fixed.dst, Option.ite_none_right_eq_some] at pair
  obtain ⟨inside, same⟩ := pair
  obtain rfl := Option.some.inj same
  obtain ⟨b, hb⟩ : ∃ b, dst.get? i = some b := ⟨_, Array.getElem?_eq_getElem inside⟩
  obtain ⟨a, ha, same⟩ := Snapshot.Alike.exists_get? (Eq.symm alike) hb
  have kind : a.bare.kind = b.bare.kind := congrArg Entry.kind same
  exact ⟨a, b, ha, hb, kind⟩

end Greedy

end Variation.Matching
