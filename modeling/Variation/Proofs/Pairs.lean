import Variation.Refinement
import Variation.Proofs.Outcomes
import Variation.Proofs.Snapshots

/-!
# The pairs a refinement works with

What a matcher gives is only used if it `Fits`: it keeps the pairs it was given, pairs the roots, and
pairs only entries of one kind. A refinement gives the matcher the pairs
that unchanged nodes form with themselves. In a twofold diff these can always be made, and so no pair
ever parts an unchanged node from itself.
-/

namespace Variation

open Matching (Snapshot Entry)
open Matching.Snapshot (Mirrors)

/-- A matching keeps its seed, pairs the roots, and pairs only entries of one kind. -/
structure Matching.Fits (m : Matching) (src dst : Snapshot) (seed : Matching) : Prop where
  keeps : ∀ s i, seed.dst? s = some i → m.dst? s = some i
  roots : m.dst? 0 = some 0
  pair : ∀ s i, m.dst? s = some i →
    ∃ a b, src.get? s = some a ∧ dst.get? i = some b ∧ a.kind = b.kind

namespace Matching

variable {src dst : Snapshot} {seed m : Matching} {s i : Nat}

@[simp] theorem dst?_empty : empty.dst? s = none := by simp [dst?, empty]

@[simp] theorem src?_empty : empty.src? i = none := by simp [src?, empty]

theorem dst?_empty_add {j k : Nat} : (empty.add s i).dst? j = some k ↔ j = s ∧ k = i := by
  rw [dst?_add]
  by_cases here : s = j
  · simp [here, eq_comm]
  · simp [here, Ne.symm here]

theorem mem_pairs_iff : (s, i) ∈ m.pairs ↔ m.dst? s = some i :=
  Std.TreeMap.mem_toList_iff_getElem?_eq_some

/-- Matchings with the same pairs agree in the other direction too. -/
theorem src?_congr {m' : Matching} (same : ∀ s i, m'.dst? s = some i ↔ m.dst? s = some i) (i : Nat) :
    m'.src? i = m.src? i :=
  Option.ext fun s => by rw [← dst?_iff, same, dst?_iff]

theorem has_eq_true_iff : m.has s i = true ↔ m.dst? s = some i := by
  rw [has, beq_iff_eq]

theorem dst?_of_keeps (h : m.keeps seed = true) (hs : seed.dst? s = some i) :
    m.dst? s = some i := by
  rw [keeps, List.all_eq_true] at h
  exact has_eq_true_iff.1 (h _ (mem_pairs_iff.2 hs))

theorem checkPair_eq_ok_iff : checkPair src dst m (s, i) = .ok () ↔
    m.src? i = some s ∧ ∃ a b, src.get? s = some a ∧ dst.get? i = some b ∧ a.kind = b.kind := by
  unfold checkPair
  cases hs : src.get? s with
  | none => simp [hs, reject]
  | some a =>
    cases hi : dst.get? i with
    | none => simp [hs, hi, reject]
    | some b =>
      by_cases kinds : a.kind = b.kind
      · by_cases back : m.src? i = some s
        · simp [hs, hi, kinds, back, pure, Except.pure]
        · simp [hs, hi, kinds, back, reject]
      · simp [hs, hi, kinds, reject]

theorem check_eq_ok_iff : check src dst m = .ok () ↔ m.dst? 0 = some 0 ∧
    (∀ p ∈ m.pairs, checkPair src dst m p = .ok ()) ∧ m.toDst.size = m.toSrc.size := by
  unfold check
  by_cases roots : m.has 0 0 = true
  · rw [roots, has_eq_true_iff.1 roots, Bool.not_true, if_neg Bool.false_ne_true,
      Outcome.seq_eq_ok_iff, Outcome.forM_eq_ok_iff]
    by_cases sizes : m.toDst.size = m.toSrc.size
    · simp [sizes, pure, Except.pure]
    · simp [sizes, reject]
  · rw [Bool.not_eq_true] at roots
    have apart : m.dst? 0 ≠ some 0 := fun e => by
      rw [has_eq_true_iff.2 e] at roots
      cases roots
    simp [roots, apart, reject]

end Matching

/-- What is used of a matcher fits. -/
theorem Matcher.fits_of_run {matcher : Matcher} {src dst : Snapshot} {seed m : Matching}
    (h : matcher.run src dst seed = .ok m) : m.Fits src dst seed := by
  obtain ⟨m', -, h⟩ := Outcome.bind_eq_ok_iff.1 h
  by_cases kept : m'.keeps seed = true
  · rw [kept, Bool.not_true, if_neg Bool.false_ne_true, Outcome.seq_eq_ok_iff,
      Outcome.pure_eq_ok_iff] at h
    obtain ⟨checked, rfl⟩ := h
    obtain ⟨roots, pairs, -⟩ := Matching.check_eq_ok_iff.1 checked
    refine ⟨fun s i hs => Matching.dst?_of_keeps kept hs, roots, fun s i hs => ?_⟩
    exact (Matching.checkPair_eq_ok_iff.1 (pairs _ (Matching.mem_pairs_iff.2 hs))).2
  · simp [kept, Matching.reject] at h

/-- What a matcher owes: the roots are paired, and every pair is of entries of one kind. -/
structure Matching.Obeys (m : Matching) (src dst : Snapshot) : Prop where
  roots : m.dst? 0 = some 0
  pair : ∀ s i, m.dst? s = some i → ∃ a b, src.get? s = some a ∧ dst.get? i = some b ∧ a.kind = b.kind

/-- No entry of a map is listed twice. -/
theorem Matching.nodup_toList (t : Std.TreeMap Nat Nat) : t.toList.Nodup :=
  Std.TreeMap.distinct_keys_toList.imp fun apart same => apart (by
    rw [same]
    exact Std.ReflCmp.compare_self)

/-- No pair of a matching comes twice. -/
theorem Matching.pairs_nodup (m : Matching) : m.pairs.Nodup :=
  nodup_toList m.toDst

/-- The two maps of a matching are of one size. -/
theorem Matching.size_eq (m : Matching) : m.toDst.size = m.toSrc.size := by
  have mem (p : Nat × Nat) : p.swap ∈ m.toDst.toList ↔ p ∈ m.toSrc.toList := by
    obtain ⟨i, s⟩ := p
    rw [Prod.swap_prod_mk, Std.TreeMap.mem_toList_iff_getElem?_eq_some,
      Std.TreeMap.mem_toList_iff_getElem?_eq_some]
    exact m.inverse s i
  have perm : (m.toDst.toList.map Prod.swap).Perm m.toSrc.toList := by
    rw [List.perm_ext_iff_of_nodup ((nodup_toList _).map Prod.swap_injective) (nodup_toList _)]
    intro p
    rw [← mem, List.mem_map]
    exact ⟨fun ⟨q, hq, e⟩ => by rwa [← e, Prod.swap_swap], fun h => ⟨p.swap, h, Prod.swap_swap p⟩⟩
  have lengths := perm.length_eq
  rwa [List.length_map, Std.TreeMap.length_toList, Std.TreeMap.length_toList] at lengths

/-- What obeys the contract and keeps the pairs it was given is accepted. -/
theorem Matcher.run_of_extends {matcher : Matcher} {src dst : Snapshot} {seed m : Matching}
    (h : matcher src dst seed = .ok m) (obeys : m.Obeys src dst)
    (kept : ∀ i j, seed.dst? i = some j → m.dst? i = some j) :
    matcher.run src dst seed = .ok m := by
  have keeps : m.keeps seed = true := by
    rw [Matching.keeps, List.all_eq_true]
    exact fun p hp => Matching.has_eq_true_iff.2 (kept _ _ (Matching.mem_pairs_iff.1 hp))
  have checked : Matching.check src dst m = .ok () := by
    refine Matching.check_eq_ok_iff.2 ⟨obeys.roots, fun p hp => ?_, m.size_eq⟩
    have pair := Matching.mem_pairs_iff.1 hp
    exact Matching.checkPair_eq_ok_iff.2 ⟨(m.dst?_iff ..).1 pair, obeys.pair _ _ pair⟩
  rw [Matcher.run, h, Outcome.ok_bind, keeps, checked]
  rfl

/-- What obeys the contract is accepted. -/
theorem Matcher.run_of_obeys {matcher : Matcher} {src dst : Snapshot} {m : Matching}
    (h : matcher src dst .empty = .ok m) (obeys : m.Obeys src dst) :
    matcher.run src dst .empty = .ok m :=
  Matcher.run_of_extends h obeys fun _ _ none => by simp at none

/-- No destination has two sources. -/
theorem Matching.source_inj {m : Matching} {i i' j : Nat} (hi : m.dst? i = some j)
    (hi' : m.dst? i' = some j) : i = i' :=
  Option.some.inj (((m.dst?_iff i j).1 hi).symm.trans ((m.dst?_iff i' j).1 hi'))

/-- A matching that pairs the roots and entries of one kind, between snapshots that hold the nodes of
two lists, each once. -/
structure Matching.Pairing (m : Matching) (d d' : Diff) (ns ms : List Handle)
    (src dst : Snapshot) : Prop where
  before : Mirrors d src (Diff.root :: ns)
  after : Mirrors d' dst (Diff.root :: ms)
  onceBefore : (Diff.root :: ns).Nodup
  onceAfter : (Diff.root :: ms).Nodup
  roots : m.dst? 0 = some 0
  pair : ∀ i j, m.dst? i = some j →
    ∃ a b, src.get? i = some a ∧ dst.get? j = some b ∧ a.kind = b.kind

namespace Matching.Pairing

variable {d d' : Diff} {ns ms : List Handle} {src dst : Snapshot} {m : Matching}
  {i j i' j' : Nat} {a a' b b' : Entry}

/-- A node comes once among the destinations. -/
theorem dst_inj (h : m.Pairing d d' ns ms src dst) (hb : dst.get? j = some b)
    (hb' : dst.get? j' = some b') (same : b.origin = b'.origin) : j = j' :=
  h.after.index_inj h.onceAfter hb hb' same

/-- A node comes once among the sources. -/
theorem src_inj (h : m.Pairing d d' ns ms src dst) (ha : src.get? i = some a)
    (ha' : src.get? i' = some a') (same : a.origin = a'.origin) : i = i' :=
  h.before.index_inj h.onceBefore ha ha' same

/-- The two entries of a pair are of one kind. -/
theorem kind_eq (h : m.Pairing d d' ns ms src dst) (hi : m.dst? i = some j) (ha : src.get? i = some a)
    (hb : dst.get? j = some b) : a.kind = b.kind := by
  obtain ⟨a', b', ha', hb', kinds⟩ := h.pair i j hi
  obtain rfl := Option.some.inj (ha.symm.trans ha')
  obtain rfl := Option.some.inj (hb.symm.trans hb')
  exact kinds

/-- A source whose destination stands for the root stands for the root. -/
theorem eq_root (h : m.Pairing d d' ns ms src dst) (ha : src.get? i = some a)
    (hi : m.dst? i = some j) (hb : dst.get? j = some b) (top : b.origin = Diff.root) :
    a.origin = Diff.root := by
  obtain ⟨b₀, hb₀, top₀⟩ := h.after.get?_of_getElem? (i := 0) rfl
  have first : j = 0 := h.dst_inj hb hb₀ (top.trans top₀.symm)
  subst first
  obtain rfl := Matching.source_inj hi h.roots
  have here := h.before.getElem? ha
  exact (Option.some.inj here).symm

end Matching.Pairing

namespace Refinement

variable {d : Diff} {src dst : Snapshot} {ns ms : List Handle} {n : Handle}

/-- The place of each node in a list of entries that holds no node twice. -/
theorem places_getElem? {es : List Entry} (once : (es.map (·.origin)).Nodup) (k : Nat)
    (places : Std.TreeMap Handle Nat) :
    ((es.zipIdx k).foldl (fun m (e, i) => m.insert e.origin i) places)[n]? =
      if n ∈ es.map (·.origin) then some (k + (es.map (·.origin)).idxOf n) else places[n]? := by
  induction es generalizing k places with
  | nil => simp
  | cons e es ih =>
    rw [List.map_cons] at once
    obtain ⟨new, once⟩ := List.nodup_cons.1 once
    rw [List.zipIdx_cons, List.foldl_cons, ih once, List.map_cons, Std.TreeMap.getElem?_insert]
    by_cases here : e.origin = n
    · subst here
      simp [new]
    · have other : compare e.origin n ≠ .eq := fun h => here (Std.LawfulEqOrd.eq_of_compare h)
      simp only [other, if_false, List.mem_cons, Ne.symm here, false_or, List.idxOf_cons_ne _ here]
      split
      · rw [Nat.succ_eq_add_one, Nat.add_right_comm, Nat.add_assoc]
      · rfl

/-- Pairs an entry with the place of its node, if the node is unchanged. -/
def pairOwn (d : Diff) (places : Std.TreeMap Handle Nat) (m : Matching) (p : Entry × Nat) :
    Outcome Matching := do
  if (← d.node p.1.origin).change = .unchanged then
    match places[p.1.origin]? with
    | none => .fail (.notRooted p.1.origin)
    | some i =>
      if m.admits p.2 i then return m.add p.2 i
      else .fail (.badMatching ("node " ++ p.1.origin.text ++ " is reachable twice"))
  else return m

/-- The unchanged nodes among the first sources are paired with themselves, and nothing else is. -/
structure Own (d : Diff) (src dst : Snapshot) (k : Nat) (m : Matching) : Prop where
  before : ∀ s i, m.dst? s = some i → s < k
  pair : ∀ s i, m.src? i = some s → s < k ∧
    ∃ a b, src.get? s = some a ∧ dst.get? i = some b ∧ b.origin = a.origin
  own : ∀ s a, s < k → src.get? s = some a → (d.look a.origin).change = .unchanged →
    ∃ i b, m.dst? s = some i ∧ dst.get? i = some b ∧ b.origin = a.origin

theorem own_empty : Own d src dst 0 .empty where
  before s i h := by simp at h
  pair s i h := by simp at h
  own s a h := absurd h (Nat.not_lt_zero s)

/-- A source that changed is not paired. -/
theorem Own.skip {k : Nat} {m : Matching} {e : Entry} (own : Own d src dst k m)
    (he : src.get? k = some e) (changed : (d.look e.origin).change ≠ .unchanged) :
    Own d src dst (k + 1) m := by
  refine ⟨fun s i h => Nat.lt_succ_of_lt (own.before s i h), fun s i h => ?_,
    fun s a lt ha unchanged => ?_⟩
  · obtain ⟨lt, found⟩ := own.pair s i h
    exact ⟨Nat.lt_succ_of_lt lt, found⟩
  · obtain lt | rfl := Nat.lt_succ_iff_lt_or_eq.1 lt
    · exact own.own s a lt ha unchanged
    · rw [he] at ha
      obtain rfl := Option.some.inj ha
      exact absurd unchanged changed

/-- A source is paired with an entry of the same node. -/
theorem Own.add {k i : Nat} {m : Matching} {e b : Entry} (own : Own d src dst k m)
    (he : src.get? k = some e) (hb : dst.get? i = some b) (origin : b.origin = e.origin)
    (freeSrc : m.dst? k = none) (freeDst : m.src? i = none) : Own d src dst (k + 1) (m.add k i) := by
  refine ⟨fun s i h => ?_, fun s i h => ?_, fun s a lt ha unchanged => ?_⟩
  · rw [Matching.dst?_add] at h
    split at h
    · next pair => exact pair.1 ▸ Nat.lt_succ_self k
    · exact Nat.lt_succ_of_lt (own.before s i h)
  · rw [Matching.src?_add] at h
    split at h
    · next pair =>
      obtain rfl := Option.some.inj h
      exact ⟨Nat.lt_succ_self _, e, b, he, pair.1 ▸ hb, origin⟩
    · obtain ⟨lt, found⟩ := own.pair s i h
      exact ⟨Nat.lt_succ_of_lt lt, found⟩
  · obtain lt | rfl := Nat.lt_succ_iff_lt_or_eq.1 lt
    · obtain ⟨i, b', hi, found⟩ := own.own s a lt ha unchanged
      refine ⟨i, b', ?_, found⟩
      rw [Matching.dst?_add, if_neg fun pair => absurd pair.1 (Nat.ne_of_gt lt), hi]
    · rw [he] at ha
      obtain rfl := Option.some.inj ha
      refine ⟨_, b, ?_, hb, origin⟩
      rw [Matching.dst?_add, if_pos ⟨rfl, freeSrc, freeDst⟩]

/-- The place of the next source is not taken: whoever took it stands for the same node and came
earlier. -/
theorem Own.free {k i : Nat} {m : Matching} {e b : Entry} (own : Own d src dst k m)
    (hsrc : Mirrors d src ns) (once : ns.Nodup) (he : src.get? k = some e) (hb : dst.get? i = some b)
    (origin : b.origin = e.origin) : m.src? i = none := by
  cases hi : m.src? i with
  | none => rfl
  | some s =>
    obtain ⟨lt, a, b', ha, hb', same⟩ := own.pair s _ hi
    rw [hb] at hb'
    obtain rfl := Option.some.inj hb'
    have here := hsrc.getElem? he
    have taken := hsrc.getElem? ha
    rw [← same, origin, ← here] at taken
    have equal : k = s :=
      (List.getElem?_inj (List.getElem?_eq_some_iff.1 here).1 once).1 taken.symm
    exact absurd equal (Nat.ne_of_gt lt)

/-- One more source is paired with itself if it is unchanged. -/
theorem Own.step {k : Nat} {m : Matching} {e : Entry} {places : Std.TreeMap Handle Nat}
    (own : Own d src dst k m) (hsrc : Mirrors d src ns) (hdst : Mirrors d dst ms) (once : ns.Nodup)
    (inStore : ∀ n ∈ ns, n < d.size)
    (shared : ∀ n ∈ ns, (d.look n).change = .unchanged → n ∈ ms)
    (hplaces : ∀ n ∈ ms, places[n]? = some (ms.idxOf n)) (he : src.get? k = some e) :
    ∃ m', pairOwn d places m (e, k) = .ok m' ∧ Own d src dst (k + 1) m' := by
  have mem : e.origin ∈ ns := List.mem_of_getElem? (hsrc.getElem? he)
  by_cases change : (d.look e.origin).change = .unchanged
  · have target := shared _ mem change
    have place : ms[ms.idxOf e.origin]? = some e.origin := by
      rw [List.getElem?_eq_getElem (List.idxOf_lt_length_of_mem target), List.getElem_idxOf]
    obtain ⟨b, hb, origin⟩ := hdst.get?_of_getElem? place
    have freeSrc : m.dst? k = none := by
      cases hk : m.dst? k with
      | none => rfl
      | some i => exact absurd (own.before k i hk) (Nat.lt_irrefl k)
    have freeDst := own.free hsrc once he hb origin
    have admits : m.admits k (ms.idxOf e.origin) = true := by
      simp [Matching.admits, freeSrc, freeDst]
    refine ⟨m.add k (ms.idxOf e.origin), ?_, own.add he hb origin freeSrc freeDst⟩
    simp only [pairOwn, Diff.node_look (inStore _ mem), Outcome.ok_bind, change,
      hplaces _ target, admits, if_true]
    rfl
  · refine ⟨m, ?_, own.skip he change⟩
    simp only [pairOwn, Diff.node_look (inStore _ mem), Outcome.ok_bind, change, if_false]
    rfl

theorem Own.run {k : Nat} {m : Matching} {places : Std.TreeMap Handle Nat} {es : List Entry}
    (own : Own d src dst k m) (hsrc : Mirrors d src ns) (hdst : Mirrors d dst ms) (once : ns.Nodup)
    (inStore : ∀ n ∈ ns, n < d.size)
    (shared : ∀ n ∈ ns, (d.look n).change = .unchanged → n ∈ ms)
    (hplaces : ∀ n ∈ ms, places[n]? = some (ms.idxOf n))
    (hes : ∀ i e, es[i]? = some e → src.get? (k + i) = some e) :
    ∃ m', (es.zipIdx k).foldlM (pairOwn d places) m = .ok m' ∧
      Own d src dst (k + es.length) m' := by
  induction es generalizing k m with
  | nil => exact ⟨m, rfl, own⟩
  | cons e es ih =>
    obtain ⟨m₁, run₁, own₁⟩ :=
      own.step hsrc hdst once inStore shared hplaces (hes 0 e rfl)
    obtain ⟨m', run', own'⟩ := ih own₁ fun i e' hi => by
      rw [Nat.add_assoc, Nat.add_comm 1]
      exact hes (i + 1) e' hi
    refine ⟨m', ?_, ?_⟩
    · rw [List.zipIdx_cons, List.foldlM_cons, run₁]
      exact run'
    · rw [List.length_cons, Nat.add_comm es.length, ← Nat.add_assoc]
      exact own'

/-- In a twofold diff every unchanged node can be paired with itself. -/
theorem ownPairs_spec {s : Sides (Forest Handle)} (h : d.Twofold s)
    (hsrc : Mirrors d src (Diff.root :: s.before.flatten))
    (hdst : Mirrors d dst (Diff.root :: s.after.flatten)) :
    ∃ seed, ownPairs d src dst = .ok seed ∧ ∀ i a, src.get? i = some a →
      (d.look a.origin).change = .unchanged →
      ∃ j b, seed.dst? i = some j ∧ dst.get? j = some b ∧ b.origin = a.origin := by
  have inStore (n) (hn : n ∈ Diff.root :: s.before.flatten) : n < d.size :=
    h.lt_size (t := .before) hn
  have shared (n) (hn : n ∈ Diff.root :: s.before.flatten)
      (change : (d.look n).change = .unchanged) : n ∈ Diff.root :: s.after.flatten :=
    h.here .before .after n hn ((Diff.unchanged_iff (inStore n hn)).1 change .after)
  have origins : dst.entries.toList.map (·.origin) = Diff.root :: s.after.flatten := by
    apply List.ext_getElem?
    intro i
    rw [List.getElem?_map, Array.getElem?_toList]
    exact hdst.origin i
  have onceAfter : (dst.entries.toList.map (·.origin)).Nodup := by
    rw [origins]
    exact (h.shape .after).once
  have hplaces (n) (hn : n ∈ Diff.root :: s.after.flatten) :
      (dst.entries.toList.zipIdx.foldl (fun m (e, i) => m.insert e.origin i)
        ({} : Std.TreeMap Handle Nat))[n]? =
        some ((Diff.root :: s.after.flatten).idxOf n) := by
    rw [places_getElem? onceAfter, origins, if_pos hn, Nat.zero_add]
  have listed (i : Nat) (e : Entry) (hi : src.entries.toList[i]? = some e) :
      src.get? (0 + i) = some e := by
    rw [Nat.zero_add, ← hi, Array.getElem?_toList]
    rfl
  obtain ⟨seed, run, own⟩ := own_empty.run hsrc hdst
    (h.shape .before).once inStore shared hplaces listed
  refine ⟨seed, run, fun i a ha unchanged => own.own i a ?_ ha unchanged⟩
  rw [Nat.zero_add, Array.length_toList]
  exact (Array.getElem?_eq_some_iff.1 ha).1

end Refinement

end Variation
