import Variation.Proofs.Alignments
import Variation.Proofs.OwnTwins

/-!
# Pairs that the greedy matcher finds again

A saturated matching is given without one of its pairs. Nothing else can be added to it, so the greedy
matcher gives the pair back, unless one of its sides goes to another entry first. The main statement says
when that is ruled out. If the subtrees of the pair have one digest, they are paired in the first phase,
as the foremost ones below a pair or as the only ones; entries below them that stand at one place must
then not both be unpaired. If the subtrees differ, nothing may pair one of them as a whole in the first
phase. The pair is then found among the children of a pair, and which of several like children are
aligned decides.
-/

namespace Variation.Matching

/-! ## Parents and children -/

namespace Snapshot

variable {d : Diff} {t : Time} {s : Snapshot} {f : Forest Handle} {parent : Option Nat} {n : Handle}

/-- The parent of an entry. -/
def parent? (s : Snapshot) (i : Nat) : Option Nat := (s.get? i).bind (·.parent)

/-- Every child of an entry names it as its parent. -/
def Filial (s : Snapshot) : Prop :=
  ∀ p e c, s.get? p = some e → c ∈ e.children → s.parent? c = some p

theorem Filial.push (h : s.Filial) (inside : ∀ p, parent = some p → p < s.size) :
    (s.push (d.look n) n parent).Filial := by
  intro p e c he hc
  have old {k q : Nat} (hq : s.parent? k = some q) :
      (s.push (d.look n) n parent).parent? k = some q := by
    obtain ⟨x, hx, below⟩ := Option.bind_eq_some_iff.1 hq
    have lt : k < s.size := lt_size_of_get? hx
    rw [parent?, get?_push inside, if_neg (Nat.ne_of_lt lt), hx]
    exact (parent_withChildren k [s.size] x).trans below
  rw [get?_push inside] at he
  split at he
  · obtain rfl := Option.some.inj he
    cases hc
  · obtain ⟨x, hx, rfl⟩ := Option.map_eq_some_iff.1 he
    rw [withChildren] at hc
    split at hc
    · next here =>
      obtain mem | new := List.mem_append.1 hc
      · exact old (h p x c hx mem)
      · rw [List.mem_singleton.1 new, parent?, get?_push inside, if_pos rfl]
        exact here
    · exact old (h p x c hx hc)

theorem filial_of_ofDiff (hd : d.Regular) (h : d.Shape t f) (hs : ofDiff d t = .ok s) :
    s.Filial := by
  rw [ofDiff_eq hd h] at hs
  obtain rfl := Except.ok.inj hs
  have none : (⟨#[]⟩ : Snapshot).Filial := fun i e p he => by simp [get?] at he
  exact keeps_pushForest (by rintro p ⟨⟩) (fun _ _ _ inside h => h.push inside) none

end Snapshot

/-! ## A matching without one of its pairs -/

/-- A matching has the pairs of another one but for a pair. -/
structure Lacks (m m' : Matching) (i j : Nat) : Prop where
  dst : ∀ x, m'.dst? x = if x = i then none else m.dst? x
  src : ∀ y, m'.src? y = if y = j then none else m.src? y

/-- A matching has the pairs of another one. -/
structure Repeats (m m' : Matching) : Prop where
  dst : ∀ x, m'.dst? x = m.dst? x
  src : ∀ y, m'.src? y = m.src? y

theorem Repeats.of_iff {m m' : Matching} (iff : ∀ x y, m'.dst? x = some y ↔ m.dst? x = some y) :
    m.Repeats m' :=
  ⟨fun x => Option.ext (iff x), src?_congr iff⟩

section Lacks

variable {m m' : Matching} {i j x y : Nat} {ps : List (Nat × Nat)}

theorem Lacks.of_dst (h : m.Lacks m' i j) (pair : m'.dst? x = some y) : x ≠ i ∧ m.dst? x = some y := by
  rw [h.dst] at pair
  split at pair
  · cases pair
  · next other => exact ⟨other, pair⟩

theorem Lacks.dst_eq_none (h : m.Lacks m' i j) : m'.dst? x = none ↔ x = i ∨ m.dst? x = none := by
  rw [h.dst]
  by_cases here : x = i <;> simp [here]

theorem Lacks.src_eq_none (h : m.Lacks m' i j) : m'.src? y = none ↔ y = j ∨ m.src? y = none := by
  rw [h.src]
  by_cases here : y = j <;> simp [here]

/-- The pair of the roots is there still if another one is missing. -/
theorem Lacks.roots (h : m.Lacks m' i j) (roots : m.dst? 0 = some 0)
    (pair : m.dst? i = some j) (below : i ≠ 0) : m'.dst? 0 = some 0 ∧ m'.src? 0 = some 0 := by
  have roots' : m.src? 0 = some 0 := (m.dst?_iff 0 0).1 roots
  have other : 0 ≠ j := by
    rintro rfl
    exact below (source_inj pair roots)
  rw [h.dst, h.src, if_neg below.symm, if_neg other]
  exact ⟨roots, roots'⟩

theorem Lacks.of_iff (pair : m.dst? i = some j)
    (iff : ∀ x y, m'.dst? x = some y ↔ m.dst? x = some y ∧ x ≠ i) : m.Lacks m' i j := by
  refine ⟨fun x => Option.ext fun y => ?_, fun y => Option.ext fun x => ?_⟩
  · rw [iff]
    by_cases here : x = i <;> simp [here]
  · rw [← dst?_iff, iff, dst?_iff]
    by_cases here : y = j
    · subst here
      rw [(m.dst?_iff i y).1 pair]
      simp [eq_comm]
    · rw [if_neg here]
      refine and_iff_left_of_imp fun paired => ?_
      rintro rfl
      exact here (Option.some.inj (((m.dst?_iff x y).2 paired).symm.trans pair))

/-- The pair that lacks can be added. -/
theorem Lacks.add (h : m.Lacks m' i j) (pair : m.dst? i = some j) (pair' : m.src? j = some i) :
    m.Repeats (m'.add i j) := by
  have free : m'.dst? i = none := h.dst_eq_none.2 (.inl rfl)
  have free' : m'.src? j = none := h.src_eq_none.2 (.inl rfl)
  refine ⟨fun x => ?_, fun y => ?_⟩
  · rw [dst?_add, h.dst x]
    obtain rfl | other := eq_or_ne x i
    · rw [if_pos ⟨rfl, free, free'⟩, pair]
    · rw [if_neg fun e => other e.1.symm, if_neg other]
  · rw [src?_add, h.src y]
    obtain rfl | other := eq_or_ne y j
    · rw [if_pos ⟨rfl, free, free'⟩, pair']
    · rw [if_neg fun e => other e.1.symm, if_neg other]

/-- Pairs of which a side is taken are not added. -/
theorem addAll_of_taken (h : ∀ p ∈ ps, m.dst? p.1 ≠ none ∨ m.src? p.2 ≠ none) : m.addAll ps = m := by
  induction ps with
  | nil => rfl
  | cons p ps ih =>
    obtain ⟨here, rest⟩ := List.forall_mem_cons.1 h
    have stays : m.add p.1 p.2 = m := add_of_taken (not_and_or.2 here)
    rw [addAll, List.foldl_cons, stays]
    exact ih rest

theorem Repeats.addAll_of_taken (h : m.Repeats m')
    (taken : ∀ p ∈ ps, m.dst? p.1 ≠ none ∨ m.src? p.2 ≠ none) : m'.addAll ps = m' :=
  Matching.addAll_of_taken fun p hp => by
    rw [h.dst, h.src]
    exact taken p hp

end Lacks

namespace Greedy

variable {hash : String → String} {src dst : Snapshot} {m m' : Matching} {i j : Nat}

/-! ## What tells a pair -/

/-- Below a pair no unpaired source stands where an unpaired destination stands. -/
def Aligned (src : Snapshot) (m : Matching) (i j : Nat) : Prop :=
  ∀ k, 1 ≤ k → k < (sizes src).getD i 0 → m.dst? (i + k) ≠ none ∨ m.src? (j + k) ≠ none

/-- The parents of a pair are a pair. -/
structure Nested (src dst : Snapshot) (m : Matching) (i j p q : Nat) : Prop where
  parent : src.parent? i = some p
  parent' : dst.parent? j = some q
  pair : m.dst? p = some q

/-- No unpaired sibling in front of one of the two has its digest. -/
structure Foremost (hash : String → String) (src dst : Snapshot) (m : Matching) (i j p q : Nat) :
    Prop where
  before : ∀ l < i, src.parent? l = some p → m.dst? l = none →
    digestAt hash src l ≠ digestAt hash src i
  after : ∀ r < j, dst.parent? r = some q → m.src? r = none →
    digestAt hash dst r ≠ digestAt hash dst j

/-- No unpaired sibling has the digest of the other one of the two, and no unpaired entry is the only one
besides it that has it. -/
structure Unclaimed (hash : String → String) (src dst : Snapshot) (m : Matching) (i j p q : Nat) :
    Prop where
  before : ∀ l, src.parent? l = some p → m.dst? l = none → digestAt hash src l ≠ digestAt hash dst j
  after : ∀ r, dst.parent? r = some q → m.src? r = none → digestAt hash dst r ≠ digestAt hash src i
  sole : ∀ l, m.dst? l = none → ¬ Sole hash src dst l j
  sole' : ∀ r, m.src? r = none → ¬ Sole hash src dst i r

/-- The children of an entry that are unpaired, and one that may be paired. -/
def waiting (s : Snapshot) (paired : Nat → Bool) (p c : Nat) : List Nat :=
  (((s.get? p).map (·.children)).getD []).filter fun k => k == c || !paired k

section Waiting

variable {s : Snapshot} {paired : Nat → Bool} {p c k : Nat} {e : Entry} (he : s.get? p = some e)

include he

theorem waiting_eq : waiting s paired p c = e.children.filter fun k => k == c || !paired k := by
  rw [waiting, he]
  rfl

theorem mem_waiting : k ∈ waiting s paired p c ↔ k ∈ e.children ∧ (k = c ∨ (!paired k) = true) := by
  rw [waiting_eq he, List.mem_filter, Bool.or_eq_true, beq_iff_eq]

theorem pairwise_waiting (order : e.children.Pairwise (· < ·)) :
    (waiting s paired p c).Pairwise (· < ·) := waiting_eq he ▸ order.filter _

end Waiting

/-- Of the children of their parents that are like them, the two of a pair are those that are taken. -/
def Taken (src dst : Snapshot) (m : Matching) (i j p q : Nat) : Prop :=
  Takes (alike src dst) (waiting src m.hasSrc p i) (waiting dst m.hasDst q j) i j

/-- What makes the matcher find a pair on its own account: the subtrees have one digest, and are the
foremost ones below a pair or the only ones; or the subtrees differ, nothing else takes one of the two as
a whole subtree, and they are taken among the children of a pair. -/
inductive Evident (hash : String → String) (src dst : Snapshot) (m : Matching) (i j : Nat) : Prop where
  | foremost {p q : Nat} (nested : Nested src dst m i j p q)
    (same : digestAt hash src i = digestAt hash dst j) (aligned : Aligned src m i j)
    (foremost : Foremost hash src dst m i j p q)
  | sole (sole : Sole hash src dst i j) (aligned : Aligned src m i j)
  | taken {p q : Nat} (nested : Nested src dst m i j p q)
    (other : digestAt hash src i ≠ digestAt hash dst j) (unclaimed : Unclaimed hash src dst m i j p q)
    (taken : Taken src dst m i j p q)

/-! ## Whole subtrees -/

/-- A source is paired with its twin as whole subtrees. -/
theorem pairTwin_of_twin? {f : Forest (Kind × String)} (hf : src.Spells f) (hi : i < src.size)
    (free : m.dst? i = none)
    (found : twin? src dst (places (digests hash src)) (places (digests hash dst))
      (digestAt hash src i) i m = some j) : ∃ n, (sizes src).getD i 0 = n + 1 ∧
      pairTwin hash src dst m i =
        (m.add i j).addAll ((List.range n).map fun o => (i + (o + 1), j + (o + 1))) := by
  obtain ⟨n, size⟩ := sizes_getD_succ hf hi
  have unpaired : m.hasSrc i = false := by rw [hasSrc_eq, free]; rfl
  refine ⟨n, size, ?_⟩
  rw [pairTwin, unpaired, if_neg Bool.false_ne_true, found]
  dsimp only
  rw [size, shifted_succ]
  rfl

section Regained

variable {f g : Forest (Kind × String)} {m₁ : Matching} {l r : Nat} (h : Saturated hash src dst m)
  (hf : src.Spells f) (hg : dst.Spells g) (discerns : Discerns hash src dst)
  (hs : src.Enrolled) (hd : dst.Enrolled)

include h hf hg discerns hs hd

/-- Without a pair, an unpaired source has no twin but the destination of the pair. -/
theorem eq_of_twin? (lacks : m.Lacks m₁ i j) (first : 1 ≤ l) (hl : l < src.size)
    (unpaired : m.dst? l = none) (found : twin? src dst (places (digests hash src))
      (places (digests hash dst)) (digestAt hash src l) l m₁ = some r) : r = j := by
  obtain ⟨free, bears, twin⟩ := twin?_spec found
  obtain rfl | free := lacks.src_eq_none.1 free
  · rfl
  · refine absurd (twin.imp_left ?_) (h.not_twin hf hg discerns hs hd first hl unpaired free bears)
    rintro ⟨a, p, q, b, ha, hp, hq, hb, below⟩
    exact ⟨a, p, q, b, ha, hp, (lacks.of_dst hq).2, hb, below⟩

/-- If a pair is found in its turn and no source before it takes its destination, pairing subtrees gives
the pairs back. -/
theorem pairTwins_repeats (pair : m.dst? i = some j) (lacks : m.Lacks m' i j) (first : 1 ≤ i)
    (hi : i < src.size)
    (aligned : Aligned src m i j)
    (before : ∀ l, 1 ≤ l → l < i → m.dst? l = none → twin? src dst (places (digests hash src))
      (places (digests hash dst)) (digestAt hash src l) l m' ≠ some j)
    (found : twin? src dst (places (digests hash src)) (places (digests hash dst))
      (digestAt hash src i) i m' = some j) : m.Repeats (pairTwins hash src dst m') := by
  have idle (l : Nat) (one : 1 ≤ l) (lt : l < i) : pairTwin hash src dst m' l = m' := by
    refine pairTwin_of_twinless fun unpaired => Option.eq_none_iff_forall_ne_some.2 fun r twin => ?_
    have unpaired := (lacks.dst_eq_none.1 unpaired).resolve_left (Nat.ne_of_lt lt)
    obtain rfl := eq_of_twin? h hf hg discerns hs hd lacks one (Nat.lt_trans lt hi) unpaired twin
    exact before l one lt unpaired twin
  obtain ⟨n, size, step⟩ := pairTwin_of_twin? hf hi (lacks.dst_eq_none.2 (.inl rfl)) found
  have whole : m.Repeats (pairTwin hash src dst m' i) := by
    have added := lacks.add pair ((m.dst?_iff i j).1 pair)
    rw [step, added.addAll_of_taken]
    · exact added
    · intro p hp
      obtain ⟨o, ho, rfl⟩ := List.mem_map.1 hp
      have lt := List.mem_range.1 ho
      exact aligned (o + 1) (Nat.succ_pos o) (by omega)
  have split : List.range' 1 (src.size - 1) =
      List.range' 1 (i - 1) ++ i :: List.range' (i + 1) (src.size - 1 - i) := by
    have rest : i :: List.range' (i + 1) (src.size - 1 - i) =
        List.range' (1 + (i - 1)) (src.size - i) := by
      rw [show 1 + (i - 1) = i by omega, show src.size - i = src.size - 1 - i + 1 by omega,
        List.range'_succ]
    rw [rest, List.range'_append_1]
    congr 1
    omega
  have saturated := h.congr whole.dst whole.src
  have start : (List.range' 1 (i - 1)).foldl (pairTwin hash src dst) m' = m' :=
    foldl_idle fun l hl => by
      rw [List.mem_range'_1] at hl
      exact idle l hl.1 (by omega)
  have rest : (List.range' (i + 1) (src.size - 1 - i)).foldl (pairTwin hash src dst)
      (pairTwin hash src dst m' i) = pairTwin hash src dst m' i :=
    foldl_idle fun l hl => by
      rw [List.mem_range'_1] at hl
      exact saturated.pairTwin_eq hf hg discerns hs hd (by omega) (by omega)
  rw [pairTwins_eq, split, List.foldl_append, List.foldl_cons, start, rest]
  exact whole

omit h hf hg discerns hs hd in
/-- Of entries in order, the first one that is asked for. -/
theorem find?_of_pairwise {is : List Nat} {p : Nat → Bool} (order : is.Pairwise (· < ·))
    (mem : j ∈ is) (here : p j = true) (others : ∀ r ∈ is, r < j → p r = false) :
    is.find? p = some j := by
  induction is with
  | nil => cases mem
  | cons x is ih =>
    obtain ⟨less, order⟩ := List.pairwise_cons.1 order
    obtain rfl | mem := List.mem_cons.1 mem
    · rw [List.find?_cons_of_pos here]
    · have other : p x = false := others x List.mem_cons_self (less j mem)
      rw [List.find?_cons_of_neg (by rw [other]; exact Bool.false_ne_true)]
      exact ih order mem fun r hr => others r (List.mem_cons_of_mem x hr)

omit h hf hg discerns hs hd in
theorem twin?_of_find? {p q : Nat} (parent : src.parent? i = some p) (pair : m.dst? p = some q)
    (found : ((bearers hash dst (digestAt hash src i)).filter fun d => !m.hasDst d).find?
      (fun d => (dst.get? d).bind (·.parent) == some q) = some j) :
    twin? src dst (places (digests hash src)) (places (digests hash dst)) (digestAt hash src i) i m =
      some j := by
  obtain ⟨a, ha, hp⟩ := Option.bind_eq_some_iff.1 parent
  have twin : (do
      let expected ← m.dst? (← (← src.get? i).parent)
      ((bearers hash dst (digestAt hash src i)).filter fun d => !m.hasDst d).find?
        fun d => (dst.get? d).bind (·.parent) == some expected) = some j := by
    simp only [ha, hp, pair, Option.bind_eq_bind, Option.bind_some, found]
  rw [twin?, Option.or_eq_some_iff]
  exact .inl twin

omit h hf hg discerns hs hd in
/-- The first free subtree below the counterpart of the parent is the twin. -/
theorem twin?_of_nested {p q : Nat} (nested : Nested src dst m i j p q) (free : m.src? j = none)
    (bears : j ∈ bearers hash dst (digestAt hash src i))
    (after : ∀ r < j, dst.parent? r = some q → m.src? r = none →
      r ∉ bearers hash dst (digestAt hash src i)) :
    twin? src dst (places (digests hash src)) (places (digests hash dst)) (digestAt hash src i) i m =
      some j := by
  refine twin?_of_find? nested.parent nested.pair
    (find?_of_pairwise ((pairwise_bearers dst _).filter _) ?_ ?_ fun r hr lt => ?_)
  · exact List.mem_filter.2 ⟨bears, not_hasDst.2 free⟩
  · exact beq_iff_eq.2 nested.parent'
  · rw [List.mem_filter, not_hasDst] at hr
    exact beq_eq_false_iff_ne.2 fun below => after r lt below hr.2 hr.1

omit h hg discerns hd in
theorem Nested.of_lacks {p q : Nat} (nested : Nested src dst m i j p q) (lacks : m.Lacks m' i j) :
    Nested src dst m' i j p q := by
  refine ⟨nested.parent, nested.parent', ?_⟩
  obtain ⟨a, ha, hp⟩ := Option.bind_eq_some_iff.1 nested.parent
  obtain ⟨e, he, child⟩ := hs i a p ha hp
  rw [lacks.dst, if_neg (Nat.ne_of_lt (hf.later he i child)), nested.pair]

omit h hf hg discerns hs hd in
/-- What is paired with the parent of the destination is the parent of the source. -/
theorem Nested.eq_of_target {p q p' q' : Nat} (nested : Nested src dst m i j p q)
    (parent : dst.parent? j = some q') (paired : m.dst? p' = some q') : p' = p := by
  obtain rfl := Option.some.inj (nested.parent'.symm.trans parent)
  exact source_inj paired nested.pair

omit h hf hg discerns hs hd in
/-- What the parent of the source is paired with is the parent of the destination. -/
theorem Nested.eq_of_source {p q p' q' : Nat} (nested : Nested src dst m i j p q)
    (parent : src.parent? i = some p') (paired : m.dst? p' = some q') : q' = q := by
  obtain rfl := Option.some.inj (nested.parent.symm.trans parent)
  exact Option.some.inj (paired.symm.trans nested.pair)

/-- The first subtrees with a digest below paired parents are paired again. -/
theorem repeats_of_foremost {p q : Nat} (pair : m.dst? i = some j)
    (lacks : m.Lacks m' i j) (one : 1 ≤ i) (hi : i < src.size) (nested : Nested src dst m i j p q)
    (same : digestAt hash src i = digestAt hash dst j) (aligned : Aligned src m i j)
    (foremost : Foremost hash src dst m i j p q) : m.Repeats (pairTwins hash src dst m') := by
  obtain ⟨b, hb, -⟩ := Option.bind_eq_some_iff.1 nested.parent'
  have bears : j ∈ bearers hash dst (digestAt hash src i) :=
    same ▸ mem_bearers_self hash (Snapshot.lt_size_of_get? hb)
  refine pairTwins_repeats h hf hg discerns hs hd pair lacks one hi aligned
    (fun l hl lt unpaired found => ?_) ?_
  · obtain ⟨-, bears', twin⟩ := twin?_spec found
    have digest : digestAt hash src l = digestAt hash src i :=
      (digestAt_of_mem bears').2.symm.trans same.symm
    obtain ⟨a, p', q', b', ha, hp, hq, hb', below⟩ | ⟨one, -⟩ := twin
    · have parent' : dst.parent? j = some q' := Option.bind_eq_some_iff.2 ⟨b', hb', below⟩
      obtain rfl := nested.eq_of_target parent' (lacks.of_dst hq).2
      exact foremost.before l lt (Option.bind_eq_some_iff.2 ⟨a, ha, hp⟩) unpaired digest
    · obtain ⟨x, hx⟩ := List.length_eq_one_iff.1 one
      have own := mem_bearers_self hash (Nat.lt_trans lt hi)
      have own' := mem_bearers_self hash hi
      rw [← digest, hx, List.mem_singleton] at own'
      rw [hx, List.mem_singleton] at own
      omega
  · refine twin?_of_nested (nested.of_lacks hf hs lacks) (lacks.src_eq_none.2 (.inl rfl)) bears
      fun r lt below free bears' => ?_
    have free := (lacks.src_eq_none.1 free).resolve_left (Nat.ne_of_lt lt)
    exact foremost.after r lt below free ((digestAt_of_mem bears').2.trans same)

/-- The only subtrees with a digest are paired again. -/
theorem repeats_of_sole (pair : m.dst? i = some j) (lacks : m.Lacks m' i j)
    (one : 1 ≤ i) (hi : i < src.size) (sole : Sole hash src dst i j) (aligned : Aligned src m i j) :
    m.Repeats (pairTwins hash src dst m') := by
  have bears : j ∈ bearers hash dst (digestAt hash src i) := sole.2 ▸ List.mem_cons_self
  refine pairTwins_repeats h hf hg discerns hs hd pair lacks one hi aligned
    (fun l hl lt unpaired found => ?_) ?_
  · have digest : digestAt hash src l = digestAt hash src i :=
      (digestAt_of_mem (twin?_spec found).2.1).2.symm.trans (digestAt_of_mem bears).2
    have own := mem_bearers_self hash (Nat.lt_trans lt hi)
    rw [digest, sole.1, List.mem_singleton] at own
    omega
  · cases found : twin? src dst (places (digests hash src)) (places (digests hash dst))
      (digestAt hash src i) i m' with
    | none => exact absurd (lacks.src_eq_none.2 (.inl rfl)) (taken_of_twin?_eq_none found sole)
    | some r =>
      have bears' := (twin?_spec found).2.1
      rw [sole.2, List.mem_singleton] at bears'
      rw [bears']

/-- If the subtrees differ and nothing else takes one of the two, no subtrees are paired. -/
theorem pairTwins_of_unclaimed {p q : Nat} (lacks : m.Lacks m' i j)
    (nested : Nested src dst m i j p q) (other : digestAt hash src i ≠ digestAt hash dst j)
    (unclaimed : Unclaimed hash src dst m i j p q) : pairTwins hash src dst m' = m' := by
  rw [pairTwins_eq]
  refine foldl_idle fun l hl => ?_
  rw [List.mem_range'_1] at hl
  have inside : l < src.size := by omega
  refine pairTwin_of_twinless fun unpaired => Option.eq_none_iff_forall_ne_some.2 fun r found => ?_
  obtain ⟨free, bears, twin⟩ := twin?_spec found
  have digest := (digestAt_of_mem bears).2
  by_cases self : l = i
  · subst self
    obtain rfl | free := lacks.src_eq_none.1 free
    · exact other digest.symm
    · obtain ⟨a, p', q', b, ha, hp, hq, hb, below⟩ | ⟨one, one'⟩ := twin
      · obtain rfl := nested.eq_of_source (Option.bind_eq_some_iff.2 ⟨a, ha, hp⟩)
          (lacks.of_dst hq).2
        exact unclaimed.after r (Option.bind_eq_some_iff.2 ⟨b, hb, below⟩) free digest
      · exact unclaimed.sole' r free (sole_of_length inside bears one one')
  · have unpaired := (lacks.dst_eq_none.1 unpaired).resolve_left self
    obtain rfl := eq_of_twin? h hf hg discerns hs hd lacks hl.1 inside unpaired found
    obtain ⟨a, p', q', b, ha, hp, hq, hb, below⟩ | ⟨one, one'⟩ := twin
    · obtain rfl := nested.eq_of_target (Option.bind_eq_some_iff.2 ⟨b, hb, below⟩)
        (lacks.of_dst hq).2
      exact unclaimed.before l (Option.bind_eq_some_iff.2 ⟨a, ha, hp⟩) unpaired digest.symm
    · exact unclaimed.sole l unpaired (sole_of_length inside bears one one')

/-! ## The children of pairs -/

omit h hf hg discerns hs hd in
/-- What is like the partner of an entry is like all that is like the entry. -/
theorem alike_of_alike {l r : Nat} (hl : alike src dst l j = true) (hi : alike src dst i j = true)
    (hr : alike src dst i r = true) : alike src dst l r = true := by
  obtain ⟨a, b, ha, hb, first⟩ := alike_iff.1 hl
  obtain ⟨a', b', ha', hb', second⟩ := alike_iff.1 hi
  obtain ⟨a'', c, ha'', hc, third⟩ := alike_iff.1 hr
  obtain rfl := Option.some.inj (hb.symm.trans hb')
  obtain rfl := Option.some.inj (ha'.symm.trans ha'')
  exact alike_iff.2 ⟨a, c, ha, hc, first.trans (second.symm.trans third)⟩

omit h hf hg discerns hs hd in
/-- If two entries are taken, all that are alike are like one of them, or like the other one. -/
theorem Taken.common {p q : Nat} (taken : Taken src dst m i j p q) (akin : Akin src dst i j) :
    Alignment.Common (alike src dst) (waiting src m.hasSrc p i) (waiting dst m.hasDst q j) i j := by
  refine .of_shared akin (fun l hl r hr like => ?_) fun l r => alike_of_alike
  exact (taken l hl r hr like).imp And.left And.left

omit hf hg discerns hs hd in
/-- Below other pairs nothing that waits is alike. -/
theorem full_elsewhere (hs' : src.Filial) (hd' : dst.Filial) {p q x : Nat}
    (nested : Nested src dst m i j p q) (lacks : m.Lacks m₁ i j) (other : x ≠ p) :
    Full src dst m₁ x := by
  intro y a b paired ha hb l hl r hr free free'
  have paired := (lacks.of_dst paired).2
  have parent := hs' x a l ha hl
  have parent' := hd' y b r hb hr
  obtain rfl | free := lacks.dst_eq_none.1 free
  · exact absurd (Option.some.inj (parent.symm.trans nested.parent)) other
  obtain rfl | free' := lacks.src_eq_none.1 free'
  · exact absurd (nested.eq_of_target parent' paired) other
  · exact h.full x (Snapshot.lt_size_of_get? ha) y a b paired ha hb l hl r hr free free'

section Children

variable {p q : Nat} {a b : Entry} (ha : src.get? p = some a) (hb : dst.get? q = some b)

omit h hf hg discerns hs hd

include ha in
/-- The children that a matching without the pair leaves unpaired. -/
theorem filter_hasSrc_of_lacks (lacks : m.Lacks m' i j) :
    (a.children.filter fun c => !m'.hasSrc c) = waiting src m.hasSrc p i := by
  rw [waiting_eq ha]
  refine List.filter_congr fun c _ => Bool.eq_iff_iff.2 ?_
  rw [not_hasSrc, lacks.dst_eq_none, Bool.or_eq_true, beq_iff_eq, not_hasSrc]

include hb in
theorem filter_hasDst_of_lacks (lacks : m.Lacks m' i j) :
    (b.children.filter fun c => !m'.hasDst c) = waiting dst m.hasDst q j := by
  rw [waiting_eq hb]
  refine List.filter_congr fun c _ => Bool.eq_iff_iff.2 ?_
  rw [not_hasDst, lacks.src_eq_none, Bool.or_eq_true, beq_iff_eq, not_hasDst]

variable (order : a.children.Pairwise (· < ·)) (order' : b.children.Pairwise (· < ·))
  (hi : i ∈ a.children) (hj : j ∈ b.children) (lacks : m.Lacks m₁ i j) (pair : m.dst? i = some j)
  (pair' : m.src? j = some i) (akin : Akin src dst i j)

include ha hb order order' hi hj lacks pair pair' akin

/-- Aligning the children of the parents gives the pair back, if the table is not too large. -/
theorem alignChildren_taken (taken : Taken src dst m i j p q) :
    ∃ m₂, alignChildren src dst a q m₁ = .ok m₂ ∧ (m.Repeats m₂ ∨ m.Lacks m₂ i j ∧
      tableLimit < (waiting src m.hasSrc p i).length * (waiting dst m.hasDst q j).length) := by
  have waits : i ∈ waiting src m.hasSrc p i := (mem_waiting ha).2 ⟨hi, .inl rfl⟩
  have waits' : j ∈ waiting dst m.hasDst q j := (mem_waiting hb).2 ⟨hj, .inl rfl⟩
  refine ⟨_, by rw [alignChildren, get_of_get? hb]; rfl, ?_⟩
  rw [filter_hasSrc_of_lacks ha lacks, filter_hasDst_of_lacks hb lacks]
  obtain found | ⟨large, none⟩ := align_of_takes (pairwise_waiting ha order) (pairwise_waiting hb order')
    waits waits' akin (taken.common akin) taken
  · rw [found]
    exact .inl (lacks.add pair pair')
  · rw [none]
    exact .inr ⟨lacks, large⟩

include h in
/-- The leftovers below the parents are paired until the pair is given back, if nothing in front of the
two is like them. -/
theorem pairLeftovers_taken (first : ∀ l ∈ waiting src m.hasSrc p i, ∀ r ∈ waiting dst m.hasDst q j,
      alike src dst l r = true → (l = i ∧ j ≤ r) ∨ (r = j ∧ i ≤ l)) (parents : m.dst? p = some q) :
    ∃ m₂, pairLeftovers src dst a q m₁ = .ok m₂ ∧ m.Repeats m₂ := by
  have whole := lacks.add pair pair'
  have waits : i ∈ waiting src m.hasSrc p i := (mem_waiting ha).2 ⟨hi, .inl rfl⟩
  have free {r : Nat} (hr : r ∈ b.children) (unpaired : (!m₁.hasDst r) = true) :
      r ∈ waiting dst m.hasDst q j :=
    filter_hasDst_of_lacks hb lacks ▸ List.mem_filter.2 ⟨hr, unpaired⟩
  have sorted : (waiting src m.hasSrc p i).Pairwise (· < ·) := pairwise_waiting ha order
  have inner (l : Nat) (hl : l ∈ waiting src m.hasSrc p i) := (mem_waiting ha).1 hl
  obtain ⟨start, rest, listed⟩ := List.append_of_mem waits
  rw [listed] at sorted first inner
  obtain ⟨-, behind, before⟩ := List.pairwise_append.1 sorted
  -- nothing in front of the source is like anything
  have idle : start.foldl (pairLeftover src dst b.children) m₁ = m₁ := foldl_idle fun l hl => by
    have less : l < i := before l hl i List.mem_cons_self
    refine pairLeftover_of_unlike fun r hr unpaired like => ?_
    obtain ⟨rfl, -⟩ | ⟨-, le⟩ :=
      first l (List.mem_append_left _ hl) r (free hr (not_hasDst.2 unpaired)) like
    · exact Nat.lt_irrefl _ less
    · exact Nat.not_lt.2 le less
  have step : pairLeftover src dst b.children m₁ i = m₁.add i j := by
    have found : (b.children.find? fun r => !m₁.hasDst r && alike src dst i r) = some j := by
      refine find?_of_pairwise order' hj ?_ fun r hr less => ?_
      · rw [Bool.and_eq_true, not_hasDst]
        exact ⟨lacks.src_eq_none.2 (.inl rfl), akin⟩
      · rw [← Bool.not_eq_true, Bool.and_eq_true]
        rintro ⟨unpaired, like⟩
        obtain ⟨-, le⟩ | ⟨rfl, -⟩ := first i (by simp) r (free hr unpaired) like
        · exact Nat.not_lt.2 le less
        · exact Nat.lt_irrefl _ less
    rw [pairLeftover, found]
  -- and what comes behind it waits for nothing that is left
  have idle' : rest.foldl (pairLeftover src dst b.children) (m₁.add i j) = m₁.add i j :=
    foldl_idle fun l hl => by
      obtain ⟨child, waits⟩ := inner l (List.mem_append_right _ (List.mem_cons_of_mem i hl))
      have unpaired : m.dst? l = none :=
        not_hasSrc.1 (waits.resolve_left (Nat.ne_of_gt ((List.pairwise_cons.1 behind).1 l hl)))
      exact pairLeftover_of_unlike fun r hr free => h.full p (Snapshot.lt_size_of_get? ha) q a b
        parents ha hb l child r hr unpaired (whole.src r ▸ free)
  refine ⟨m₁.add i j, ?_, whole⟩
  rw [pairLeftovers_eq_foldl hb, filter_hasSrc_of_lacks ha lacks, listed, List.foldl_append, List.foldl_cons, idle,
    step, idle']

end Children

section Phases

variable {p q : Nat} {a b : Entry} (ha : src.get? p = some a) (hb : dst.get? q = some b)
  (hi : i ∈ a.children) (hj : j ∈ b.children) (hs' : src.Filial) (hd' : dst.Filial)
  (pair : m.dst? i = some j) (akin : ∀ x y, m.dst? x = some y → Akin src dst x y)
  (nested : Nested src dst m i j p q)

omit discerns hs hd

include ha hb hi hj hs' hd' pair akin nested

/-- Once the children of all pairs are aligned the pair is given back, unless the table was too large. -/
theorem alignAll_taken (taken : Taken src dst m i j p q) (lacks : m.Lacks m' i j) :
    ∃ m₁, forPairs src (alignChildren src dst) m' = .ok m₁ ∧ (m.Repeats m₁ ∨ m.Lacks m₁ i j ∧
      tableLimit < (waiting src m.hasSrc p i).length * (waiting dst m.hasDst q j).length) := by
  have paired {m₁ : Matching} (lacks : m.Lacks m₁ i j) : m₁.dst? p = some q := by
    rw [lacks.dst, if_neg (Nat.ne_of_lt (hf.later ha i hi)), nested.pair]
  obtain ⟨m₁, run, state⟩ : ∃ m₁, forPairs src (alignChildren src dst) m' = .ok m₁ ∧
      (m.Repeats m₁ ∨ m.Lacks m₁ i j ∧ (p < src.size →
        tableLimit < (waiting src m.hasSrc p i).length * (waiting dst m.hasDst q j).length)) := by
    refine forPairs_spec (P := fun k m₁ => m.Repeats m₁ ∨ m.Lacks m₁ i j ∧ (p < k →
        tableLimit < (waiting src m.hasSrc p i).length * (waiting dst m.hasDst q j).length))
      (fun x c y m₁ hc hx state => ?_) (fun x m₁ free state => ?_)
      (.inr ⟨lacks, fun lt => absurd lt (Nat.not_lt_zero p)⟩)
    · obtain whole | ⟨lacks, large⟩ := state
      · have full := (h.congr whole.dst whole.src).full x (Snapshot.lt_size_of_get? hc)
        obtain ⟨-, c', -, hc', -⟩ := (akin x y (whole.dst x ▸ hx)).kinds
        exact ⟨m₁, full.alignChildren_eq hc hx hc', .inl whole⟩
      · by_cases here : x = p
        · subst here
          obtain rfl := Option.some.inj (hx.symm.trans (paired lacks))
          obtain rfl := Option.some.inj (hc.symm.trans ha)
          obtain ⟨m₂, run, state⟩ := alignChildren_taken ha hb (hf.ordered ha) (hg.ordered hb) hi hj
            lacks pair ((m.dst?_iff i j).1 pair) (akin i j pair) taken
          exact ⟨m₂, run, state.imp_right fun ⟨lacks, large⟩ => ⟨lacks, fun _ => large⟩⟩
        · have full := full_elsewhere h hs' hd' nested lacks here
          obtain ⟨-, c', -, hc', -⟩ := (akin x y (lacks.of_dst hx).2).kinds
          exact ⟨m₁, full.alignChildren_eq hc hx hc', .inr ⟨lacks, fun lt => large (by omega)⟩⟩
    · refine state.imp_right fun ⟨lacks, large⟩ => ⟨lacks, fun lt => large ?_⟩
      refine Nat.lt_of_le_of_ne (Nat.lt_succ_iff.1 lt) ?_
      rintro rfl
      rw [paired lacks] at free
      cases free
  have inside : p < src.size := Snapshot.lt_size_of_get? ha
  exact ⟨m₁, run, state.imp_right fun ⟨lacks, large⟩ => ⟨lacks, large inside⟩⟩

/-- What still lacks then is found among the leftovers. -/
theorem leftovers_taken (taken : Taken src dst m i j p q) (lacks : m.Lacks m' i j)
    (large : tableLimit < (waiting src m.hasSrc p i).length * (waiting dst m.hasDst q j).length) :
    ∃ m₁, forPairs src (pairLeftovers src dst) m' = .ok m₁ ∧ m.Repeats m₁ := by
  have first : ∀ l ∈ waiting src m.hasSrc p i, ∀ r ∈ waiting dst m.hasDst q j,
      alike src dst l r = true → (l = i ∧ j ≤ r) ∨ (r = j ∧ i ≤ l) := fun l hl r hr like =>
    (taken l hl r hr like).imp_right fun ⟨here, le⟩ => ⟨here, by rwa [if_pos (.inr large)] at le⟩
  obtain ⟨m₁, run, state⟩ : ∃ m₁, forPairs src (pairLeftovers src dst) m' = .ok m₁ ∧
      (m.Repeats m₁ ∨ m.Lacks m₁ i j ∧ src.size ≤ p) := by
    refine forPairs_spec (P := fun k m₁ => m.Repeats m₁ ∨ m.Lacks m₁ i j ∧ k ≤ p)
      (fun x c y m₁ hc hx state => ?_) (fun x m₁ free state => ?_) (.inr ⟨lacks, Nat.zero_le p⟩)
    · obtain whole | ⟨lacks, le⟩ := state
      · have full := (h.congr whole.dst whole.src).full x (Snapshot.lt_size_of_get? hc)
        obtain ⟨-, c', -, hc', -⟩ := (akin x y (whole.dst x ▸ hx)).kinds
        exact ⟨m₁, full.pairLeftovers_eq hc hx hc', .inl whole⟩
      · have paired := (lacks.of_dst hx).2
        obtain rfl | below := Nat.eq_or_lt_of_le le
        · obtain rfl := Option.some.inj (paired.symm.trans nested.pair)
          obtain rfl := Option.some.inj (hc.symm.trans ha)
          obtain ⟨m₂, run, whole⟩ := pairLeftovers_taken h ha hb (hf.ordered ha) (hg.ordered hb) hi hj
            lacks pair ((m.dst?_iff i j).1 pair) (akin i j pair) first nested.pair
          exact ⟨m₂, run, .inl whole⟩
        · have full := full_elsewhere h hs' hd' nested lacks (Nat.ne_of_lt below)
          obtain ⟨-, c', -, hc', -⟩ := (akin x y paired).kinds
          exact ⟨m₁, full.pairLeftovers_eq hc hx hc', .inr ⟨lacks, below⟩⟩
    · refine state.imp_right fun ⟨lacks, le⟩ => ⟨lacks, Nat.lt_of_le_of_ne le ?_⟩
      rintro rfl
      rw [lacks.dst, if_neg (Nat.ne_of_lt (hf.later ha i hi)), nested.pair] at free
      cases free
  refine ⟨m₁, run, state.resolve_right fun e => ?_⟩
  exact Nat.not_lt.2 e.2 (Snapshot.lt_size_of_get? ha)

end Phases

omit discerns in
/-- The later phases give a pair back that is taken. -/
theorem forPairs_taken {p q : Nat} (hs' : src.Filial) (hd' : dst.Filial)
    (pair : m.dst? i = some j) (akin : ∀ x y, m.dst? x = some y → Akin src dst x y)
    (nested : Nested src dst m i j p q) (taken : Taken src dst m i j p q) (lacks : m.Lacks m' i j) :
    ∃ m'', (forPairs src (alignChildren src dst) m' >>=
      forPairs src (pairLeftovers src dst)) = .ok m'' ∧ m.Repeats m'' := by
  obtain ⟨e, he, hp⟩ := Option.bind_eq_some_iff.1 nested.parent
  obtain ⟨a, ha, hi⟩ := hs i e p he hp
  obtain ⟨e', he', hq⟩ := Option.bind_eq_some_iff.1 nested.parent'
  obtain ⟨b, hb, hj⟩ := hd j e' q he' hq
  obtain ⟨m₁, run, whole | ⟨lacks, large⟩⟩ :=
    alignAll_taken h hf hg ha hb hi hj hs' hd' pair akin nested taken lacks
  · obtain ⟨-, rest⟩ := (h.congr whole.dst whole.src).forPairs_eq fun x y hx =>
      (akin x y (whole.dst x ▸ hx)).kinds
    exact ⟨m₁, by rw [run, Outcome.ok_bind, rest], whole⟩
  · obtain ⟨m₂, rest, whole⟩ :=
      leftovers_taken h hf hg ha hb hi hj hs' hd' pair akin nested taken lacks large
    exact ⟨m₂, by rw [run, Outcome.ok_bind, rest], whole⟩

/-- Given all pairs of a saturated matching but an evident one, the greedy matcher gives back them all. -/
theorem matcherWith_lacks (hs' : src.Filial) (hd' : dst.Filial)
    (roots : m.dst? 0 = some 0) (akin : ∀ x y, m.dst? x = some y → Akin src dst x y)
    (pair : m.dst? i = some j) (below : i ≠ 0) (lacks : m.Lacks m' i j)
    (evident : Evident hash src dst m i j) :
    ∃ m'', matcherWith hash src dst m' = .ok m'' ∧ m.Repeats m'' := by
  have fair : Fair src dst m := fun x y hx => (akin x y hx).kinds
  obtain ⟨a, -, ha, -⟩ := fair i j pair
  obtain ⟨-, b, -, hb, -⟩ := fair 0 0 roots
  have hi : i < src.size := Snapshot.lt_size_of_get? ha
  have one : 1 ≤ i := Nat.pos_of_ne_zero below
  obtain ⟨roots', roots''⟩ := lacks.roots roots pair below
  rw [matcherWith_of_roots roots' roots'' (Nat.ne_of_gt (Nat.lt_of_le_of_lt (Nat.zero_le i) hi))
    (Nat.ne_of_gt (Snapshot.lt_size_of_get? hb))]
  -- a pair that is found in the first phase is all that was to be found
  have idle (whole : m.Repeats (pairTwins hash src dst m')) :
      ∃ m'', (forPairs src (alignChildren src dst) (pairTwins hash src dst m') >>=
        forPairs src (pairLeftovers src dst)) = .ok m'' ∧ m.Repeats m'' := by
    obtain ⟨aligned, rest⟩ := (h.congr whole.dst whole.src).forPairs_eq fun x y hx =>
      fair x y (whole.dst x ▸ hx)
    exact ⟨_, by rw [aligned, Outcome.ok_bind, rest], whole⟩
  cases evident with
  | foremost nested same aligned foremost =>
    exact idle (repeats_of_foremost h hf hg discerns hs hd pair lacks one hi nested same aligned
      foremost)
  | sole sole aligned =>
    exact idle (repeats_of_sole h hf hg discerns hs hd pair lacks one hi sole aligned)
  | taken nested other unclaimed taken =>
    rw [pairTwins_of_unclaimed h hf hg discerns hs hd lacks nested other unclaimed]
    exact forPairs_taken h hf hg hs hd hs' hd' pair akin nested taken lacks

end Regained

end Greedy

end Variation.Matching
