import Variation.Proofs.Regained

/-!
# What the greedy matcher finds again was evident

The converse: if the greedy matcher gives back a saturated matching that it was given without one of its
pairs, the pair was evident. The matcher never takes a pair back, so it may only find pairs of the
matching. As long as it has found nothing it goes on from what it was given; the first thing that it
finds is the pair that lacks, and the phase in which that happens tells how the pair was evident.
-/

namespace Variation.Matching

/-! ## Matchings that are parts of another one -/

/-- All pairs of a matching are pairs of another one. -/
def Contained (m' m : Matching) : Prop := ∀ x y, m'.dst? x = some y → m.dst? x = some y

section Contained

variable {m m' m₁ : Matching} {i j l r : Nat} {ps : List (Nat × Nat)}

theorem Repeats.contained (h : m.Repeats m') : m'.Contained m := fun x _ paired => h.dst x ▸ paired

theorem Contained.dst_ne_none (h : m'.Contained m) (taken : m'.dst? i ≠ none) : m.dst? i ≠ none := by
  obtain ⟨j, paired⟩ := Option.ne_none_iff_exists'.1 taken
  rw [h i j paired]
  exact Option.some_ne_none j

theorem Contained.src_ne_none (h : m'.Contained m) (taken : m'.src? j ≠ none) : m.src? j ≠ none := by
  obtain ⟨i, paired⟩ := Option.ne_none_iff_exists'.1 taken
  rw [(m.dst?_iff i j).1 (h i j ((m'.dst?_iff i j).2 paired))]
  exact Option.some_ne_none i

theorem Contained.of_grows {new : Nat → Nat → Prop} (h : m'.Contained m) (grows : m₁.Grows new m') :
    m₁.Contained m := fun x y paired => h x y (grows.keeps x y paired)

theorem Contained.of_addAll (h : (m'.addAll ((l, r) :: ps)).Contained m) :
    (m'.add l r).Contained m :=
  have rest : (m'.add l r).Grows (fun _ _ => True) (m'.addAll ((l, r) :: ps)) :=
    grows_addAll fun _ _ => trivial
  h.of_grows rest

/-- A side of each pair that is added is taken. -/
theorem taken_addAll : ∀ p ∈ ps, (m.addAll ps).dst? p.1 ≠ none ∨
    (m.addAll ps).src? p.2 ≠ none := by
  induction ps generalizing m with
  | nil => exact fun p hp => absurd hp List.not_mem_nil
  | cons p ps ih =>
    refine List.forall_mem_cons.2 ⟨?_, ih⟩
    have rest : (m.add p.1 p.2).Grows (fun _ _ => True) (m.addAll (p :: ps)) :=
      grows_addAll fun _ _ => trivial
    exact (taken_add m p.1 p.2).imp (fun taken free => taken (rest.free_src free))
      fun taken free => taken (rest.free_dst free)

/-- All that can be added is the pair that lacks. -/
theorem Lacks.eq_of_add (lacks : m.Lacks m' i j) (pair : m.dst? i = some j) (free : m'.dst? l = none)
    (free' : m'.src? r = none) (h : (m'.add l r).Contained m) : l = i ∧ r = j := by
  have paired : m.dst? l = some r := h l r (by rw [dst?_add, if_pos ⟨rfl, free, free'⟩])
  obtain rfl | unpaired := lacks.dst_eq_none.1 free
  · exact ⟨rfl, Option.some.inj (paired.symm.trans pair)⟩
  · rw [paired] at unpaired
    cases unpaired

end Contained

namespace Greedy

variable {hash : String → String} {src dst : Snapshot} {m m' m'' : Matching} {i j l r p q : Nat}
  {f g : Forest (Kind × String)}

/-! ## Whole subtrees -/

/-- The first of the elements in order that are asked for is the least one. -/
theorem le_of_find? {is : List Nat} {a : Nat → Bool} (order : is.Pairwise (· < ·))
    (found : is.find? a = some j) (mem : r ∈ is) (here : a r = true) : j ≤ r := by
  obtain ⟨-, front, rest, rfl, others⟩ := List.find?_eq_some_iff_append.1 found
  obtain ⟨-, inner, -⟩ := List.pairwise_append.1 order
  rw [List.mem_append, List.mem_cons] at mem
  obtain mem | rfl | mem := mem
  · have other := others r mem
    rw [here] at other
    cases other
  · exact Nat.le_refl r
  · exact Nat.le_of_lt ((List.pairwise_cons.1 inner).1 r mem)

/-- A free subtree with the digest below the counterpart of the parent is found, or one in front of it. -/
theorem exists_twin? (nested : Nested src dst m i r p q) (free : m.src? r = none)
    (bears : r ∈ bearers hash dst (digestAt hash src i)) :
    ∃ j ≤ r, twin? src dst (places (digests hash src)) (places (digests hash dst))
      (digestAt hash src i) i m = some j := by
  have listed : r ∈ (bearers hash dst (digestAt hash src i)).filter fun d => !m.hasDst d :=
    List.mem_filter.2 ⟨bears, not_hasDst.2 free⟩
  have here : ((dst.get? r).bind (·.parent) == some q) = true := beq_iff_eq.2 nested.parent'
  obtain ⟨j, found⟩ := Option.isSome_iff_exists.1
    (List.find?_isSome (p := fun d => (dst.get? d).bind (·.parent) == some q) |>.2 ⟨r, listed, here⟩)
  exact ⟨j, le_of_find? ((pairwise_bearers dst _).filter _) found listed here,
    twin?_of_find? nested.parent nested.pair found⟩

/-- A source has no twin. -/
def Twinless (hash : String → String) (src dst : Snapshot) (m : Matching) (l : Nat) : Prop :=
  m.dst? l = none → twin? src dst (places (digests hash src)) (places (digests hash dst))
    (digestAt hash src l) l m = none

/-- A source without a twin has no free subtree with its digest below the counterpart of its parent. -/
theorem Twinless.not_bears (h : Twinless hash src dst m i) (unpaired : m.dst? i = none)
    (nested : Nested src dst m i r p q) (free : m.src? r = none) :
    r ∉ bearers hash dst (digestAt hash src i) := fun bears => by
  obtain ⟨j, -, found⟩ := exists_twin? nested free bears
  rw [h unpaired] at found
  cases found

section Evident

variable (hf : src.Spells f) (hs : src.Enrolled)

include hf hs

/-- A parent stands in front of its children. -/
theorem parent_lt (below : src.parent? l = some p) : p < l ∧ l < src.size := by
  obtain ⟨e, he, hp⟩ := Option.bind_eq_some_iff.1 below
  obtain ⟨a, ha, child⟩ := hs l e p he hp
  exact ⟨hf.later ha l child, Snapshot.lt_size_of_get? he⟩

variable (pair : m.dst? i = some j) (lacks : m.Lacks m' i j)

include lacks

/-- A pair that is found as two whole subtrees was evident. -/
theorem evident_of_twin? (hi : i < src.size)
    (before : ∀ l, 1 ≤ l → l < i → Twinless hash src dst m' l)
    (found : twin? src dst (places (digests hash src)) (places (digests hash dst))
      (digestAt hash src i) i m' = some j)
    (contained : (pairTwin hash src dst m' i).Contained m) : Evident hash src dst m i j := by
  obtain ⟨free, bears, twin⟩ := twin?_spec found
  obtain ⟨-, same⟩ := digestAt_of_mem bears
  obtain ⟨n, size, step⟩ := pairTwin_of_twin? hf hi (lacks.dst_eq_none.2 (.inl rfl)) found
  have aligned : Aligned src m i j := fun k first less => by
    obtain ⟨o, rfl⟩ : ∃ o, k = o + 1 := ⟨k - 1, by omega⟩
    have listed : (i + (o + 1), j + (o + 1)) ∈ (List.range n).map fun o => (i + (o + 1), j + (o + 1)) :=
      List.mem_map.2 ⟨o, List.mem_range.2 (by omega), rfl⟩
    have grown : (m'.add i j).Grows (fun _ _ => True) (pairTwin hash src dst m' i) :=
      step ▸ grows_addAll fun _ _ => trivial
    have taken := taken_addAll (m := m'.add i j) _ listed
    rw [← step] at taken
    exact taken.imp contained.dst_ne_none contained.src_ne_none
  obtain ⟨a, p, q, b, ha, hp, hq, hb, below⟩ | ⟨one, one'⟩ := twin
  · have parent : src.parent? i = some p := Option.bind_eq_some_iff.2 ⟨a, ha, hp⟩
    have parent' : dst.parent? j = some q := Option.bind_eq_some_iff.2 ⟨b, hb, below⟩
    refine .foremost ⟨parent, parent', (lacks.of_dst hq).2⟩ same.symm aligned ⟨?_, ?_⟩
    · intro l less sibling unpaired digest
      have one : 1 ≤ l := Nat.lt_of_le_of_lt (Nat.zero_le p) (parent_lt hf hs sibling).1
      refine (before l one less).not_bears (lacks.dst_eq_none.2 (.inr unpaired))
        ⟨sibling, parent', hq⟩ free ?_
      rw [digest]
      exact bears
    · intro r less sibling unpaired digest
      obtain ⟨e, he, -⟩ := Option.bind_eq_some_iff.1 sibling
      have bears' := mem_bearers_self hash (Snapshot.lt_size_of_get? he)
      rw [digest, same] at bears'
      obtain ⟨j', le, found'⟩ := exists_twin? ⟨parent, sibling, hq⟩
        (lacks.src_eq_none.2 (.inr unpaired)) bears'
      obtain rfl := Option.some.inj (found.symm.trans found')
      exact Nat.not_lt.2 le less
  · exact .sole (sole_of_length hi bears one one') aligned

/-- If pairing subtrees finds pairs of the matching only, it finds an evident one or nothing. -/
theorem evident_of_pairTwins (hg : dst.Spells g) (discerns : Discerns hash src dst)
    (pair : m.dst? i = some j) (contained : (pairTwins hash src dst m').Contained m) :
    Evident hash src dst m i j ∨ pairTwins hash src dst m' = m' ∧
      ∀ l, 1 ≤ l → l < src.size → Twinless hash src dst m' l := by
  have all (n k : Nat) (first : 1 ≤ k) (last : k + n = max 1 src.size)
      (before : ∀ l, 1 ≤ l → l < k → Twinless hash src dst m' l)
      (contained : ((List.range' k n).foldl (pairTwin hash src dst) m').Contained m) :
      Evident hash src dst m i j ∨ (List.range' k n).foldl (pairTwin hash src dst) m' = m' ∧
        ∀ l, 1 ≤ l → l < src.size → Twinless hash src dst m' l := by
    induction n generalizing k with
    | zero => exact .inr ⟨rfl, fun l one less => before l one (by omega)⟩
    | succ n ih =>
      rw [List.range'_succ, List.foldl_cons] at contained ⊢
      by_cases none : Twinless hash src dst m' k
      · rw [pairTwin_of_twinless none] at contained ⊢
        refine ih (k + 1) (Nat.succ_pos k) (by omega) (fun l one less => ?_) contained
        obtain rfl | less := Nat.eq_or_lt_of_le (Nat.lt_succ_iff.1 less)
        · exact none
        · exact before l one less
      · -- the first twin that is found is that of the pair
        rw [Twinless, Classical.not_imp] at none
        obtain ⟨free, found⟩ := none
        obtain ⟨r, found⟩ := Option.ne_none_iff_exists'.1 found
        have inside : k < src.size := by omega
        have rest (l : Nat) (hl : l ∈ List.range' (k + 1) n) (m : Matching) :
            m.Grows (Akin src dst) (pairTwin hash src dst m l) ∧ True := by
          rw [List.mem_range'_1] at hl
          exact ⟨(pairTwin_spec hf hg discerns (by omega)).1, trivial⟩
        have here := contained.of_grows (grows_foldl rest fun _ _ _ _ _ => trivial).1
        obtain ⟨_, -, step⟩ := pairTwin_of_twin? hf inside free found
        obtain ⟨rfl, rfl⟩ := lacks.eq_of_add pair free (twin?_spec found).1
          (Contained.of_addAll (step ▸ here))
        exact .inl (evident_of_twin? hf hs lacks inside before found here)
  rw [pairTwins_eq] at contained ⊢
  exact all (src.size - 1) 1 (Nat.le_refl 1) (by omega) (fun l one less => by omega) contained

/-- If no source has a twin, the subtrees of a pair that lacks differ, and nothing takes one of them. -/
theorem unclaimed_of_twinless (roots : m.dst? 0 = some 0) (nested : Nested src dst m i j p q)
    (none : ∀ l, 1 ≤ l → l < src.size → Twinless hash src dst m' l) :
    digestAt hash src i ≠ digestAt hash dst j ∧ Unclaimed hash src dst m i j p q := by
  have free : m'.dst? i = Option.none := lacks.dst_eq_none.2 (.inl rfl)
  have free' : m'.src? j = Option.none := lacks.src_eq_none.2 (.inl rfl)
  have paired : m'.dst? p = some q := (nested.of_lacks hf hs lacks).pair
  have twinless {l : Nat} (below : src.parent? l = some p) : Twinless hash src dst m' l := by
    obtain ⟨less, inside⟩ := parent_lt hf hs below
    exact none l (Nat.lt_of_le_of_lt (Nat.zero_le p) less) inside
  have bears {r : Nat} (below : dst.parent? r = some q) : r ∈ bearers hash dst (digestAt hash dst r) := by
    obtain ⟨e, he, -⟩ := Option.bind_eq_some_iff.1 below
    exact mem_bearers_self hash (Snapshot.lt_size_of_get? he)
  have here := twinless nested.parent
  refine ⟨fun same => ?_, fun l sibling unpaired digest => ?_, fun r sibling unpaired digest => ?_,
    fun l unpaired sole => ?_, fun r unpaired sole => ?_⟩
  · refine here.not_bears free ⟨nested.parent, nested.parent', paired⟩ free' ?_
    rw [same]
    exact bears nested.parent'
  · refine (twinless sibling).not_bears (lacks.dst_eq_none.2 (.inr unpaired))
      ⟨sibling, nested.parent', paired⟩ free' ?_
    rw [digest]
    exact bears nested.parent'
  · refine here.not_bears free ⟨nested.parent, sibling, paired⟩ (lacks.src_eq_none.2 (.inr unpaired)) ?_
    rw [← digest]
    exact bears sibling
  · have inside : l < src.size := (digestAt_of_mem (sole.1 ▸ List.mem_cons_self)).1
    have first : 1 ≤ l := by
      refine Nat.pos_of_ne_zero ?_
      rintro rfl
      rw [roots] at unpaired
      cases unpaired
    exact taken_of_twin?_eq_none (none l first inside (lacks.dst_eq_none.2 (.inr unpaired))) sole free'
  · exact taken_of_twin?_eq_none (here free) sole (lacks.src_eq_none.2 (.inr unpaired))

end Evident

/-! ## The children of pairs -/

/-- Nothing is aligned below a pair. -/
def Unaligned (src dst : Snapshot) (m : Matching) (x : Nat) : Prop :=
  ∀ y a b, m.dst? x = some y → src.get? x = some a → dst.get? y = some b →
    align (alike src dst) (a.children.filter fun c => !m.hasSrc c)
      (b.children.filter fun c => !m.hasDst c) = []

section Taken

variable (h : Saturated hash src dst m) (hf : src.Spells f) (hg : dst.Spells g) {a b : Entry}
  (ha : src.get? p = some a)
  (hb : dst.get? q = some b) (parents : m.dst? p = some q)

include h ha hb parents

/-- Of two children that wait and are alike one belongs to the pair that lacks. -/
theorem shared_of_saturated : ∀ l ∈ waiting src m.hasSrc p i, ∀ r ∈ waiting dst m.hasDst q j,
    alike src dst l r = true → l = i ∨ r = j := by
  intro l hl r hr like
  obtain ⟨child, rfl | free⟩ := (mem_waiting ha).1 hl
  · exact .inl rfl
  · obtain ⟨child', rfl | free'⟩ := (mem_waiting hb).1 hr
    · exact .inr rfl
    · exact absurd like (h.full p (Snapshot.lt_size_of_get? ha) q a b parents ha hb l child r
        child' (not_hasSrc.1 free) (not_hasDst.1 free'))

include hf hg

/-- What is aligned of the children that wait is taken; if nothing is, the table is too large. -/
theorem align_waiting (hi : i ∈ a.children) (hj : j ∈ b.children) (akin : Akin src dst i j) :
    (∃ i' j', align (alike src dst) (waiting src m.hasSrc p i) (waiting dst m.hasDst q j) = [(i', j')] ∧
        Takes (alike src dst) (waiting src m.hasSrc p i) (waiting dst m.hasDst q j) i' j') ∨
      tableLimit < (waiting src m.hasSrc p i).length * (waiting dst m.hasDst q j).length ∧
        align (alike src dst) (waiting src m.hasSrc p i) (waiting dst m.hasDst q j) = [] :=
  align_cases (pairwise_waiting ha (hf.ordered ha)) (pairwise_waiting hb (hg.ordered hb))
    ((mem_waiting ha).2 ⟨hi, .inl rfl⟩) ((mem_waiting hb).2 ⟨hj, .inl rfl⟩) akin
    (.of_shared akin (shared_of_saturated h ha hb parents) fun _ _ => alike_of_alike)

/-- What is aligned below a pair is taken. -/
theorem taken_of_align {rest : List (Nat × Nat)} (lacks : m.Lacks m' i j) (hi : i ∈ a.children)
    (hj : j ∈ b.children) (akin : Akin src dst i j)
    (aligned : align (alike src dst) (a.children.filter fun c => !m'.hasSrc c)
      (b.children.filter fun c => !m'.hasDst c) = (i, j) :: rest) : Taken src dst m i j p q := by
  rw [filter_hasSrc_of_lacks ha lacks, filter_hasDst_of_lacks hb lacks] at aligned
  obtain ⟨i', j', one, takes⟩ | ⟨-, none⟩ := align_waiting h hf hg ha hb parents hi hj akin
  · rw [aligned] at one
    cases one
    exact takes
  · rw [aligned] at none
    cases none

/-- What is paired among the leftovers below a pair is taken. -/
theorem taken_of_leftover {front rest : List Nat} (lacks : m.Lacks m' i j) (akin : Akin src dst i j)
    (unaligned : Unaligned src dst m' p) (parents' : m'.dst? p = some q)
    (listed : (a.children.filter fun c => !m'.hasSrc c) = front ++ i :: rest)
    (unlike : ∀ l ∈ front, ∀ r ∈ b.children, m'.src? r = none → ¬ alike src dst l r = true)
    (found : (b.children.find? fun r => !m'.hasDst r && alike src dst i r) = some j) :
    Taken src dst m i j p q := by
  have hi : i ∈ a.children :=
    (List.mem_filter.1 (listed ▸ List.mem_append_right front List.mem_cons_self)).1
  have none := unaligned q a b parents' ha hb
  rw [filter_hasSrc_of_lacks ha lacks, filter_hasDst_of_lacks hb lacks] at none
  rw [filter_hasSrc_of_lacks ha lacks] at listed
  obtain ⟨_, _, one, -⟩ | ⟨large, -⟩ :=
    align_waiting h hf hg ha hb parents hi (List.mem_of_find?_eq_some found) akin
  · rw [none] at one
    cases one
  intro l hl r hr like
  have shared := shared_of_saturated h ha hb parents l hl r hr like
  have order : (waiting src m.hasSrc p i).Pairwise (· < ·) := pairwise_waiting ha (hf.ordered ha)
  rw [← filter_hasDst_of_lacks hb lacks, List.mem_filter, not_hasDst] at hr
  rw [listed] at hl order
  rw [if_pos (.inr large)]
  obtain hl | hl := List.mem_append.1 hl
  · exact absurd like (unlike l hl r hr.1 hr.2)
  obtain rfl | hl := List.mem_cons.1 hl
  · refine .inl ⟨rfl, le_of_find? (hg.ordered hb) found hr.1 ?_⟩
    rw [Bool.and_eq_true]
    exact ⟨not_hasDst.2 hr.2, like⟩
  · have later : i < l := (List.pairwise_cons.1 (List.pairwise_append.1 order).2.1).1 l hl
    exact .inr ⟨shared.resolve_left (Nat.ne_of_gt later), Nat.le_of_lt later⟩

end Taken

/-- Pairing leftovers changes nothing, or it comes to a source that it pairs, behind others that nothing
free is like. -/
theorem leftovers_cases {ls rs : List Nat} (pair : m.dst? i = some j) (lacks : m.Lacks m' i j)
    (waits : ∀ l ∈ ls, m'.dst? l = none)
    (contained : (ls.foldl (pairLeftover src dst rs) m').Contained m) :
    ls.foldl (pairLeftover src dst rs) m' = m' ∨ ∃ front rest, ls = front ++ i :: rest ∧
      (∀ l ∈ front, ∀ r ∈ rs, m'.src? r = none → ¬ alike src dst l r = true) ∧
      (rs.find? fun r => !m'.hasDst r && alike src dst i r) = some j := by
  induction ls with
  | nil => exact .inl rfl
  | cons l ls ih =>
    obtain ⟨free, waits⟩ := List.forall_mem_cons.1 waits
    rw [List.foldl_cons] at contained ⊢
    cases found : rs.find? fun r => !m'.hasDst r && alike src dst l r with
    | none =>
      have stays : pairLeftover src dst rs m' l = m' := by rw [pairLeftover, found]
      rw [stays] at contained ⊢
      refine (ih waits contained).imp id ?_
      rintro ⟨front, rest, rfl, unlike, here⟩
      refine ⟨l :: front, rest, rfl, List.forall_mem_cons.2 ⟨fun r hr free' like => ?_, unlike⟩, here⟩
      refine List.find?_eq_none.1 found r hr ?_
      rw [Bool.and_eq_true]
      exact ⟨not_hasDst.2 free', like⟩
    | some r =>
      have step : pairLeftover src dst rs m' l = m'.add l r := by rw [pairLeftover, found]
      have here := List.find?_some found
      rw [Bool.and_eq_true, not_hasDst] at here
      rw [step] at contained
      have rest (l : Nat) (_ : l ∈ ls) (m : Matching) :
          m.Grows (fun _ _ => True) (pairLeftover src dst rs m l) ∧ True :=
        ⟨pairLeftover_spec.1.mono fun _ _ _ => trivial, trivial⟩
      obtain ⟨rfl, rfl⟩ := lacks.eq_of_add pair free here.1
        (contained.of_grows (grows_foldl rest fun _ _ _ _ _ => trivial).1)
      exact .inr ⟨[], ls, rfl, fun l hl => absurd hl List.not_mem_nil, found⟩

theorem within_of_lacks (akin : ∀ x y, m.dst? x = some y → Akin src dst x y)
    (lacks : m.Lacks m' i j) : Within dst m' := fun x y paired => by
  obtain ⟨-, b, -, hb, -⟩ := alike_iff.1 (akin x y (lacks.of_dst paired).2)
  exact ⟨b, hb⟩

section Phases

variable (h : Saturated hash src dst m) (hf : src.Spells f) (hg : dst.Spells g) (hs' : src.Filial)
  (hd' : dst.Filial) (akin : ∀ x y, m.dst? x = some y → Akin src dst x y) (pair : m.dst? i = some j)
  (lacks : m.Lacks m' i j)

include h hf hg hs' hd' akin pair lacks

/-- If aligning the children of all pairs finds pairs of the matching only, the pair that lacks was taken, or
nothing is aligned. -/
theorem taken_of_alignAll : ∃ m₁, forPairs src (alignChildren src dst) m' = .ok m₁ ∧
    m'.Grows (Akin src dst) m₁ ∧ (m₁.Contained m →
      (∃ p q, Nested src dst m i j p q ∧ Taken src dst m i j p q) ∨
        m₁ = m' ∧ ∀ x < src.size, Unaligned src dst m' x) := by
  have within := within_of_lacks akin lacks
  refine forPairs_spec (P := fun k m₁ => m'.Grows (Akin src dst) m₁ ∧ (m₁.Contained m →
      (∃ p q, Nested src dst m i j p q ∧ Taken src dst m i j p q) ∨
        m₁ = m' ∧ ∀ x < k, Unaligned src dst m' x))
    (fun x a y m₁ ha hx ⟨grows, state⟩ => ?_) (fun x m₁ free ⟨grows, state⟩ => ?_)
    ⟨.refl, fun _ => .inr ⟨rfl, fun x lt => absurd lt (Nat.not_lt_zero x)⟩⟩
  · obtain ⟨b, hb⟩ := within.grows grows x y hx
    obtain ⟨m₂, run, more⟩ := alignChildren_spec (a := a) hb
    refine ⟨m₂, run, grows.trans more, fun contained => ?_⟩
    obtain found | ⟨rfl, still⟩ := state (contained.of_grows more)
    · exact .inl found
    rw [alignChildren, get_of_get? hb] at run
    obtain rfl := Except.ok.inj run
    cases aligned : align (alike src dst) (a.children.filter fun c => !m₁.hasSrc c)
        (b.children.filter fun c => !m₁.hasDst c) with
    | nil =>
      refine .inr ⟨rfl, fun x' lt => ?_⟩
      obtain rfl | lt := Nat.eq_or_lt_of_le (Nat.lt_succ_iff.1 lt)
      · intro y' a' b' hy ha' hb'
        obtain rfl := Option.some.inj (hx.symm.trans hy)
        obtain rfl := Option.some.inj (ha.symm.trans ha')
        obtain rfl := Option.some.inj (hb.symm.trans hb')
        exact aligned
      · exact still x' lt
    | cons lr rest =>
      obtain ⟨l, r⟩ := lr
      rw [aligned] at contained
      have mem : l ∈ a.children.filter (fun c => !m₁.hasSrc c) ∧
          r ∈ b.children.filter fun c => !m₁.hasDst c :=
        align_spec (R := fun l r => l ∈ a.children.filter (fun c => !m₁.hasSrc c) ∧
            r ∈ b.children.filter fun c => !m₁.hasDst c)
          (fun l hl r hr _ => ⟨hl, hr⟩) (l, r) (aligned ▸ List.mem_cons_self)
      simp only [List.mem_filter, not_hasSrc, not_hasDst] at mem
      obtain ⟨⟨hi, free⟩, hj, free'⟩ := mem
      obtain ⟨rfl, rfl⟩ := lacks.eq_of_add pair free free' (contained.of_addAll)
      have paired := (lacks.of_dst hx).2
      exact .inl ⟨x, y, ⟨hs' x a l ha hi, hd' y b r hb hj, paired⟩,
        taken_of_align h hf hg ha hb paired lacks hi hj (akin l r pair) aligned⟩
  · refine ⟨grows, fun contained => (state contained).imp_right fun idle => ⟨idle.1, ?_⟩⟩
    refine Nat.forall_lt_succ_right.2 ⟨idle.2, fun y a b paired => ?_⟩
    rw [← idle.1, free] at paired
    cases paired

/-- If nothing was aligned and pairing the leftovers finds pairs of the matching only, the pair that lacks
was taken, or nothing is found. -/
theorem taken_of_leftovers (still : ∀ x < src.size, Unaligned src dst m' x) :
    ∃ m₁, forPairs src (pairLeftovers src dst) m' = .ok m₁ ∧ (m₁.Contained m →
      (∃ p q, Nested src dst m i j p q ∧ Taken src dst m i j p q) ∨ m₁ = m') := by
  have within := within_of_lacks akin lacks
  obtain ⟨m₁, run, -, state⟩ : ∃ m₁, forPairs src (pairLeftovers src dst) m' = .ok m₁ ∧
      m'.Grows (Akin src dst) m₁ ∧ (m₁.Contained m →
        (∃ p q, Nested src dst m i j p q ∧ Taken src dst m i j p q) ∨ m₁ = m') := by
    refine forPairs_spec (P := fun _ m₁ => m'.Grows (Akin src dst) m₁ ∧ (m₁.Contained m →
        (∃ p q, Nested src dst m i j p q ∧ Taken src dst m i j p q) ∨ m₁ = m'))
      (fun x a y m₁ ha hx ⟨grows, state⟩ => ?_) (fun _ _ _ state => state)
      ⟨.refl, fun _ => .inr rfl⟩
    obtain ⟨b, hb⟩ := within.grows grows x y hx
    obtain ⟨m₂, run, more, -⟩ := pairLeftovers_spec (a := a) hb
    refine ⟨m₂, run, grows.trans (more.mono fun _ _ new => new.2), fun contained => ?_⟩
    obtain found | rfl := state (contained.of_grows more)
    · exact .inl found
    rw [pairLeftovers_eq_foldl hb] at run
    obtain rfl := Except.ok.inj run
    obtain same | ⟨front, rest, listed, unlike, found⟩ := leftovers_cases pair lacks
      (fun l hl => not_hasSrc.1 (List.mem_filter.1 hl).2) contained
    · exact .inr same
    have hi : i ∈ a.children :=
      (List.mem_filter.1 (listed ▸ List.mem_append_right front List.mem_cons_self)).1
    have hj : j ∈ b.children := List.mem_of_find?_eq_some found
    have paired := (lacks.of_dst hx).2
    exact .inl ⟨x, y, ⟨hs' x a i ha hi, hd' y b j hb hj, paired⟩,
      taken_of_leftover h hf hg ha hb paired lacks (akin i j pair)
        (still x (Snapshot.lt_size_of_get? ha)) hx listed unlike found⟩
  exact ⟨m₁, run, state⟩

/-- A pair of a saturated matching that the greedy matcher gives back, with all others and no more, was
evident. -/
theorem evident_of_repeats (discerns : Discerns hash src dst) (hs : src.Enrolled)
    (roots : m.dst? 0 = some 0) (below : i ≠ 0) (asked : matcherWith hash src dst m' = .ok m'')
    (whole : m.Repeats m'') : Evident hash src dst m i j := by
  obtain ⟨a, -, ha, -⟩ := alike_iff.1 (akin i j pair)
  obtain ⟨-, b, -, hb, -⟩ := alike_iff.1 (akin 0 0 roots)
  obtain ⟨roots', roots''⟩ := lacks.roots roots pair below
  rw [matcherWith_of_roots roots' roots''
    (Nat.ne_of_gt (Nat.lt_of_le_of_lt (Nat.zero_le i) (Snapshot.lt_size_of_get? ha)))
    (Nat.ne_of_gt (Snapshot.lt_size_of_get? hb))] at asked
  obtain ⟨twins, -⟩ := pairTwins_spec hf hg discerns
  have within := within_of_lacks akin lacks
  obtain ⟨m₁, run₁, grows₁⟩ := alignAll_spec (within.grows twins)
  obtain ⟨m₂, run₂, grows₂, -⟩ := leftovers_spec hf (within.grows (twins.trans grows₁))
  rw [run₁, Outcome.ok_bind, run₂] at asked
  obtain rfl := Except.ok.inj asked
  have contained := whole.contained.of_grows grows₂
  obtain evident | ⟨same, twinless⟩ := evident_of_pairTwins hf hs lacks hg discerns pair
    (contained.of_grows grows₁)
  · exact evident
  have found : ∃ p q, Nested src dst m i j p q ∧ Taken src dst m i j p q := by
    obtain ⟨m₁', run₁', -, state⟩ := taken_of_alignAll h hf hg hs' hd' akin pair lacks
    rw [same, run₁'] at run₁
    obtain rfl := Except.ok.inj run₁
    obtain found | ⟨rfl, still⟩ := state contained
    · exact found
    obtain ⟨m₂', run₂', state⟩ := taken_of_leftovers h hf hg hs' hd' akin pair lacks still
    rw [run₂'] at run₂
    obtain rfl := Except.ok.inj run₂
    refine (state whole.contained).resolve_right ?_
    rintro rfl
    have lost := whole.dst i
    rw [lacks.dst, if_pos rfl, pair] at lost
    cases lost
  obtain ⟨p, q, nested, taken⟩ := found
  obtain ⟨differ, unclaimed⟩ := unclaimed_of_twinless hf hs lacks roots nested twinless
  exact .taken nested differ unclaimed taken

end Phases

end Greedy

end Variation.Matching
