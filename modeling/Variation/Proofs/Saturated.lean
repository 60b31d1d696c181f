import Variation.Proofs.Contract

/-!
# The greedy matcher leaves saturated matchings alone

Given a saturated matching that pairs the roots, no phase finds anything. A subtree with a free twin
below the counterpart of its parent would be one of two unpaired children that are alike, since equal
digests come from like entries. The matcher never asks which nodes the entries stand for, so this
carries over to all snapshots of the same trees.
-/

namespace Variation.Matching

/-! ## Parents -/

/-- Every entry is a child of its parent. -/
def Snapshot.Enrolled (s : Snapshot) : Prop :=
  ∀ i e p, s.get? i = some e → e.parent = some p → ∃ e', s.get? p = some e' ∧ i ∈ e'.children

/-- An entry with the root in place of its node. -/
def Entry.bare (e : Entry) : Entry := { e with origin := Diff.root }

namespace Snapshot

variable {d : Diff} {t : Time} {s : Snapshot} {f : Forest Handle} {parent : Option Nat} {n : Handle}

theorem children_subset_withChildren (i : Nat) (more : List Nat) (e : Entry) :
    e.children ⊆ (withChildren parent i more e).children := by
  intro c hc
  exact mem_children_withChildren.2 (.inl hc)

theorem Enrolled.push (h : s.Enrolled) (inside : ∀ p, parent = some p → p < s.size) :
    (s.push (d.look n) n parent).Enrolled := by
  intro i e p he hp
  have at_ {k : Nat} {x : Entry} (hx : s.get? k = some x) :
      (s.push (d.look n) n parent).get? k = some (withChildren parent k [s.size] x) := by
    have lt : k < s.size := lt_size_of_get? hx
    rw [get?_push inside, if_neg (Nat.ne_of_lt lt), hx, Option.map_some]
  rw [get?_push inside] at he
  split at he
  · next new =>
    obtain rfl := Option.some.inj he
    have below : parent = some p := hp
    obtain ⟨x, hx⟩ : ∃ x, s.get? p = some x := ⟨_, Array.getElem?_eq_getElem (inside p below)⟩
    refine ⟨_, at_ hx, ?_⟩
    rw [withChildren, if_pos below, new]
    exact List.mem_append_right _ List.mem_cons_self
  · obtain ⟨x, hx, rfl⟩ := Option.map_eq_some_iff.1 he
    rw [parent_withChildren] at hp
    obtain ⟨y, hy, mem⟩ := h i x p hx hp
    exact ⟨_, at_ hy, children_subset_withChildren p _ y mem⟩

/-- What every push keeps, taking a forest keeps. -/
theorem keeps_pushForest {P : Snapshot → Prop} (inside : ∀ p, parent = some p → p < s.size)
    (push : ∀ (s : Snapshot) (n : Handle) (parent : Option Nat),
      (∀ p, parent = some p → p < s.size) → P s → P (s.push (d.look n) n parent)) (h : P s) :
    P (s.pushForest d f parent) := by
  induction f generalizing s parent with
  | nil => exact h
  | cons n below rest ihb ihr =>
    have pushed : (s.push (d.look n) n parent).size = s.size + 1 := size_push ..
    have inner : ∀ p, some s.size = some p → p < (s.push (d.look n) n parent).size := by
      intro p hp
      rw [pushed, ← Option.some.inj hp]
      exact Nat.lt_succ_self _
    obtain ⟨size, -, -⟩ := pushForest_spec (d := d) (f := below) inner
    refine ihr (fun p hp => ?_) (ihb inner (push s n parent inside h))
    have lt := inside p hp
    rw [size, pushed]
    omega

theorem enrolled_of_ofDiff (hd : d.Regular) (h : d.Shape t f) (hs : ofDiff d t = .ok s) :
    s.Enrolled := by
  rw [ofDiff_eq hd h] at hs
  obtain rfl := Except.ok.inj hs
  have none : (⟨#[]⟩ : Snapshot).Enrolled := fun i e p he => by simp [get?] at he
  exact keeps_pushForest (fun p hp => nomatch hp) (fun _ _ _ inside h => h.push inside) none

/-! ## Entries without their nodes -/

/-- A snapshot whose entries all stand for the root. -/
def bare (s : Snapshot) : Snapshot := ⟨s.entries.map Entry.bare⟩

theorem Alike.bare_eq {s' : Snapshot} (h : s.Alike s') : s.bare = s'.bare := congrArg Snapshot.mk h

theorem size_bare (s : Snapshot) : s.bare.size = s.size := Array.size_map

theorem get?_bare (s : Snapshot) (i : Nat) :
    s.bare.get? i = (s.get? i).map Entry.bare := Array.getElem?_map

/-- The entries of snapshots that are alike differ in the nodes they stand for. -/
theorem Alike.exists_get? {s' : Snapshot} (h : s.Alike s') {i : Nat} {e : Entry}
    (he : s.get? i = some e) : ∃ e', s'.get? i = some e' ∧ e'.bare = e.bare := by
  have here := congrArg (Snapshot.get? · i) h.bare_eq
  simp only [get?_bare, he, Option.map_some] at here
  exact Option.map_eq_some_iff.1 here.symm

end Snapshot

namespace Greedy

variable {hash : String → String} {src dst : Snapshot} {m m' : Matching} {i j : Nat}

theorem bottomUp_bare {α : Type} (s : Snapshot) (blank : α) (f : Entry → Array α → α)
    (blind : ∀ e v, f e.bare v = f e v) :
    bottomUp s.bare blank f = bottomUp s blank f := by
  rw [bottomUp, bottomUp, Snapshot.size_bare]
  congr 1
  funext i values
  rw [Snapshot.get?_bare]
  cases s.get? i with
  | none => rfl
  | some e => simp only [Option.map_some, blind]

theorem digests_bare (s : Snapshot) : digests hash s.bare = digests hash s :=
  bottomUp_bare s "" _ fun _ _ => rfl

theorem sizes_bare (s : Snapshot) : sizes s.bare = sizes s := bottomUp_bare s 1 _ fun _ _ => rfl

theorem alike_bare : alike src.bare dst.bare = alike src dst := by
  funext l r
  rw [alike, alike, Snapshot.get?_bare, Snapshot.get?_bare]
  cases src.get? l <;> cases dst.get? r <;> rfl

theorem Akin.of_alike {src' dst' : Snapshot} (akin : Akin src dst i j) (hs : src.Alike src')
    (hd : dst.Alike dst') : Akin src' dst' i j := by
  rw [Akin, ← alike_bare, ← hs.bare_eq, ← hd.bare_eq, alike_bare]
  exact akin

theorem twin?_bare {p q : Std.TreeMap String (List Nat)} {g : String} :
    twin? src.bare dst.bare p q g i m = twin? src dst p q g i m := by
  have parent (k : Nat) : (dst.bare.get? k).bind (·.parent) = (dst.get? k).bind (·.parent) := by
    rw [Snapshot.get?_bare]
    cases dst.get? k <;> rfl
  simp only [twin?, parent]
  rw [Snapshot.get?_bare]
  cases src.get? i <;> rfl

theorem pairTwins_bare : pairTwins hash src.bare dst.bare m = pairTwins hash src dst m := by
  simp only [pairTwins, digests_bare, sizes_bare, Snapshot.size_bare, twin?_bare]

theorem get_bare (j : Nat) :
    dst.bare.get j = (dst.get j).map Entry.bare := by
  have entry : dst.bare.entries[j]? = dst.entries[j]?.map Entry.bare :=
    Snapshot.get?_bare dst j
  rw [Snapshot.get, Snapshot.get, entry]
  cases dst.entries[j]? <;> rfl

theorem alignChildren_bare (a : Entry) (j : Nat) (m : Matching) :
    alignChildren src.bare dst.bare a.bare j m = alignChildren src dst a j m := by
  rw [alignChildren, alignChildren, get_bare, alike_bare]
  cases dst.get j <;> rfl

theorem pairLeftovers_bare (a : Entry) (j : Nat) (m : Matching) :
    pairLeftovers src.bare dst.bare a.bare j m = pairLeftovers src dst a j m := by
  rw [pairLeftovers, pairLeftovers, get_bare, alike_bare]
  cases dst.get j <;> rfl

theorem forPairs_bare {step step' : Entry → Nat → Matching → Outcome Matching}
    (same : ∀ e j m, step e.bare j m = step' e j m) :
    forPairs src.bare step m = forPairs src step' m := by
  have listed : src.bare.entries.toList.zipIdx =
      src.entries.toList.zipIdx.map fun p => (p.1.bare, p.2) := by
    rw [Snapshot.bare, Array.toList_map, List.zipIdx_map]
    rfl
  rw [forPairs_eq, forPairs_eq, listed, List.foldlM_map]
  congr 1
  funext m p
  simp only [visitPair, same]

/-- The matcher does not ask which nodes the entries stand for. -/
theorem matcherWith_alike {src' dst' : Snapshot} (hs : src.Alike src') (hd : dst.Alike dst') :
    matcherWith hash src dst m = matcherWith hash src' dst' m := by
  have blind (s t : Snapshot) : matcherWith hash s.bare t.bare m = matcherWith hash s t m := by
    simp only [matcherWith, Snapshot.size_bare, pairTwins_bare, forPairs_bare alignChildren_bare,
      forPairs_bare pairLeftovers_bare]
  rw [← blind, hs.bare_eq, hd.bare_eq, blind]

/-! ## Nothing is found -/

section Fixed

variable {f g : Forest (Kind × String)}

/-- Steps that change nothing change nothing one after the other. -/
theorem foldl_idle {step : Matching → Nat → Matching} {is : List Nat}
    (stays : ∀ i ∈ is, step m i = m) : is.foldl step m = m := by
  induction is with
  | nil => rfl
  | cons i is ih =>
    obtain ⟨here, rest⟩ := List.forall_mem_cons.1 stays
    rw [List.foldl_cons, here]
    exact ih rest

theorem forPairs_idle {step : Entry → Nat → Matching → Outcome Matching}
    (stays : ∀ i a j, src.get? i = some a → m.dst? i = some j → step a j m = .ok m) :
    forPairs src step m = .ok m := by
  obtain ⟨m', run, same⟩ : ∃ m', forPairs src step m = .ok m' ∧ m' = m := by
    refine forPairs_spec (P := fun _ m' => m' = m) (fun i a j m' ha hj same => ?_)
      (fun _ _ _ same => same) rfl
    rw [same] at hj ⊢
    exact ⟨m, stays i a j ha hj, rfl⟩
  rw [run, same]

/-- Saturation is about the pairs alone. -/
theorem Saturated.congr (h : Saturated hash src dst m) (same : ∀ i, m'.dst? i = m.dst? i)
    (same' : ∀ j, m'.src? j = m.src? j) : Saturated hash src dst m' where
  full i hi j a b hj ha hb l hl r hr freeL freeR :=
    h.full i hi j a b (same i ▸ hj) ha hb l hl r hr (same l ▸ freeL) (same' r ▸ freeR)
  sole i j first lt sole := by
    rw [same, same']
    exact h.sole i j first lt sole

theorem mem_bearers_self (hash : String → String) (hi : i < src.size) :
    i ∈ bearers hash src (digestAt hash src i) := by
  have inside : i < (digests hash src).size := Snapshot.size_digests ▸ hi
  rw [mem_bearers, digestAt, Array.getD_eq_getD_getElem?, Array.getElem?_eq_getElem inside,
    Option.getD_some]

/-- Entries are the only ones with a digest if only one entry of either snapshot has it. -/
theorem sole_of_length (hi : i < src.size) (bears : j ∈ bearers hash dst (digestAt hash src i))
    (one : (bearers hash src (digestAt hash src i)).length = 1)
    (one' : (bearers hash dst (digestAt hash src i)).length = 1) : Sole hash src dst i j := by
  have own := mem_bearers_self hash hi
  obtain ⟨x, hx⟩ := List.length_eq_one_iff.1 one
  obtain ⟨y, hy⟩ := List.length_eq_one_iff.1 one'
  rw [hx] at own
  rw [hy] at bears
  rw [Sole, hx, hy, List.mem_singleton.1 own, List.mem_singleton.1 bears]
  exact ⟨rfl, rfl⟩

/-- An unpaired source has no unpaired twin. -/
theorem Saturated.not_twin (h : Saturated hash src dst m) (hf : src.Spells f) (hg : dst.Spells g)
    (discerns : Discerns hash src dst) (hs : src.Enrolled) (hd : dst.Enrolled) (first : 1 ≤ i)
    (hi : i < src.size) (unpaired : m.dst? i = none) (free : m.src? j = none)
    (bears : j ∈ bearers hash dst (digestAt hash src i)) :
    ¬ ((∃ a p q b, src.get? i = some a ∧ a.parent = some p ∧ m.dst? p = some q ∧
        dst.get? j = some b ∧ b.parent = some q) ∨
      ((bearers hash src (digestAt hash src i)).length = 1 ∧
        (bearers hash dst (digestAt hash src i)).length = 1)) := by
  rintro (⟨a, p, q, b, ha, hp, hq, hb, below⟩ | ⟨only, only'⟩)
  · obtain ⟨a', ha', child⟩ := hs i a p ha hp
    obtain ⟨b', hb', child'⟩ := hd j b q hb below
    obtain ⟨hj, same⟩ := digestAt_of_mem bears
    exact h.full p (Snapshot.lt_size_of_get? ha') q a' b' hq ha' hb' i child j child'
      unpaired free (akin_of_digestAt hf hg discerns hi hj same.symm)
  · exact (h.sole i j first hi (sole_of_length hi bears only only')).elim
      (fun paired => paired unpaired) fun taken => taken free

/-- An unpaired source is not paired with a subtree. -/
theorem Saturated.pairTwin_eq (h : Saturated hash src dst m) (hf : src.Spells f) (hg : dst.Spells g)
    (discerns : Discerns hash src dst) (hs : src.Enrolled) (hd : dst.Enrolled) (first : 1 ≤ i)
    (hi : i < src.size) : pairTwin hash src dst m i = m := by
  refine pairTwin_of_twinless fun unpaired => Option.eq_none_iff_forall_ne_some.2 fun j found => ?_
  obtain ⟨free, bears, twin⟩ := twin?_spec found
  exact h.not_twin hf hg discerns hs hd first hi unpaired free bears twin

/-- A pair without like children left has nothing to align. -/
theorem Full.alignChildren_eq {a b : Entry} (h : Full src dst m i) (ha : src.get? i = some a)
    (hj : m.dst? i = some j) (hb : dst.get? j = some b) : alignChildren src dst a j m = .ok m := by
  have none : align (alike src dst) (a.children.filter fun c => !m.hasSrc c)
      (b.children.filter fun c => !m.hasDst c) = [] := by
    refine List.eq_nil_iff_forall_not_mem.2 fun p hp => ?_
    refine align_spec (R := fun _ _ => False) (fun l hl r hr like => ?_) p hp
    rw [List.mem_filter, not_hasSrc] at hl
    rw [List.mem_filter, not_hasDst] at hr
    exact h j a b hj ha hb l hl.1 r hr.1 hl.2 hr.2 like
  rw [alignChildren, get_of_get? hb, Outcome.ok_bind]
  dsimp only
  rw [none]
  rfl

theorem Full.pairLeftovers_eq {a b : Entry} (h : Full src dst m i) (ha : src.get? i = some a)
    (hj : m.dst? i = some j) (hb : dst.get? j = some b) : pairLeftovers src dst a j m = .ok m := by
  have stays : ∀ l ∈ a.children.filter fun c => !m.hasSrc c,
      pairLeftover src dst b.children m l = m := by
    intro l hl
    rw [List.mem_filter, not_hasSrc] at hl
    exact pairLeftover_of_unlike fun r hr free => h j a b hj ha hb l hl.1 r hr hl.2 free
  rw [pairLeftovers_eq_foldl hb, foldl_idle stays]

/-- The later phases find nothing. -/
theorem Saturated.forPairs_eq (h : Saturated hash src dst m) (fair : Fair src dst m) :
    forPairs src (alignChildren src dst) m = .ok m ∧
      forPairs src (pairLeftovers src dst) m = .ok m := by
  have full {i : Nat} {a : Entry} (ha : src.get? i = some a) : Full src dst m i :=
    h.full i (Snapshot.lt_size_of_get? ha)
  constructor <;> refine forPairs_idle fun i a j ha hj => ?_ <;>
    obtain ⟨-, b, -, hb, -⟩ := fair i j hj
  · exact (full ha).alignChildren_eq ha hj hb
  · exact (full ha).pairLeftovers_eq ha hj hb

/-- Given roots that are paired, the matcher runs its phases. -/
theorem matcherWith_of_roots (roots : m.dst? 0 = some 0) (roots' : m.src? 0 = some 0)
    (hs : src.size ≠ 0) (hd : dst.size ≠ 0) : matcherWith hash src dst m =
      forPairs src (alignChildren src dst) (pairTwins hash src dst m) >>=
        forPairs src (pairLeftovers src dst) := by
  have admits : m.admits 0 0 = true := by simp [admits, roots, roots']
  have start : m.add 0 0 = m := add_of_taken (by simp [roots])
  rw [matcherWith, if_neg (not_or.2 ⟨hs, hd⟩), admits, if_neg (by simp), start]

/-- The greedy matcher gives back a saturated matching of the roots. -/
theorem Saturated.matcherWith_eq (h : Saturated hash src dst m) (hf : src.Spells f)
    (hg : dst.Spells g) (discerns : Discerns hash src dst) (hs : src.Enrolled) (hd : dst.Enrolled)
    (roots : m.dst? 0 = some 0) (fair : Fair src dst m) :
    matcherWith hash src dst m = .ok m := by
  obtain ⟨a, b, ha, hb, -⟩ := fair 0 0 roots
  have size : src.size ≠ 0 := Nat.ne_of_gt (Snapshot.lt_size_of_get? ha)
  have size' : dst.size ≠ 0 := Nat.ne_of_gt (Snapshot.lt_size_of_get? hb)
  have twins : pairTwins hash src dst m = m := by
    rw [pairTwins_eq]
    refine foldl_idle fun i hi => ?_
    rw [List.mem_range'_1] at hi
    exact h.pairTwin_eq hf hg discerns hs hd hi.1 (by omega)
  obtain ⟨aligned, rest⟩ := h.forPairs_eq fair
  rw [matcherWith_of_roots roots ((m.dst?_iff 0 0).1 roots) size size', twins, aligned,
    Outcome.ok_bind, rest]

end Fixed

end Greedy

end Variation.Matching
