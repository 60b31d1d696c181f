import Variation.Proofs.Greedy
import Variation.Proofs.Trees

/-!
# The greedy matcher keeps the contract

Given a seed whose pairs are of entries of one kind, the greedy matcher keeps it, pairs the roots, and
pairs no entry twice and only entries of one kind. This holds whenever the digests discern subtrees: a
label that holds a zero character can look like a shorter label and a child. What it gives is
saturated: run again it finds nothing more.
-/

namespace Variation.Matching

/-- All pairs are of entries of one kind. -/
def Fair (src dst : Snapshot) (m : Matching) : Prop :=
  ∀ i j, m.dst? i = some j → ∃ a b, src.get? i = some a ∧ dst.get? j = some b ∧ a.kind = b.kind

/-- The first entry of a snapshot, and no other one, is a root. -/
structure Snapshot.Rooted (s : Snapshot) : Prop where
  top : ∃ e, s.get? 0 = some e
  kind : ∀ i e, s.get? i = some e → (e.kind = .root ↔ i = 0)

theorem Snapshot.rooted_of_ofDiff {d : Diff} {t : Time} {s : Snapshot} {f : Sides (Forest Handle)}
    (h : d.Twofold f) (hs : ofDiff d t = .ok s) : s.Rooted := by
  have shape := h.shape t
  have mirrors := mirrors_of_ofDiff h.toRegular shape hs
  obtain ⟨e₀, first, -⟩ := mirrors.get?_of_getElem? (i := 0) rfl
  refine ⟨⟨e₀, first⟩, fun i e he => ?_⟩
  have place := mirrors.getElem? he
  rw [(mirrors.entry i e he).1]
  constructor
  · intro kind
    cases i with
    | zero => rfl
    | succ i => exact absurd kind (h.kind t _ (List.mem_of_getElem? (List.getElem?_cons_succ ▸ place)))
  · rintro rfl
    have origin : Diff.root = e.origin := Option.some.inj place
    rw [← origin]
    exact Diff.look_root_kind h.toRegular

namespace Greedy

variable {hash : String → String} {src dst : Snapshot} {seed m m' : Matching}

/-- A matching leaves nothing to add: no unpaired children of a pair are alike, and no two unpaired
entries have a digest that no other entry has. -/
structure Saturated (hash : String → String) (src dst : Snapshot) (m : Matching) : Prop where
  full : ∀ i, i < src.size → Full src dst m i
  sole : ∀ i j, 1 ≤ i → i < src.size → Sole hash src dst i j → m.dst? i ≠ none ∨ m.src? j ≠ none

theorem Akin.kinds {i j : Nat} (h : Akin src dst i j) :
    ∃ a b, src.get? i = some a ∧ dst.get? j = some b ∧ a.kind = b.kind := by
  obtain ⟨a, b, ha, hb, key⟩ := alike_iff.1 h
  exact ⟨a, b, ha, hb, congrArg Prod.fst key⟩

/-- That different messages have different digests can be tested. -/
theorem apart_of_all {xs ys : List String}
    (h : (xs.all fun x => ys.all fun y => hash x != hash y || x == y) = true) :
    ∀ x ∈ xs, ∀ y ∈ ys, hash x = hash y → x = y := by
  simpa only [List.all_eq_true, Bool.or_eq_true, bne_iff_ne, beq_iff_eq, or_iff_not_imp_left,
    not_not] using h

/-- A seed whose pairs are fair can be extended by the pair of the roots. -/
theorem admits_roots (hsrc : src.Rooted) (hdst : dst.Rooted)
    (fair : Fair src dst seed) : seed.admits 0 0 = true ∧ (seed.add 0 0).dst? 0 = some 0 ∧
      Fair src dst (seed.add 0 0) := by
  obtain ⟨a, ha⟩ := hsrc.top
  obtain ⟨b, hb⟩ := hdst.top
  have target (j : Nat) (h : seed.dst? 0 = some j) : j = 0 := by
    obtain ⟨a', b', ha', hb', same⟩ := fair 0 j h
    exact (hdst.kind j b' hb').1 (same ▸ (hsrc.kind 0 a' ha').2 rfl)
  have source (i : Nat) (h : seed.src? 0 = some i) : i = 0 := by
    obtain ⟨a', b', ha', hb', same⟩ := fair i 0 ((seed.dst?_iff i 0).2 h)
    exact (hsrc.kind i a' ha').1 (same ▸ (hdst.kind 0 b' hb').2 rfl)
  have roots : (seed.dst? 0 = none ∧ seed.src? 0 = none) ∨
      (seed.dst? 0 = some 0 ∧ seed.src? 0 = some 0) := by
    cases hd : seed.dst? 0 with
    | some j =>
      obtain rfl := target j hd
      exact .inr ⟨rfl, (seed.dst?_iff 0 0).1 hd⟩
    | none =>
      cases hs : seed.src? 0 with
      | none => exact .inl ⟨rfl, rfl⟩
      | some i =>
        obtain rfl := source i hs
        rw [(seed.dst?_iff 0 0).2 hs] at hd
        cases hd
  have pair : (seed.add 0 0).dst? 0 = some 0 := by
    rw [dst?_add]
    obtain free | paired := roots
    · rw [if_pos ⟨rfl, free⟩]
    · rw [paired.1, ite_self]
  refine ⟨?_, pair, fun i j hi => ?_⟩
  · obtain ⟨hd, hs⟩ | ⟨hd, hs⟩ := roots <;> simp [admits, hd, hs]
  · rw [dst?_add] at hi
    split at hi
    · next first =>
      obtain ⟨rfl, -⟩ := first
      obtain rfl := Option.some.inj hi
      exact ⟨a, b, ha, hb, ((hsrc.kind 0 a ha).2 rfl).trans ((hdst.kind 0 b hb).2 rfl).symm⟩
    · exact fair i j hi

/-- The children of all pairs can be aligned. -/
theorem alignAll_spec (within : Within dst m) : ∃ m',
    forPairs src (alignChildren src dst) m = .ok m' ∧ m.Grows (Akin src dst) m' := by
  refine forPairs_spec (P := fun _ m' => m.Grows (Akin src dst) m') (fun i a j m₁ _ hi grows => ?_)
    (fun _ _ _ grows => grows) .refl
  obtain ⟨b, hb⟩ := within.grows grows i j hi
  obtain ⟨m', run, more⟩ := alignChildren_spec hb
  exact ⟨m', run, grows.trans more⟩

/-- Pairing the leftovers of all pairs leaves no unpaired children of a pair that are alike, if
children come later than their parents: a pair is added when the parent of its source is visited, so
before its own children are looked at. -/
theorem full_of_leftovers (rising : ∀ i a, src.get? i = some a → ∀ c ∈ a.children, i < c)
    (run : forPairs src (pairLeftovers src dst) m = .ok m') :
    m.Grows (fun _ _ => True) m' ∧ ∀ i, i < src.size → Full src dst m' i := by
  refine forPairs_induct (P := fun k m' => m.Grows (fun _ _ => True) m' ∧
      ∀ i, i < k → Full src dst m' i)
    (fun k a j m₁ m₂ ha hk one ⟨grows, full⟩ => ?_) (fun k m₁ free ⟨grows, full⟩ => ?_) run
    ⟨.refl, fun i hi => absurd hi (Nat.not_lt_zero i)⟩
  · obtain ⟨b, hb⟩ := exists_get?_of_pairLeftovers one
    obtain ⟨m₂', one', more, done⟩ := pairLeftovers_spec (a := a) hb
    obtain rfl := Except.ok.inj (one.symm.trans one')
    have old (i : Nat) (hi : i ≤ k) (j : Nat) (h : m₂.dst? i = some j) : m₁.dst? i = some j :=
      (more.added i j h).resolve_right fun new => absurd (rising k a ha i new.1) (Nat.not_lt.2 hi)
    refine ⟨grows.trans (more.mono fun _ _ _ => trivial), fun i hi => ?_⟩
    obtain below | rfl := Nat.lt_succ_iff_lt_or_eq.1 hi
    · exact (full i below).grows more (old i (Nat.le_of_lt below))
    · intro j' a' b' hj' ha' hb' l hl r hr
      obtain rfl : j = j' := Option.some.inj (hk.symm.trans (old i (Nat.le_refl i) j' hj'))
      obtain rfl := Option.some.inj (ha.symm.trans ha')
      obtain rfl := Option.some.inj (hb.symm.trans hb')
      exact done l hl r hr
  · refine ⟨grows, fun i hi => ?_⟩
    obtain below | rfl := Nat.lt_succ_iff_lt_or_eq.1 hi
    · exact full i below
    · intro j a b paired
      rw [free] at paired
      cases paired

/-- The leftovers of all pairs can be paired. -/
theorem leftovers_spec {f : Forest (Kind × String)} (hf : src.Spells f) (within : Within dst m) :
    ∃ m', forPairs src (pairLeftovers src dst) m = .ok m' ∧
      m.Grows (Akin src dst) m' ∧ ∀ i, i < src.size → Full src dst m' i := by
  obtain ⟨m', run, grows⟩ : ∃ m', forPairs src (pairLeftovers src dst) m = .ok m' ∧
      m.Grows (Akin src dst) m' := by
    refine forPairs_spec (P := fun _ m' => m.Grows (Akin src dst) m')
      (fun i a j m₁ _ hi grows => ?_) (fun _ _ _ grows => grows) .refl
    obtain ⟨b, hb⟩ := within.grows grows i j hi
    obtain ⟨m', one, more, -⟩ := pairLeftovers_spec hb
    exact ⟨m', one, grows.trans (more.mono fun _ _ new => new.2)⟩
  exact ⟨m', run, grows, (full_of_leftovers (fun _ _ ha => hf.later ha) run).2⟩

/-- The greedy matcher adds like pairs to its seed and the pair of the roots until nothing is left to
add. -/
theorem matcherWith_spec {f g : Forest (Kind × String)} (hf : src.Spells f) (hg : dst.Spells g)
    (discerns : Discerns hash src dst) (hsrc : src.Rooted) (hdst : dst.Rooted)
    (fair : Fair src dst seed) : ∃ m, matcherWith hash src dst seed = .ok m ∧
      (seed.add 0 0).Grows (Akin src dst) m ∧ Saturated hash src dst m := by
  obtain ⟨admits, -, fair'⟩ := admits_roots hsrc hdst fair
  have within : Within dst (seed.add 0 0) := fun i j hi => by
    obtain ⟨-, b, -, hb, -⟩ := fair' i j hi
    exact ⟨b, hb⟩
  obtain ⟨twins, sole⟩ := pairTwins_spec hf hg discerns
  obtain ⟨m₂, run₂, aligned⟩ := alignAll_spec (within.grows twins)
  obtain ⟨m₃, run₃, rest, full⟩ :=
    leftovers_spec hf (within.grows (twins.trans aligned))
  have later := aligned.trans rest
  refine ⟨m₃, ?_, twins.trans later, full, fun i j first lt only => ?_⟩
  · have some (s : Snapshot) (h : s.Rooted) : s.size ≠ 0 := by
      obtain ⟨e, he⟩ := h.top
      exact Nat.ne_of_gt (Snapshot.lt_size_of_get? he)
    rw [matcherWith, if_neg (not_or.2 ⟨some src hsrc, some dst hdst⟩), admits, if_neg (by simp)]
    dsimp only
    rw [run₂, Outcome.ok_bind, run₃]
  · exact (sole i j first lt only).imp (fun h free => h (later.free_src free))
      fun h free => h (later.free_dst free)

/-- On snapshots of trees that were read, the greedy matcher obeys the contract and keeps every seed
whose pairs are of one kind, if the messages it hashes have different digests and no label ends in a
zero character and a digest of the other snapshot. -/
theorem greedy_obeys {first second : String} {options options' : Reading.Options}
    {source source' : Source} {dialect dialect' : Dialect} {before after : Tree}
    (hb : Reading.tree first options source dialect = .ok before)
    (ha : Reading.tree second options' source' dialect' = .ok after) : ∃ src dst,
      Snapshot.ofTree before = .ok src ∧ Snapshot.ofTree after = .ok dst ∧ ∀ seed : Matching,
        Fair src dst seed →
        (∀ x ∈ src.messages Text.Digest.ofText, ∀ y ∈ dst.messages Text.Digest.ofText,
          Text.Digest.ofText x = Text.Digest.ofText y → x = y) →
        ¬ Feigns Text.Digest.ofText src dst → ¬ Feigns Text.Digest.ofText dst src →
        ∃ m, Matcher.greedy.run src dst seed = .ok m ∧ m.Obeys src dst ∧
          ∀ i j, seed.dst? i = some j → m.dst? i = some j := by
  obtain ⟨f, still, -⟩ := Reading.exists_still hb
  obtain ⟨g, still', -⟩ := Reading.exists_still ha
  obtain ⟨src, hsrc, -⟩ := Snapshot.ofDiff_spec still.toRegular (still.tree .before)
  obtain ⟨dst, hdst, -⟩ := Snapshot.ofDiff_spec still'.toRegular (still'.tree .before)
  refine ⟨src, dst, hsrc, hdst, fun seed fair apart plain plain' => ?_⟩
  have rooted := Snapshot.rooted_of_ofDiff still.toTwofold hsrc
  have rooted' := Snapshot.rooted_of_ofDiff still'.toTwofold hdst
  obtain ⟨-, roots, fair'⟩ := admits_roots rooted rooted' fair
  obtain ⟨m, asked, grows, -⟩ := matcherWith_spec
    (Snapshot.spells_of_ofDiff still.toRegular (still.tree .before) hsrc)
    (Snapshot.spells_of_ofDiff still'.toRegular (still'.tree .before) hdst)
    ⟨⟨64, Text.Digest.length_ofText⟩, apart, plain, plain'⟩ rooted rooted' fair
  have obeys : m.Obeys src dst := ⟨grows.keeps 0 0 roots,
    fun i j hi => (grows.added i j hi).elim (fair' i j) Akin.kinds⟩
  have kept (i j : Nat) (hi : seed.dst? i = some j) : m.dst? i = some j :=
    grows.keeps i j ((grows_add trivial : seed.Grows (fun _ _ => True) _).keeps i j hi)
  exact ⟨m, Matcher.run_of_extends asked obeys kept, obeys, kept⟩

/-- A line with a zero character is paired with the line that replaces it, because it was given so. -/
theorem greedy_obeys_given : ∃ before after src dst m,
    Reading.tree "x\x00y\n" {} .unknown .preprocessor = .ok before ∧
    Reading.tree "z\n" {} .unknown .preprocessor = .ok after ∧
    Snapshot.ofTree before = .ok src ∧ Snapshot.ofTree after = .ok dst ∧
    Matcher.greedy.run src dst (Matching.empty.add 1 1) = .ok m ∧ m.Obeys src dst ∧
    m.dst? 1 = some 1 := by
  have run : (do
      let before ← Reading.tree "x\x00y\n" {} .unknown .preprocessor
      let after ← Reading.tree "z\n" {} .unknown .preprocessor
      let src ← Snapshot.ofTree before
      let dst ← Snapshot.ofTree after
      let hash := Text.Digest.ofText
      return (src.entries.map (·.kind), dst.entries.map (·.kind),
        (src.messages hash).all fun x => (dst.messages hash).all fun y => hash x != hash y || x == y,
        src.entries.any fun e => (digests hash dst).any fun g => decide (EndsIn e.label g),
        dst.entries.any fun e => (digests hash src).any fun g => decide (EndsIn e.label g)) :
          Outcome _).toOption =
      some (#[.root, .artifact], #[.root, .artifact], true, false, false) := by
    decide +kernel
  obtain ⟨before, hb, rest⟩ := Outcome.bind_eq_ok_iff.1 (Outcome.eq_ok_of_toOption run)
  obtain ⟨after, ha, rest⟩ := Outcome.bind_eq_ok_iff.1 rest
  obtain ⟨src, hsrc, rest⟩ := Outcome.bind_eq_ok_iff.1 rest
  obtain ⟨dst, hdst, rest⟩ := Outcome.bind_eq_ok_iff.1 rest
  simp only [Outcome.pure_eq_ok_iff, Prod.mk.injEq] at rest
  obtain ⟨sources, targets, apart, plain, plain'⟩ := rest
  obtain ⟨src', dst', hsrc', hdst', spec⟩ := greedy_obeys hb ha
  obtain rfl := Except.ok.inj (hsrc.symm.trans hsrc')
  obtain rfl := Except.ok.inj (hdst.symm.trans hdst')
  have given : (Matching.empty.add 1 1).dst? 1 = some 1 := dst?_empty_add.2 ⟨rfl, rfl⟩
  have fair : Fair src dst (Matching.empty.add 1 1) := fun i j h => by
    obtain ⟨rfl, rfl⟩ := dst?_empty_add.1 h
    have source := congrArg (fun kinds => kinds[1]?) sources
    have target := congrArg (fun kinds => kinds[1]?) targets
    simp only [Array.getElem?_map] at source target
    obtain ⟨a, first, kind⟩ := Option.map_eq_some_iff.1 source
    obtain ⟨b, second, kind'⟩ := Option.map_eq_some_iff.1 target
    exact ⟨a, b, first, second, kind.trans kind'.symm⟩
  obtain ⟨m, asked, obeys, kept⟩ := spec _ fair (apart_of_all apart)
    (not_feigns_of_any plain) (not_feigns_of_any plain')
  exact ⟨before, after, src, dst, m, hb, ha, hsrc, hdst, asked, obeys, kept 1 1 given⟩

end Greedy

end Variation.Matching
