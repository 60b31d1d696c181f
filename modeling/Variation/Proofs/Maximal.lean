import Variation.Proofs.Contract

/-!
# What the greedy matcher leaves unpaired

Whenever the greedy matcher gives a matching, it has kept its seed, and no pair has an unpaired child
of its source and an unpaired child of its destination with the same kind and label. Nothing is asked
of the seed, the labels or the digests: pairs of unlike entries, and pairs that the digests brought
together by accident, have their children looked at too. Nor is anything asked of the diffs. A snapshot
numbers every entry before its children, so whenever the last phase adds a pair, that pair is still to
come; and a pair whose children were looked at only ever loses unpaired children.
-/

namespace Variation.Matching

/-! ## Children come after their entries -/

namespace Snapshot

variable {d : Diff} {t : Time} {s : Snapshot}

/-- Every entry comes before its children. -/
def Rising (s : Snapshot) : Prop := ∀ i e, s.get? i = some e → ∀ c ∈ e.children, i < c

/-- A walk over any diff that comes to an end numbers every node before its children. -/
theorem rising_of_ofDiff (hs : ofDiff d t = .ok s) : s.Rising := by
  intro i e he c hc
  have linked := linked_of_ofDiff hs
  obtain ⟨x, hx, up⟩ := (linked.child i e he c).1 hc
  exact linked.before c x i hx up

end Snapshot

namespace Greedy

variable {hash : String → String} {src dst : Snapshot} {seed m m' : Matching}

/-! ## Every phase only adds pairs -/

/-- A matching that has grown by any pairs. -/
abbrev Extends (m m' : Matching) : Prop := m.Grows (fun _ _ => True) m'

theorem extends_pairTwins : Extends m (pairTwins hash src dst m) := by
  have one (s : Nat) (m : Matching) : Extends m (pairTwin hash src dst m s) ∧ True := by
    refine ⟨?_, trivial⟩
    rw [pairTwin]
    split
    · exact .refl
    · split
      · exact grows_addAll fun _ _ => trivial
      · exact .refl
  rw [pairTwins_eq]
  exact (grows_foldl (fun s _ => one s) fun _ _ _ _ _ => trivial).1

theorem extends_alignAll (run : forPairs src (alignChildren src dst) m = .ok m') : Extends m m' := by
  refine forPairs_induct (P := fun _ m' => Extends m m') (fun i a j m₁ m₂ _ _ one grows => ?_)
    (fun _ _ _ grows => grows) run .refl
  rw [alignChildren] at one
  obtain ⟨b, -, one⟩ := Outcome.bind_eq_ok_iff.1 one
  obtain rfl := Except.ok.inj one
  exact grows.trans (grows_addAll fun _ _ => trivial)

/-- A matching that is given keeps the seed, and no unpaired children of a pair are alike. -/
theorem matcherWith_full (rising : src.Rising)
    (run : matcherWith hash src dst seed = .ok m) :
    Extends seed m ∧ ∀ i, Full src dst m i := by
  unfold matcherWith at run
  split at run
  · cases run
  split at run
  · cases run
  obtain ⟨m₂, aligned, run⟩ := Outcome.bind_eq_ok_iff.1 run
  have seeded : Extends seed (seed.add 0 0) := grows_add trivial
  have paired : Extends seed (pairTwins hash src dst (seed.add 0 0)) :=
    seeded.trans extends_pairTwins
  have begun := paired.trans (extends_alignAll aligned)
  obtain ⟨ended, full⟩ := full_of_leftovers rising run
  refine ⟨begun.trans ended, fun i j a b paired ha => ?_⟩
  exact full i (Snapshot.lt_size_of_get? ha) j a b paired ha

/-- The greedy matcher is maximal below matched nodes: a matching that it gives contains the seed, and
of a pair it leaves no two children unpaired that have the same kind and label. -/
theorem greedy_maximal {d : Diff} {t : Time} (taken : Snapshot.ofDiff d t = .ok src)
    (run : Matcher.greedy src dst seed = .ok m) :
    (∀ i j, seed.dst? i = some j → m.dst? i = some j) ∧
    ∀ i j a b, m.dst? i = some j → src.get? i = some a → dst.get? j = some b →
      ∀ l ∈ a.children, ∀ r ∈ b.children, m.dst? l = none → m.src? r = none →
        ∀ x y, src.get? l = some x → dst.get? r = some y → ¬ (x.kind = y.kind ∧ x.label = y.label) := by
  obtain ⟨grows, full⟩ := matcherWith_full (Snapshot.rising_of_ofDiff taken) run
  refine ⟨grows.keeps, fun i j a b paired ha hb l hl r hr freeL freeR x y hx hy same => ?_⟩
  refine full i j a b paired ha hb l hl r hr freeL freeR (alike_iff.2 ⟨x, y, hx, hy, ?_⟩)
  exact Prod.ext same.1 same.2

/-- A line is given to a line of another text, so that the line like it stays unpaired; the other
unpaired line is not like that one. -/
theorem greedy_maximal_given : ∃ before after src dst m,
    Reading.diff " x\n y\n w\n" {} .unknown .preprocessor = .ok before ∧
    Reading.diff " y\n z\n x\n" {} .unknown .preprocessor = .ok after ∧
    Snapshot.ofDiff before .before = .ok src ∧ Snapshot.ofDiff after .after = .ok dst ∧
    Matcher.greedy src dst (Matching.empty.add 1 2) = .ok m ∧
    m.dst? 1 = some 2 ∧ m.dst? 3 = none ∧ m.src? 3 = none ∧
    ∃ x y, src.get? 3 = some x ∧ dst.get? 3 = some y ∧ ¬ (x.kind = y.kind ∧ x.label = y.label) := by
  have run : (do
      let before ← Reading.diff " x\n y\n w\n" {} .unknown .preprocessor
      let after ← Reading.diff " y\n z\n x\n" {} .unknown .preprocessor
      let src ← Snapshot.ofDiff before .before
      let dst ← Snapshot.ofDiff after .after
      let m ← Matcher.greedy src dst (Matching.empty.add 1 2)
      return ([m.dst? 0, m.dst? 3, m.src? 3], src.entries.map (·.children),
        dst.entries.map (·.children)) : Outcome _).toOption =
      some ([some 0, none, none], #[[1, 2, 3], [], [], []], #[[1, 2, 3], [], [], []]) := by
    decide +kernel
  obtain ⟨before, hb, rest⟩ := Outcome.bind_eq_ok_iff.1 (Outcome.eq_ok_of_toOption run)
  obtain ⟨after, ha, rest⟩ := Outcome.bind_eq_ok_iff.1 rest
  obtain ⟨src, hsrc, rest⟩ := Outcome.bind_eq_ok_iff.1 rest
  obtain ⟨dst, hdst, rest⟩ := Outcome.bind_eq_ok_iff.1 rest
  obtain ⟨m, asked, rest⟩ := Outcome.bind_eq_ok_iff.1 rest
  simp only [Outcome.pure_eq_ok_iff, Prod.mk.injEq, List.cons.injEq, and_true] at rest
  obtain ⟨⟨roots, freeSrc, freeDst⟩, children, children'⟩ := rest
  have entry {s : Snapshot} (h : s.entries.map (·.children) = #[[1, 2, 3], [], [], []]) :
      (∃ e, s.get? 0 = some e ∧ e.children = [1, 2, 3]) ∧ ∃ e, s.get? 3 = some e := by
    have top := congrArg (fun lists => lists[0]?) h
    have last := congrArg (fun lists => lists[3]?) h
    simp only [Array.getElem?_map] at top last
    obtain ⟨e, he, below⟩ := Option.map_eq_some_iff.1 top
    obtain ⟨e', he', -⟩ := Option.map_eq_some_iff.1 last
    exact ⟨⟨e, he, below⟩, e', he'⟩
  obtain ⟨⟨a, first, below⟩, x, hx⟩ := entry children
  obtain ⟨⟨b, first', below'⟩, y, hy⟩ := entry children'
  have given : (Matching.empty.add 1 2).dst? 1 = some 2 := dst?_empty_add.2 ⟨rfl, rfl⟩
  obtain ⟨kept, maximal⟩ := greedy_maximal hsrc asked
  exact ⟨before, after, src, dst, m, hb, ha, hsrc, hdst, asked, kept 1 2 given, freeSrc, freeDst,
    x, y, hx, hy, maximal 0 0 a b roots first first' 3 (by simp [below]) 3 (by simp [below'])
      freeSrc freeDst x y hx hy⟩

end Greedy

end Variation.Matching
