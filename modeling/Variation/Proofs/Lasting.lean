import Variation.Proofs.Durable
import Variation.Proofs.Improved
import Variation.Proofs.Saturated

/-!
# Refining again changes nothing

A refinement with the greedy matcher joins all pairs of the matching, since like entries have equal
labels. So in the refined diff the unchanged nodes form exactly these pairs. The matching is
saturated, and the matcher, which is asked about the same trees again, gives it back; settling
unchanged nodes does nothing.
-/

namespace Variation.Refinement

open Matching (Snapshot Entry Fair)
open Matching.Snapshot (Mirrors)
open Matching.Greedy (Akin Discerns Feigns Saturated alike_iff apart_of_all matcherWith_alike
  matcherWith_spec)
open Edit Diff

variable {d d' : Diff} {s : Sides (Forest Handle)} {name : Handle → Handle} {src dst : Snapshot}
  {seed m : Matching} {i j : Nat} {n : Handle}

/-! ## The pairs of unchanged nodes -/

/-- The pairs that are given are those of unchanged nodes with themselves. -/
theorem dst?_ownPairs_iff (h : d.Twofold s) (before : Mirrors d src (root :: s.before.flatten))
    (after : Mirrors d dst (root :: s.after.flatten)) (own : ownPairs d src dst = .ok seed) :
    seed.dst? i = some j ↔ ∃ n, (root :: s.before.flatten)[i]? = some n ∧
      (root :: s.after.flatten)[j]? = some n ∧ (d.look n).change = .unchanged := by
  obtain ⟨seed', own', given⟩ := ownPairs_spec h before after
  obtain rfl := Except.ok.inj (own.symm.trans own')
  constructor
  · intro pair
    obtain ⟨e, he, unchanged⟩ := unchanged_of_ownPairs own pair
    obtain ⟨j', b, pair', hb, origin⟩ := given i e he unchanged
    obtain rfl := Option.some.inj (pair.symm.trans pair')
    exact ⟨e.origin, before.getElem? he, origin ▸ after.getElem? hb, unchanged⟩
  · rintro ⟨n, hi, hj, unchanged⟩
    obtain ⟨e, he, rfl⟩ := before.get?_of_getElem? hi
    obtain ⟨b, hb, origin⟩ := after.get?_of_getElem? hj
    obtain ⟨j', b', pair, hb', origin'⟩ := given i e he unchanged
    obtain rfl := after.index_inj (h.shape .after).once hb hb' (origin.trans origin'.symm)
    exact pair

/-- A pair that is given has one node on both sides. -/
theorem origin_eq_of_ownPairs {e b : Entry} (h : d.Twofold s)
    (before : Mirrors d src (root :: s.before.flatten)) (after : Mirrors d dst (root :: s.after.flatten))
    (own : ownPairs d src dst = .ok seed) (pair : seed.dst? i = some j) (he : src.get? i = some e)
    (hb : dst.get? j = some b) : b.origin = e.origin := by
  obtain ⟨n, hi, hj, -⟩ := (dst?_ownPairs_iff h before after own).1 pair
  exact Option.some.inj (((after.getElem? hb).symm.trans hj).trans (hi.symm.trans (before.getElem? he)))

/-- Nodes have one kind and one text at both times. -/
theorem akin_of_ownPairs (h : d.Twofold s) (before : Mirrors d src (root :: s.before.flatten))
    (after : Mirrors d dst (root :: s.after.flatten)) (own : ownPairs d src dst = .ok seed)
    (pair : seed.dst? i = some j) : Akin src dst i j := by
  obtain ⟨n, hi, hj, -⟩ := (dst?_ownPairs_iff h before after own).1 pair
  obtain ⟨a, ha, rfl⟩ := before.get?_of_getElem? hi
  obtain ⟨b, hb, origin⟩ := after.get?_of_getElem? hj
  obtain ⟨kind, label⟩ := before.entry i a ha
  obtain ⟨kind', label'⟩ := after.entry j b hb
  refine alike_iff.2 ⟨a, b, ha, hb, Prod.ext ?_ ?_⟩
  · exact kind.trans ((congrArg (fun n => (d.look n).kind) origin.symm).trans kind'.symm)
  · exact label.trans ((congrArg (fun n => (d.look n).matchingText) origin.symm).trans label'.symm)

/-- A node of both trees is unchanged. -/
theorem unchanged_of_both (h : d.Twofold s) (top : ∀ t, d.lives t root = true)
    (both : ∀ t, n ∈ root :: (s.get t).flatten) : (d.look n).change = .unchanged := by
  have reaches : d.Reaches n := h.exists_mem_iff.1 ⟨.before, both .before⟩
  exact (unchanged_iff (h.lt_size (both .before))).2 fun t => (h.lives_iff top reaches).2 (both t)

/-- If all pairs of a matching are alike, they are those of the unchanged nodes of the refined diff. -/
theorem Settled.dst?_own_iff {src' dst' : Snapshot} {seed' : Matching}
    (h : Settled d d' s src dst seed m name) (akin : ∀ i j, m.dst? i = some j → Akin src dst i j)
    (before' : Mirrors d' src' (root :: s.before.flatten))
    (after' : Mirrors d' dst' (root :: (s.after.map name).flatten))
    (own' : ownPairs d' src' dst' = .ok seed') : seed'.dst? i = some j ↔ m.dst? i = some j := by
  have renamed : (root :: (s.after.map name).flatten)[j]? =
      (root :: s.after.flatten)[j]?.map name := by
    rw [Forest.flatten_map, ← List.getElem?_map, List.map_cons, h.name_root]
  have setting := h.setting
  rw [dst?_ownPairs_iff h.merged.twofold before' after' own']
  constructor
  · rintro ⟨n, hi, hj, -⟩
    rw [renamed] at hj
    obtain ⟨a, ha, named⟩ := Option.map_eq_some_iff.1 hj
    obtain ⟨e, he, rfl⟩ := setting.before.get?_of_getElem? hi
    obtain ⟨b, hb, rfl⟩ := setting.after.get?_of_getElem? ha
    obtain same | ⟨i', j', e', b', new, he', hb', origin, named', -⟩ := h.name_cases b.origin
    · -- the node was there at both times, and was paired with itself
      rw [same] at named
      have unchanged : (d.look e.origin).change = .unchanged :=
        unchanged_of_both setting.twofold setting.top fun
          | .before => List.mem_of_getElem? hi
          | .after => named ▸ List.mem_of_getElem? ha
      obtain ⟨j', b', pair, hb', origin⟩ := setting.own i e he unchanged
      obtain rfl := setting.dst_inj hb hb' (named.trans origin.symm)
      exact pair
    · obtain rfl := setting.src_inj he he' (named.symm.trans named')
      obtain rfl := setting.dst_inj hb hb' origin.symm
      exact ((mem_newPairs_iff he' hb').1 new).1
  · intro pair
    obtain ⟨e, b, he, hb, same⟩ := alike_iff.1 (akin i j pair)
    have named : name b.origin = e.origin := h.counterpart i e b.origin he
      (counterpart?_eq_some_iff.2 ⟨j, b, pair, hb, (congrArg Prod.snd same).symm, rfl⟩)
    have hi : (root :: s.before.flatten)[i]? = some e.origin := setting.before.getElem? he
    have hj : (root :: (s.after.map name).flatten)[j]? = some e.origin := by
      rw [renamed, setting.after.getElem? hb, Option.map_some, named]
    exact ⟨e.origin, hi, hj, unchanged_of_both h.merged.twofold h.top fun
      | .before => List.mem_of_getElem? hi
      | .after => List.mem_of_getElem? hj⟩

/-! ## Settling what is settled -/

/-- Nothing happens if every source is at most to be one with itself. -/
theorem run_settleAll_own {es : List (Entry × Nat)} (h : d.Twofold s)
    (roles : ∀ q ∈ es, Role d s q.1.origin (counterpart? dst m q.1 q.2))
    (own : ∀ q ∈ es, ∀ a, counterpart? dst m q.1 q.2 = some a → a = q.1.origin) :
    (settleAll dst m {} es).run d = .ok () d := by
  induction es with
  | nil => rfl
  | cons q es ih =>
    obtain ⟨role, roles⟩ := List.forall_mem_cons.1 roles
    obtain ⟨self, own⟩ := List.forall_mem_cons.1 own
    obtain ⟨d₁, run, ⟨rfl, -⟩ | ⟨a, p, i, counterpart, meets, -⟩⟩ := run_settleWith h role
    · show (settle dst m {} q.1 q.2 >>= fun copies => settleAll dst m copies es).run d₁ = _
      rw [EStateM.run_bind, run_settle h role.mem run]
      exact ih roles own
    · exact absurd (self a counterpart) meets.other.symm

/-- A refinement that succeeds was given an unchanged root. -/
theorem root_unchanged_of_refine {matcher : Matcher} (h : d.Twofold s)
    (refined : refine d matcher = .ok d') : (d.look root).change = .unchanged := by
  by_contra edited
  obtain ⟨src, dst, seed, hsrc, hdst, own, eq⟩ := refine_eq h
  obtain ⟨m, run, -⟩ := Outcome.bind_eq_ok_iff.1 ((eq matcher).symm.trans refined)
  rw [refine_of_edited_root h edited hsrc hdst own run] at refined
  cases refined

/-- A matcher that gives back the pairs it is given leaves a diff as it is. -/
theorem refine_eq_self {matcher : Matcher} (h : d.Twofold s) (top : ∀ t, d.lives t root = true)
    (hsrc : Snapshot.ofDiff d .before = .ok src) (hdst : Snapshot.ofDiff d .after = .ok dst)
    (own : ownPairs d src dst = .ok seed) (run : matcher.run src dst seed = .ok seed) :
    refine d matcher = .ok d := by
  have setting := setting_of_run h top hsrc hdst own run
  have idle : (settleAll dst seed {} src.entries.toList.zipIdx).run d = .ok () d := by
    refine run_settleAll_own h (fun q hq => setting.role (Snapshot.mem_zipIdx_entries.1 hq))
      fun q hq a ha => ?_
    obtain ⟨j, b, pair, hb, -, rfl⟩ := counterpart?_eq_some_iff.1 ha
    exact origin_eq_of_ownPairs h setting.before setting.after own pair
      (Snapshot.mem_zipIdx_entries.1 hq) hb
  exact refine_of_run hsrc hdst own run idle h

/-! ## The greedy matcher -/

/-- A text without a zero character ends in no digest, so the digests of the trees of a diff whose
texts are such tell subtrees apart. -/
theorem discerns_of_plain (h : d.Twofold s) (before : Mirrors d src (root :: s.before.flatten))
    (after : Mirrors d dst (root :: s.after.flatten))
    (plain : ∀ n, d.Reaches n → '\x00' ∉ (d.look n).matchingText.toList)
    (apart : ∀ x ∈ src.messages Text.Digest.ofText, ∀ y ∈ dst.messages Text.Digest.ofText,
      Text.Digest.ofText x = Text.Digest.ofText y → x = y) :
    Discerns Text.Digest.ofText src dst := by
  have honest {t : Time} {tree other : Snapshot}
      (mirrors : Mirrors d tree (root :: (s.get t).flatten)) :
      ¬ Feigns Text.Digest.ofText tree other := by
    rintro ⟨e, he, g, -, ends⟩
    obtain ⟨i, hi, rfl⟩ := Array.getElem_of_mem he
    have here : tree.get? i = some tree.entries[i] := Array.getElem?_eq_getElem hi
    have reaches : d.Reaches tree.entries[i].origin :=
      h.exists_mem_iff.1 ⟨t, List.mem_of_getElem? (mirrors.getElem? here)⟩
    refine plain _ reaches ?_
    rw [← (mirrors.entry i _ here).2]
    exact ends.subset List.mem_cons_self
  exact ⟨⟨64, Text.Digest.length_ofText⟩, apart, honest (t := .before) before,
    honest (t := .after) after⟩

/-- A matching for the trees of a diff that the greedy matcher gives, and would give back. -/
structure Final (src dst : Snapshot) (m : Matching) : Prop where
  roots : m.dst? 0 = some 0
  akin : ∀ i j, m.dst? i = some j → Akin src dst i j
  saturated : Saturated Text.Digest.ofText src dst m

theorem Final.fair (h : Final src dst m) : Fair src dst m := fun i j pair => (h.akin i j pair).kinds

theorem Final.obeys (h : Final src dst m) : m.Obeys src dst := ⟨h.roots, h.fair⟩

/-- The greedy matcher gives a diff a final matching. -/
theorem exists_final (h : d.Twofold s) (top : (d.look root).change = .unchanged)
    (hsrc : Snapshot.ofDiff d .before = .ok src) (hdst : Snapshot.ofDiff d .after = .ok dst)
    (own : ownPairs d src dst = .ok seed) (discerns : Discerns Text.Digest.ofText src dst) :
    ∃ m, Matcher.greedy.run src dst seed = .ok m ∧ Final src dst m := by
  have before := Snapshot.mirrors_of_ofDiff h.toRegular (h.shape .before) hsrc
  have after := Snapshot.mirrors_of_ofDiff h.toRegular (h.shape .after) hdst
  have given (i j : Nat) (pair : seed.dst? i = some j) := akin_of_ownPairs h before after own pair
  have roots : seed.dst? 0 = some 0 :=
    (dst?_ownPairs_iff h before after own).2 ⟨root, rfl, rfl, top⟩
  obtain ⟨m, asked, grows, saturated⟩ := matcherWith_spec
    (Snapshot.spells_of_ofDiff h.toRegular (h.shape .before) hsrc)
    (Snapshot.spells_of_ofDiff h.toRegular (h.shape .after) hdst) discerns
    (Snapshot.rooted_of_ofDiff h hsrc) (Snapshot.rooted_of_ofDiff h hdst)
    fun i j pair => (given i j pair).kinds
  rw [Matching.add_of_taken (by simp [roots])] at grows
  have final : Final src dst m := ⟨grows.keeps 0 0 roots,
    fun i j pair => (grows.added i j pair).elim (given i j) id, saturated⟩
  exact ⟨m, Matcher.run_of_extends asked final.obeys grows.keeps, final⟩

/-- A matching is final by its pairs alone. -/
theorem Final.congr (h : Final src dst m) {m' : Matching}
    (same : ∀ i j, m'.dst? i = some j ↔ m.dst? i = some j) : Final src dst m' := by
  have targets (i : Nat) : m'.dst? i = m.dst? i := Option.ext fun j => same i j
  exact ⟨(targets 0).trans h.roots, fun i j pair => h.akin i j ((same i j).1 pair),
    h.saturated.congr targets (Matching.src?_congr same)⟩

/-- Asked about the same trees again, the greedy matcher gives back the pairs of a final matching. -/
theorem Final.greedy_eq (h : Final src dst m) (twofold : d.Twofold s)
    (hsrc : Snapshot.ofDiff d .before = .ok src) (hdst : Snapshot.ofDiff d .after = .ok dst)
    (discerns : Discerns Text.Digest.ofText src dst) {src' dst' : Snapshot} {seed' : Matching}
    (alike : src'.Alike src) (alike' : dst'.Alike dst)
    (same : ∀ i j, seed'.dst? i = some j ↔ m.dst? i = some j) :
    Matcher.greedy src' dst' seed' = .ok seed' := by
  have final : Final src dst seed' := h.congr same
  have regular := twofold.toRegular
  have shape := twofold.shape .before
  have shape' := twofold.shape .after
  rw [Matcher.greedy, matcherWith_alike alike alike']
  exact final.saturated.matcherWith_eq (Snapshot.spells_of_ofDiff regular shape hsrc)
    (Snapshot.spells_of_ofDiff regular shape' hdst) discerns
    (Snapshot.enrolled_of_ofDiff regular shape hsrc)
    (Snapshot.enrolled_of_ofDiff regular shape' hdst) final.roots final.fair

/-- Refining a diff again changes nothing, if its texts hold no zero characters and different messages
that are hashed for its two trees have different digests. -/
theorem refine_idempotent (regular : d.Regular) (sound : d.Sound)
    (plain : ∀ n, d.Reaches n → '\x00' ∉ (d.look n).matchingText.toList)
    (hsrc : Snapshot.ofDiff d .before = .ok src) (hdst : Snapshot.ofDiff d .after = .ok dst)
    (apart : ∀ x ∈ src.messages Text.Digest.ofText, ∀ y ∈ dst.messages Text.Digest.ofText,
      Text.Digest.ofText x = Text.Digest.ofText y → x = y)
    (refined : refine d Matcher.greedy = .ok d') : refine d' Matcher.greedy = .ok d' := by
  obtain ⟨s, twofold⟩ := sound.exists_twofold regular
  have unchanged := root_unchanged_of_refine twofold refined
  have top := (unchanged_iff regular.root_lt).1 unchanged
  have before := Snapshot.mirrors_of_ofDiff regular (twofold.shape .before) hsrc
  have after := Snapshot.mirrors_of_ofDiff regular (twofold.shape .after) hdst
  obtain ⟨seed, own, -⟩ := ownPairs_spec twofold before after
  have discerns := discerns_of_plain twofold before after plain apart
  obtain ⟨m, run, final⟩ := exists_final twofold unchanged hsrc hdst own discerns
  -- the first refinement joins the pairs of `m`
  obtain ⟨d'', name, refined', settled⟩ := exists_settled twofold top hsrc hdst own run
  obtain rfl := Except.ok.inj (refined.symm.trans refined')
  -- so the second one is given these pairs, for the same trees
  have twofold' := settled.merged.twofold
  obtain ⟨src', dst', hsrc', alike, hdst', alike', -⟩ := settled.trees hsrc hdst
  have before' := Snapshot.mirrors_of_ofDiff twofold'.toRegular (twofold'.shape .before) hsrc'
  have after' := Snapshot.mirrors_of_ofDiff twofold'.toRegular (twofold'.shape .after) hdst'
  obtain ⟨seed', own', -⟩ := ownPairs_spec twofold' before' after'
  have same (i j : Nat) : seed'.dst? i = some j ↔ m.dst? i = some j :=
    settled.dst?_own_iff final.akin before' after' own'
  have asked := final.greedy_eq twofold hsrc hdst discerns alike alike' same
  have obeys : seed'.Obeys src' dst' := ⟨(same 0 0).2 final.roots,
    fun i j pair => (akin_of_ownPairs twofold' before' after' own' pair).kinds⟩
  exact refine_eq_self twofold' settled.top hsrc' hdst' own'
    (Matcher.run_of_extends asked obeys fun _ _ pair => pair)

/-- A line that was moved is read as a removed node and an added one, which the refinement joins. -/
theorem refine_idempotent_moved : ∃ d d',
    Reading.diff "-x\n z\n+x\n" {} .unknown .preprocessor = .ok d ∧
    refine d Matcher.greedy = .ok d' ∧ refine d' Matcher.greedy = .ok d' ∧
    (d.look 1).change = .removed ∧ (d'.look 1).change = .unchanged := by
  have values : (do
      let d ← Reading.diff "-x\n z\n+x\n" {} .unknown .preprocessor
      let ns ← d.preorder
      let src ← Snapshot.ofDiff d .before
      let dst ← Snapshot.ofDiff d .after
      let d' ← refine d Matcher.greedy
      let hash := Text.Digest.ofText
      return (ns.all fun n => !(d.look n).matchingText.toList.contains '\x00',
        (src.messages hash).all fun x => (dst.messages hash).all fun y => hash x != hash y || x == y,
        (d.look 1).change, (d'.look 1).change) : Outcome _).toOption =
      some (true, true, .removed, .unchanged) := by
    decide +kernel
  obtain ⟨d, read, rest⟩ := Outcome.bind_eq_ok_iff.1 (Outcome.eq_ok_of_toOption values)
  obtain ⟨ns, order, rest⟩ := Outcome.bind_eq_ok_iff.1 rest
  obtain ⟨src, hsrc, rest⟩ := Outcome.bind_eq_ok_iff.1 rest
  obtain ⟨dst, hdst, rest⟩ := Outcome.bind_eq_ok_iff.1 rest
  obtain ⟨d', refined, rest⟩ := Outcome.bind_eq_ok_iff.1 rest
  simp only [Outcome.pure_eq_ok_iff, Prod.mk.injEq] at rest
  obtain ⟨plain, apart, removed, joined⟩ := rest
  have orderly := (Reading.ofLines_seems read).1
  refine ⟨d, d', read, refined, ?_, removed, joined⟩
  refine refine_idempotent orderly.toRegular orderly.sound (fun n reaches => ?_) hsrc hdst
    (apart_of_all apart) refined
  obtain ⟨ns', order', -, mem⟩ := preorder_spec orderly.toRegular
  obtain rfl := Except.ok.inj (order.symm.trans order')
  have clean := List.all_eq_true.1 plain n ((mem n).2 reaches)
  simpa using clean

end Variation.Refinement
