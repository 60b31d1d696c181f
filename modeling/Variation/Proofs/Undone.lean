import Variation.Proofs.Compared
import Variation.Proofs.Evident
import Variation.Proofs.Lasting
import Variation.Proofs.Lined
import Variation.Proofs.Splitting

/-!
# Refining undoes a split

Splitting a node leaves the trees at both times as they are, so a refinement asks the matcher about the
same trees as before, with one pair less. If the diff was one that refining leaves alone and the matcher
finds that pair again, the two parts are joined, and nothing else is.
-/

namespace Variation

open Matching (Snapshot Entry Lacks)
open Matching.Greedy (Akin Aligned Discerns EndsIn Evident Feigns Foremost alike_iff apart_of_all digestAt
  digests evident_of_repeats matcherWith matcherWith_alike matcherWith_lacks matcherWith_spec
  not_feigns_of_any sizes)
open Matching.Snapshot (Mirrors)
open Edit Diff

namespace Diff

variable {d : Diff} {n p m : Handle} {k : Nat} {t : Time} {s : Sides (Forest Handle)} {x : Node}

/-! ## A node without edges behind a diff -/

theorem belowBoth_append (bare : x.detached = x) : (d.append x).belowBoth m = d.belowBoth m := by
  have none (t) : x.children.get t = [] := bare ▸ x.children_detached t
  simp only [belowBoth, below_append none]

/-- A node without edges in the store does not count when diffs are compared. -/
theorem similar_append (hd : d.Regular) (bare : x.detached = x) : Similar d (d.append x) := by
  have same {p : Handle × Handle} (h : Opposite d (d.append x) p) : Opposite d d p := by
    induction h with
    | root => exact .root
    | child _ hc ih =>
      rw [meet, belowBoth_append bare] at hc
      exact .child ih hc
  intro p hp
  have self := (same hp).eq_self
  have inStore : p.2 ≠ d.size := self ▸ Nat.ne_of_lt (hp.reaches.lt_size hd)
  rw [Corresponds, belowBoth_append bare, self]
  refine ⟨?_, rfl⟩
  rw [face, face, look_append, if_neg inStore]

/-- Nor is one taken for another. -/
theorem saysSame_append (hd : d.Regular) (bare : x.detached = x) :
    (d.append x).saysSame d = .ok true ∧ d.saysSame (d.append x) = .ok true := by
  have regular : (d.append x).Regular :=
    hd.append (bare ▸ x.children_detached) (bare ▸ x.parent_detached)
  have similar := similar_append hd bare
  exact ⟨similar.swap.saysSame regular hd, similar.saysSame hd regular⟩

/-! ## The trees of the parted diff -/

/-- A split leaves the snapshots as they are but for the nodes that the entries stand for. -/
theorem Twofold.alike_parted (h : d.Twofold s) (parts : d.Parts n p k)
    (hn : ∀ t, n ∈ (s.get t).flatten) {tree tree' : Snapshot} (hs : Snapshot.ofDiff d t = .ok tree)
    (hs' : Snapshot.ofDiff (d.parted n p k) t = .ok tree') : tree'.Alike tree := by
  have renamed := h.renamed_parted parts hn
  have twofold := h.parted parts hn
  rw [Snapshot.ofDiff_eq h.toRegular (h.shape t)] at hs
  rw [Snapshot.ofDiff_eq twofold.toRegular (twofold.shape t), renamed.tree, ← renamed.top t,
    ← Forest.map_tree] at hs'
  obtain rfl := Except.ok.inj hs
  obtain rfl := Except.ok.inj hs'
  refine .renamed fun m hm => ?_
  rw [Forest.flatten_tree] at hm
  have old : m < d.size := h.lt_size hm
  exact ⟨parts.kind_splitName old,
    parts.look_splitName old Node.matchingText (fun _ => rfl) fun _ => by cases t <;> rfl⟩

theorem Parts.change_parted (parts : d.Parts n p k) : ((d.parted n p k).look m).change =
    if m = d.size then .added else if m = n then .removed else (d.look m).change := by
  rw [← change_payload, payload_parted parts, ← change_payload]
  split
  · rfl
  · split <;> rfl

/-- The two parts of a node have one matching text. -/
theorem Parts.matchingText_parted (parts : d.Parts n p k) :
    ((d.parted n p k).look d.size).matchingText = ((d.parted n p k).look n).matchingText := by
  have told (t) : ((d.parted n p k).look (d.splitName n t n)).matchingText = (d.look n).matchingText :=
    parts.look_splitName parts.inStore Node.matchingText (fun _ => rfl) fun _ => by cases t <;> rfl
  have copy : d.splitName n .after n = d.size := standIn_self
  rw [← copy, told .after]
  exact (told .before).symm

end Diff

namespace Refinement

variable {d f : Diff} {n p c : Handle} {k : Nat} {s : Sides (Forest Handle)} {src dst src' dst' : Snapshot}
  {seed seed' m : Matching} {i j x y : Nat} {name : Handle → Handle}

/-- The pairs of unchanged nodes of the parted diff are the former ones but for that of the node. -/
theorem lacks_parted (h : d.Twofold s) (parts : d.Parts n p k) (hn : ∀ t, n ∈ (s.get t).flatten)
    (before : Mirrors d src (root :: s.before.flatten))
    (after : Mirrors d dst (root :: s.after.flatten)) (own : ownPairs d src dst = .ok seed)
    (before' : Mirrors (d.parted n p k) src' (root :: s.before.flatten))
    (after' : Mirrors (d.parted n p k) dst' (root :: (d.splitTrees n s).after.flatten))
    (own' : ownPairs (d.parted n p k) src' dst' = .ok seed')
    (hi : (root :: s.before.flatten)[i]? = some n) (hj : (root :: s.after.flatten)[j]? = some n) :
    seed.Lacks seed' i j := by
  have pair : seed.dst? i = some j := (dst?_ownPairs_iff h before after own).2 ⟨n, hi, hj, parts.whole⟩
  refine Lacks.of_iff pair fun x y => ?_
  rw [dst?_ownPairs_iff (h.parted parts hn) before' after' own', dst?_ownPairs_iff h before after own]
  have names : root :: (d.splitTrees n s).after.flatten =
      (root :: s.after.flatten).map (standIn n d.size) := h.flatten_standIn (hn .after)
  rw [names, List.getElem?_map]
  show (∃ m, (root :: s.before.flatten)[x]? = some m ∧ _) ↔ _
  constructor
  · rintro ⟨m, hx, hy, unchanged⟩
    obtain ⟨m₀, hy₀, rfl⟩ := Option.map_eq_some_iff.1 hy
    have old := h.lt_size (t := .before) (List.mem_of_getElem? hx)
    rw [parts.change_parted, if_neg (Nat.ne_of_lt old)] at unchanged
    split at unchanged
    · cases unchanged
    · next other =>
      have self : m₀ ≠ n := by
        rintro rfl
        rw [standIn_self] at old
        exact Nat.lt_irrefl _ old
      rw [standIn_of_ne self] at hx other unchanged
      refine ⟨⟨m₀, hx, hy₀, unchanged⟩, ?_⟩
      rintro rfl
      exact other (Option.some.inj (hx.symm.trans hi))
  · rintro ⟨⟨m, hx, hy, unchanged⟩, other⟩
    have self : m ≠ n := by
      rintro rfl
      have lt := (List.getElem?_eq_some_iff.1 hx).1
      exact other ((List.getElem?_inj lt (h.shape .before).once).1 (hx.trans hi.symm))
    have old := h.lt_size (t := .before) (List.mem_of_getElem? hx)
    refine ⟨m, hx, by rw [hy, Option.map_some, standIn_of_ne self], ?_⟩
    rw [parts.change_parted, if_neg (Nat.ne_of_lt old), if_neg self, unchanged]

/-! ## Settling the two parts -/

/-- If all sources but one are at most to be one with themselves, a single join happens. -/
theorem run_settleAll_join {es : List (Entry × Nat)} (h : d.Twofold s)
    (roles : ∀ q ∈ es, Role d s q.1.origin (counterpart? dst m q.1 q.2))
    (apart : es.Pairwise (Apart dst m))
    (own : ∀ q ∈ es, ∀ a, counterpart? dst m q.1 q.2 = some a →
      a = q.1.origin ∨ (q.1.origin = n ∧ a = c))
    (waits : ∃ q ∈ es, q.1.origin = n ∧ counterpart? dst m q.1 q.2 = some c) (other : c ≠ n) :
    ∃ p k, d.Meets n c p k ∧ n ∈ s.before.flatten ∧ c ∈ s.after.flatten ∧
      (d.look n).kind = (d.look c).kind ∧
      (settleAll dst m {} es).run d = .ok () (d.joined n c p k) := by
  induction es with
  | nil =>
    obtain ⟨q, hq, -⟩ := waits
    cases hq
  | cons q es ih =>
    obtain ⟨role, roles⟩ := List.forall_mem_cons.1 roles
    obtain ⟨here, own⟩ := List.forall_mem_cons.1 own
    obtain ⟨first, apart⟩ := List.pairwise_cons.1 apart
    obtain ⟨d₁, run, ⟨rfl, self⟩ | ⟨a, p, k, counterpart, meets, rfl⟩⟩ := run_settleWith h role
    · -- this source is not the one that waits
      have waits : ∃ r ∈ es, r.1.origin = n ∧ counterpart? dst m r.1 r.2 = some c := by
        obtain ⟨r, hr, origin, counterpart⟩ := waits
        obtain rfl | hr := List.mem_cons.1 hr
        · exact absurd ((self c counterpart).trans origin) other
        · exact ⟨r, hr, origin, counterpart⟩
      obtain ⟨p, k, meets, hn, hc, kinds, behind⟩ := ih roles apart own waits
      refine ⟨p, k, meets, hn, hc, kinds, ?_⟩
      show (settle dst m {} q.1 q.2 >>= fun copies => settleAll dst m copies es).run d₁ = _
      rw [EStateM.run_bind, run_settle h role.mem run]
      exact behind
    · obtain self | ⟨rfl, rfl⟩ := here a counterpart
      · exact absurd self meets.other.symm
      · rw [counterpart] at role
        cases role with
        | stays => exact absurd rfl other
        | joins hn ha removed added kinds =>
          have joined := h.joined meets hn ha kinds
          have settled := run_settle joined (List.mem_cons_of_mem root hn) run
          have idle : (settleAll dst m {} es).run (d.joined q.1.origin a p k) =
              .ok () (d.joined q.1.origin a p k) := by
            refine run_settleAll_own joined (fun r hr => ?_) fun r hr b hb => ?_
            · exact (roles r hr).joined meets (first r hr).1.symm
                fun b hb e => (first r hr).2 a counterpart (e ▸ hb)
            · exact (own r hr b hb).resolve_right fun e => (first r hr).1 e.1.symm
          refine ⟨p, k, meets, hn, ha, kinds, ?_⟩
          show (settle dst m {} q.1 q.2 >>= fun copies => settleAll dst m copies es).run d = _
          rw [EStateM.run_bind, settled]
          exact idle

theorem lives_root_parted (h : d.Twofold s) (top : ∀ t, d.lives t root = true) (parts : d.Parts n p k)
    (hn : ∀ t, n ∈ (s.get t).flatten) (t : Time) : (d.parted n p k).lives t root = true := by
  have below : root ≠ n := fun e => (h.shape .after).root_not_mem (e ▸ hn .after)
  rw [parts.lives_parted (Nat.lt_succ_of_lt h.root_lt), if_neg (Nat.ne_of_lt h.root_lt), if_neg below,
    top]

/-- A parted diff whose matcher adds the pair of the two parts is refined to the diff as it was. -/
theorem refine_parted {matcher : Matcher} (h : d.Twofold s) (top : ∀ t, d.lives t root = true)
    (parts : d.Parts n p k) (hn : ∀ t, n ∈ (s.get t).flatten)
    (hsrc : Snapshot.ofDiff (d.parted n p k) .before = .ok src)
    (hdst : Snapshot.ofDiff (d.parted n p k) .after = .ok dst)
    (given : ownPairs (d.parted n p k) src dst = .ok seed) (run : matcher.run src dst seed = .ok m)
    (hi : (root :: s.before.flatten)[i]? = some n) (hj : (root :: s.after.flatten)[j]? = some n)
    (pair : m.dst? i = some j)
    (pairs : ∀ x y, m.dst? x = some y → seed.dst? x = some y ∨ (x = i ∧ y = j)) :
    refine (d.parted n p k) matcher = .ok (d.append (d.remnant n)) := by
  have twofold := h.parted parts hn
  have inStore := parts.inStore
  have top' := lives_root_parted h top parts hn
  have setting := setting_of_run twofold top' hsrc hdst given run
  have names : root :: (d.splitTrees n s).after.flatten =
      (root :: s.after.flatten).map (standIn n d.size) := h.flatten_standIn (hn .after)
  -- the entries of the two parts
  obtain ⟨e, he, origin⟩ := setting.before.get?_of_getElem? hi
  obtain ⟨b, hb, origin'⟩ := setting.after.get?_of_getElem? (i := j) (n := d.size) (by
    rw [names, List.getElem?_map, hj, Option.map_some, standIn_self])
  have text : b.label = e.label := by
    rw [(setting.after.entry j b hb).2, (setting.before.entry i e he).2, origin, origin']
    exact parts.matchingText_parted
  have own (q) (hq : q ∈ src.entries.toList.zipIdx) (a) (ha : counterpart? dst m q.1 q.2 = some a) :
      a = q.1.origin ∨ (q.1.origin = n ∧ a = d.size) := by
    have hq := Snapshot.mem_zipIdx_entries.1 hq
    obtain ⟨y, b', paired, hb', -, rfl⟩ := counterpart?_eq_some_iff.1 ha
    obtain old | ⟨self, rfl⟩ := pairs q.2 y paired
    · exact .inl (origin_eq_of_ownPairs twofold setting.before setting.after given old hq hb')
    · obtain rfl := Option.some.inj (hb.symm.trans hb')
      rw [self, he] at hq
      exact .inr ⟨Option.some.inj hq ▸ origin, origin'⟩
  have waits : counterpart? dst m e i = some d.size :=
    counterpart?_eq_some_iff.2 ⟨j, b, pair, hb, text, origin'⟩
  obtain ⟨p', k', meets, before, after, kinds, settled⟩ := run_settleAll_join twofold
    (fun q hq => setting.role (Snapshot.mem_zipIdx_entries.1 hq)) setting.apart own
    ⟨(e, i), Snapshot.mem_zipIdx_entries.2 he, origin, waits⟩ (Nat.ne_of_gt inStore)
  rw [← joined_parted h.toSymmetric parts meets]
  exact refine_of_run hsrc hdst given run settled (twofold.joined meets before after kinds)

/-! ## What a refined diff says -/

section Says

variable {options : Reading.Options} {dialect : Dialect} {source : Source}
  {lines : List Reading.PhysicalLine} (read : Reading.ofLines options dialect source lines = .ok d)
  (h : d.Twofold s) (parts : d.Parts n p k) (same : f.saysSame d = .ok true)

include read h parts same

/-- If the refined diff says the same, its nodes have the changes that they had before the split, since
nodes are told by the places at which they begin. -/
theorem change_of_saysSame (merged : (d.parted n p k).Merged f (d.splitTrees n s) name) {u : Time}
    (hm : c ∈ root :: (s.get u).flatten) (reaches : f.Reaches (d.splitName n u c))
    (there : f.lives u (d.splitName n u c) = true) :
    (f.look (d.splitName n u c)).change = (d.look c).change := by
  have regular := h.toRegular
  obtain ⟨v, hv, face⟩ := exists_partner merged.twofold.toRegular regular same reaches
  have change : (f.face (d.splitName n u c)).change = (d.face v).change := congrArg Node.change face
  have kind : (f.face (d.splitName n u c)).kind = (d.face v).kind := congrArg Node.kind face
  have start : (f.face (d.splitName n u c)).start = (d.face v).start := congrArg Node.start face
  change (f.look _).change = (d.look v).change at change
  change (f.look _).kind = (d.look v).kind at kind
  change (f.look _).start = (d.look v).start at start
  have inStore := h.lt_size hm
  rw [merged.kind, parts.kind_splitName inStore] at kind
  rw [merged.start, parts.look_splitName inStore Node.start (fun _ => rfl)
    fun _ => by cases u <;> rfl] at start
  have here : d.lives u v = true := by
    rw [lives_look (hv.lt_size regular), Node.existsAt, ← change, ← Node.existsAt,
      ← lives_look (reaches.lt_size merged.twofold.toRegular)]
    exact there
  obtain ⟨t', mem'⟩ := h.exists_mem_iff.2 hv
  obtain rfl : c = v := Reading.eq_of_start_ofLines read h hm (h.here t' u v mem' here) kind
    (congrArg Position.diff start)
  exact change

variable (settled : Settled (d.parted n p k) f (d.splitTrees n s) src' dst' seed' m name)

include settled

/-- Then the sources that are paired were unchanged. -/
theorem unchanged_of_saysSame (akin : ∀ x y, m.dst? x = some y → Akin src' dst' x y)
    (paired : m.dst? x = some y) (hx : (root :: s.before.flatten)[x]? = some c) :
    (d.look c).change = .unchanged := by
  obtain ⟨e, b, he, hb, text⟩ := alike_iff.1 (akin x y paired)
  obtain rfl : c = e.origin := Option.some.inj (hx.symm.trans (settled.setting.before.getElem? he))
  have named : name b.origin = e.origin := settled.counterpart x e b.origin he
    (counterpart?_eq_some_iff.2 ⟨y, b, paired, hb, (congrArg Prod.snd text).symm, rfl⟩)
  have target : b.origin ∈ root :: (d.splitTrees n s).after.flatten :=
    List.mem_of_getElem? (settled.setting.after.getElem? hb)
  have both : ∀ t, e.origin ∈ root ::
      ((⟨s.before, (d.splitTrees n s).after.map name⟩ : Sides (Forest Handle)).get t).flatten
    | .before => List.mem_of_getElem? hx
    | .after => by
      obtain top | below := List.mem_cons.1 target
      · rw [← named, top, settled.name_root]
        exact List.mem_cons_self
      · exact List.mem_cons_of_mem root (named ▸ Forest.mem_flatten_map_of_mem name below)
  have twofold := settled.merged.twofold
  have reaches : f.Reaches e.origin := twofold.exists_mem_iff.1 ⟨.before, both .before⟩
  rw [← change_of_saysSame read h parts same settled.merged (u := .before) (both .before) reaches
    ((twofold.lives_iff settled.top reaches).2 (both .before))]
  exact unchanged_of_both twofold settled.top both

/-- And the added part of the node was joined. -/
theorem joined_of_saysSame (hj : (root :: s.after.flatten)[j]? = some n)
    (hn : ∀ t, n ∈ (s.get t).flatten) : ∃ x, m.dst? x = some j := by
  by_contra none
  have names : root :: (d.splitTrees n s).after.flatten =
      (root :: s.after.flatten).map (standIn n d.size) := h.flatten_standIn (hn .after)
  have copy : (root :: (d.splitTrees n s).after.flatten)[j]? = some d.size := by
    rw [names, List.getElem?_map, hj, Option.map_some, standIn_self]
  have fixed : name d.size = d.size := settled.other d.size fun x e _ counterpart => by
    obtain ⟨y, b, paired, hb, -, origin⟩ := counterpart?_eq_some_iff.1 counterpart
    obtain ⟨b', hb', origin'⟩ := settled.setting.after.get?_of_getElem? copy
    obtain rfl := settled.setting.dst_inj hb hb' (origin.trans origin'.symm)
    exact none ⟨x, paired⟩
  have new : d.size ≠ root := Nat.ne_of_gt h.root_lt
  have mem : d.size ∈ root :: ((d.splitTrees n s).after.map name).flatten := by
    have below := List.mem_of_ne_of_mem new (List.mem_of_getElem? copy)
    exact List.mem_cons_of_mem root (fixed ▸ Forest.mem_flatten_map_of_mem name below)
  have twofold := settled.merged.twofold
  have reaches : f.Reaches d.size := twofold.exists_mem_iff.1 ⟨.after, mem⟩
  have self : d.splitName n .after n = d.size := standIn_self
  have change := change_of_saysSame read h parts same settled.merged (u := .after)
    (List.mem_cons_of_mem root (hn .after)) (self ▸ reaches)
    (self ▸ (twofold.lives_iff settled.top reaches).2 mem)
  rw [self, parts.whole] at change
  -- what is unchanged stands in both trees, but the tree before the edit has old nodes only
  have before := twofold.here .after .before d.size mem
    ((unchanged_iff (twofold.lt_size (t := .after) mem)).1 change .before)
  exact Nat.lt_irrefl _ (h.lt_size (t := .before) before)

/-- So the matcher gave back the pairs of unchanged nodes. -/
theorem repeats_of_saysSame (before : Mirrors d src (root :: s.before.flatten))
    (after : Mirrors d dst (root :: s.after.flatten)) (own : ownPairs d src dst = .ok seed)
    (hj : (root :: s.after.flatten)[j]? = some n) (hn : ∀ t, n ∈ (s.get t).flatten)
    (akin : ∀ x y, m.dst? x = some y → Akin src' dst' x y)
    (pair : seed.dst? i = some j) (lacks : seed.Lacks seed' i j) : seed.Repeats m := by
  have given {x y : Nat} (paired : m.dst? x = some y) : ∃ y', seed.dst? x = some y' := by
    obtain ⟨e, -, he, -⟩ := alike_iff.1 (akin x y paired)
    have hx : (root :: s.before.flatten)[x]? = some e.origin := settled.setting.before.getElem? he
    have unchanged := unchanged_of_saysSame read h parts same settled akin paired hx
    have mem : e.origin ∈ root :: (s.get .before).flatten := List.mem_of_getElem? hx
    have there := h.here .before .after e.origin mem ((unchanged_iff (h.lt_size mem)).1 unchanged .after)
    obtain ⟨y', hy⟩ := List.getElem?_of_mem there
    exact ⟨y', (dst?_ownPairs_iff h before after own).2 ⟨e.origin, hx, hy, unchanged⟩⟩
  have kept {x y : Nat} (paired : seed.dst? x = some y) (other : x ≠ i) : m.dst? x = some y :=
    settled.keeps x y (by rw [lacks.dst, if_neg other, paired])
  obtain ⟨x₀, joined⟩ := joined_of_saysSame read h parts same settled hj hn
  obtain rfl : x₀ = i := by
    by_contra other
    obtain ⟨y, paired⟩ := given joined
    obtain rfl := Option.some.inj ((kept paired other).symm.trans joined)
    exact other (Matching.source_inj paired pair)
  refine .of_iff fun x y => ?_
  obtain rfl | other := eq_or_ne x x₀
  · rw [joined, pair]
  · refine ⟨fun paired => ?_, fun paired => kept paired other⟩
    obtain ⟨y', paired'⟩ := given paired
    rw [paired', ← kept paired' other, paired]

end Says

/-! ## Diffs that refining leaves alone -/

/-- The pairs of the unchanged nodes of a diff that the greedy matcher leaves alone are final. -/
theorem final_of_stable (h : d.Twofold s) (hsrc : Snapshot.ofDiff d .before = .ok src)
    (hdst : Snapshot.ofDiff d .after = .ok dst) (own : ownPairs d src dst = .ok seed)
    (discerns : Discerns Text.Digest.ofText src dst)
    (stable : refine d Matcher.greedy = .ok d) : Final src dst seed := by
  have unchanged := root_unchanged_of_refine h stable
  have top := (unchanged_iff h.root_lt).1 unchanged
  obtain ⟨m, run, final⟩ := exists_final h unchanged hsrc hdst own discerns
  obtain ⟨d', name, refined, settled⟩ := exists_settled h top hsrc hdst own run
  obtain rfl := Except.ok.inj (stable.symm.trans refined)
  have twofold := settled.merged.twofold
  have before := Snapshot.mirrors_of_ofDiff twofold.toRegular (twofold.shape .before) hsrc
  have after := Snapshot.mirrors_of_ofDiff twofold.toRegular (twofold.shape .after) hdst
  have same (i j : Nat) : seed.dst? i = some j ↔ m.dst? i = some j :=
    settled.dst?_own_iff final.akin before after own
  exact final.congr same

/-! ## The trees that are asked about after a split -/

/-- The snapshots of a parted diff and the pairs of its unchanged nodes: the trees are the same as those
of the diff, and the pair of the node is missing. -/
structure TakesApart (d : Diff) (n p : Handle) (k : Nat) (src dst src' dst' : Snapshot)
    (seed seed' : Matching) (i j : Nat) : Prop where
  before : Snapshot.ofDiff (d.parted n p k) .before = .ok src'
  after : Snapshot.ofDiff (d.parted n p k) .after = .ok dst'
  own : ownPairs (d.parted n p k) src' dst' = .ok seed'
  alike : src'.Alike src
  alike' : dst'.Alike dst
  pair : seed.dst? i = some j
  lacks : seed.Lacks seed' i j

theorem exists_takesApart (h : d.Twofold s) (parts : d.Parts n p k)
    (hn : ∀ t, n ∈ (s.get t).flatten) (hsrc : Snapshot.ofDiff d .before = .ok src)
    (hdst : Snapshot.ofDiff d .after = .ok dst) (own : ownPairs d src dst = .ok seed)
    (hi : (root :: s.before.flatten)[i]? = some n) (hj : (root :: s.after.flatten)[j]? = some n) :
    ∃ src' dst' seed', TakesApart d n p k src dst src' dst' seed seed' i j := by
  have parted := h.parted parts hn
  have before := Snapshot.mirrors_of_ofDiff h.toRegular (h.shape .before) hsrc
  have after := Snapshot.mirrors_of_ofDiff h.toRegular (h.shape .after) hdst
  obtain ⟨src', dst', seed', hsrc', hdst', own', -⟩ := refine_eq parted
  have before' := Snapshot.mirrors_of_ofDiff parted.toRegular (parted.shape .before) hsrc'
  have after' := Snapshot.mirrors_of_ofDiff parted.toRegular (parted.shape .after) hdst'
  exact ⟨src', dst', seed', hsrc', hdst', own', h.alike_parted parts hn hsrc hsrc',
    h.alike_parted parts hn hdst hdst',
    (dst?_ownPairs_iff h before after own).2 ⟨n, hi, hj, parts.whole⟩,
    lacks_parted h parts hn before after own before' after' own' hi hj⟩

namespace TakesApart

/-- Asked about the same trees with a pair less, the greedy matcher extends what is left of a final
matching by like pairs. -/
theorem exists_run (h : TakesApart d n p k src dst src' dst' seed seed' i j) (twofold : d.Twofold s)
    (hsrc : Snapshot.ofDiff d .before = .ok src) (hdst : Snapshot.ofDiff d .after = .ok dst)
    (final : Final src dst seed) (discerns : Discerns Text.Digest.ofText src dst) (below : i ≠ 0) :
    ∃ m, matcherWith Text.Digest.ofText src dst seed' = .ok m ∧
      Matcher.greedy.run src' dst' seed' = .ok m ∧
      ∀ x y, m.dst? x = some y → Akin src' dst' x y := by
  have roots : seed'.dst? 0 = some 0 := by rw [h.lacks.dst, if_neg below.symm, final.roots]
  obtain ⟨m, asked, grows, -⟩ := matcherWith_spec
    (Snapshot.spells_of_ofDiff twofold.toRegular (twofold.shape .before) hsrc)
    (Snapshot.spells_of_ofDiff twofold.toRegular (twofold.shape .after) hdst) discerns
    (Snapshot.rooted_of_ofDiff twofold hsrc) (Snapshot.rooted_of_ofDiff twofold hdst)
    fun x y paired => final.fair x y (h.lacks.of_dst paired).2
  rw [Matching.add_of_taken (by simp [roots])] at grows
  have akin (x y : Nat) (paired : m.dst? x = some y) : Akin src' dst' x y := by
    have akin : Akin src dst x y :=
      (grows.added x y paired).elim (fun old => final.akin x y (h.lacks.of_dst old).2) id
    exact akin.of_alike (Eq.symm h.alike) (Eq.symm h.alike')
  have obeys : m.Obeys src' dst' :=
    ⟨grows.keeps 0 0 roots, fun x y paired => (akin x y paired).kinds⟩
  exact ⟨m, asked, Matcher.run_of_extends ((matcherWith_alike h.alike h.alike').trans asked) obeys
    grows.keeps, akin⟩

/-- If the matcher gives the pair back, the two parts are joined. -/
theorem saysSame (h : TakesApart d n p k src dst src' dst' seed seed' i j) {matcher : Matcher}
    (twofold : d.Twofold s) (top : ∀ t, d.lives t root = true) (parts : d.Parts n p k)
    (hn : ∀ t, n ∈ (s.get t).flatten) (hi : (root :: s.before.flatten)[i]? = some n)
    (hj : (root :: s.after.flatten)[j]? = some n) (run : matcher.run src' dst' seed' = .ok m)
    (refined : refine (d.parted n p k) matcher = .ok f) (repeats : seed.Repeats m) :
    f.saysSame d = .ok true ∧ d.saysSame f = .ok true := by
  have joined := refine_parted twofold top parts hn h.before h.after h.own run hi hj
    ((repeats.dst i).trans h.pair) fun x y paired => by
      rw [repeats.dst] at paired
      rw [h.lacks.dst]
      by_cases here : x = i
      · subst here
        exact .inr ⟨rfl, Option.some.inj (paired.symm.trans h.pair)⟩
      · exact .inl (by rw [if_neg here, paired])
  obtain rfl := Except.ok.inj (refined.symm.trans joined)
  exact saysSame_append twofold.toRegular rfl

end TakesApart

/-- Splitting a node of a diff that was read and that the greedy matcher leaves alone, and refining what
results, gives a diff that says the same exactly if the matcher finds the node again on its own account.
The messages that are hashed are assumed to have different digests, and no label to end in a zero
character and a digest. -/
theorem refine_split {text : String} {options : Reading.Options} {source : Source} {dialect : Dialect}
    (read : Reading.diff text options source dialect = .ok d)
    (stable : refine d Matcher.greedy = .ok d) (reaches : d.Reaches n) (below : n ≠ root)
    (whole : (d.look n).change = .unchanged) (hsrc : Snapshot.ofDiff d .before = .ok src)
    (hdst : Snapshot.ofDiff d .after = .ok dst) (own : ownPairs d src dst = .ok seed)
    (hi : (src.get? i).map (·.origin) = some n) (hj : (dst.get? j).map (·.origin) = some n)
    (apart : ∀ x ∈ src.messages Text.Digest.ofText, ∀ y ∈ dst.messages Text.Digest.ofText,
      Text.Digest.ofText x = Text.Digest.ofText y → x = y)
    (plain : ¬ Feigns Text.Digest.ofText src dst) (plain' : ¬ Feigns Text.Digest.ofText dst src) :
    ∃ c e f, (split n).result d = .ok (c, e) ∧ refine e Matcher.greedy = .ok f ∧
      (f.saysSame d = .ok true ↔ Evident Text.Digest.ofText src dst seed i j) ∧
      (f.saysSame d = .ok true → d.saysSame f = .ok true) := by
  have orderly := (Reading.ofLines_seems read).1
  obtain ⟨s, twofold⟩ := orderly.sound.exists_twofold orderly.toRegular
  have regular := twofold.toRegular
  have both (t) : n ∈ (s.get t).flatten := twofold.mem_both reaches below whole t
  obtain ⟨p, k, parts⟩ := twofold.parts both whole
  have before := Snapshot.mirrors_of_ofDiff regular (twofold.shape .before) hsrc
  have after := Snapshot.mirrors_of_ofDiff regular (twofold.shape .after) hdst
  have discerns : Discerns Text.Digest.ofText src dst :=
    ⟨⟨64, Text.Digest.length_ofText⟩, apart, plain, plain'⟩
  have final := final_of_stable twofold hsrc hdst own discerns stable
  rw [before.origin] at hi
  rw [after.origin] at hj
  have first : i ≠ 0 := by
    rintro rfl
    exact below (Option.some.inj hi).symm
  -- the parted diff has the same trees, and one pair less, so its refinement succeeds
  obtain ⟨src', dst', seed', trees⟩ := exists_takesApart twofold parts both hsrc hdst own hi hj
  obtain ⟨m, asked, run, akin⟩ := trees.exists_run twofold hsrc hdst final discerns first
  obtain ⟨f, name, refined, settled⟩ := exists_settled (twofold.parted parts both)
    (lives_root_parted twofold orderly.top parts both) trees.before trees.after trees.own run
  have restored (repeats : seed.Repeats m) := trees.saysSame twofold orderly.top parts both hi hj run
    refined repeats
  have regained (same : f.saysSame d = .ok true) : seed.Repeats m :=
    repeats_of_saysSame read twofold parts same settled before after own hj both akin trees.pair
      trees.lacks
  -- the matcher gives the pair back exactly if it was evident
  have spells := Snapshot.spells_of_ofDiff regular (twofold.shape .before) hsrc
  have spells' := Snapshot.spells_of_ofDiff regular (twofold.shape .after) hdst
  have enrolled := Snapshot.enrolled_of_ofDiff regular (twofold.shape .before) hsrc
  have filial := Snapshot.filial_of_ofDiff regular (twofold.shape .before) hsrc
  have filial' := Snapshot.filial_of_ofDiff regular (twofold.shape .after) hdst
  refine ⟨d.size, d.parted n p k, f, by rw [Edit.result, run_split twofold parts both], refined,
    ⟨fun same => ?_, fun evident => ?_⟩, fun same => (restored (regained same)).2⟩
  · exact evident_of_repeats final.saturated spells spells' filial filial' final.akin trees.pair
      trees.lacks discerns enrolled final.roots first asked (regained same)
  · obtain ⟨m', asked', repeats⟩ := matcherWith_lacks final.saturated spells spells' discerns enrolled
      (Snapshot.enrolled_of_ofDiff regular (twofold.shape .after) hdst) filial filial'
      final.roots final.akin trees.pair first trees.lacks evident
    obtain rfl := Except.ok.inj (asked.symm.trans asked')
    exact (restored repeats).1

/-- The parts of a block that was split are paired as whole subtrees, and joined again. -/
theorem refine_split_block : ∃ d c e f,
    Reading.diff " #if A\n y\n #endif\n" {} .unknown .preprocessor = .ok d ∧
    refine d Matcher.greedy = .ok d ∧ (split 1).result d = .ok (c, e) ∧
    refine e Matcher.greedy = .ok f ∧ f.saysSame d = .ok true ∧ d.saysSame f = .ok true := by
  have values : (do
      let d ← Reading.diff " #if A\n y\n #endif\n" {} .unknown .preprocessor
      let d' ← refine d Matcher.greedy
      let src ← Snapshot.ofDiff d .before
      let dst ← Snapshot.ofDiff d .after
      let seed ← ownPairs d src dst
      let hash := Text.Digest.ofText
      return (decide (d' = d ∧ 1 ∈ d.below .before root ∧ (d.look 1).change = .unchanged ∧
          (src.get? 1).map (·.origin) = some 1 ∧ (dst.get? 1).map (·.origin) = some 1 ∧
          src.parent? 1 = some 0 ∧ dst.parent? 1 = some 0 ∧ seed.dst? 0 = some 0 ∧
          (sizes src).getD 1 0 = 2 ∧ seed.dst? 2 ≠ none ∧ digestAt hash src 1 = digestAt hash dst 1),
        (src.messages hash).all fun x => (dst.messages hash).all fun y => hash x != hash y || x == y,
        src.entries.any fun e => (digests hash dst).any fun g => decide (EndsIn e.label g),
        dst.entries.any fun e => (digests hash src).any fun g => decide (EndsIn e.label g)) :
        Outcome _).toOption = some (true, true, false, false) := by
    decide +kernel
  obtain ⟨d, read, rest⟩ := Outcome.bind_eq_ok_iff.1 (Outcome.eq_ok_of_toOption values)
  obtain ⟨d', stable, rest⟩ := Outcome.bind_eq_ok_iff.1 rest
  obtain ⟨src, hsrc, rest⟩ := Outcome.bind_eq_ok_iff.1 rest
  obtain ⟨dst, hdst, rest⟩ := Outcome.bind_eq_ok_iff.1 rest
  obtain ⟨seed, own, rest⟩ := Outcome.bind_eq_ok_iff.1 rest
  simp only [Outcome.pure_eq_ok_iff, Prod.mk.injEq, decide_eq_true_eq] at rest
  obtain ⟨⟨rfl, child, whole, hi, hj, parent, parent', roots, size, inner, same⟩, apart, plain,
    plain'⟩ := rest
  have aligned : Aligned src seed 1 1 := fun k first less => by
    rw [size] at less
    obtain rfl : k = 1 := by omega
    exact .inl inner
  have foremost : Foremost Text.Digest.ofText src dst seed 1 1 0 0 := by
    refine ⟨fun l less _ unpaired => ?_, fun r less _ unpaired => ?_⟩
    · obtain rfl := Nat.lt_one_iff.1 less
      rw [roots] at unpaired
      cases unpaired
    · obtain rfl := Nat.lt_one_iff.1 less
      rw [(seed.dst?_iff 0 0).1 roots] at unpaired
      cases unpaired
  obtain ⟨c, e, f, parts, refined, told, back⟩ := refine_split read stable (.child .root child) (by decide)
    whole hsrc hdst own hi hj (apart_of_all apart) (not_feigns_of_any plain) (not_feigns_of_any plain')
  have same := told.2 (.foremost ⟨parent, parent', roots⟩ same aligned foremost)
  exact ⟨d', c, e, f, read, stable, parts, refined, same, back same⟩

/-- An unchanged line behind a removed one that is like it is joined with the removed one. -/
theorem refine_split_repeated : ∃ d e f,
    Reading.diff "-x\n x\n" {} .unknown .preprocessor = .ok d ∧ refine d Matcher.greedy = .ok d ∧
    d.Reaches 2 ∧ (d.look 2).change = .unchanged ∧ (split 2).result d = .ok (3, e) ∧
    refine e Matcher.greedy = .ok f ∧ f.saysSame d = .ok false ∧ d.saysSame f = .ok false := by
  have values : (do
      let d ← Reading.diff "-x\n x\n" {} .unknown .preprocessor
      let d' ← refine d Matcher.greedy
      let parts ← (split 2).result d
      let f ← refine parts.2 Matcher.greedy
      let same ← f.saysSame d
      let same' ← d.saysSame f
      return (decide (d' = d), (d.below .before root).contains 2, (d.look 2).change, parts.1, same, same') :
        Outcome _).toOption = some (true, true, .unchanged, 3, false, false) := by
    decide +kernel
  obtain ⟨d, read, rest⟩ := Outcome.bind_eq_ok_iff.1 (Outcome.eq_ok_of_toOption values)
  obtain ⟨d', stable, rest⟩ := Outcome.bind_eq_ok_iff.1 rest
  obtain ⟨⟨c, e⟩, parts, rest⟩ := Outcome.bind_eq_ok_iff.1 rest
  obtain ⟨f, refined, rest⟩ := Outcome.bind_eq_ok_iff.1 rest
  obtain ⟨same, compared, rest⟩ := Outcome.bind_eq_ok_iff.1 rest
  obtain ⟨same', compared', rest⟩ := Outcome.bind_eq_ok_iff.1 rest
  simp only [Outcome.pure_eq_ok_iff, Prod.mk.injEq, decide_eq_true_eq, List.contains_iff_mem] at rest
  obtain ⟨rfl, child, whole, rfl, rfl, rfl⟩ := rest
  exact ⟨d', e, f, read, stable, .child .root child, whole, parts, refined, compared, compared'⟩

end Refinement

end Variation
