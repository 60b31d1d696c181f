import Variation.Proofs.Constructed
import Variation.Proofs.Refined

/-!
# A refinement joins what its matching adds

A matcher that keeps the pairs it is given can only add pairs of a removed node and an added one. A
refinement joins exactly those of them that have the same text: each becomes one unchanged node, which
is named after the removed one, and the added one hangs nowhere any more. Nothing else changes, at
either time the tree is the same but for the names, and two edited nodes less are left for each pair.

The roots are always a pair, of one node with itself, so the root has to be unchanged. Only a diff that
was edited by hand has another one.
-/

namespace Variation

open Matching (Snapshot Entry)
open Matching.Snapshot (Mirrors)
open Diff

namespace Diff

variable {d : Diff} {f : Forest Handle} {ns : List Handle}

theorem withNodes_eq (inStore : ∀ n ∈ ns, n < d.size) :
    d.withNodes ns = .ok (ns.map fun n => (n, d.look n)) := by
  induction ns with
  | nil => rfl
  | cons n ns ih =>
    obtain ⟨hn, inStore⟩ := List.forall_mem_cons.1 inStore
    have behind := ih inStore
    rw [withNodes] at behind
    rw [withNodes, List.mapM_cons, node_look hn, Outcome.ok_bind, pure_bind, behind]
    rfl

/-- The nodes with a property that the walk lists are those of the tour. -/
theorem Tour.nodesWith_eq (hd : d.Regular) (tour : d.Tour f) (p : Node → Bool) :
    d.nodesWith p = .ok ((root :: f.flatten).filter fun n => p (d.look n)) := by
  have inStore (n) (hn : n ∈ root :: f.flatten) : n < d.size := (tour.mem_iff.1 hn).lt_size hd
  rw [nodesWith, reachable, preorder_eq hd tour, Outcome.ok_bind, withNodes_eq inStore,
    Outcome.ok_bind, List.filter_map, List.map_map]
  exact congrArg Except.ok (List.map_id _)

/-- Nodes that are there at the same times have the same change. -/
theorem change_eq {d' : Diff} {n m : Handle} (hn : n < d.size) (hm : m < d'.size)
    (same : ∀ t, d'.lives t m = true ↔ d.lives t n = true) :
    (d'.look m).change = (d.look n).change := by
  have before := same .before
  have after := same .after
  rw [lives_look hn, lives_look hm, Node.existsAt, Node.existsAt] at before after
  generalize (d'.look m).change = c at before after
  generalize (d.look n).change = c' at before after
  cases c <;> cases c' <;> simp_all [Change.existsAt]

end Diff

namespace Refinement

/-- Whether a node is edited. -/
def edited (x : Node) : Bool := x.change != .unchanged

/-- The pairs that a matching adds to those it was given and whose texts are equal. -/
def newPairs (src dst : Snapshot) (seed m : Matching) : List (Nat × Nat) :=
  m.pairs.filter fun p =>
    !seed.has p.1 p.2 && (src.get? p.1).map (·.label) == (dst.get? p.2).map (·.label)

/-- A diff is another one in which the new pairs of a matching, of snapshots of that one, are joined. -/
structure Improves (d d' : Diff) (src dst : Snapshot) (seed m : Matching) : Prop where
  symmetric : d'.Symmetric
  sound : d'.Sound
  /-- The trees at both times are those that were there. -/
  trees : ∃ s s', Snapshot.ofDiff d' .before = .ok s ∧ s.Alike src ∧
    Snapshot.ofDiff d' .after = .ok s' ∧ s'.Alike dst ∧
    ∀ i j, (i, j) ∈ newPairs src dst seed m → ∃ e b, s.get? i = some e ∧ s'.get? j = some b ∧
      e.origin = b.origin
  /-- Nothing is split. -/
  unsplit : ∀ n, d.Reaches n → (d.look n).change = .unchanged →
    d'.Reaches n ∧ (d'.look n).change = .unchanged
  /-- The nodes of a new pair become one. -/
  joins : ∀ i j e b, (i, j) ∈ newPairs src dst seed m → src.get? i = some e → dst.get? j = some b →
    (d.look e.origin).change = .removed ∧ (d.look b.origin).change = .added ∧
      d'.Reaches e.origin ∧ (d'.look e.origin).change = .unchanged ∧ ¬ d'.Reaches b.origin
  /-- Nothing else becomes unchanged, and nothing else comes or goes. -/
  rest : ∀ n, d.Reaches n →
    (∀ i j e b, (i, j) ∈ newPairs src dst seed m → src.get? i = some e → dst.get? j = some b →
      n ≠ e.origin ∧ n ≠ b.origin) →
    d'.Reaches n ∧ (d'.look n).change = (d.look n).change
  /-- What hangs below the root did so before. -/
  known : ∀ n, d'.Reaches n → d.Reaches n
  /-- Each new pair leaves two edited nodes less. -/
  count : ∃ ns ns', d.nodesWith edited = .ok ns ∧ d'.nodesWith edited = .ok ns' ∧
    ns.length = ns'.length + 2 * (newPairs src dst seed m).length

variable {d d' : Diff} {s : Sides (Forest Handle)} {name : Handle → Handle} {src dst : Snapshot}
  {seed m : Matching} {i j : Nat} {e b : Entry} {n a : Handle}

/-! ## The pairs that are given -/

/-- What holds of no pairs, and still when the pair of an unchanged node is added, holds of the pairs
that are given. -/
theorem ownPairs_induction {P : Matching → Prop} (h : ownPairs d src dst = .ok seed)
    (start : P .empty) (add : ∀ m i j e, src.get? i = some e →
      (d.look e.origin).change = .unchanged → P m → P (m.add i j)) : P seed := by
  have kept (places : Std.TreeMap Handle Nat) (es : List (Entry × Nat)) (m m' : Matching)
      (listed : ∀ q ∈ es, src.get? q.2 = some q.1) (hm : P m)
      (run : es.foldlM (pairOwn d places) m = .ok m') : P m' := by
    induction es generalizing m with
    | nil =>
      obtain rfl := Outcome.pure_eq_ok_iff.1 run
      exact hm
    | cons q es ih =>
      obtain ⟨here, listed⟩ := List.forall_mem_cons.1 listed
      rw [List.foldlM_cons] at run
      obtain ⟨m₁, step, run⟩ := Outcome.bind_eq_ok_iff.1 run
      refine ih m₁ listed ?_ run
      obtain ⟨x, hx, step⟩ := Outcome.bind_eq_ok_iff.1 step
      have looked := look_of_node (node_eq_ok_iff.1 hx)
      by_cases change : x.change = .unchanged
      · rw [if_pos change] at step
        cases place : places[q.1.origin]? with
        | none => simp [place] at step
        | some k =>
          simp only [place] at step
          split at step
          · obtain rfl := Outcome.pure_eq_ok_iff.1 step
            exact add m q.2 k q.1 here (looked ▸ change) hm
          · simp [Outcome.fail] at step
      · rw [if_neg change] at step
        obtain rfl := Outcome.pure_eq_ok_iff.1 step
        exact hm
  exact kept _ _ .empty seed (fun q hq => Snapshot.mem_zipIdx_entries.1 hq) start h

/-- Only unchanged nodes are paired with themselves. -/
theorem unchanged_of_ownPairs (h : ownPairs d src dst = .ok seed) (hij : seed.dst? i = some j) :
    ∃ e, src.get? i = some e ∧ (d.look e.origin).change = .unchanged := by
  let P (m : Matching) : Prop :=
    ∀ i j, m.dst? i = some j → ∃ e, src.get? i = some e ∧ (d.look e.origin).change = .unchanged
  have start : P .empty := fun i j none => by simp at none
  refine ownPairs_induction h start (fun m k l e he change own i j hij => ?_) i j hij
  rw [Matching.dst?_add] at hij
  split at hij
  · next new => exact ⟨e, new.1 ▸ he, change⟩
  · exact own i j hij

theorem mem_newPairs_iff (he : src.get? i = some e) (hb : dst.get? j = some b) :
    (i, j) ∈ newPairs src dst seed m ↔
      m.dst? i = some j ∧ seed.dst? i ≠ some j ∧ e.label = b.label := by
  simp only [newPairs, List.mem_filter, Matching.mem_pairs_iff, he, hb, Bool.and_eq_true,
    Bool.not_eq_true', Option.map_some, beq_iff_eq, Option.some.injEq]
  rw [← Bool.not_eq_true, Matching.has_eq_true_iff]

/-! ## What a setting adds -/

/-- What a refinement works with, and what it makes of it: a matching that keeps the pairs it is
given, and the diff in which the counterparts have the names of the sources. -/
structure Settled (d d' : Diff) (s : Sides (Forest Handle)) (src dst : Snapshot)
    (seed m : Matching) (name : Handle → Handle) : Prop where
  setting : Setting d s src dst m
  own : ownPairs d src dst = .ok seed
  keeps : ∀ i j, seed.dst? i = some j → m.dst? i = some j
  merged : d.Merged d' s name
  counterpart : ∀ i e a, src.get? i = some e → counterpart? dst m e i = some a → name a = e.origin
  other : ∀ a, (∀ i e, src.get? i = some e → counterpart? dst m e i ≠ some a) → name a = a

/-- Once the root is unchanged and a matcher has given what it owes, a refinement succeeds. -/
theorem exists_settled {matcher : Matcher} (h : d.Twofold s) (top : ∀ t, d.lives t root = true)
    (hsrc : Snapshot.ofDiff d .before = .ok src) (hdst : Snapshot.ofDiff d .after = .ok dst)
    (own : ownPairs d src dst = .ok seed) (run : matcher.run src dst seed = .ok m) :
    ∃ d' name, refine d matcher = .ok d' ∧ Settled d d' s src dst seed m name := by
  have setting := setting_of_run h top hsrc hdst own run
  obtain ⟨d', name, settled, merged, counterpart, other⟩ := settled_spec setting
  exact ⟨d', name, refine_of_run hsrc hdst own run settled merged.twofold, setting, own,
    (Matcher.fits_of_run run).keeps, merged, counterpart, other⟩

namespace Settled

/-- The entries of a new pair. -/
theorem exists_entries (h : Settled d d' s src dst seed m name)
    (new : (i, j) ∈ newPairs src dst seed m) :
    ∃ e b, src.get? i = some e ∧ dst.get? j = some b := by
  obtain ⟨e, b, he, hb, -⟩ :=
    h.setting.pair i j (Matching.mem_pairs_iff.1 (List.mem_of_mem_filter new))
  exact ⟨e, b, he, hb⟩

/-- The sources of new pairs were removed and their destinations were added. -/
theorem roles (h : Settled d d' s src dst seed m name) (he : src.get? i = some e)
    (hb : dst.get? j = some b) (new : (i, j) ∈ newPairs src dst seed m) :
    (e.origin ∈ s.before.flatten ∧ (d.look e.origin).change = .removed) ∧
      b.origin ∈ s.after.flatten ∧ (d.look b.origin).change = .added := by
  obtain ⟨pair, notOwn, same⟩ := (mem_newPairs_iff he hb).1 new
  have counterpart : counterpart? dst m e i = some b.origin :=
    counterpart?_eq_some_iff.2 ⟨j, b, pair, hb, same.symm, rfl⟩
  have role := h.setting.role he
  rw [counterpart] at role
  generalize origin : b.origin = a at role ⊢
  cases role with
  | joins hn ha removed added => exact ⟨⟨hn, removed⟩, ha, added⟩
  | stays hn change =>
    -- an unchanged source was given its own destination
    exfalso
    obtain ⟨seed', own', given⟩ := ownPairs_spec h.setting.twofold h.setting.before h.setting.after
    rw [h.own] at own'
    obtain rfl := Except.ok.inj own'
    obtain ⟨j', b', hj', -, -⟩ := given i e he change
    have kept := h.keeps i j' hj'
    rw [pair] at kept
    obtain rfl := Option.some.inj kept
    exact notOwn hj'

/-- A removed node and the added one that it is paired with make a new pair. -/
theorem mem_newPairs (h : Settled d d' s src dst seed m name) (he : src.get? i = some e)
    (hb : dst.get? j = some b) (pair : m.dst? i = some j) (same : b.label = e.label)
    (removed : (d.look e.origin).change = .removed) : (i, j) ∈ newPairs src dst seed m := by
  refine (mem_newPairs_iff he hb).2 ⟨pair, fun given => ?_, same.symm⟩
  obtain ⟨e', he', change⟩ := unchanged_of_ownPairs h.own given
  rw [he] at he'
  obtain rfl := Option.some.inj he'
  rw [removed] at change
  cases change

/-- The added node of a new pair has the name of the removed one. -/
theorem name_eq (h : Settled d d' s src dst seed m name) (he : src.get? i = some e)
    (hb : dst.get? j = some b) (new : (i, j) ∈ newPairs src dst seed m) :
    name b.origin = e.origin := by
  obtain ⟨pair, -, same⟩ := (mem_newPairs_iff he hb).1 new
  exact h.counterpart i e b.origin he
    (counterpart?_eq_some_iff.2 ⟨j, b, pair, hb, same.symm, rfl⟩)

/-- A node after the edit keeps its name unless a new pair gives it another one. -/
theorem name_cases (h : Settled d d' s src dst seed m name) (a : Handle) :
    name a = a ∨ ∃ i j e b, (i, j) ∈ newPairs src dst seed m ∧ src.get? i = some e ∧
      dst.get? j = some b ∧ b.origin = a ∧ name a = e.origin ∧ e.label = b.label := by
  by_cases some_ : ∃ i e, src.get? i = some e ∧ counterpart? dst m e i = some a
  · obtain ⟨i, e, he, counterpart⟩ := some_
    have named := h.counterpart i e a he counterpart
    have role := h.setting.role he
    rw [counterpart] at role
    obtain ⟨j, b, pair, hb, same, origin⟩ := counterpart?_eq_some_iff.1 counterpart
    generalize hn : e.origin = n at role
    cases role with
    | stays => exact .inl (named.trans hn)
    | joins _ _ removed =>
      subst hn
      exact .inr ⟨i, j, e, b, h.mem_newPairs he hb pair same removed, he, hb, origin, named,
        same.symm⟩
  · exact .inl (h.other a fun i e he counterpart => some_ ⟨i, e, he, counterpart⟩)

theorem name_root (h : Settled d d' s src dst seed m name) : name root = root := by
  obtain same | ⟨i, j, e, b, new, he, hb, origin, -, -⟩ := h.name_cases root
  · exact same
  · obtain ⟨-, mem, -⟩ := h.roles he hb new
    rw [origin] at mem
    exact absurd mem (h.setting.twofold.shape .after).root_not_mem

/-! ## Who is where -/

/-- What hangs below the root afterwards. -/
theorem reaches_iff (h : Settled d d' s src dst seed m name) :
    d'.Reaches n ↔ n ∈ root :: s.before.flatten ∨ ∃ a ∈ s.after.flatten, name a = n := by
  rw [← h.merged.twofold.exists_mem_iff]
  constructor
  · rintro ⟨t, hn⟩
    cases t with
    | before => exact .inl hn
    | after =>
      obtain rfl | hn := List.mem_cons.1 hn
      · exact .inl List.mem_cons_self
      · exact .inr (Forest.mem_flatten_map.1 hn)
  · rintro (hn | hn)
    · exact ⟨.before, hn⟩
    · exact ⟨.after, List.mem_cons_of_mem _ (Forest.mem_flatten_map.2 hn)⟩

theorem reaches_of_before (h : Settled d d' s src dst seed m name)
    (hn : n ∈ root :: s.before.flatten) : d.Reaches n ∧ d'.Reaches n :=
  ⟨h.setting.twofold.exists_mem_iff.1 ⟨.before, hn⟩, h.reaches_iff.2 (.inl hn)⟩

theorem top (h : Settled d d' s src dst seed m name) (t : Time) : d'.lives t root = true :=
  h.merged.lives t root (h.setting.top t)

/-- The added node of a new pair hangs nowhere any more. -/
theorem not_reaches (h : Settled d d' s src dst seed m name) (he : src.get? i = some e)
    (hb : dst.get? j = some b) (new : (i, j) ∈ newPairs src dst seed m) :
    ¬ d'.Reaches b.origin := by
  obtain ⟨⟨-, removed⟩, mem, added⟩ := h.roles he hb new
  rw [h.reaches_iff]
  rintro (before | ⟨a, -, named⟩)
  · have there := (h.setting.twofold.lives_iff (t := .before) h.setting.top
      (h.reaches_of_before before).1).2 before
    rw [lives_look (h.setting.twofold.lt_size (t := .before) before), Node.existsAt, added] at there
    cases there
  · obtain same | ⟨i', j', e', b', new', he', hb', -, named', -⟩ := h.name_cases a
    · rw [same] at named
      rw [named, h.name_eq he hb new] at same
      rw [same, added] at removed
      cases removed
    · obtain ⟨⟨-, removed'⟩, -⟩ := h.roles he' hb' new'
      rw [← named', named, added] at removed'
      cases removed'

/-- A node of no new pair stays where it is, with its change. -/
theorem stays (h : Settled d d' s src dst seed m name) (hn : d.Reaches n)
    (alone : ∀ i j e b, (i, j) ∈ newPairs src dst seed m → src.get? i = some e →
      dst.get? j = some b → n ≠ e.origin ∧ n ≠ b.origin) :
    d'.Reaches n ∧ (d'.look n).change = (d.look n).change := by
  have named (hn : n ∈ s.after.flatten) : name n = n := by
    obtain same | ⟨i, j, e, b, new, he, hb, origin, -⟩ := h.name_cases n
    · exact same
    · exact absurd origin.symm (alone i j e b new he hb).2
  have reaches : d'.Reaches n := by
    obtain ⟨t, mem⟩ := h.setting.twofold.exists_mem_iff.2 hn
    cases t with
    | before => exact (h.reaches_of_before mem).2
    | after =>
      obtain rfl | mem := List.mem_cons.1 mem
      · exact .root
      · exact h.reaches_iff.2 (.inr ⟨n, mem, named mem⟩)
  refine ⟨reaches, change_eq (hn.lt_size h.setting.twofold.toRegular)
    (reaches.lt_size h.merged.twofold.toRegular) fun t => ⟨fun there => ?_, h.merged.lives t n⟩⟩
  have mem := (h.merged.twofold.lives_iff h.top reaches).1 there
  refine (h.setting.twofold.lives_iff h.setting.top hn).2 ?_
  cases t with
  | before => exact mem
  | after =>
    obtain rfl | mem := List.mem_cons.1 mem
    · exact List.mem_cons_self
    · obtain ⟨a, ha, origin⟩ := Forest.mem_flatten_map.1 mem
      obtain same | ⟨i, j, e, b, new, he, hb, -, named', -⟩ := h.name_cases a
      · rw [← origin, same]
        exact List.mem_cons_of_mem _ ha
      · exact absurd (origin.symm.trans named') (alone i j e b new he hb).1

theorem known (h : Settled d d' s src dst seed m name) (hn : d'.Reaches n) : d.Reaches n := by
  obtain before | ⟨a, ha, rfl⟩ := h.reaches_iff.1 hn
  · exact (h.reaches_of_before before).1
  · obtain same | ⟨i, j, e, b, new, he, hb, -, named, -⟩ := h.name_cases a
    · rw [same]
      exact h.setting.twofold.exists_mem_iff.1 ⟨.after, List.mem_cons_of_mem _ ha⟩
    · rw [named]
      exact (h.reaches_of_before (List.mem_cons_of_mem _ (h.roles he hb new).1.1)).1

/-- The nodes of a new pair are one. -/
theorem joins (h : Settled d d' s src dst seed m name) (he : src.get? i = some e)
    (hb : dst.get? j = some b) (new : (i, j) ∈ newPairs src dst seed m) :
    d'.Reaches e.origin ∧ (d'.look e.origin).change = .unchanged := by
  obtain ⟨⟨before, -⟩, mem, -⟩ := h.roles he hb new
  have reaches := (h.reaches_of_before (List.mem_cons_of_mem _ before)).2
  have inStore := reaches.lt_size h.merged.twofold.toRegular
  refine ⟨reaches, (unchanged_iff inStore).2 fun t => ?_⟩
  refine (h.merged.twofold.lives_iff h.top reaches).2 (List.mem_cons_of_mem _ ?_)
  cases t with
  | before => exact before
  | after => exact Forest.mem_flatten_map.2 ⟨b.origin, mem, h.name_eq he hb new⟩

/-! ## The trees -/

theorem matchingText_eq (h : Settled d d' s src dst seed m name) (n : Handle) :
    (d'.look n).matchingText = (d.look n).matchingText := by
  rw [Node.matchingText, Node.matchingText, h.merged.formula, h.merged.kind, h.merged.label]

/-- A node after the edit and the node that has its name say the same. -/
theorem named (h : Settled d d' s src dst seed m name) (ha : a ∈ root :: s.after.flatten) :
    (d'.look (name a)).kind = (d.look a).kind ∧
      (d'.look (name a)).matchingText = (d.look a).matchingText := by
  rw [h.merged.kind, h.matchingText_eq]
  constructor
  · obtain rfl | below := List.mem_cons.1 ha
    · rw [h.name_root]
    · exact h.merged.sameKind a below
  · obtain same | ⟨i, j, e, b, -, he, hb, origin, named, texts⟩ := h.name_cases a
    · rw [same]
    · rw [named, ← origin, ← (h.setting.before.entry i e he).2, ← (h.setting.after.entry j b hb).2,
        texts]

theorem trees (h : Settled d d' s src dst seed m name) (hsrc : Snapshot.ofDiff d .before = .ok src)
    (hdst : Snapshot.ofDiff d .after = .ok dst) :
    ∃ s s', Snapshot.ofDiff d' .before = .ok s ∧ s.Alike src ∧
      Snapshot.ofDiff d' .after = .ok s' ∧ s'.Alike dst ∧
      ∀ i j, (i, j) ∈ newPairs src dst seed m → ∃ e b, s.get? i = some e ∧ s'.get? j = some b ∧
        e.origin = b.origin := by
  have twofold := h.setting.twofold
  have twofold' := h.merged.twofold
  have shape := twofold'.shape .before
  have shape' := twofold'.shape .after
  have taken := Snapshot.ofDiff_eq twofold'.toRegular shape
  have taken' := Snapshot.ofDiff_eq twofold'.toRegular shape'
  rw [Snapshot.ofDiff_eq twofold.toRegular (twofold.shape .before)] at hsrc
  rw [Snapshot.ofDiff_eq twofold.toRegular (twofold.shape .after)] at hdst
  have alike : ((⟨#[]⟩ : Snapshot).pushForest d' ((Forest.tree root s.before).map fun n => n) none).Alike
      ((⟨#[]⟩ : Snapshot).pushForest d (Forest.tree root s.before) none) :=
    .renamed fun n _ => ⟨h.merged.kind n, h.matchingText_eq n⟩
  have alike' : ((⟨#[]⟩ : Snapshot).pushForest d' ((Forest.tree root s.after).map name) none).Alike
      ((⟨#[]⟩ : Snapshot).pushForest d (Forest.tree root s.after) none) :=
    .renamed fun n hn => h.named (by rwa [Forest.flatten_tree] at hn)
  rw [Forest.map_id] at alike
  rw [Forest.map_tree, h.name_root] at alike'
  obtain rfl := Except.ok.inj hsrc
  obtain rfl := Except.ok.inj hdst
  refine ⟨_, _, taken, alike, taken', alike', fun i j new => ?_⟩
  obtain ⟨e, b, he, hb⟩ := h.exists_entries new
  obtain ⟨e', he', origin⟩ := (Snapshot.mirrors_of_ofDiff twofold'.toRegular shape taken)
    |>.get?_of_getElem? (h.setting.before.getElem? he)
  obtain ⟨b', hb', origin'⟩ := (Snapshot.mirrors_of_ofDiff twofold'.toRegular shape' taken')
    |>.get?_of_getElem? (n := name b.origin) (by
      show (root :: (s.after.map name).flatten)[j]? = _
      rw [Forest.flatten_map, ← h.name_root, ← List.map_cons, List.getElem?_map,
        h.setting.after.getElem? hb, Option.map_some])
  exact ⟨e', b', he', hb', origin.trans ((h.name_eq he hb new).symm.trans origin'.symm)⟩

/-! ## How many nodes are edited -/

/-- The node of an entry. -/
def originOf (s : Snapshot) (i : Nat) : Handle := ((s.get? i).map (·.origin)).getD root

theorem originOf_eq {s : Snapshot} (he : s.get? i = some e) : originOf s i = e.origin := by
  rw [originOf, he]
  rfl

/-- The sources of the new pairs are different nodes, and so are their destinations. -/
theorem nodup_origins (h : Settled d d' s src dst seed m name) :
    ((newPairs src dst seed m).map fun p => originOf src p.1).Nodup ∧
      ((newPairs src dst seed m).map fun p => originOf dst p.2).Nodup := by
  have once : (newPairs src dst seed m).Nodup := m.pairs_nodup.filter _
  have pair {p : Nat × Nat} (hp : p ∈ newPairs src dst seed m) : m.dst? p.1 = some p.2 :=
    Matching.mem_pairs_iff.1 (List.mem_of_mem_filter hp)
  refine ⟨once.map_on fun p hp q hq same => ?_, once.map_on fun p hp q hq same => ?_⟩
  · obtain ⟨e, -, he, -⟩ := h.exists_entries hp
    obtain ⟨e', -, he', -⟩ := h.exists_entries hq
    rw [originOf_eq he, originOf_eq he'] at same
    have first := h.setting.src_inj he he' same
    have second := pair hp
    rw [first, pair hq] at second
    exact Prod.ext first (Option.some.inj second).symm
  · obtain ⟨-, b, -, hb⟩ := h.exists_entries hp
    obtain ⟨-, b', -, hb'⟩ := h.exists_entries hq
    rw [originOf_eq hb, originOf_eq hb'] at same
    have second := h.setting.dst_inj hb hb' same
    exact Prod.ext (Matching.source_inj (pair hp) (second ▸ pair hq)) second

/-- An edited node stays edited, or it is in a new pair. -/
theorem edited_iff (h : Settled d d' s src dst seed m name) :
    (d.Reaches n ∧ (d.look n).change ≠ .unchanged) ↔
      (d'.Reaches n ∧ (d'.look n).change ≠ .unchanged) ∨
      ∃ p ∈ newPairs src dst seed m, originOf src p.1 = n ∨ originOf dst p.2 = n := by
  constructor
  · rintro ⟨reaches, change⟩
    by_cases paired : ∃ p ∈ newPairs src dst seed m, originOf src p.1 = n ∨ originOf dst p.2 = n
    · exact .inr paired
    · obtain ⟨reaches', same⟩ := h.stays reaches fun i j e b new he hb =>
        ⟨fun eq => paired ⟨(i, j), new, .inl ((originOf_eq he).trans eq.symm)⟩,
          fun eq => paired ⟨(i, j), new, .inr ((originOf_eq hb).trans eq.symm)⟩⟩
      exact .inl ⟨reaches', same ▸ change⟩
  · rintro (⟨reaches', change'⟩ | ⟨⟨i, j⟩, new, eq⟩)
    · have alone (i j e b) (new : (i, j) ∈ newPairs src dst seed m) (he : src.get? i = some e)
          (hb : dst.get? j = some b) : n ≠ e.origin ∧ n ≠ b.origin :=
        ⟨fun eq => change' (eq ▸ (h.joins he hb new).2),
          fun eq => h.not_reaches he hb new (eq ▸ reaches')⟩
      have known := h.known reaches'
      exact ⟨known, (h.stays known alone).2 ▸ change'⟩
    · obtain ⟨e, b, he, hb⟩ := h.exists_entries new
      obtain ⟨⟨before, removed⟩, after, added⟩ := h.roles he hb new
      rw [originOf_eq he, originOf_eq hb] at eq
      obtain rfl | rfl := eq
      · exact ⟨(h.reaches_of_before (List.mem_cons_of_mem _ before)).1, by simp [removed]⟩
      · exact ⟨h.setting.twofold.exists_mem_iff.1 ⟨.after, List.mem_cons_of_mem _ after⟩,
          by simp [added]⟩

theorem count (h : Settled d d' s src dst seed m name) :
    ∃ ns ns', d.nodesWith edited = .ok ns ∧ d'.nodesWith edited = .ok ns' ∧
      ns.length = ns'.length + 2 * (newPairs src dst seed m).length := by
  obtain ⟨f, tour⟩ := Tour.exists_tour h.setting.twofold.toRegular
  obtain ⟨f', tour'⟩ := Tour.exists_tour h.merged.twofold.toRegular
  refine ⟨_, _, tour.nodesWith_eq h.setting.twofold.toRegular edited,
    tour'.nodesWith_eq h.merged.twofold.toRegular edited, ?_⟩
  have listed (n) : n ∈ (root :: f.flatten).filter (fun n => edited (d.look n)) ↔
      d.Reaches n ∧ (d.look n).change ≠ .unchanged := by
    rw [List.mem_filter, tour.mem_iff, edited, bne_iff_ne]
  have listed' (n) : n ∈ (root :: f'.flatten).filter (fun n => edited (d'.look n)) ↔
      d'.Reaches n ∧ (d'.look n).change ≠ .unchanged := by
    rw [List.mem_filter, tour'.mem_iff, edited, bne_iff_ne]
  have edits (p) (hp : p ∈ newPairs src dst seed m) :
      (d.look (originOf src p.1)).change = .removed ∧
        (d.look (originOf dst p.2)).change = .added ∧
        (d'.look (originOf src p.1)).change = .unchanged ∧ ¬ d'.Reaches (originOf dst p.2) := by
    obtain ⟨e, b, he, hb⟩ := h.exists_entries hp
    rw [originOf_eq he, originOf_eq hb]
    obtain ⟨⟨-, removed⟩, -, added⟩ := h.roles he hb hp
    exact ⟨removed, added, (h.joins he hb hp).2, h.not_reaches he hb hp⟩
  have once : (((root :: f'.flatten).filter fun n => edited (d'.look n)) ++
      ((newPairs src dst seed m).map (fun p => originOf src p.1) ++
        (newPairs src dst seed m).map fun p => originOf dst p.2)).Nodup := by
    refine List.nodup_append.2 ⟨tour'.nodup.filter _, List.nodup_append.2
      ⟨h.nodup_origins.1, h.nodup_origins.2, fun n hn k hk same => ?_⟩, fun n hn k hk same => ?_⟩
    · obtain ⟨p, hp, rfl⟩ := List.mem_map.1 hn
      obtain ⟨q, hq, rfl⟩ := List.mem_map.1 hk
      have change := (edits p hp).1
      rw [same, (edits q hq).2.1] at change
      cases change
    · obtain ⟨reaches, change⟩ := (listed' n).1 hn
      obtain ⟨p, hp, rfl⟩ | ⟨p, hp, rfl⟩ := (List.mem_append.1 hk).imp List.mem_map.1 List.mem_map.1
      · exact change (same ▸ (edits p hp).2.2.1)
      · exact (edits p hp).2.2.2 (same ▸ reaches)
  have perm := (List.perm_ext_iff_of_nodup (tour.nodup.filter fun n => edited (d.look n)) once).2
    fun n => by
      rw [listed, h.edited_iff, ← listed', List.mem_append, List.mem_append, List.mem_map,
        List.mem_map, ← exists_or]
      simp only [← and_or_left]
  rw [perm.length_eq, List.length_append, List.length_append, List.length_map, List.length_map,
    Nat.two_mul]

/-- A refinement joins the new pairs. -/
theorem improves (h : Settled d d' s src dst seed m name)
    (hsrc : Snapshot.ofDiff d .before = .ok src) (hdst : Snapshot.ofDiff d .after = .ok dst) :
    Improves d d' src dst seed m where
  symmetric := h.merged.twofold.toSymmetric
  sound := h.merged.twofold.sound
  trees := h.trees hsrc hdst
  unsplit n hn unchanged := by
    obtain ⟨reaches, same⟩ := h.stays hn fun i j e b new he hb => by
      obtain ⟨⟨-, removed⟩, -, added⟩ := h.roles he hb new
      exact ⟨fun eq => by simp [← eq, unchanged] at removed,
        fun eq => by simp [← eq, unchanged] at added⟩
    exact ⟨reaches, same.trans unchanged⟩
  joins i j e b new he hb := by
    obtain ⟨⟨-, removed⟩, -, added⟩ := h.roles he hb new
    obtain ⟨reaches, unchanged⟩ := h.joins he hb new
    exact ⟨removed, added, reaches, unchanged, h.not_reaches he hb new⟩
  rest n hn alone := h.stays hn alone
  known n hn := h.known hn
  count := h.count

end Settled

/-- Take a diff whose edges agree at both ends and in which all that hangs below the root is in order,
and a matcher that keeps its contract and the pairs it is given. If the root is unchanged, the diff can
be refined: the refined diff is in order, has the same trees, and differs by the joins of the new pairs
with equal texts. A diff whose root is removed or added is refused. -/
theorem refine_improves (regular : d.Regular) (sound : d.Sound) :
    ∃ src dst seed, Snapshot.ofDiff d .before = .ok src ∧ Snapshot.ofDiff d .after = .ok dst ∧
      ownPairs d src dst = .ok seed ∧
      ∀ (matcher : Matcher) (m : Matching), matcher src dst seed = .ok m → m.Obeys src dst →
        (∀ i j, seed.dst? i = some j → m.dst? i = some j) →
        ((d.look root).change = .unchanged →
          ∃ d', refine d matcher = .ok d' ∧ Improves d d' src dst seed m) ∧
        ((d.look root).change ≠ .unchanged →
          refine d matcher = .fail (.unexpectedChange root .unchanged (d.look root).change)) := by
  obtain ⟨s, twofold⟩ := sound.exists_twofold regular
  obtain ⟨src, dst, seed, hsrc, hdst, own, -⟩ := refine_eq twofold
  refine ⟨src, dst, seed, hsrc, hdst, own, fun matcher m asked obeys keeps => ?_⟩
  have run := Matcher.run_of_extends asked obeys keeps
  refine ⟨fun top => ?_, fun edited => refine_of_edited_root twofold edited hsrc hdst own run⟩
  have there (t : Time) : d.lives t root = true := by
    rw [lives_look regular.root_lt, Node.existsAt, top]
    rfl
  obtain ⟨d', name, refined, settled⟩ := exists_settled twofold there hsrc hdst own run
  exact ⟨d', refined, settled.improves hsrc hdst⟩

/-- A chain that was moved behind another one, which keeps its place. -/
theorem refine_improves_moved : ∃ d d' src dst seed,
    Reading.diff "-#if A\n-#endif\n #if B\n #endif\n+#if A\n+#endif\n" {} .unknown .preprocessor =
      .ok d ∧
    refine d (fun _ _ _ => .ok Construction.swap) = .ok d' ∧
    Improves d d' src dst seed Construction.swap ∧
    newPairs src dst seed Construction.swap = [(1, 2)] := by
  have values : (do
      let d ← Reading.diff "-#if A\n-#endif\n #if B\n #endif\n+#if A\n+#endif\n" {} .unknown
        .preprocessor
      let src ← Snapshot.ofDiff d .before
      let dst ← Snapshot.ofDiff d .after
      let seed ← ownPairs d src dst
      return (src.entries.map (·.kind), dst.entries.map (·.kind), seed.pairs,
        newPairs src dst seed Construction.swap) : Outcome _).toOption =
      some (#[.root, .ifBranch, .ifBranch], #[.root, .ifBranch, .ifBranch], [(0, 0), (2, 1)],
        [(1, 2)]) := by
    decide +kernel
  obtain ⟨d, read, rest⟩ := Outcome.bind_eq_ok_iff.1 (Outcome.eq_ok_of_toOption values)
  obtain ⟨src, hsrc, rest⟩ := Outcome.bind_eq_ok_iff.1 rest
  obtain ⟨dst, hdst, rest⟩ := Outcome.bind_eq_ok_iff.1 rest
  obtain ⟨seed, own, rest⟩ := Outcome.bind_eq_ok_iff.1 rest
  have equal := Outcome.pure_eq_ok_iff.1 rest
  simp only [Prod.mk.injEq] at equal
  obtain ⟨sources, targets, pairs, new⟩ := equal
  have orderly := (Reading.ofLines_seems read).1
  have top : (d.look root).change = .unchanged := by
    refine (Change.eq_unchanged_iff _).2 fun t => ?_
    have there := orderly.top t
    rwa [lives_look orderly.toRegular.root_lt] at there
  obtain ⟨src', dst', seed', hsrc', hdst', own', improved⟩ :=
    refine_improves orderly.toRegular orderly.sound
  rw [hsrc] at hsrc'
  obtain rfl := Except.ok.inj hsrc'
  rw [hdst] at hdst'
  obtain rfl := Except.ok.inj hdst'
  rw [own] at own'
  obtain rfl := Except.ok.inj own'
  have keeps (i j : Nat) (given : seed.dst? i = some j) : Construction.swap.dst? i = some j := by
    have mem := Matching.mem_pairs_iff.2 given
    rw [pairs] at mem
    rw [Construction.dst?_swap]
    simp only [List.mem_cons, Prod.mk.injEq, List.not_mem_nil, or_false] at mem ⊢
    omega
  obtain ⟨d', refined, improves⟩ := (improved (fun _ _ _ => .ok Construction.swap) _ rfl
    (Construction.obeys_swap sources targets) keeps).1 top
  exact ⟨d, d', src, dst, seed, read, refined, improves, new⟩

/-- The root is put below a run of code and split. The split fails, because its copy is a root with a
parent, but it has already made the root removed; then the copy is dropped. -/
def halfSplit : Diff := ofCalls [newCode, .attachLast 1 0 .after, .split 0, .drop 2]

theorem reaches_halfSplit {n : Handle} (h : halfSplit.Reaches n) : n = root := by
  induction h with
  | root => rfl
  | @child t p c _ hc ih =>
    subst ih
    have leaf : halfSplit.below t root = [] := by cases t <;> decide +kernel
    rw [leaf] at hc
    cases hc

theorem sound_halfSplit : halfSplit.Sound := by
  refine .of_accepted (built_ofCalls _).regular (Outcome.eq_ok_of_toOption (by decide +kernel))
    fun n hn t p hp => ?_
  obtain rfl := reaches_halfSplit hn
  have top : halfSplit.above t root = none := by cases t <;> decide +kernel
  rw [top] at hp
  cases hp

/-- A diff in order whose root was removed cannot be refined, though there is nothing to pair but the
roots. -/
theorem refine_halfSplit : halfSplit.Regular ∧ halfSplit.Sound ∧ ∃ src dst seed,
    Snapshot.ofDiff halfSplit .before = .ok src ∧ Snapshot.ofDiff halfSplit .after = .ok dst ∧
    ownPairs halfSplit src dst = .ok seed ∧ (Matching.empty.add 0 0).Obeys src dst ∧
    (∀ i j, seed.dst? i = some j → (Matching.empty.add 0 0).dst? i = some j) ∧
    refine halfSplit (fun _ _ _ => .ok (Matching.empty.add 0 0)) =
      .fail (.unexpectedChange root .unchanged .removed) := by
  have regular : halfSplit.Regular := (built_ofCalls _).regular
  obtain ⟨s, twofold⟩ := sound_halfSplit.exists_twofold regular
  obtain ⟨src, dst, seed, hsrc, hdst, own, -⟩ := refine_eq twofold
  have removed : (halfSplit.look root).change = .removed := by decide +kernel
  have before := Snapshot.mirrors_of_ofDiff regular (twofold.shape .before) hsrc
  have after := Snapshot.mirrors_of_ofDiff regular (twofold.shape .after) hdst
  obtain ⟨e, -, -, he, origin⟩ := before.exists_first
  obtain ⟨b, -, -, hb, origin'⟩ := after.exists_first
  have obeys : (Matching.empty.add 0 0).Obeys src dst := by
    refine ⟨Matching.dst?_empty_add.2 ⟨rfl, rfl⟩, fun i j pair => ?_⟩
    obtain ⟨rfl, rfl⟩ := Matching.dst?_empty_add.1 pair
    refine ⟨e, b, he, hb, ?_⟩
    rw [(before.entry 0 e he).1, (after.entry 0 b hb).1, origin, origin']
  have keeps (i j : Nat) (given : seed.dst? i = some j) : (Matching.empty.add 0 0).dst? i = some j := by
    obtain ⟨e', he', unchanged⟩ := unchanged_of_ownPairs own given
    have below : halfSplit.Reaches e'.origin :=
      twofold.exists_mem_iff.1 ⟨.before, List.mem_of_getElem? (before.getElem? he')⟩
    rw [reaches_halfSplit below, removed] at unchanged
    cases unchanged
  refine ⟨regular, sound_halfSplit, src, dst, seed, hsrc, hdst, own, obeys, keeps, ?_⟩
  rw [refine_of_edited_root twofold (by simp [removed]) hsrc hdst own
    (Matcher.run_of_extends rfl obeys keeps), removed]

end Refinement

end Variation
