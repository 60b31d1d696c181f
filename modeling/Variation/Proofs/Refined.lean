import Variation.Proofs.Joining
import Variation.Proofs.Pairs
import Variation.Proofs.Printed

/-!
# What a refinement does

In a twofold diff nothing is ever split: an unchanged node is its own counterpart, and the
counterpart of a removed node is an added one. So a refinement is a sequence of joins. Every join
leaves the tree before the edit as it is and puts one node for another in the tree after it, and a
whole refinement does so with a renaming of the added nodes.
-/

namespace Variation

open Matching (Snapshot Entry)
open Matching.Snapshot (Mirrors)
open Edit Diff

/-- A diff is another one with its tree after the edit renamed: it prints its own labels, with the
closing lines that were there. -/
structure Diff.Merged (d d' : Diff) (s : Sides (Forest Handle)) (name : Handle → Handle) : Prop where
  twofold : d'.Twofold ⟨s.before, s.after.map name⟩
  size : d'.size = d.size
  kind : ∀ m, (d'.look m).kind = (d.look m).kind
  formula : ∀ m, (d'.look m).formula = (d.look m).formula
  label : ∀ m, (d'.look m).label = (d.look m).label
  start : ∀ m, (d'.look m).start = (d.look m).start
  stop : ∀ m, (d'.look m).stop = (d.look m).stop
  lives : ∀ t m, d.lives t m = true → d'.lives t m = true
  closingBefore : ∀ m, (d'.look m).closing.before = (d.look m).closing.before
  sameKind : ∀ m ∈ s.after.flatten, (d.look (name m)).kind = (d.look m).kind
  closingAfter : ∀ m ∈ s.after.flatten,
    (d'.look (name m)).closing.after = (d.look m).closing.after

namespace Diff.Merged

variable {d d₁ d' : Diff} {s : Sides (Forest Handle)} {name name' : Handle → Handle}

theorem refl (h : d.Twofold s) : d.Merged d s id := by
  refine ⟨?_, rfl, fun _ => rfl, fun _ => rfl, fun _ => rfl, fun _ => rfl, fun _ => rfl,
    fun _ _ there => there, fun _ => rfl, fun _ _ => rfl, fun _ _ => rfl⟩
  have same : s.after.map id = s.after := Forest.map_id s.after
  rw [same]
  exact h

theorem trans (h : d.Merged d₁ s name) (h' : d₁.Merged d' ⟨s.before, s.after.map name⟩ name') :
    d.Merged d' s (name' ∘ name) := by
  have mem (m) (hm : m ∈ s.after.flatten) : name m ∈ (s.after.map name).flatten :=
    Forest.mem_flatten_map_of_mem name hm
  refine ⟨?_, h'.size.trans h.size, fun m => (h'.kind m).trans (h.kind m),
    fun m => (h'.formula m).trans (h.formula m), fun m => (h'.label m).trans (h.label m),
    fun m => (h'.start m).trans (h.start m), fun m => (h'.stop m).trans (h.stop m),
    fun t m there => h'.lives t m (h.lives t m there),
    fun m => (h'.closingBefore m).trans (h.closingBefore m), fun m hm => ?_, fun m hm => ?_⟩
  · rw [← Forest.map_map]
    exact h'.twofold
  · show (d.look (name' (name m))).kind = (d.look m).kind
    rw [← h.kind, h'.sameKind _ (mem m hm), h.kind, h.sameKind m hm]
  · show (d'.look (name' (name m))).closing.after = (d.look m).closing.after
    rw [h'.closingAfter _ (mem m hm), h.closingAfter m hm]

/-- Before the edit the same is printed. -/
theorem printed_before (h : d.Merged d' s name) :
    Printing.printed d' .before s.before = Printing.printed d .before s.before := by
  refine Forest.lines_congr fun m _ => ⟨?_, ?_⟩
  · rw [Printing.ownLines, Printing.ownLines, h.kind, h.label]
  · have closing : (d'.look m).closing.get .before = (d.look m).closing.get .before :=
      h.closingBefore m
    rw [Printing.closingLines, Printing.closingLines, h.kind, closing]

/-- After the edit the labels of the names are printed in place of the former ones. -/
theorem printed_after (h : d.Merged d' s name) :
    Printing.printed d' .after (s.after.map name) =
      s.after.lines (fun m => Printing.ownLines (d.look (name m)))
        fun m => Printing.closingLines (d.look m) .after := by
  rw [Printing.printed, Forest.lines_map]
  refine Forest.lines_congr fun m hm => ⟨?_, ?_⟩
  · rw [Printing.ownLines, Printing.ownLines, h.kind, h.label]
  · have closing : (d'.look (name m)).closing.get .after = (d.look m).closing.get .after :=
      h.closingAfter m hm
    rw [Printing.closingLines, Printing.closingLines, h.kind, h.sameKind m hm, closing]

end Diff.Merged

/-- A join merges. -/
theorem Diff.Meets.merged {d : Diff} {n a p : Handle} {i : Nat} {s : Sides (Forest Handle)}
    (meets : d.Meets n a p i) (h : d.Twofold s) (hn : n ∈ s.before.flatten)
    (ha : a ∈ s.after.flatten) (kinds : (d.look n).kind = (d.look a).kind) :
    d.Merged (d.joined n a p i) s (standIn a n) := by
  refine ⟨h.joined meets hn ha kinds, size_joined, fun _ => meets.kind_joined,
    fun _ => meets.formula_joined, fun _ => meets.label_joined, fun _ => meets.start_joined,
    fun _ => meets.stop_joined, fun t m there => ?_, fun m => ?_, fun m _ => ?_, fun m hm => ?_⟩
  · rw [lives_joined meets, there, ite_self]
  · rw [meets.closing_joined]
    split
    · rfl
    · split <;> rfl
  · by_cases self : m = a
    · rw [self, standIn_self, kinds]
    · rw [standIn_of_ne self]
  · rw [meets.closing_joined]
    by_cases self : m = a
    · rw [self, standIn_self, if_pos rfl]
      rfl
    · have apart : n ≠ m := by
        rintro rfl
        have there := h.lives_of_mem (t := .after) hm
        rw [lives_look meets.inStore, Node.existsAt, meets.removed] at there
        cases there
      rw [standIn_of_ne self, if_neg apart, if_neg (Ne.symm self)]

namespace Refinement

/-! ## One source -/

/-- The node that a source is to be one with: that of its destination, if their labels are equal. -/
def counterpart? (dst : Snapshot) (m : Matching) (e : Entry) (i : Nat) : Option Handle := do
  let target ← dst.get? (← m.dst? i)
  if target.label = e.label then some target.origin else none

/-- Brings a node into its final state. -/
def settleWith (n : Handle) (copies : Copies) : Option Handle → Edit Copies
  | none => do
    let copies ← splitIfUnchanged n copies
    expect n .removed
    return copies
  | some target =>
    if target = n then do
      expect n .unchanged
      return copies
    else do
      let copies ← splitIfUnchanged n copies
      let twin := copies.getD target target
      let copies ← splitIfUnchanged twin copies
      join n (copies.getD twin twin)
      expect n .unchanged
      return copies

variable {d d' : Diff} {s : Sides (Forest Handle)} {n a p : Handle} {c? : Option Handle}
  {src dst : Snapshot} {m : Matching} {e : Entry} {i : Nat} {copies : Copies}

theorem settle_eq : settle dst m copies e i = (do
    let copies ← settleWith e.origin copies (counterpart? dst m e i)
    Edit.ask (·.check e.origin)
    return copies) := by
  unfold settle settleWith
  show (match counterpart? dst m e i with
    | none => _
    | some target => _) = _
  cases counterpart? dst m e i with
  | none => simp only [bind_assoc, pure_bind]
  | some target =>
    by_cases here : target = e.origin
    · simp only [here, if_true, bind_assoc, pure_bind]
    · simp only [here, if_false, bind_assoc, pure_bind]

/-- What a node of the tree before the edit is to become: unchanged ones stay as they are, and
removed ones stay or are joined with an added node of their kind. -/
inductive Role (d : Diff) (s : Sides (Forest Handle)) (n : Handle) : Option Handle → Prop where
  | stays (hn : n ∈ Diff.root :: s.before.flatten) (change : (d.look n).change = .unchanged) :
    Role d s n (some n)
  | drops (hn : n ∈ Diff.root :: s.before.flatten) (change : (d.look n).change = .removed) :
    Role d s n none
  | joins {a : Handle} (hn : n ∈ s.before.flatten) (ha : a ∈ s.after.flatten)
    (removed : (d.look n).change = .removed) (added : (d.look a).change = .added)
    (kinds : (d.look n).kind = (d.look a).kind) : Role d s n (some a)

theorem Role.mem (h : Role d s n c?) : n ∈ Diff.root :: s.before.flatten := by
  cases h with
  | stays hn => exact hn
  | drops hn => exact hn
  | joins hn => exact List.mem_cons_of_mem _ hn

/-- A node that is not unchanged is not split. -/
theorem run_splitIfUnchanged (hn : n < d.size) (h : (d.look n).change ≠ .unchanged) :
    (splitIfUnchanged n copies).run d = .ok copies d := by
  simp only [splitIfUnchanged, EStateM.run_bind, run_ask_node (getElem?_look hn), h, if_false]
  rfl

theorem getD_none (n : Handle) : ({} : Copies).getD n n = n := rfl

/-- A node takes its role, and what happens to the diff is at most one join. -/
theorem run_settleWith (h : d.Twofold s) (role : Role d s n c?) :
    ∃ d', (settleWith n {} c?).run d = .ok {} d' ∧
      ((d' = d ∧ ∀ a, c? = some a → a = n) ∨
        ∃ a p i, c? = some a ∧ d.Meets n a p i ∧ d' = d.joined n a p i) := by
  cases role with
  | stays hn change =>
    refine ⟨d, ?_, .inl ⟨rfl, fun a e => (Option.some.inj e).symm⟩⟩
    rw [settleWith, if_pos rfl, EStateM.run_bind,
      run_expect (h.lt_size (t := .before) hn) change]
    rfl
  | drops hn removed =>
    have size := h.lt_size (t := .before) hn
    have whole : (d.look n).change ≠ .unchanged := by
      rw [removed]
      decide
    refine ⟨d, ?_, .inl ⟨rfl, fun a e => nomatch e⟩⟩
    simp only [settleWith, EStateM.run_bind, run_splitIfUnchanged size whole,
      run_expect size removed]
    rfl
  | @joins a hn ha removed added kinds =>
    obtain ⟨p, i, meets, -⟩ := h.meets hn ha removed added
    have whole : (d.look n).change ≠ .unchanged := by
      rw [removed]
      decide
    have whole' : (d.look a).change ≠ .unchanged := by
      rw [added]
      decide
    have size : n < (d.joined n a p i).size := by
      rw [size_joined]
      exact meets.inStore
    have change : ((d.joined n a p i).look n).change = .unchanged := by
      rw [meets.change_joined, if_pos rfl]
    refine ⟨d.joined n a p i, ?_, .inr ⟨a, p, i, rfl, meets, rfl⟩⟩
    rw [settleWith, if_neg (Ne.symm meets.other)]
    simp only [EStateM.run_bind, run_splitIfUnchanged meets.inStore whole, getD_none,
      run_splitIfUnchanged meets.lt_size whole', run_join meets, run_expect size change]
    rfl

/-- A node that has its role passes the test of one node. -/
theorem run_check (h : d.Twofold s) {u : Time} (hn : n ∈ Diff.root :: (s.get u).flatten) :
    (ask (·.check n)).run d = .ok () d := by
  obtain ⟨x, hx, law, -⟩ := h.sound n (h.exists_mem_iff.1 ⟨u, hn⟩)
  exact run_ask_ok (check_eq_ok_iff.2 ⟨x, hx, law⟩)

/-- A join changes no role but those of the nodes it joins. -/
theorem Role.joined {k : Handle} (role : Role d s k c?) (meets : d.Meets n a p i) (other : k ≠ n)
    (apart : ∀ b, c? = some b → b ≠ a) :
    Role (d.joined n a p i) ⟨s.before, s.after.map (standIn a n)⟩ k c? := by
  have change (b) (hb : b ≠ n) : ((d.joined n a p i).look b).change = (d.look b).change := by
    rw [meets.change_joined, if_neg (Ne.symm hb)]
  cases role with
  | stays hk unchanged =>
    refine .stays hk ?_
    rw [change k other, unchanged]
  | drops hk removed =>
    refine .drops hk ?_
    rw [change k other, removed]
  | @joins b hk hb removed added kinds =>
    have different : b ≠ n := by
      rintro rfl
      rw [meets.removed] at added
      cases added
    refine .joins hk ?_ ?_ ?_ ?_
    · exact Forest.mem_flatten_map.2 ⟨b, hb, standIn_of_ne (apart b rfl)⟩
    · rw [change k other, removed]
    · rw [change b different, added]
    · rw [meets.kind_joined, meets.kind_joined, kinds]

/-! ## All sources -/

/-- Two sources stand for different nodes and are to be one with different nodes. -/
def Apart (dst : Snapshot) (m : Matching) (p q : Entry × Nat) : Prop :=
  p.1.origin ≠ q.1.origin ∧
    ∀ a, counterpart? dst m p.1 p.2 = some a → counterpart? dst m q.1 q.2 ≠ some a

/-- A renaming takes the counterparts of sources to these and leaves everything else. -/
structure Renames (dst : Snapshot) (m : Matching) (es : List (Entry × Nat)) (name : Handle → Handle) :
    Prop where
  source : ∀ q ∈ es, ∀ a, counterpart? dst m q.1 q.2 = some a → name a = q.1.origin
  rest : ∀ a, (∀ q ∈ es, counterpart? dst m q.1 q.2 ≠ some a) → name a = a

namespace Renames

variable {es : List (Entry × Nat)} {q : Entry × Nat} {name : Handle → Handle}

/-- A source that is at most to be one with itself is not renamed. -/
theorem cons_self (h : Renames dst m es name) (first : ∀ r ∈ es, Apart dst m q r)
    (self : ∀ a, counterpart? dst m q.1 q.2 = some a → a = q.1.origin) :
    Renames dst m (q :: es) name := by
  refine ⟨fun r hr a ha => ?_, fun a ha => ?_⟩
  · obtain rfl | hr := List.mem_cons.1 hr
    · rw [self a ha]
      refine h.rest _ fun q hq => ?_
      rw [← self a ha]
      exact (first q hq).2 a ha
    · exact h.source r hr a ha
  · exact h.rest a fun r hr => ha r (List.mem_cons_of_mem q hr)

/-- The counterpart of a source is taken to it first. -/
theorem cons_join (h : Renames dst m es name) (first : ∀ r ∈ es, Apart dst m q r)
    (counterpart : counterpart? dst m q.1 q.2 = some a) (fixed : name q.1.origin = q.1.origin) :
    Renames dst m (q :: es) (name ∘ standIn a q.1.origin) := by
  refine ⟨fun r hr b hb => ?_, fun b hb => ?_⟩
  · obtain rfl | hr := List.mem_cons.1 hr
    · rw [counterpart] at hb
      obtain rfl := Option.some.inj hb
      show name (standIn a r.1.origin a) = r.1.origin
      rw [standIn_self]
      exact fixed
    · show name (standIn a q.1.origin b) = r.1.origin
      have other : b ≠ a := by
        rintro rfl
        exact (first r hr).2 b counterpart hb
      rw [standIn_of_ne other]
      exact h.source r hr b hb
  · obtain ⟨hq, hb⟩ := List.forall_mem_cons.1 hb
    show name (standIn a q.1.origin b) = b
    have other : b ≠ a := by
      rintro rfl
      exact hq counterpart
    rw [standIn_of_ne other]
    exact h.rest b hb

end Renames

/-- A source that takes its role is settled. -/
theorem run_settle {q : Entry × Nat} (h : d'.Twofold s)
    (mem : q.1.origin ∈ Diff.root :: s.before.flatten)
    (run : (settleWith q.1.origin {} (counterpart? dst m q.1 q.2)).run d = .ok {} d') :
    (settle dst m {} q.1 q.2).run d = .ok {} d' := by
  have checked := run_check h (u := .before) mem
  rw [settle_eq]
  simp only [EStateM.run_bind, run, checked]
  rfl

/-- Settling sources renames their counterparts to them. -/
theorem run_settleAll {es : List (Entry × Nat)} (h : d.Twofold s)
    (roles : ∀ q ∈ es, Role d s q.1.origin (counterpart? dst m q.1 q.2))
    (apart : es.Pairwise (Apart dst m)) :
    ∃ (d' : Diff) (name : Handle → Handle), (settleAll dst m {} es).run d = .ok () d' ∧
      d.Merged d' s name ∧ Renames dst m es name := by
  induction es generalizing d s with
  | nil =>
    exact ⟨d, id, rfl, .refl h, fun q hq => absurd hq List.not_mem_nil, fun _ _ => rfl⟩
  | cons q es ih =>
    obtain ⟨role, roles⟩ := List.forall_mem_cons.1 roles
    obtain ⟨first, apart⟩ := List.pairwise_cons.1 apart
    have begins {d₁ d' : Diff} (settled : (settle dst m {} q.1 q.2).run d = .ok {} d₁)
        (behind : (settleAll dst m {} es).run d₁ = .ok () d') :
        (settleAll dst m {} (q :: es)).run d = .ok () d' := by
      show (settle dst m {} q.1 q.2 >>= fun copies => settleAll dst m copies es).run d = _
      simp only [EStateM.run_bind, settled]
      exact behind
    obtain ⟨d₁, run, ⟨rfl, self⟩ | ⟨a, p, i, counterpart, meets, rfl⟩⟩ := run_settleWith h role
    · obtain ⟨d', name, behind, merged, renames⟩ := ih h roles apart
      exact ⟨d', name, begins (run_settle h role.mem run) behind, merged,
        renames.cons_self first self⟩
    · rw [counterpart] at role
      cases role with
      | stays hn change =>
        rw [meets.removed] at change
        cases change
      | joins hn ha removed added kinds =>
        have merged₁ := meets.merged h hn ha kinds
        have roles₁ (r) (hr : r ∈ es) := (roles r hr).joined meets (Ne.symm (first r hr).1)
          fun b hb e => (first r hr).2 a counterpart (e ▸ hb)
        obtain ⟨d', name, behind, merged, renames⟩ := ih merged₁.twofold roles₁ apart
        have settled := run_settle merged₁.twofold (List.mem_cons_of_mem _ hn) run
        refine ⟨d', name ∘ standIn a q.1.origin, begins settled behind, merged₁.trans merged,
          renames.cons_join first counterpart (renames.rest _ fun r hr e => ?_)⟩
        -- nothing else is to be one with the joined node
        have role' := roles₁ r hr
        rw [e] at role'
        generalize hk : r.1.origin = k at role'
        cases role' with
        | stays => exact (first r hr).1 hk.symm
        | joins _ _ _ added =>
          rw [meets.change_joined, if_pos rfl] at added
          cases added

/-! ## The whole refinement -/

theorem counterpart?_eq_some_iff : counterpart? dst m e i = some a ↔
    ∃ j b, m.dst? i = some j ∧ dst.get? j = some b ∧ b.label = e.label ∧ b.origin = a := by
  unfold counterpart?
  cases hj : m.dst? i with
  | none => simp
  | some j =>
    cases hb : dst.get? j with
    | none => simp [hb]
    | some b =>
      by_cases same : b.label = e.label
      · simp [hb, same]
      · simp [hb, same]

/-- What a refinement works with: the snapshots at both times and a matching that pairs every
unchanged node with itself. -/
structure Setting (d : Diff) (s : Sides (Forest Handle)) (src dst : Snapshot) (m : Matching) :
    Prop extends m.Pairing d d s.before.flatten s.after.flatten src dst where
  twofold : d.Twofold s
  top : ∀ t, d.lives t Diff.root = true
  own : ∀ i a, src.get? i = some a → (d.look a.origin).change = .unchanged →
    ∃ j b, m.dst? i = some j ∧ dst.get? j = some b ∧ b.origin = a.origin

namespace Setting

variable {i j i' j' : Nat} {e b e' b' : Entry}

theorem root_change (h : Setting d s src dst m) : (d.look Diff.root).change = .unchanged :=
  (unchanged_iff h.twofold.root_lt).2 h.top

/-- What a removed node is paired with was added. -/
theorem added_of_pair (h : Setting d s src dst m) (he : src.get? i = some e)
    (hj : m.dst? i = some j) (hb : dst.get? j = some b)
    (removed : (d.look e.origin).change = .removed) (mem : b.origin ∈ s.after.flatten) :
    (d.look b.origin).change = .added := by
  have target := List.mem_cons_of_mem Diff.root mem
  have size := h.twofold.lt_size (t := .after) target
  have there := h.twofold.lives_of_mem (t := .after) mem
  rw [lives_look size, Node.existsAt] at there
  cases change : (d.look b.origin).change with
  | added => rfl
  | removed =>
    rw [change] at there
    cases there
  | unchanged =>
    -- an unchanged node is paired with itself, so it cannot be paired with this one
    have before : b.origin ∈ Diff.root :: s.before.flatten :=
      h.twofold.here .after .before b.origin target ((unchanged_iff size).1 change .before)
    obtain ⟨i', hi'⟩ := List.getElem?_of_mem before
    obtain ⟨e', he', origin'⟩ := h.before.get?_of_getElem? hi'
    rw [← origin'] at change
    obtain ⟨j', b', hj', hb', same⟩ := h.own i' e' he' change
    obtain rfl := h.dst_inj hb' hb (same.trans origin')
    obtain rfl := Matching.source_inj hj' hj
    rw [he] at he'
    obtain rfl := Option.some.inj he'
    rw [removed] at change
    cases change

/-- Every source has a role. -/
theorem role (h : Setting d s src dst m) (he : src.get? i = some e) :
    Role d s e.origin (counterpart? dst m e i) := by
  have mem : e.origin ∈ Diff.root :: s.before.flatten := List.mem_of_getElem? (h.before.getElem? he)
  have size := h.twofold.lt_size (t := .before) mem
  have here : d.lives .before e.origin = true := by
    obtain top | below := List.mem_cons.1 mem
    · rw [top]
      exact h.top .before
    · exact h.twofold.lives_of_mem below
  rw [lives_look size, Node.existsAt] at here
  cases change : (d.look e.origin).change with
  | added =>
    rw [change] at here
    cases here
  | unchanged =>
    obtain ⟨j, b, hj, hb, origin⟩ := h.own i e he change
    have counterpart : counterpart? dst m e i = some e.origin := by
      rw [counterpart?_eq_some_iff]
      refine ⟨j, b, hj, hb, ?_, origin⟩
      rw [(h.after.entry j b hb).2, (h.before.entry i e he).2, origin]
    rw [counterpart]
    exact .stays mem change
  | removed =>
    cases counterpart : counterpart? dst m e i with
    | none => exact .drops mem change
    | some a =>
      obtain ⟨j, b, hj, hb, -, rfl⟩ := counterpart?_eq_some_iff.1 counterpart
      have notTop : e.origin ≠ Diff.root := by
        intro top
        rw [top, h.root_change] at change
        cases change
      have target := List.mem_of_ne_of_mem (fun top => notTop (h.eq_root he hj hb top))
        (List.mem_of_getElem? (h.after.getElem? hb))
      have kinds := h.kind_eq hj he hb
      rw [(h.before.entry i e he).1, (h.after.entry j b hb).1] at kinds
      exact .joins (List.mem_of_ne_of_mem notTop mem) target change
        (h.added_of_pair he hj hb change target) kinds

/-- No two sources are to be one with the same node. -/
theorem apart (h : Setting d s src dst m) : src.entries.toList.zipIdx.Pairwise (Apart dst m) := by
  rw [List.pairwise_iff_getElem]
  intro i i' hi hi' lt
  have listed (k) (hk : k < src.entries.toList.zipIdx.length) :
      src.get? k = some (src.entries.toList.zipIdx[k]).1 ∧
        (src.entries.toList.zipIdx[k]).2 = k := by
    rw [List.getElem_zipIdx]
    refine ⟨?_, Nat.zero_add k⟩
    rw [List.length_zipIdx, Array.length_toList] at hk
    exact Array.getElem?_eq_getElem hk
  obtain ⟨he, index⟩ := listed i hi
  obtain ⟨he', index'⟩ := listed i' hi'
  refine ⟨fun same => Nat.ne_of_lt lt (h.src_inj he he' same), fun a ha ha' => ?_⟩
  rw [index] at ha
  rw [index'] at ha'
  obtain ⟨j, b, hj, hb, -, origin⟩ := counterpart?_eq_some_iff.1 ha
  obtain ⟨j', b', hj', hb', -, origin'⟩ := counterpart?_eq_some_iff.1 ha'
  obtain rfl := h.dst_inj hb hb' (origin.trans origin'.symm)
  exact Nat.ne_of_lt lt (Matching.source_inj hj hj')

end Setting

/-- What a matcher gives can be worked with. -/
theorem setting_of_run {matcher : Matcher} {seed : Matching} (h : d.Twofold s)
    (top : ∀ t, d.lives t Diff.root = true) (hsrc : Snapshot.ofDiff d .before = .ok src)
    (hdst : Snapshot.ofDiff d .after = .ok dst) (hseed : ownPairs d src dst = .ok seed)
    (run : matcher.run src dst seed = .ok m) : Setting d s src dst m := by
  have before := Matching.Snapshot.mirrors_of_ofDiff h.toRegular (h.shape .before) hsrc
  have after := Matching.Snapshot.mirrors_of_ofDiff h.toRegular (h.shape .after) hdst
  obtain ⟨seed', hseed', own⟩ := ownPairs_spec h before after
  rw [hseed] at hseed'
  obtain rfl := Except.ok.inj hseed'
  have fits := Matcher.fits_of_run run
  refine ⟨⟨before, after, (h.shape .before).once, (h.shape .after).once, fits.roots, fits.pair⟩,
    h, top, fun i a ha unchanged => ?_⟩
  obtain ⟨j, b, hj, hb, origin⟩ := own i a ha unchanged
  exact ⟨j, b, fits.keeps i j hj, hb, origin⟩

/-- A twofold diff has all that a refinement needs but the matching. -/
theorem refine_eq (h : d.Twofold s) : ∃ src dst seed, Snapshot.ofDiff d .before = .ok src ∧
    Snapshot.ofDiff d .after = .ok dst ∧ ownPairs d src dst = .ok seed ∧
    ∀ matcher : Matcher, refine d matcher = matcher.run src dst seed >>= fun m => do
      let (_, d) ← (settleAll dst m {} src.entries.toList.zipIdx).result d
      d.checkConsistency
      return d := by
  obtain ⟨src, hsrc, -⟩ := Matching.Snapshot.ofDiff_spec h.toRegular (h.shape .before)
  obtain ⟨dst, hdst, -⟩ := Matching.Snapshot.ofDiff_spec h.toRegular (h.shape .after)
  have before := Matching.Snapshot.mirrors_of_ofDiff h.toRegular (h.shape .before) hsrc
  have after := Matching.Snapshot.mirrors_of_ofDiff h.toRegular (h.shape .after) hdst
  obtain ⟨seed, hseed, -⟩ := ownPairs_spec h before after
  refine ⟨src, dst, seed, hsrc, hdst, hseed, fun matcher => ?_⟩
  rw [refine, hsrc, Outcome.ok_bind, hdst, Outcome.ok_bind, hseed, Outcome.ok_bind]

/-- A diff whose root is edited cannot be refined: the root is the first source and its own
counterpart, so it has to be unchanged. -/
theorem refine_of_edited_root {matcher : Matcher} {seed : Matching} (h : d.Twofold s)
    (edited : (d.look Diff.root).change ≠ .unchanged) (hsrc : Snapshot.ofDiff d .before = .ok src)
    (hdst : Snapshot.ofDiff d .after = .ok dst) (own : ownPairs d src dst = .ok seed)
    (run : matcher.run src dst seed = .ok m) : refine d matcher =
      .fail (.unexpectedChange Diff.root .unchanged (d.look Diff.root).change) := by
  have before := Matching.Snapshot.mirrors_of_ofDiff h.toRegular (h.shape .before) hsrc
  have after := Matching.Snapshot.mirrors_of_ofDiff h.toRegular (h.shape .after) hdst
  obtain ⟨e, es, listed, he, origin⟩ := before.exists_first
  obtain ⟨b, -, -, hb, origin'⟩ := after.exists_first
  have counterpart : counterpart? dst m e 0 = some e.origin := by
    refine counterpart?_eq_some_iff.2 ⟨0, b, (Matcher.fits_of_run run).roots, hb, ?_,
      origin'.trans origin.symm⟩
    rw [(after.entry 0 b hb).2, (before.entry 0 e he).2, origin, origin']
  have first : (settle dst m {} e 0).run d =
      .error (.fault (.unexpectedChange Diff.root .unchanged (d.look Diff.root).change)) d := by
    rw [settle_eq, counterpart, settleWith, if_pos rfl, origin]
    simp only [EStateM.run_bind, run_expect_of_ne h.toRegular.root_lt edited]
  have stops : (settleAll dst m {} src.entries.toList.zipIdx).run d =
      .error (.fault (.unexpectedChange Diff.root .unchanged (d.look Diff.root).change)) d := by
    rw [listed, List.zipIdx_cons]
    show (settle dst m {} e 0 >>= fun copies => settleAll dst m copies (es.zipIdx 1)).run d = _
    rw [EStateM.run_bind, first]
  rw [refine, hsrc, Outcome.ok_bind, hdst, Outcome.ok_bind, own, Outcome.ok_bind, run,
    Outcome.ok_bind, Edit.result, stops]
  rfl

/-- The run over the sources with a matching succeeds and renames the paired nodes whose labels are
equal. -/
theorem settled_spec (h : Setting d s src dst m) : ∃ (d' : Diff) (name : Handle → Handle),
    (settleAll dst m {} src.entries.toList.zipIdx).run d = .ok () d' ∧ d.Merged d' s name ∧
    (∀ i e a, src.get? i = some e → counterpart? dst m e i = some a → name a = e.origin) ∧
    ∀ a, (∀ i e, src.get? i = some e → counterpart? dst m e i ≠ some a) → name a = a := by
  have roles (q) (hq : q ∈ src.entries.toList.zipIdx) :
      Role d s q.1.origin (counterpart? dst m q.1 q.2) := h.role (Snapshot.mem_zipIdx_entries.1 hq)
  obtain ⟨d', name, run, merged, renames⟩ := run_settleAll h.twofold roles h.apart
  refine ⟨d', name, run, merged, fun i e a he ha => ?_, fun a ha => renames.rest a fun q hq => ?_⟩
  · exact renames.source (e, i) (Snapshot.mem_zipIdx_entries.2 he) a ha
  · exact ha q.2 q.1 (Snapshot.mem_zipIdx_entries.1 hq)

/-- What the run over the sources makes of a diff is the refined diff, if it is in order. -/
theorem refine_of_run {matcher : Matcher} {seed : Matching} (hsrc : Snapshot.ofDiff d .before = .ok src)
    (hdst : Snapshot.ofDiff d .after = .ok dst) (own : ownPairs d src dst = .ok seed)
    (run : matcher.run src dst seed = .ok m)
    (settled : (settleAll dst m {} src.entries.toList.zipIdx).run d = .ok () d')
    (h : d'.Twofold s) : refine d matcher = .ok d' := by
  rw [refine, hsrc, Outcome.ok_bind, hdst, Outcome.ok_bind, own, Outcome.ok_bind, run,
    Outcome.ok_bind, Edit.result, settled, Outcome.ok_bind]
  show (d'.checkConsistency >>= fun _ => pure d') = .ok d'
  rw [h.sound.accepted h.toRegular]
  rfl

end Refinement

end Variation
