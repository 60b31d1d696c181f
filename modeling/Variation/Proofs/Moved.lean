import Variation.Proofs.Improved
import Variation.Proofs.Presences
import Variation.Proofs.Printed
import Variation.Proofs.Swapped

/-!
# Moved code

Candidates are paired from the last one on, each with the first of the others that is its opposite and
has the same text. Merging one pair leaves the others where they are. The main statement says that a
sound diff is sound still when all pairs are merged, that it prints the same source after the edit and
the source with the added texts before it, and that no removed code has a twin any more.
-/

namespace Variation

/-- Removed code and added code with the same text, blanks at the ends aside. -/
structure Node.MovedTo (x y : Node) : Prop where
  removed : x.change = .removed
  added : y.change = .added
  same : Simplification.labelText y = Simplification.labelText x
  text : (Simplification.labelText x).isEmpty = false

namespace Simplification

open Diff Edit

/-- The handles in some pairs. -/
def touched (pairs : List (Handle × Handle)) : List Handle := pairs.flatMap fun p => [p.1, p.2]

/-- The second one of the first pair that begins with a handle, or the handle itself. -/
def partner : List (Handle × Handle) → Handle → Handle
  | [], n => n
  | (r, a) :: pairs, n => if n = r then a else partner pairs n

/-! ## The pairs -/

/-- Pairs of removed and added code among some nodes, no node in two of them, and none missed. -/
structure Twinned (nodes : List (Handle × Node)) (pairs : List (Handle × Handle)) : Prop where
  once : (touched pairs).Nodup
  among : touched pairs ⊆ nodes.map (·.1)
  alike : ∀ p ∈ pairs, ∃ x y, (p.1, x) ∈ nodes ∧ (p.2, y) ∈ nodes ∧ x.MovedTo y
  maximal : ∀ r x a y, (r, x) ∈ nodes → (a, y) ∈ nodes → x.MovedTo y →
    r ∈ touched pairs ∨ a ∈ touched pairs

section Twinned

variable {nodes rest : List (Handle × Node)} {pairs : List (Handle × Handle)} {n m r a : Handle}
  {x y : Node}

theorem mem_touched : n ∈ touched pairs ↔ ∃ p ∈ pairs, n = p.1 ∨ n = p.2 := by
  simp [touched]

theorem touched_cons : touched ((r, a) :: pairs) = r :: a :: touched pairs := rfl

/-- A node that has no twin is left out. -/
theorem Twinned.skip (h : Twinned rest pairs)
    (lone : ∀ z ∈ rest, ¬ x.MovedTo z.2 ∧ ¬ z.2.MovedTo x) :
    Twinned (rest ++ [(n, x)]) pairs where
  once := h.once
  among m hm := by
    rw [List.map_append]
    exact List.mem_append_left _ (h.among hm)
  alike p hp := by
    obtain ⟨y, z, hy, hz, moved⟩ := h.alike p hp
    exact ⟨y, z, List.mem_append_left _ hy, List.mem_append_left _ hz, moved⟩
  maximal r y a z hr ha moved := by
    have apart : ¬ x.MovedTo x := fun h => by
      have removed := h.removed
      rw [h.added] at removed
      cases removed
    simp only [List.mem_append, List.mem_singleton, Prod.mk.injEq] at hr ha
    obtain hr | ⟨rfl, rfl⟩ := hr <;> obtain ha | ⟨rfl, rfl⟩ := ha
    · exact h.maximal r y a z hr ha moved
    · exact absurd moved (lone _ hr).2
    · exact absurd moved (lone _ ha).1
    · exact absurd moved apart

/-- Two twins are paired and taken out. -/
theorem Twinned.pair (h : Twinned rest pairs) (same : nodes.Perm ((r, x) :: (a, y) :: rest))
    (once : (nodes.map (·.1)).Nodup) (moved : x.MovedTo y) : Twinned nodes ((r, a) :: pairs) := by
  have once := (same.map (·.1)).nodup_iff.1 once
  rw [List.map_cons, List.map_cons, List.nodup_cons, List.mem_cons, not_or, List.nodup_cons] at once
  obtain ⟨⟨apart, newr⟩, newa, -⟩ := once
  refine ⟨?_, fun m hm => ?_, fun p hp => ?_, fun r' x' a' y' hr ha moved' => ?_⟩
  · rw [touched_cons, List.nodup_cons, List.mem_cons, not_or, List.nodup_cons]
    exact ⟨⟨apart, fun hm => newr (h.among hm)⟩, fun hm => newa (h.among hm), h.once⟩
  · rw [(same.map (·.1)).mem_iff]
    simp only [touched_cons, List.mem_cons, List.map_cons] at hm ⊢
    exact hm.imp_right fun hm => hm.imp_right fun hm => h.among hm
  · simp only [same.mem_iff]
    obtain rfl | hp := List.mem_cons.1 hp
    · exact ⟨x, y, List.mem_cons_self, List.mem_cons_of_mem _ List.mem_cons_self, moved⟩
    · obtain ⟨x', y', hx, hy, moved'⟩ := h.alike p hp
      exact ⟨x', y', List.mem_cons_of_mem _ (List.mem_cons_of_mem _ hx),
        List.mem_cons_of_mem _ (List.mem_cons_of_mem _ hy), moved'⟩
  · simp only [same.mem_iff, List.mem_cons, Prod.mk.injEq] at hr ha
    simp only [touched_cons, List.mem_cons]
    obtain ⟨rfl, -⟩ | ⟨rfl, -⟩ | hr := hr
    · exact .inl (.inl rfl)
    · exact .inl (.inr (.inl rfl))
    obtain ⟨rfl, -⟩ | ⟨rfl, -⟩ | ha := ha
    · exact .inr (.inl rfl)
    · exact .inr (.inr (.inl rfl))
    · exact (h.maximal r' x' a' y' hr ha moved').imp (fun h => .inr (.inr h)) fun h => .inr (.inr h)

theorem isTwin_iff {z : Node} (edited : x.change ≠ .unchanged)
    (text : (labelText x).isEmpty = false) :
    isTwin x z = true ↔ x.MovedTo z ∨ z.MovedTo x := by
  rw [isTwin, Bool.and_eq_true, beq_iff_eq, beq_iff_eq]
  constructor
  · rintro ⟨inverse, same⟩
    cases change : x.change with
    | unchanged => exact absurd change edited
    | removed => exact .inl ⟨change, by rw [inverse, change]; rfl, same, text⟩
    | added => exact .inr ⟨by rw [inverse, change]; rfl, change, same.symm, same ▸ text⟩
  · rintro (moved | moved)
    · exact ⟨by rw [moved.added, moved.removed]; rfl, moved.same⟩
    · exact ⟨by rw [moved.added, moved.removed]; rfl, moved.same.symm⟩

/-- A node that is unchanged or blank has no twin. -/
theorem lone_of_idle (idle : x.change = .unchanged ∨ (labelText x).isEmpty = true) (z : Node) :
    ¬ x.MovedTo z ∧ ¬ z.MovedTo x := by
  obtain change | empty := idle
  · refine ⟨fun moved => ?_, fun moved => ?_⟩
    · rw [moved.removed] at change
      cases change
    · rw [moved.added] at change
      cases change
  · refine ⟨fun moved => ?_, fun moved => ?_⟩
    · rw [moved.text] at empty
      cases empty
    · rw [moved.same, moved.text] at empty
      cases empty

theorem twinsAmong_spec {steps : Nat} (room : nodes.length ≤ steps)
    (once : (nodes.map (·.1)).Nodup) : Twinned nodes (twinsAmong steps nodes) := by
  induction steps generalizing nodes with
  | zero =>
    obtain rfl := List.length_eq_zero_iff.1 (Nat.le_zero.1 room)
    exact ⟨.nil, List.Subset.refl _, by simp [twinsAmong], by simp⟩
  | succ steps ih =>
    rw [twinsAmong]
    cases last : nodes.getLast? with
    | none =>
      obtain rfl := List.getLast?_eq_none_iff.1 last
      exact ⟨.nil, List.Subset.refl _, by simp, by simp⟩
    | some end_ =>
      obtain ⟨n, x⟩ := end_
      obtain ⟨rest, rfl⟩ := List.getLast?_eq_some_iff.1 last
      have fewer : rest.length ≤ steps := by simpa using room
      have onceRest : (rest.map (·.1)).Nodup := by
        rw [List.map_append, List.nodup_append] at once
        exact once.1
      dsimp only
      rw [List.dropLast_concat]
      split
      · next idle => exact (ih fewer onceRest).skip fun z _ => lone_of_idle idle z.2
      · next edited =>
        rw [not_or, Bool.not_eq_true] at edited
        obtain ⟨edited, text⟩ := edited
        cases found : rest.findIdx? (isTwin x ·.2) with
        | none =>
          refine (ih fewer onceRest).skip fun z hz => not_or.1 fun moved => ?_
          have other := List.findIdx?_eq_none_iff.1 found z hz
          rw [(isTwin_iff edited text).2 moved] at other
          cases other
        | some i =>
          obtain ⟨hi, twin, -⟩ := List.findIdx?_eq_some_iff_getElem.1 found
          have get : (rest.map (·.1)).getD i n = rest[i].1 := by simp [hi]
          have taken : (rest ++ [(n, x)]).Perm ((n, x) :: rest[i] :: rest.eraseIdx i) :=
            (List.perm_append_singleton _ _).trans
              ((List.getElem_cons_eraseIdx_perm hi).symm.cons (n, x))
          have shorter : (rest.eraseIdx i).length ≤ steps :=
            (List.length_eraseIdx_le rest i).trans fewer
          have spare : ((rest.eraseIdx i).map (·.1)).Nodup :=
            onceRest.sublist ((List.eraseIdx_sublist rest i).map _)
          have paired := ih shorter spare
          dsimp only
          rw [get]
          obtain moved | moved := (isTwin_iff edited text).1 twin
          · rw [if_pos moved.removed]
            exact paired.pair taken once moved
          · rw [if_neg fun e => by rw [moved.added] at e; cases e]
            exact paired.pair (taken.trans (List.Perm.swap _ _ _)) once moved

end Twinned

/-- The twins of a diff are found among the code below its root. -/
theorem twins_spec {d : Diff} (hd : d.Regular) : ∃ nodes pairs, twins d = .ok pairs ∧
    Twinned nodes pairs ∧ (nodes.map (·.1)).Nodup ∧
    ∀ n x, (n, x) ∈ nodes ↔ d.Reaches n ∧ (d.look n).kind = .artifact ∧ x = d.look n := by
  obtain ⟨ns, walk, once, reached⟩ := preorder_spec hd
  have inStore (n) (hn : n ∈ ns) : n < d.size := ((reached n).1 hn).lt_size hd
  let nodes := (ns.map fun n => (n, d.look n)).filter (·.2.kind == .artifact)
  have onceNodes : (nodes.map (·.1)).Nodup := by
    refine List.Nodup.sublist ((List.filter_sublist).map _) ?_
    rw [List.map_map]
    exact (List.map_id ns).symm ▸ once
  refine ⟨nodes, _, ?_, twinsAmong_spec (Nat.le_refl _) onceNodes, onceNodes, fun n x => ?_⟩
  · rw [twins, reachable, walk, Outcome.ok_bind, withNodes_eq inStore]
    rfl
  · simp only [nodes, List.mem_filter, List.mem_map, Prod.mk.injEq, beq_iff_eq]
    constructor
    · rintro ⟨⟨m, hm, rfl, rfl⟩, kind⟩
      exact ⟨(reached m).1 hm, kind, rfl⟩
    · rintro ⟨hn, kind, rfl⟩
      exact ⟨⟨n, (reached n).2 hn, rfl, rfl⟩, kind⟩

/-! ## Merging all pairs -/

theorem partner_of_ne {pairs : List (Handle × Handle)} {n : Handle} (other : ∀ p ∈ pairs, n ≠ p.1) :
    partner pairs n = n := by
  induction pairs with
  | nil => rfl
  | cons p pairs ih =>
    obtain ⟨here, other⟩ := List.forall_mem_cons.1 other
    rw [partner, if_neg here, ih other]

theorem partner_cases (pairs : List (Handle × Handle)) (n : Handle) :
    partner pairs n = n ∨ ∃ p ∈ pairs, p.1 = n ∧ partner pairs n = p.2 := by
  induction pairs with
  | nil => exact .inl rfl
  | cons p pairs ih =>
    by_cases here : n = p.1
    · exact .inr ⟨p, List.mem_cons_self, here.symm, if_pos here⟩
    · rw [partner, if_neg here]
      exact ih.imp_right fun ⟨q, hq, spec⟩ => ⟨q, List.mem_cons_of_mem p hq, spec⟩

end Simplification

namespace Diff

open Simplification Printing

variable {d d' : Diff} {s s' : Sides (Forest Handle)} {w : Sides Handle} {y : Node}
  {pairs : List (Handle × Handle)} {n r a : Handle}

/-- A diff in which all pairs were merged: what was in a pair is gone, everything else is told as it
was, and the trees print the same, the added texts standing for the removed ones before the edit. -/
structure Relocates (d d' : Diff) (s s' : Sides (Forest Handle)) (pairs : List (Handle × Handle)) :
    Prop where
  twofold : d'.Twofold s'
  size : d.size ≤ d'.size
  payload : ∀ n, n < d.size → d'.payload n = d.payload n
  stays : ∀ n, d'.Reaches n →
    (n < d.size ∧ d.Reaches n ∧ n ∉ touched pairs) ∨ (d'.look n).change = .unchanged
  before : printed d' .before s'.before = s.before.lines
    (fun n => ownLines (d.look (partner pairs n))) fun n => closingLines (d.look n) .before
  after : printed d' .after s'.after = printed d .after s.after

theorem ownLines_of_payload {m : Handle} (h : d'.payload m = d.payload n) :
    ownLines (d'.look m) = ownLines (d.look n) := by
  have e := congrArg Node.label h
  have label : (d'.look m).label = (d.look n).label := e
  rw [ownLines, ownLines, kind_of_payload h, label]

theorem closingLines_of_payload {m : Handle} {t : Time} (h : d'.payload m = d.payload n) :
    closingLines (d'.look m) t = closingLines (d.look n) t := by
  have e := congrArg Node.closing h
  have closing : (d'.look m).closing = (d.look n).closing := e
  rw [closingLines, closingLines, kind_of_payload h, closing]

theorem closingLines_of_code {x : Node} (h : x.kind = .artifact) (t : Time) :
    closingLines x t = [] := by
  rw [closingLines, h, if_neg (by decide)]

theorem ownLines_of_code {x z : Node} (hx : x.kind = .artifact) (hz : z.kind = .artifact)
    (label : x.label = z.label) : ownLines x = ownLines z := by
  rw [ownLines, ownLines, hx, hz, label]

/-- A pair of code apart from the merged one can be merged still. -/
theorem Movable.kept (h : d.Movable s w) (twofold : d.Twofold s) (swaps : d.Swaps d' w y)
    {w' : Sides Handle} (other : d.Movable s w') (apart : ∀ t u, w'.get t ≠ w.get u) :
    d'.Movable (standIns s w d.size) w' := by
  have same (t : Time) : d'.payload (w'.get t) = d.payload (w'.get t) :=
    swaps.payload _ (other.inStore twofold t).ne
  refine ⟨fun t => ?_, fun t => (change_of_payload (same t)).trans (other.change t),
    fun t => (kind_of_payload (same t)).trans (other.code t)⟩
  have mem := h.old_mem twofold (List.mem_cons_of_mem root (other.inTree t)) (apart t)
  exact List.mem_of_ne_of_mem (other.root_ne twofold t).symm mem

theorem Relocates.refl (h : d.Twofold s) : d.Relocates d s s [] :=
  ⟨h, Nat.le_refl _, fun _ _ => rfl,
    fun _ hn => .inl ⟨hn.lt_size h.toRegular, hn, List.not_mem_nil⟩, rfl, rfl⟩

/-- One pair is merged, and then the others. -/
theorem Relocates.cons {d₁ : Diff} (twofold : d.Twofold s) (movable : d.Movable s ⟨r, a⟩)
    (swaps : d.Swaps d₁ ⟨r, a⟩ y) (code : y.StillCode) (label : y.label = (d.look a).label)
    (others : ∀ p ∈ pairs, d.Movable s ⟨p.1, p.2⟩)
    (h : d₁.Relocates d' (standIns s ⟨r, a⟩ d.size) s' pairs) :
    d.Relocates d' s s' ((r, a) :: pairs) := by
  have le : d.size ≤ d₁.size := swaps.size ▸ Nat.le_succ _
  have same {n : Handle} (hn : n < d.size) := swaps.payload_old hn
  have kind := swaps.kind_new code
  have own : ownLines (d₁.look d.size) = ownLines (d.look a) := ownLines_of_code kind
    (movable.code .after) ((swaps.told Node.label fun _ => rfl).trans label)
  have first (p) (hp : p ∈ pairs) : p.1 < d.size := (others p hp).inStore twofold .before
  have second (p) (hp : p ∈ pairs) : p.2 < d.size := (others p hp).inStore twofold .after
  refine ⟨h.twofold, le.trans h.size, fun n hn => (h.payload n (hn.trans_le le)).trans (same hn),
    fun n hn => ?_, ?_, ?_⟩
  · obtain ⟨hk, reached, free⟩ | still := h.stays n hn
    · obtain ⟨t, mem⟩ := (movable.swapped twofold swaps code).exists_mem_iff.2 reached
      obtain rfl | ⟨old, mem, other⟩ := movable.mem_cases twofold mem
      · right
        rw [change_of_payload (h.payload _ hk), swaps.change_new code]
      · refine .inl ⟨old, twofold.exists_mem_iff.1 ⟨t, mem⟩, ?_⟩
        rw [touched_cons, List.mem_cons, List.mem_cons, not_or, not_or]
        exact ⟨other .before, other .after, free⟩
    · exact .inr still
  · rw [h.before, standIns, Forest.lines_map]
    refine Forest.lines_congr fun n hn => ?_
    have old : n < d.size := (twofold.shape .before).spans.lt_size hn
    obtain rfl | other := eq_or_ne n r
    · have fresh (p) (hp : p ∈ pairs) : d.size ≠ p.1 := (first p hp).ne'
      have here : partner ((n, a) :: pairs) n = a := if_pos rfl
      rw [standIn_self, partner_of_ne fresh, here]
      exact ⟨own, (closingLines_of_code kind _).trans
        (closingLines_of_code (movable.code .before) _).symm⟩
    · have here : partner ((r, a) :: pairs) n = partner pairs n := if_neg other
      have paired : partner pairs n < d.size := by
        obtain self | ⟨p, hp, -, e⟩ := partner_cases pairs n
        · exact self.symm ▸ old
        · exact e ▸ second p hp
      have stands : standIn (⟨r, a⟩ : Sides Handle).before d.size n = n := standIn_of_ne other
      rw [stands, here]
      exact ⟨ownLines_of_payload (same paired), closingLines_of_payload (same old)⟩
  · rw [h.after, printed, standIns, Forest.lines_map]
    refine Forest.lines_congr fun n hn => ?_
    have old : n < d.size := (twofold.shape .after).spans.lt_size hn
    obtain rfl | other := eq_or_ne n a
    · rw [standIn_self]
      exact ⟨own, (closingLines_of_code kind _).trans
        (closingLines_of_code (movable.code .after) _).symm⟩
    · have stands : standIn (⟨r, a⟩ : Sides Handle).after d.size n = n := standIn_of_ne other
      rw [stands]
      exact ⟨ownLines_of_payload (same old), closingLines_of_payload (same old)⟩

/-- Merging all pairs of a list succeeds if no node is in two of them. -/
theorem run_mergeAll (twofold : d.Twofold s) (once : (touched pairs).Nodup)
    (movable : ∀ p ∈ pairs, d.Movable s ⟨p.1, p.2⟩) : ∃ d' s',
    (pairs.forM fun (removed, added) => mergeMoved removed added).run d = .ok () d' ∧
      d.Relocates d' s s' pairs := by
  induction pairs generalizing d s with
  | nil => exact ⟨d, s, rfl, .refl twofold⟩
  | cons p pairs ih =>
    obtain ⟨r, a⟩ := p
    obtain ⟨here, others⟩ := List.forall_mem_cons.1 movable
    rw [touched_cons, List.nodup_cons, List.mem_cons, not_or, List.nodup_cons] at once
    obtain ⟨⟨-, newr⟩, newa, once⟩ := once
    obtain ⟨ps, partners⟩ := here.partners twofold
    obtain ⟨d₁, y, merged, swaps, code, label⟩ := run_mergeMoved partners
    have apart (p) (hp : p ∈ pairs) (t u : Time) :
        (⟨p.1, p.2⟩ : Sides Handle).get t ≠ (⟨r, a⟩ : Sides Handle).get u := by
      have mem : (⟨p.1, p.2⟩ : Sides Handle).get t ∈ touched pairs :=
        mem_touched.2 ⟨p, hp, by cases t <;> simp [Sides.get]⟩
      intro e
      rw [e] at mem
      cases u
      · exact newr mem
      · exact newa mem
    obtain ⟨d', s', run, relocates⟩ := ih (here.swapped twofold swaps code) once
      fun p hp => here.kept twofold swaps (others p hp) (apart p hp)
    refine ⟨d', s', ?_, relocates.cons twofold here swaps code label others⟩
    change EStateM.run (mergeMoved r a >>= fun _ =>
      pairs.forM fun (removed, added) => mergeMoved removed added) d = _
    rw [EStateM.run_bind, merged]
    exact run

theorem Twofold.mem_of_onlyAt {t : Time} (h : d.Twofold s) (hn : d.Reaches n) (below : n ≠ root)
    (change : (d.look n).change = .onlyAt t) : n ∈ (s.get t).flatten := by
  obtain ⟨u, mem⟩ := h.exists_mem_iff.2 hn
  have there : d.lives t n = true := by
    rw [lives_look (hn.lt_size h.toRegular), Node.existsAt, change, Change.existsAt_onlyAt]
    exact beq_self_eq_true t
  exact List.mem_of_ne_of_mem below (h.here u t n mem there)

theorem Twofold.movable (h : d.Twofold s) (hr : d.Reaches r) (ha : d.Reaches a)
    (codeR : (d.look r).kind = .artifact) (codeA : (d.look a).kind = .artifact)
    (moved : (d.look r).MovedTo (d.look a)) : d.Movable s ⟨r, a⟩ where
  inTree
    | .before => h.mem_of_onlyAt hr (ne_root_of_kind h.toRegular codeR (by decide)) moved.removed
    | .after => h.mem_of_onlyAt ha (ne_root_of_kind h.toRegular codeA (by decide)) moved.added
  change
    | .before => moved.removed
    | .after => moved.added
  code
    | .before => codeR
    | .after => codeA

theorem movedTo_of_payload (hr : d'.payload r = d.payload r) (ha : d'.payload a = d.payload a)
    (moved : (d'.look r).MovedTo (d'.look a)) : (d.look r).MovedTo (d.look a) := by
  have text {n : Handle} (h : d'.payload n = d.payload n) :
      labelText (d'.look n) = labelText (d.look n) := by
    have e := congrArg Node.label h
    have label : (d'.look n).label = (d.look n).label := e
    rw [labelText, labelText, label]
  refine ⟨?_, ?_, ?_, ?_⟩
  · rw [← change_of_payload hr, moved.removed]
  · rw [← change_of_payload ha, moved.added]
  · rw [← text hr, ← text ha, moved.same]
  · rw [← text hr, moved.text]

/-- Nothing is left that moved, if each two that had moved are in a pair, the one or the other. -/
theorem Relocates.not_movedTo (h : d.Relocates d' s s' pairs)
    (maximal : ∀ r a, d.Reaches r → d.Reaches a → (d.look r).kind = .artifact →
      (d.look a).kind = .artifact → (d.look r).MovedTo (d.look a) →
        r ∈ touched pairs ∨ a ∈ touched pairs)
    (hr : d'.Reaches r) (ha : d'.Reaches a) (codeR : (d'.look r).kind = .artifact)
    (codeA : (d'.look a).kind = .artifact) : ¬ (d'.look r).MovedTo (d'.look a) := by
  intro moved
  obtain ⟨hr, reachedR, freeR⟩ | still := h.stays r hr
  · obtain ⟨ha, reachedA, freeA⟩ | still := h.stays a ha
    · have sameR := h.payload r hr
      have sameA := h.payload a ha
      rw [kind_of_payload sameR] at codeR
      rw [kind_of_payload sameA] at codeA
      exact (maximal r a reachedR reachedA codeR codeA
        (movedTo_of_payload sameR sameA moved)).elim freeR freeA
    · rw [moved.added] at still
      cases still
  · rw [moved.removed] at still
    cases still

/-- Pairs of code with equal labels print the same before the edit as they did. -/
theorem Relocates.before_of_labels (h : d.Relocates d' s s' pairs)
    (code : ∀ p ∈ pairs, (d.look p.1).kind = .artifact ∧ (d.look p.2).kind = .artifact)
    (equal : ∀ p ∈ pairs, (d.look p.1).label = (d.look p.2).label) :
    printed d' .before s'.before = printed d .before s.before := by
  rw [h.before]
  refine Forest.lines_congr fun n _ => ⟨?_, rfl⟩
  obtain self | ⟨p, hp, rfl, e⟩ := partner_cases pairs n
  · rw [self]
  · rw [e]
    exact ownLines_of_code (code p hp).2 (code p hp).1 (equal p hp).symm

end Diff

namespace Simplification

open Diff Edit Printing

variable {d : Diff}

/-- The simplification merges the pairs that it finds. -/
theorem apply_moved {d' : Diff} {pairs : List (Handle × Handle)} (found : twins d = .ok pairs)
    (run : (pairs.forM fun (removed, added) => mergeMoved removed added).run d = .ok () d')
    (hd' : d'.Regular) (sound' : d'.Sound) : apply [moved] d = .ok d' := by
  have all : moved.run.run d = .ok () d' := by
    change EStateM.run (ask twins >>= fun pairs =>
      pairs.forM fun (removed, added) => mergeMoved removed added) d = _
    rw [EStateM.run_bind, run_ask_ok found]
    exact run
  refine apply_of_run (by decide) ?_ hd' sound'
  change EStateM.run (moved.run >>= fun _ => pure ()) d = _
  rw [EStateM.run_bind, all]
  rfl

/-- Code that moved can be merged in every sound diff, which is sound still afterwards. The source
after the edit stays; before the edit the added text of each pair stands for the removed one, which is
the same but for the blanks at its ends. No removed code has a twin any more. -/
theorem moved_merged (hd : d.Regular) (sound : d.Sound) : ∃ pairs d' f,
    twins d = .ok pairs ∧ apply [moved] d = .ok d' ∧ d'.Regular ∧ d'.Sound ∧
    (∀ p ∈ pairs, (∀ n ∈ [p.1, p.2], d.Reaches n ∧ (d.look n).kind = .artifact) ∧
      (d.look p.1).MovedTo (d.look p.2)) ∧
    (∃ text, source d .after = .ok text ∧ source d' .after = .ok text) ∧
    d.Shape .before f ∧ source d .before = .ok (Text.unlines (printed d .before f)) ∧
    source d' .before = .ok (Text.unlines (f.lines
      (fun n => ownLines (d.look (partner pairs n))) fun n => closingLines (d.look n) .before)) ∧
    ((∀ p ∈ pairs, (d.look p.1).label = (d.look p.2).label) →
      source d' .before = source d .before) ∧
    ∀ r a, d'.Reaches r → d'.Reaches a → (d'.look r).kind = .artifact →
      (d'.look a).kind = .artifact → ¬ (d'.look r).MovedTo (d'.look a) := by
  obtain ⟨s, twofold⟩ := sound.exists_twofold hd
  obtain ⟨nodes, pairs, found, twinned, -, code⟩ := twins_spec hd
  have alike (p) (hp : p ∈ pairs) : (∀ n ∈ [p.1, p.2], d.Reaches n ∧ (d.look n).kind = .artifact) ∧
      (d.look p.1).MovedTo (d.look p.2) := by
    obtain ⟨x, y, hx, hy, moved⟩ := twinned.alike p hp
    obtain ⟨hr, codeR, rfl⟩ := (code _ _).1 hx
    obtain ⟨ha, codeA, rfl⟩ := (code _ _).1 hy
    exact ⟨by simp [hr, codeR, ha, codeA], moved⟩
  have movable (p) (hp : p ∈ pairs) : d.Movable s ⟨p.1, p.2⟩ := by
    obtain ⟨each, moved⟩ := alike p hp
    obtain ⟨hr, codeR⟩ := each p.1 (by simp)
    obtain ⟨ha, codeA⟩ := each p.2 (by simp)
    exact twofold.movable hr ha codeR codeA moved
  obtain ⟨d', s', run, relocates⟩ := run_mergeAll twofold twinned.once movable
  have hd' := relocates.twofold.toRegular
  have sound' := relocates.twofold.sound
  have before := source_eq hd (twofold.shape .before)
  have before' := source_eq hd' (relocates.twofold.shape .before)
  have after := source_eq hd (twofold.shape .after)
  have after' := source_eq hd' (relocates.twofold.shape .after)
  refine ⟨pairs, d', s.before, found, apply_moved found run hd' sound', hd', sound', alike,
    ⟨_, after, after'.trans ?_⟩, twofold.shape .before, before, before'.trans ?_,
    fun equal => before'.trans (Eq.trans ?_ before.symm), fun r a hr ha codeR codeA => ?_⟩
  · exact congrArg (Except.ok <| Text.unlines ·) relocates.after
  · exact congrArg (Except.ok <| Text.unlines ·) relocates.before
  · refine congrArg (Except.ok <| Text.unlines ·) (relocates.before_of_labels (fun p hp => ?_) equal)
    obtain ⟨each, -⟩ := alike p hp
    exact ⟨(each p.1 (by simp)).2, (each p.2 (by simp)).2⟩
  · refine relocates.not_movedTo (fun r a hr ha codeR codeA moved => ?_) hr ha codeR codeA
    exact twinned.maximal r _ a _ ((code _ _).2 ⟨hr, codeR, rfl⟩) ((code _ _).2 ⟨ha, codeA, rfl⟩)
      moved

/-- Two lines change places with a third one, and one of them is indented on the way. -/
theorem moved_merged_indented : ∃ d d' pairs,
    Reading.diff "-x\n-y\n z\n+ x\n+y\n" {} .unknown .preprocessor = .ok d ∧
    d.Regular ∧ d.Sound ∧ twins d = .ok pairs ∧ pairs = [(2, 5), (1, 4)] ∧
    apply [moved] d = .ok d' ∧ d'.Regular ∧ d'.Sound ∧
    source d .before = .ok "x\ny\nz\n" ∧ source d' .before = .ok " x\ny\nz\n" ∧
    (∃ text, source d .after = .ok text ∧ source d' .after = .ok text) ∧
    ∀ r a, d'.Reaches r → d'.Reaches a → (d'.look r).kind = .artifact →
      (d'.look a).kind = .artifact → ¬ (d'.look r).MovedTo (d'.look a) := by
  have run : (do
      let d ← Reading.diff "-x\n-y\n z\n+ x\n+y\n" {} .unknown .preprocessor
      let d' ← apply [moved] d
      return (← twins d, ← source d .before, ← source d' .before) : Outcome _).toOption =
        some ([(2, 5), (1, 4)], "x\ny\nz\n", " x\ny\nz\n") := by
    decide +kernel
  obtain ⟨d, read, rest⟩ := Outcome.bind_eq_ok_iff.1 (Outcome.eq_ok_of_toOption run)
  obtain ⟨d', simplified, rest⟩ := Outcome.bind_eq_ok_iff.1 rest
  obtain ⟨pairs, found, rest⟩ := Outcome.bind_eq_ok_iff.1 rest
  obtain ⟨before, printed, rest⟩ := Outcome.bind_eq_ok_iff.1 rest
  obtain ⟨before', printed', rest⟩ := Outcome.bind_eq_ok_iff.1 rest
  simp only [Outcome.pure_eq_ok_iff, Prod.mk.injEq] at rest
  obtain ⟨rfl, rfl, rfl⟩ := rest
  have hd : d.Regular := (Diff.Handled.read read).regular
  obtain ⟨-, sound, -⟩ := readable_ofLines read
  obtain ⟨pairs, e, f, found', applied, hd', sound', -, after, -, -, -, -, final⟩ :=
    moved_merged hd sound
  obtain rfl := Except.ok.inj (simplified.symm.trans applied)
  exact ⟨d, d', _, read, hd, sound, found, rfl, simplified, hd', sound', printed, printed', after,
    final⟩

end Simplification

end Variation
