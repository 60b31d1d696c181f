import Variation.Proofs.Chains
import Variation.Proofs.Handled
import Variation.Proofs.Trimmed

/-!
# Collapsing one chain

A chain that is collapsed gives way to one new condition: it hangs where the first node of the chain
hung, and what hung below the last one hangs below it. Nothing else moves.
-/

namespace Variation

namespace Diff

variable {d : Diff} {n c p taker giver : Handle} {t u : Time}

theorem kind_payload : (d.payload n).kind = (d.look n).kind := rfl

theorem formula_payload : (d.payload n).formula = (d.look n).formula := rfl

/-! ## Handing children over -/

/-- Hands the children of a node at a time over to another node. -/
def handedAt (d : Diff) (taker giver : Handle) (t : Time) : Diff :=
  (d.unlinkAll giver t).adopt taker (d.below t giver) t

/-- Hands the children of a node at both times over to another node. -/
def handed (d : Diff) (taker giver : Handle) : Diff :=
  (d.handedAt taker giver .before).handedAt taker giver .after

@[simp] theorem size_handedAt : (d.handedAt taker giver t).size = d.size := by simp [handedAt]

@[simp] theorem size_handed : (d.handed taker giver).size = d.size := by simp [handed]

@[simp] theorem payload_handedAt : (d.handedAt taker giver t).payload n = d.payload n := by
  simp [handedAt]

@[simp] theorem payload_handed : (d.handed taker giver).payload n = d.payload n := by
  simp [handed]

theorem above_handedAt (hd : d.Symmetric) : (d.handedAt taker giver t).above u n =
    if u = t ∧ n ∈ d.below t giver then some taker else d.above u n := by
  rw [handedAt, above_adopt fun c hc => by simpa using hd.child_lt hc, above_unlinkAll]
  split <;> rfl

theorem below_handedAt (hk : taker < d.size) (h : u ≠ t ∨ (n ≠ taker ∧ n ≠ giver)) :
    (d.handedAt taker giver t).below u n = d.below u n := by
  rw [handedAt, below_adopt (by simpa using hk), below_unlinkAll]
  obtain other | ⟨other, other'⟩ := h
  · rw [if_neg fun h => other h.1, if_neg fun h => other h.1]
  · rw [if_neg fun h => other h.2, if_neg fun h => other' h.2]

theorem below_handed (hk : taker < d.size) (ht : n ≠ taker) (hg : n ≠ giver) :
    (d.handed taker giver).below t n = d.below t n := by
  rw [handed, below_handedAt (by simpa using hk) (.inr ⟨ht, hg⟩), below_handedAt hk (.inr ⟨ht, hg⟩)]

end Diff

namespace Edit

open Diff

variable {d : Diff} {taker giver : Handle} {t : Time}

/-- Moves all children of one node behind those of another one at a time. -/
def handAt (taker giver : Handle) (t : Time) : Edit Unit := do
  attachAll taker (← detachChildren giver t) t

theorem run_handAt (hd : d.Regular) (hk : taker < d.size) (hg : giver < d.size) :
    (handAt taker giver t).run d = .ok () (d.handedAt taker giver t) := by
  rw [handAt, EStateM.run_bind, run_detachChildren hd.toSymmetric hg]
  refine run_attachAll (by simpa using hk) (hd.once t giver) (fun c hc => ?_) fun c hc => ?_
  · rw [lives_unlinkAll]
    exact hd.lives t c giver (hd.above_of_mem hc)
  · rw [above_unlinkAll, if_pos ⟨rfl, hc⟩]

theorem keeps_handAt : Keeps Regular (handAt taker giver t) :=
  keeps_detachChildren.bind fun _ => keeps_attachAll

theorem above_handed {n : Handle} (hd : d.Regular) (hk : taker < d.size) (hg : giver < d.size) :
    (d.handed taker giver).above t n = if n ∈ d.below t giver then some taker else d.above t n := by
  have run : (handAt taker giver .before).run d = _ := run_handAt hd hk hg
  have half : (d.handedAt taker giver .before).Regular := keeps_handAt.ok hd run
  rw [handed, above_handedAt half.toSymmetric, above_handedAt hd.toSymmetric,
    below_handedAt hk (.inl (by decide))]
  cases t <;> simp

theorem run_stealChildren (hd : d.Regular) (hk : taker < d.size) (hg : giver < d.size) :
    (stealChildren taker giver).run d = .ok () (d.handed taker giver) := by
  have run : (handAt taker giver .before).run d = _ := run_handAt hd hk hg
  have run' : (handAt taker giver .after).run (d.handedAt taker giver .before) = _ :=
    run_handAt (keeps_handAt.ok hd run) (by simpa using hk) (by simpa using hg)
  change EStateM.run (ask (·.node taker) >>= fun _ => handAt taker giver .before >>= fun _ =>
    handAt taker giver .after >>= fun _ => pure ()) d = _
  rw [EStateM.run_bind, run_ask_node (getElem?_look hk)]
  simp only [EStateM.run_bind, run, run']
  rfl

end Edit

/-! ## Putting a node in a place -/

namespace Diff

variable {d : Diff} {n m : Handle} {ps : Time → Handle} {is : Time → Nat} {t : Time}

/-- Links a node at a place of each time. -/
def placed (d : Diff) (ps : Time → Handle) (is : Time → Nat) (n : Handle) : Diff :=
  (d.link (ps .before) n (is .before) .before).link (ps .after) n (is .after) .after

@[simp] theorem size_placed : (d.placed ps is n).size = d.size := by simp [placed]

@[simp] theorem payload_placed : (d.placed ps is n).payload m = d.payload m := by simp [placed]

theorem above_placed (hn : n < d.size) :
    (d.placed ps is n).above t m = if m = n then some (ps t) else d.above t m := by
  rw [placed, above_link (by simpa using hn), above_link hn]
  cases t <;> by_cases hm : m = n <;> simp [hm]

end Diff

namespace Simplification

open Diff Edit

variable {d : Diff} {n p : Handle} {ps : Time → Handle} {is : Time → Nat} {t : Time}

/-- An unchanged node without parents can be put in a place of each time. -/
theorem run_place (hn : n < d.size) (change : (d.look n).change = .unchanged)
    (free : ∀ t, d.above t n = none) (hps : ∀ t, ps t < d.size)
    (fits : ∀ t, is t ≤ (d.below t (ps t)).length) :
    (place n ⟨some (ps .before, is .before), some (ps .after, is .after)⟩).run d =
      .ok () (d.placed ps is n) := by
  have there := (unchanged_iff hn).1 change
  have before : attachable (ps .before) n (is .before) .before d = .ok () :=
    attachable_eq_ok_iff.2 ⟨hps _, there _, free _, fits _⟩
  have after : attachable (ps .after) n (is .after) .after
      (d.link (ps .before) n (is .before) .before) = .ok () := by
    refine attachable_eq_ok_iff.2 ⟨by simpa using hps _, by simpa using there _, ?_, ?_⟩
    · rw [above_link hn, if_neg (by simp), free]
    · rw [below_link (hps _), if_neg (by simp)]
      exact fits _
  rw [place, EStateM.run_bind, run_ask_node (getElem?_look hn)]
  dsimp only
  rw [change]
  change EStateM.run (attach (ps .before) n (is .before) .before >>= fun _ =>
    attach (ps .after) n (is .after) .after >>= fun _ => pure ()) d = _
  simp only [EStateM.run_bind, run_attach before, run_attach after]
  rfl

theorem run_slot (hd : d.Regular) (hp : d.above t n = some p) :
    ∃ i, (slot? n t).run d = .ok (some (p, i)) d ∧ (d.below t p).idxOf? n = some i := by
  obtain ⟨i, place⟩ := Option.isSome_iff_exists.1 (List.isSome_idxOf?.2 (hd.mem_of_above hp))
  refine ⟨i, ?_, place⟩
  have asked : d.indexOfChild? p n t = .ok (some i) := by
    rw [indexOfChild?, node_look (hd.parent_lt hp), Outcome.ok_bind, ← below_look (hd.parent_lt hp),
      place]
    rfl
  rw [slot?, EStateM.run_bind, run_ask_parent (lt_size_of_above hp), hp]
  dsimp only
  rw [EStateM.run_bind, run_ask_ok asked]
  rfl

end Simplification

/-! ## The conditions along a chain -/

namespace Diff

/-- The conditions along a chain that are not skipped are true. -/
def Claims (d : Diff) (v : String → Bool) : Bool → List Handle → Prop
  | _, [] => True
  | true, n :: ns => Claims d v ((d.look n).kind != .ifBranch) ns
  | false, n :: ns => d.Taken .after v n ∧ Claims d v (d.continues n) ns

variable {d : Diff} {n : Handle} {ns : List Handle} {t : Time}

theorem Ascends.descends (hd : d.Regular) (h : d.Ascends t n) : d.Descends t n := by
  induction h with
  | root => exact .root
  | step hp _ ih => exact ih.child (hd.mem_of_above hp)

variable (hd : d.Regular) (sound : d.Sound)

include hd sound

theorem Reaches.descends (h : d.Reaches n) (there : (d.look n).existsAt t = true) :
    d.Descends t n :=
  (((sound_iff_fits hd).1 sound n h).2 t there).descends hd

theorem Plain.descends (h : d.Plain n) (t : Time) : d.Descends t n :=
  h.reaches.descends hd sound (by rw [Node.existsAt, h.change]; rfl)

/-- The mapping of a branch is true exactly if the branch is taken. -/
theorem exists_mapping (h : d.Descends t n) (branch : d.annotates n = true)
    (unmarked : (d.look n).kind ≠ .endMark) :
    ∃ f, d.mapping n t = .ok f ∧ ∀ v, f.holds v = true ↔ d.Taken t v n := by
  obtain ⟨hn, law⟩ := h.law sound
  by_cases opens : (d.look n).kind = .ifBranch
  · obtain ⟨f, hf⟩ := Option.isSome_iff_exists.1 (law.formula.trans (by rw [opens]; rfl))
    have body : d.continues n = false := by rw [continues, opens]; rfl
    exact ⟨f, mapping_of_ifBranch hn opens hf, fun v => by
      rw [taken_iff_own body, own_of_formula hf]⟩
  · have continued : d.continues n = true := by
      revert branch opens unmarked
      rw [annotates, continues]
      cases (d.look n).kind <;> simp [Kind.annotates, Kind.isContinuation]
    obtain ⟨ms, way, -⟩ := h.exists_way hd.root sound
    obtain ⟨fs, o, ks, run, -, -, -, -, means⟩ :=
      branchClauses_spec hd.root sound way h continued
    refine ⟨Formula.conj fs, ?_, fun v => by rw [Formula.holds_conj, (means v).1]⟩
    have clauses : d.mappingClauses n t = .ok fs := by
      rw [mappingClauses, mappingClausesWithin, node_look hn, Outcome.ok_bind]
      revert continued opens
      rw [continues]
      cases (d.look n).kind <;> simp [Kind.isContinuation, run]
    rw [mapping, clauses]
    rfl

end Diff

namespace Simplification

open Diff Edit

variable {d : Diff} {n first last : Handle} {ns : List Handle}

theorem chainConditions_spec (hd : d.Regular) (sound : d.Sound)
    (unmarked : ∀ n, d.Reaches n → (d.look n).kind ≠ .endMark) (plain : ∀ n ∈ ns, d.Plain n)
    (skip : Bool) : ∃ fs, chainConditions d skip ns = .ok fs ∧
      ∀ v, fs.all (·.holds v) = true ↔ d.Claims v skip ns := by
  induction ns generalizing skip with
  | nil => exact ⟨[], by cases skip <;> rfl, fun v => by simp [Claims]⟩
  | cons n ns ih =>
    obtain ⟨here, plain⟩ := List.forall_mem_cons.1 plain
    have descends := here.descends hd sound .after
    obtain ⟨hn, -⟩ := descends.law sound
    cases skip with
    | true =>
      obtain ⟨fs, run, means⟩ := ih plain ((d.look n).kind != .ifBranch)
      exact ⟨fs, by rw [chainConditions, node_look hn, Outcome.ok_bind, run], means⟩
    | false =>
      obtain ⟨f, mapped, taken⟩ :=
        exists_mapping hd sound descends here.annotates (unmarked n here.reaches)
      obtain ⟨fs, run, means⟩ := ih plain (d.continues n)
      refine ⟨f :: fs, ?_, fun v => ?_⟩
      · have present : d.present n .after = .ok (d.look n) := by
          rw [Diff.present, node_look hn, Outcome.ok_bind, Node.existsAt, here.change]
          rfl
        rw [chainConditions, present, Outcome.ok_bind, mapped, Outcome.ok_bind]
        rw [continues] at run
        rw [run]
        rfl
      · rw [List.all_cons, Bool.and_eq_true, taken, means]
        rfl

end Simplification

/-! ## One chain -/

namespace Diff

/-- A diff that has one node more, without edges. -/
structure Gains (d d' : Diff) (y : Node) : Prop where
  regular : d'.Regular
  size : d'.size = d.size + 1
  above : ∀ t n, d'.above t n = d.above t n
  below : ∀ t n, d'.below t n = d.below t n
  payload : ∀ n, n ≠ d.size → d'.payload n = d.payload n
  new : d'.payload d.size = y.detached

/-- A node without edges is added and then gets closing lines. -/
theorem gains_append {d : Diff} {x : Node} {closing : Sides (Option ClosingLine)} (hd : d.Regular)
    (hc : ∀ t, x.children.get t = []) (hp : ∀ t, x.parent.get t = none) :
    d.Gains ((d.append x).update d.size fun y => { y with closing }) { x with closing } where
  regular := (hd.append hc hp).update (fun _ => rfl) (fun _ => rfl) (fun _ => rfl)
    fun _ _ _ _ there => there
  size := by simp
  above t n := by
    have same (y : Node) : ({ y with closing } : Node).parent.get t = y.parent.get t := rfl
    exact (above_update_of same).trans (above_append hp)
  below t n := by
    have same (y : Node) : ({ y with closing } : Node).children.get t = y.children.get t := rfl
    exact (below_update_of same).trans (below_append hc)
  payload n other := by
    rw [payload_update (by simp), if_neg fun e => other e.symm, payload_append, if_neg other]
  new := by rw [payload_update (by simp), if_pos rfl, look_append, if_pos rfl]

/-- A diff in which a chain gave way to one condition, the last node of the store. -/
structure Collapses (d d' : Diff) (first last : Handle) (ns : List Handle) : Prop where
  regular : d'.Regular
  size : d'.size = d.size + 1
  payload : ∀ n, n ≠ d.size → d'.payload n = d.payload n
  kind : (d'.look d.size).kind = .ifBranch
  change : (d'.look d.size).change = .unchanged
  formula : (d'.look d.size).formula.isSome = true
  own : ∀ v, d'.own v d.size = true ↔ d.Claims v false ns
  above : ∀ t n, d'.above t n =
    if n = d.size then d.above t first
    else if n = first then none
    else if d.above t n = some last then some d.size
    else d.above t n

section Sound

variable {d : Diff} {n first last p : Handle} {ns : List Handle} {t : Time}
variable (hd : d.Regular) (sound : d.Sound)

include hd sound

theorem Plain.exists_above (h : d.Plain n) (t : Time) : ∃ p, d.above t n = some p := by
  have law := ((sound_iff_fits hd).1 sound n h.reaches).1
  have kind : (d.look n).kind ≠ .root := fun kind => by
    have branch := h.annotates
    rw [Diff.annotates, kind] at branch
    cases branch
  refine Option.isSome_iff_exists.1 ((law.arity kind t).trans ?_)
  rw [Node.existsAt, h.change]
  rfl

/-- A chain does not hang below itself. -/
theorem Chain.parent_ne (h : d.Chain first last ns) (hp : d.above t first = some p) :
    p ≠ last := by
  rintro rfl
  exact ((h.plain _ h.last_mem).descends hd sound t).not_above hd.root sound (h.above_parent hp)

end Sound

end Diff

namespace Simplification

open Diff Edit

variable {d : Diff} {first last : Handle} {ns : List Handle}

/-- A diff with one node more that took all children of a chain, which has no place any more. -/
structure Takes (d d' d'' : Diff) (first last : Handle) : Prop where
  regular : d''.Regular
  size : d''.size = d'.size
  payload : ∀ n, d''.payload n = d'.payload n
  above : ∀ t n, d''.above t n =
    if n = first then none else if d.above t n = some last then some d.size else d.above t n
  below : ∀ t p, d.above t first = some p → d''.below t p = (d.below t p).filter (· != first)

theorem run_take {d' : Diff} {y : Node} (hd : d.Regular) (sound : d.Sound)
    (chain : d.Chain first last ns) (gains : d.Gains d' y) :
    ∃ d'', (do Edit.drop first; Edit.stealChildren d.size last : Edit Unit).run d' = .ok () d'' ∧
      Takes d d' d'' first last := by
  choose ps hps using (chain.plain first chain.first_mem).exists_above hd sound
  have hd' := gains.regular
  have above (t : Time) : d'.above t first = some (ps t) := (gains.above t first).trans (hps t)
  have lastInStore : last < d'.size := by
    rw [gains.size]
    exact Nat.lt_succ_of_lt ((chain.plain last chain.last_mem).reaches.lt_size hd)
  have newInStore : d.size < d'.size := by
    rw [gains.size]
    exact Nat.lt_succ_self _
  have dropped : (Edit.drop first).run d' = .ok () (d'.pruned ps first) := run_drop hd' above
  have vacated := regular_pruned hd' above
  have size : (d'.pruned ps first).size = d'.size := by simp [pruned]
  have above' (t : Time) (n : Handle) :
      (d'.pruned ps first).above t n = if n = first then none else d.above t n := by
    rw [above_pruned, gains.above]
  have taker : d.size < (d'.pruned ps first).size := by rwa [size]
  have giver : last < (d'.pruned ps first).size := by rwa [size]
  have stolen : (stealChildren d.size last).run (d'.pruned ps first) =
      .ok () ((d'.pruned ps first).handed d.size last) := run_stealChildren vacated taker giver
  refine ⟨(d'.pruned ps first).handed d.size last, ?_, ?_, ?_, fun n => ?_, fun t n => ?_,
    fun t p hp => ?_⟩
  · rw [EStateM.run_bind, dropped]
    exact stolen
  · exact keeps_stealChildren.ok vacated stolen
  · simp [size]
  · simp [pruned]
  · rw [above_handed vacated taker giver, above']
    simp only [vacated.edge, above']
    by_cases hn : n = first <;> simp [hn]
  · rw [hps] at hp
    obtain rfl := Option.some.inj hp
    have inStore : ps t < d.size := hd.parent_lt (hps t)
    rw [below_handed taker inStore.ne (chain.parent_ne hd sound (hps t)),
      below_pruned fun t => hd'.parent_lt (above t), if_pos rfl, gains.below]

theorem Takes.new_lt {d' d'' : Diff} {y : Node} (h : Takes d d' d'' first last)
    (gains : d.Gains d' y) : d.size < d''.size := by
  rw [h.size, gains.size]
  exact Nat.lt_succ_self _

/-- Once the new condition has the places of the chain, the chain gave way to it. -/
theorem collapses_placed {d' d'' : Diff} {y : Node} {f : Formula} {ps : Time → Handle}
    {is : Time → Nat} (hps : ∀ t, d.above t first = some (ps t)) (gains : d.Gains d' y)
    (takes : Takes d d' d'' first last) (regular : (d''.placed ps is d.size).Regular)
    (kind : y.kind = .ifBranch) (change : y.change = .unchanged) (formula : y.formula = some f)
    (claims : ∀ v, f.holds v = true ↔ d.Claims v false ns) :
    d.Collapses (d''.placed ps is d.size) first last ns := by
  have told : (d''.placed ps is d.size).payload d.size = y.detached :=
    payload_placed.trans ((takes.payload d.size).trans gains.new)
  have condition : ((d''.placed ps is d.size).look d.size).formula = some f := by
    rw [← formula_payload, told]
    exact formula
  refine ⟨regular, by rw [size_placed, takes.size, gains.size], fun n other => ?_, ?_, ?_,
    Option.isSome_iff_exists.2 ⟨f, condition⟩, fun v => by rw [own_of_formula condition, claims],
    fun t n => ?_⟩
  · rw [payload_placed, takes.payload, gains.payload n other]
  · rw [← kind_payload, told]
    exact kind
  · rw [← change_payload, told]
    exact change
  · rw [above_placed (takes.new_lt gains), takes.above, hps]

/-- A new condition takes the place of a chain. -/
theorem run_replace {d' : Diff} {y : Node} {f : Formula} (hd : d.Regular) (sound : d.Sound)
    (chain : d.Chain first last ns) (gains : d.Gains d' y) (kind : y.kind = .ifBranch)
    (change : y.change = .unchanged) (formula : y.formula = some f)
    (claims : ∀ v, f.holds v = true ↔ d.Claims v false ns) :
    ∃ d'', (do
        let slots : Sides _ := ⟨← slot? first .before, ← slot? first .after⟩
        Edit.drop first
        Edit.stealChildren d.size last
        place d.size slots : Edit Unit).run d' = .ok () d'' ∧ d.Collapses d'' first last ns := by
  choose ps hps using (chain.plain first chain.first_mem).exists_above hd sound
  have above (t : Time) : d'.above t first = some (ps t) := (gains.above t first).trans (hps t)
  choose is slots places using fun t => run_slot gains.regular (above t)
  obtain ⟨d₁, taken, takes⟩ := run_take hd sound chain gains
  have new : (d₁.look d.size).change = .unchanged := by
    rw [← change_payload, takes.payload, gains.new]
    exact change
  have free (t : Time) : d₁.above t d.size = none := by
    have none : d.above t d.size = none := above_eq_none (Nat.lt_irrefl _)
    simp [takes.above, none]
  have fits (t : Time) : is t ≤ (d₁.below t (ps t)).length := by
    have place := places t
    rw [gains.below] at place
    rw [takes.below t (ps t) (hps t)]
    exact (insertIdx_filter (n := d.size) (hd.once t (ps t)) place).1
  have inStore (t : Time) : ps t < d₁.size := by
    rw [takes.size]
    exact gains.regular.parent_lt (above t)
  have stands := run_place (takes.new_lt gains) new free inStore fits
  refine ⟨d₁.placed ps is d.size, ?_, collapses_placed hps gains takes
    ((keeps_place durable_regular).ok takes.regular stands) kind change formula claims⟩
  rw [EStateM.run_bind, slots .before]
  dsimp only
  rw [EStateM.run_bind, slots .after]
  obtain ⟨_, d₂, dropped, stolen⟩ := run_bind_eq_ok taken
  dsimp only
  rw [EStateM.run_bind, dropped]
  dsimp only
  rw [EStateM.run_bind, stolen]
  exact stands

theorem collapseChain_spec (hd : d.Regular) (sound : d.Sound)
    (unmarked : ∀ n, d.Reaches n → (d.look n).kind ≠ .endMark) (chain : d.Chain first last ns) :
    ∃ d', (collapseChain ns).run d = .ok () d' ∧ d.Collapses d' first last ns := by
  have inStore := (chain.plain first chain.first_mem).reaches.lt_size hd
  obtain ⟨fs, conditions, claims⟩ := chainConditions_spec hd sound unmarked chain.plain false
  let x := d.look first
  let f := Formula.conj fs.reverse
  let y := Reading.Outline.newNode .unchanged .ifBranch x.start x.stop (some f)
    (.single ("#if " ++ f.text))
  have added : (addNode .unchanged .ifBranch x.start x.stop (some f)
      (.single ("#if " ++ f.text))).run d = .ok d.size (d.append y) :=
    run_of_result (Reading.Outline.result_addNode (by decide) rfl d)
  have closed : (Edit.update d.size fun z => { z with closing := x.closing }).run (d.append y) =
      .ok () ((d.append y).update d.size fun z => { z with closing := x.closing }) :=
    run_update (by rw [getElem?_append, if_pos rfl]) _
  have gains : d.Gains ((d.append y).update d.size fun z => { z with closing := x.closing })
      { y with closing := x.closing } :=
    gains_append hd (fun t => by cases t <;> rfl) fun t => by cases t <;> rfl
  have means (v : String → Bool) : f.holds v = true ↔ d.Claims v false ns := by
    rw [Formula.holds_conj, List.all_reverse, claims]
  obtain ⟨d', replaced, collapses⟩ := run_replace hd sound chain gains rfl rfl rfl means
  refine ⟨d', ?_, collapses⟩
  rw [collapseChain, chain.head?, chain.getLast?]
  dsimp only
  rw [EStateM.run_bind, run_ask_ok conditions]
  dsimp only
  rw [EStateM.run_bind, run_ask_node (getElem?_look inStore)]
  dsimp only
  rw [EStateM.run_bind, added]
  dsimp only
  rw [EStateM.run_bind, closed]
  exact replaced

end Simplification

end Variation
