import Variation.Proofs.Printable
import Variation.Proofs.Refined

/-!
# Splitting a node

An unchanged node is split into a removed one, which keeps the handle, and an added copy, which stands
in its place and above its children after the edit. Seen as a whole, the tree before the edit stays as
it is, and in the tree after the edit the copy stands in for the node. So nothing shows in the source
at either time. A join puts the node back in for the copy, and as the two parts share nothing, every
place of the store is afterwards what it was before the split.
-/

namespace Variation

open Edit

/-- The node as an added one, which nothing closed before the edit. -/
def Node.renewed (x : Node) : Node :=
  { x with change := .added, closing := x.closing.set .before none }

/-- The node as a removed one, which nothing closes after the edit. -/
def Node.withdrawn (x : Node) : Node :=
  { x with change := .removed, closing := x.closing.set .after none }

/-- A node that was made two and is made one again is as it was. -/
theorem Node.shared_withdrawn {x : Node} (whole : x.change = .unchanged) :
    x.withdrawn.shared x.closing.after = x := by
  cases x
  simp_all [withdrawn, shared, Sides.set]

namespace Diff

variable {d : Diff} {n m p c : Handle} {i : Nat} {t : Time}

/-! ## The parted diff -/

/-- An unchanged node with its place below its parent after the edit. -/
structure Parts (d : Diff) (n p : Handle) (i : Nat) : Prop extends Regular d where
  whole : (d.look n).change = .unchanged
  parent : d.above .after n = some p
  place : (d.below .after p).idxOf? n = some i
  loop : p ≠ n

/-- The diff with an added copy of a node. -/
def doubled (d : Diff) (n : Handle) : Diff :=
  (d.append (d.look n).detached).update d.size Node.renewed

/-- The diff with the copy above the children of the node after the edit. -/
def bequeathed (d : Diff) (n : Handle) : Diff :=
  ((d.doubled n).unlinkAll n .after).adopt d.size (d.below .after n) .after

/-- The diff with the node taken out after the edit. -/
def severed (d : Diff) (n p : Handle) : Diff :=
  ((d.bequeathed n).unlink p n .after).update n Node.withdrawn

/-- The diff with the copy in place of the node after the edit. -/
def parted (d : Diff) (n p : Handle) (i : Nat) : Diff := (d.severed n p).link p d.size i .after

theorem size_doubled : (d.doubled n).size = d.size + 1 := by
  rw [doubled, size_update, size_append]

theorem below_doubled : (d.doubled n).below t m = d.below t m := by
  rw [doubled, below_update_of (f := Node.renewed) fun _ => rfl,
    below_append (d.look n).children_detached]

theorem above_doubled : (d.doubled n).above t m = d.above t m := by
  rw [doubled, above_update_of (f := Node.renewed) fun _ => rfl,
    above_append (d.look n).parent_detached]

theorem payload_doubled : (d.doubled n).payload m =
    if m = d.size then (d.payload n).renewed else d.payload m := by
  have size : d.size < (d.append (d.look n).detached).size := by
    rw [size_append]
    exact Nat.lt_succ_self _
  rw [doubled, payload_update size, payload_append, look_append]
  by_cases here : m = d.size
  · subst here
    simp only [if_true]
    rfl
  · simp only [here, Ne.symm here, if_false]

theorem lives_doubled_of_lt (hm : m < d.size) : (d.doubled n).lives t m = d.lives t m := by
  have size : m < (d.doubled n).size := by
    rw [size_doubled]
    exact Nat.lt_succ_of_lt hm
  rw [lives_payload size, payload_doubled, if_neg (Nat.ne_of_lt hm), lives_payload hm]

theorem size_bequeathed : (d.bequeathed n).size = d.size + 1 := by
  rw [bequeathed, size_adopt, size_unlinkAll, size_doubled]

theorem size_severed : (d.severed n p).size = d.size + 1 := by
  rw [severed, size_update, size_unlink, size_bequeathed]

theorem size_parted : (d.parted n p i).size = d.size + 1 := by
  rw [parted, size_link, size_severed]

theorem lt_size_bequeathed (hm : m < d.size) : m < (d.bequeathed n).size := by
  rw [size_bequeathed]
  exact Nat.lt_succ_of_lt hm

theorem new_lt_size_unlinkAll : d.size < ((d.doubled n).unlinkAll n .after).size := by
  rw [size_unlinkAll, size_doubled]
  exact Nat.lt_succ_self _

theorem below_bequeathed (hn : n < d.size) : (d.bequeathed n).below t m =
    if t = .after ∧ m = n then []
    else if t = .after ∧ m = d.size then d.below .after n
    else d.below t m := by
  rw [bequeathed, below_adopt new_lt_size_unlinkAll]
  simp only [below_unlinkAll, below_doubled]
  by_cases new : t = .after ∧ m = d.size
  · obtain ⟨rfl, rfl⟩ := new
    simp [Nat.ne_of_gt hn, below_eq_nil]
  · simp only [new, if_false]

theorem payload_bequeathed : (d.bequeathed n).payload m =
    if m = d.size then (d.payload n).renewed else d.payload m := by
  rw [bequeathed, payload_adopt, payload_unlinkAll, payload_doubled]

namespace Parts

theorem inStore (h : d.Parts n p i) : n < d.size := lt_size_of_above h.parent

theorem parent_lt_size (h : d.Parts n p i) : p < d.size := h.parent_lt h.parent

theorem self_not_mem (h : d.Parts n p i) : n ∉ d.below .after n := fun hn => by
  have := h.above_of_mem hn
  rw [h.parent] at this
  exact h.loop (Option.some.inj this)

/-- The copy can be given the children of the node once the node has let go of them. -/
theorem adopts (h : d.Parts n p i) (hc : c ∈ d.below .after n) :
    c < ((d.doubled n).unlinkAll n .after).size ∧
      ((d.doubled n).unlinkAll n .after).lives .after c = true ∧
      ((d.doubled n).unlinkAll n .after).above .after c = none := by
  have up := h.above_of_mem hc
  have inStore := lt_size_of_above up
  refine ⟨Nat.lt_trans inStore new_lt_size_unlinkAll, ?_, ?_⟩
  · rw [lives_unlinkAll, lives_doubled_of_lt inStore]
    exact h.lives .after c n up
  · rw [above_unlinkAll, below_doubled, if_pos ⟨rfl, hc⟩]

end Parts

theorem above_bequeathed (h : d.Parts n p i) : (d.bequeathed n).above t m =
    if t = .after ∧ m ∈ d.below .after n then some d.size else d.above t m := by
  rw [bequeathed, above_adopt fun c hc => (h.adopts hc).1, above_unlinkAll, below_doubled,
    above_doubled]
  split <;> rfl

theorem payload_severed (h : d.Parts n p i) : (d.severed n p).payload m =
    if m = d.size then (d.payload n).renewed
    else if m = n then (d.payload n).withdrawn else d.payload m := by
  have size : n < ((d.bequeathed n).unlink p n .after).size := by
    rw [size_unlink]
    exact lt_size_bequeathed h.inStore
  have detached (x : Node) : x.withdrawn.detached = x.detached.withdrawn := rfl
  rw [severed, payload_update size, detached, ← payload, payload_unlink, payload_bequeathed]
  by_cases here : m = n
  · subst here
    simp only [Nat.ne_of_lt h.inStore, if_true, if_false]
  · rw [if_neg (Ne.symm here), if_neg here]

theorem below_severed (h : d.Parts n p i) : (d.severed n p).below t m =
    if t = .after ∧ m = p then (d.below .after p).filter (· != n)
    else (d.bequeathed n).below t m := by
  have kept : (d.bequeathed n).below .after p = d.below .after p := by
    rw [below_bequeathed h.inStore, if_neg fun e => h.loop e.2,
      if_neg fun e => Nat.ne_of_lt h.parent_lt_size e.2]
  rw [severed, below_update_of (f := Node.withdrawn) fun _ => rfl,
    below_unlink (lt_size_bequeathed h.parent_lt_size), kept]

theorem above_severed : (d.severed n p).above t m =
    if t = .after ∧ m = n then none else (d.bequeathed n).above t m := by
  rw [severed, above_update_of (f := Node.withdrawn) fun _ => rfl, above_unlink]

theorem payload_parted (h : d.Parts n p i) : (d.parted n p i).payload m =
    if m = d.size then (d.payload n).renewed
    else if m = n then (d.payload n).withdrawn else d.payload m := by
  rw [parted, payload_link, payload_severed h]

theorem below_parted (h : d.Parts n p i) : (d.parted n p i).below t m =
    if t = .after ∧ m = p then (d.below .after p).map (standIn n d.size)
    else (d.bequeathed n).below t m := by
  have size : p < (d.severed n p).size := by
    rw [size_severed]
    exact Nat.lt_succ_of_lt h.parent_lt_size
  have taken : (d.severed n p).below .after p = (d.below .after p).filter (· != n) := by
    rw [below_severed h, if_pos ⟨rfl, rfl⟩]
  rw [parted, below_link size, taken, (insertIdx_filter (h.once .after p) h.place).2]
  by_cases here : t = .after ∧ m = p
  · rw [if_pos here, if_pos here]
  · rw [if_neg here, if_neg here, below_severed h, if_neg here]

theorem above_parted (h : d.Parts n p i) : (d.parted n p i).above t m =
    if t = .after ∧ m = d.size then some p
    else if t = .after ∧ m = n then none
    else if t = .after ∧ m ∈ d.below .after n then some d.size
    else d.above t m := by
  have size : d.size < (d.severed n p).size := by
    rw [size_severed]
    exact Nat.lt_succ_self _
  rw [parted, above_link size, above_severed, above_bequeathed h]

namespace Parts

theorem below_before (h : d.Parts n p i) :
    (d.parted n p i).below .before m = d.below .before m := by
  rw [below_parted h, below_bequeathed h.inStore]
  simp

theorem above_before (h : d.Parts n p i) :
    (d.parted n p i).above .before m = d.above .before m := by
  rw [above_parted h]
  simp

/-- After the edit the copy has the place of the node. -/
theorem replaces (h : d.Parts n p i) : d.Replaces (d.parted n p i) .after n d.size p where
  parent := h.parent
  loop := h.loop
  above_new := by rw [above_parted h, if_pos ⟨rfl, rfl⟩]
  above_rest m hm self := by simp only [above_parted h, true_and, if_neg hm, if_neg self]
  below_new := by
    rw [below_parted h, if_neg fun e => Nat.ne_of_gt h.parent_lt_size e.2, below_bequeathed h.inStore]
    simp [Nat.ne_of_gt h.inStore]
  below_rest m hm self := by
    simp only [below_parted h, below_bequeathed h.inStore, true_and, if_neg hm, if_neg self]

end Parts

end Diff

namespace Refinement

open Diff

variable {d : Diff} {n p : Handle} {i : Nat}

theorem run_copyNode (hn : n < d.size) :
    (copyNode n).run d = .ok d.size (d.append (d.look n).detached) := by
  simp only [copyNode, EStateM.run_bind, run_ask_node (getElem?_look hn), Edit.append,
    EStateM.run_get, EStateM.run_modify, EStateM.run_pure]

/-- A split makes the parted diff and then only tests both parts. -/
theorem run_split_eq (h : d.Parts n p i) : (split n).run d =
    (do
      Edit.ask (·.check n)
      Edit.ask (·.check d.size)
      return d.size : Edit Handle).run (d.parted n p i) := by
  have size : d.size < (d.append (d.look n).detached).size := by
    rw [size_append]
    exact Nat.lt_succ_self _
  have renewed : (Edit.update d.size fun x =>
      { x with change := .added, closing := x.closing.set .before none }).run
      (d.append (d.look n).detached) = .ok () (d.doubled n) :=
    run_update (getElem?_look size) Node.renewed
  have symmetric : (d.doubled n).Symmetric := by
    refine h.toSymmetric.of_same (fun _ _ => below_doubled) (fun _ _ => above_doubled) ?_
    intro t m q up there
    rw [lives_doubled_of_lt (lt_size_of_above up)]
    exact there
  have inStore : n < (d.doubled n).size := by
    rw [size_doubled]
    exact Nat.lt_succ_of_lt h.inStore
  have cleared := run_detachChildren (t := .after) symmetric inStore
  rw [below_doubled] at cleared
  have adopted : (attachAll d.size (d.below .after n) .after).run
      ((d.doubled n).unlinkAll n .after) = .ok () (d.bequeathed n) :=
    run_attachAll new_lt_size_unlinkAll (h.once .after n) (fun c hc => (h.adopts hc).2.1)
      fun c hc => (h.adopts hc).2.2
  have parent : (d.bequeathed n).above .after n = some p := by
    rw [above_bequeathed h, if_neg fun e => h.self_not_mem e.2, h.parent]
  have dropped : (dropAt n .after).run (d.bequeathed n) =
      .ok () ((d.bequeathed n).unlink p n .after) := by
    simp only [dropAt, EStateM.run_bind, run_ask_parent (lt_size_of_above parent), parent,
      run_detach (lt_size_bequeathed h.parent_lt_size) parent]
  have size₂ : n < ((d.bequeathed n).unlink p n .after).size := by
    rw [size_unlink]
    exact lt_size_of_above parent
  have withdrawn : (Edit.update n fun x =>
      { x with change := .removed, closing := x.closing.set .after none }).run
      ((d.bequeathed n).unlink p n .after) = .ok () (d.severed n p) :=
    run_update (getElem?_look size₂) Node.withdrawn
  have linked : (attach p d.size i .after).run (d.severed n p) = .ok () (d.parted n p i) := by
    have inSize : d.size < (d.severed n p).size := by
      rw [size_severed]
      exact Nat.lt_succ_self _
    refine run_attach (attachable_eq_ok_iff.2 ⟨Nat.lt_trans h.parent_lt_size inSize, ?_, ?_, ?_⟩)
    · rw [lives_payload inSize, payload_severed h, if_pos rfl]
      rfl
    · rw [above_severed, if_neg fun e => Nat.ne_of_gt h.inStore e.2, above_bequeathed h,
        if_neg fun e => Nat.lt_irrefl _ (h.child_lt e.2), above_eq_none (Nat.lt_irrefl _)]
    · rw [below_severed h, if_pos ⟨rfl, rfl⟩]
      exact (insertIdx_filter (n := n) (h.once .after p) h.place).1
  simp only [split, EStateM.run_bind, run_expect h.inStore h.whole,
    run_slotAfter h.toSymmetric h.parent h.place, run_copyNode h.inStore, renewed, cleared, adopted,
    dropped, withdrawn, linked]

theorem regular_parted (h : d.Parts n p i) : (d.parted n p i).Regular := by
  have tests : Keeps (· = d.parted n p i) (do
      Edit.ask (·.check n)
      Edit.ask (·.check d.size)
      return d.size : Edit Handle) :=
    (Keeps.ask _).bind fun _ => (Keeps.ask _).bind fun _ => .pure _
  have same : ((split n).perform d).2 = d.parted n p i :=
    (congrArg Prod.snd (perform_congr (run_split_eq h))).trans (tests _ rfl)
  exact same ▸ keeps_split d h.toRegular

end Refinement

namespace Diff

/-! ## The trees of the parted diff -/

variable {d : Diff} {n m p c : Handle} {i : Nat} {t u : Time} {s : Sides (Forest Handle)}

/-- The name that a node has at a time once another one is split. -/
def splitName (d : Diff) (n : Handle) (t : Time) : Handle → Handle := t.select id (standIn n d.size)

/-- The trees once a node is split. -/
def splitTrees (d : Diff) (n : Handle) (s : Sides (Forest Handle)) : Sides (Forest Handle) :=
  ⟨s.before, s.after.map (standIn n d.size)⟩

theorem tree_splitTrees : (d.splitTrees n s).get t = (s.get t).map (d.splitName n t) := by
  cases t with
  | before => exact (Forest.map_id s.before).symm
  | after => rfl

namespace Parts

/-- A split changes of a node no more than the times at which it is there, and what closes it at the
other time. -/
theorem look_splitName {α : Type} (h : d.Parts n p i) (hm : m < d.size) (told : Node → α)
    (detached : ∀ x : Node, told x.detached = told x)
    (same : ∀ x : Node, told (t.select x.withdrawn x.renewed) = told x) :
    told ((d.parted n p i).look (d.splitName n t m)) = told (d.look m) := by
  rw [← detached, ← payload, payload_parted h, ← detached (d.look m), ← payload]
  by_cases self : m = n
  · subst self
    have renamed := same (d.payload m)
    cases t with
    | before =>
      show told (if m = d.size then _ else if m = m then _ else _) = _
      rw [if_neg (Nat.ne_of_lt hm), if_pos rfl]
      exact renamed
    | after =>
      show told (if standIn m d.size m = d.size then _ else _) = _
      rw [standIn_self, if_pos rfl]
      exact renamed
  · have name : d.splitName n t m = m := by
      cases t with
      | before => rfl
      | after => exact standIn_of_ne self
    rw [name, if_neg (Nat.ne_of_lt hm), if_neg self]

theorem kind_splitName (h : d.Parts n p i) (hm : m < d.size) :
    ((d.parted n p i).look (d.splitName n t m)).kind = (d.look m).kind :=
  h.look_splitName hm Node.kind (fun _ => rfl) fun _ => by cases t <;> rfl

theorem formula_splitName (h : d.Parts n p i) (hm : m < d.size) :
    ((d.parted n p i).look (d.splitName n t m)).formula = (d.look m).formula :=
  h.look_splitName hm Node.formula (fun _ => rfl) fun _ => by cases t <;> rfl

/-- The parts are there at one time each, and everything else when it was there before. -/
theorem lives_parted (h : d.Parts n p i) (hm : m < d.size + 1) :
    (d.parted n p i).lives t m = if m = d.size then Change.added.existsAt t
      else if m = n then Change.removed.existsAt t else d.lives t m := by
  have size : m < (d.parted n p i).size := by
    rw [size_parted]
    exact hm
  rw [lives_payload size, payload_parted h]
  split
  · rfl
  · next old =>
    split
    · rfl
    · rw [lives_payload (Nat.lt_of_le_of_ne (Nat.le_of_lt_succ hm) old)]

end Parts

namespace Twofold

/-- A node that is there at both times but not the root has a place to be split. -/
theorem parts (h : d.Twofold s) (hn : ∀ t, n ∈ (s.get t).flatten)
    (whole : (d.look n).change = .unchanged) : ∃ p i, d.Parts n p i := by
  obtain ⟨p, parent, -⟩ := (h.shape .after).exists_above h.toSymmetric (hn .after)
  obtain ⟨i, place⟩ := Option.isSome_iff_exists.1 (List.isSome_idxOf?.2 (h.mem_of_above parent))
  exact ⟨p, i, h.toRegular, whole, parent, place, h.parent_ne (hn .after) parent⟩

theorem mem_both (h : d.Twofold s) (hn : d.Reaches n) (below : n ≠ root)
    (whole : (d.look n).change = .unchanged) (t : Time) : n ∈ (s.get t).flatten := by
  obtain ⟨u, mem⟩ := h.exists_mem_iff.2 hn
  exact List.mem_of_ne_of_mem below (h.here u t n mem ((unchanged_iff (h.lt_size mem)).1 whole t))

theorem mem_after_splitTrees (h : d.Twofold s) (hn : ∀ t, n ∈ (s.get t).flatten) :
    m ∈ root :: ((d.splitTrees n s).get .after).flatten ↔
      ∃ x ∈ root :: s.after.flatten, standIn n d.size x = m := by
  have names : root :: ((d.splitTrees n s).get .after).flatten =
      (root :: s.after.flatten).map (standIn n d.size) := h.flatten_standIn (hn .after)
  rw [names, List.mem_map]

theorem new_mem_splitTrees (h : d.Twofold s) (hn : ∀ t, n ∈ (s.get t).flatten) :
    d.size ∈ root :: ((d.splitTrees n s).get .after).flatten :=
  (h.mem_after_splitTrees hn).2 ⟨n, List.mem_cons_of_mem root (hn .after), standIn_self⟩

/-- What was in a tree before is still there, but for the node that is split. -/
theorem old_mem_splitTrees (h : d.Twofold s) (hn : ∀ t, n ∈ (s.get t).flatten) (other : m ≠ n)
    (hm : m ∈ root :: (s.get t).flatten) : m ∈ root :: ((d.splitTrees n s).get t).flatten := by
  cases t with
  | before => exact hm
  | after => exact (h.mem_after_splitTrees hn).2 ⟨m, hm, standIn_of_ne other⟩

/-- The trees of the parted diff hold what the trees held before, and the copy. -/
theorem mem_splitTrees_iff (h : d.Twofold s) (hn : ∀ t, n ∈ (s.get t).flatten) :
    (∃ u, m ∈ root :: ((d.splitTrees n s).get u).flatten) ↔
      m = d.size ∨ ∃ v, m ∈ root :: (s.get v).flatten := by
  constructor
  · rintro ⟨u, hm⟩
    cases u with
    | before => exact .inr ⟨.before, hm⟩
    | after =>
      obtain ⟨x, hx, rfl⟩ := (h.mem_after_splitTrees hn).1 hm
      by_cases self : x = n
      · exact .inl (by rw [self, standIn_self])
      · exact .inr ⟨.after, by rwa [standIn_of_ne self]⟩
  · rintro (rfl | ⟨v, hm⟩)
    · exact ⟨.after, h.new_mem_splitTrees hn⟩
    · by_cases self : m = n
      · exact ⟨.before, List.mem_cons_of_mem _ (self ▸ hn .before)⟩
      · exact ⟨v, h.old_mem_splitTrees hn self hm⟩

/-- What is there in the parted diff is in its tree. -/
theorem mem_splitTrees (h : d.Twofold s) (parts : d.Parts n p i) (hn : ∀ t, n ∈ (s.get t).flatten)
    (hm : m ∈ root :: ((d.splitTrees n s).get u).flatten)
    (there : (d.parted n p i).lives t m = true) :
    m ∈ root :: ((d.splitTrees n s).get t).flatten := by
  have size := lt_size_of_lives there
  rw [size_parted] at size
  rw [parts.lives_parted size] at there
  split at there
  · next new =>
    cases t with
    | before => cases there
    | after => exact new ▸ h.new_mem_splitTrees hn
  · next old =>
    obtain ⟨v, mem⟩ := ((h.mem_splitTrees_iff hn).1 ⟨u, hm⟩).resolve_left old
    split at there
    · next self =>
      cases t with
      | before => exact List.mem_cons_of_mem _ (self ▸ hn .before)
      | after => cases there
    · next other => exact h.old_mem_splitTrees hn other (h.here v t m mem there)

/-- What has children in the parted diff at a time is there at that time. -/
theorem lives_parted_of_child (h : d.Twofold s) (parts : d.Parts n p i)
    (hn : ∀ t, n ∈ (s.get t).flatten) (hm : m ∈ root :: ((d.splitTrees n s).get u).flatten)
    (hc : c ∈ (d.parted n p i).below t m) : (d.parted n p i).lives t m = true := by
  have size := lt_size_of_mem_below hc
  rw [size_parted] at size
  rw [parts.lives_parted size]
  split
  · next new =>
    cases t with
    | before =>
      rw [parts.below_before, new, below_eq_nil (Nat.lt_irrefl _)] at hc
      cases hc
    | after => rfl
  · next old =>
    obtain ⟨v, mem⟩ := ((h.mem_splitTrees_iff hn).1 ⟨u, hm⟩).resolve_left old
    split
    · next self =>
      cases t with
      | before => rfl
      | after =>
        rw [self, below_parted parts, if_neg fun e => parts.loop e.2.symm,
          below_bequeathed parts.inStore, if_pos ⟨rfl, rfl⟩] at hc
        cases hc
    · next other =>
      cases t with
      | before =>
        rw [parts.below_before] at hc
        exact h.there v .before m c mem hc
      | after =>
        have children := parts.replaces.below h.toSymmetric old
        rw [standIn_of_ne other] at children
        rw [children] at hc
        obtain ⟨c', hc', -⟩ := List.mem_map.1 hc
        exact h.there v .after m c' mem hc'

/-- The parted diff has the former trees, but for the copy that stands in for the node after the
edit. -/
theorem renamed_parted (h : d.Twofold s) (parts : d.Parts n p i)
    (hn : ∀ t, n ∈ (s.get t).flatten) :
    Renamed d (d.parted n p i) s (d.splitTrees n s) (d.splitName n) := by
  have old (t m) (hm : m ∈ root :: (s.get t).flatten) : m < d.size := h.lt_size hm
  refine ⟨Refinement.regular_parted parts, fun t => ?_, fun t => tree_splitTrees, fun t => ?_,
    fun t m hm k hk e => ?_, fun t m hm => ?_, fun t m hm => ?_,
    fun t m hm => parts.kind_splitName (old t m hm), fun t m hm => ?_,
    fun u t m hm there => h.mem_splitTrees parts hn hm there,
    fun u t m c hm hc => h.lives_parted_of_child parts hn hm hc⟩
  · cases t with
    | before =>
      rw [parts.above_before]
      exact h.free .before
    | after =>
      have top := parts.replaces.above h.toSymmetric (Nat.ne_of_lt h.root_lt)
      rw [standIn_of_ne (h.root_ne (hn .after)), h.free] at top
      exact top
  · cases t with
    | before => rfl
    | after => exact standIn_of_ne (h.root_ne (hn .after))
  · cases t with
    | before => exact e
    | after => exact standIn_inj (Nat.ne_of_lt (old _ m hm)) (Nat.ne_of_lt (old _ k hk)) e
  · rw [size_parted]
    cases t with
    | before => exact Nat.lt_succ_of_lt (old _ m hm)
    | after =>
      exact standIn_lt (Nat.lt_succ_self _) (Nat.lt_succ_of_lt (old _ m hm))
  · cases t with
    | before => exact parts.below_before.trans (List.map_id _).symm
    | after => exact parts.replaces.below h.toSymmetric (Nat.ne_of_lt (old _ m hm))
  · rw [parts.formula_splitName (old t m hm)]

theorem parted (h : d.Twofold s) (parts : d.Parts n p i) (hn : ∀ t, n ∈ (s.get t).flatten) :
    (d.parted n p i).Twofold (d.splitTrees n s) := (h.renamed_parted parts hn).twofold h

/-- A split leaves one node more below the root. -/
theorem reachableCount_parted (h : d.Twofold s) (parts : d.Parts n p i)
    (hn : ∀ t, n ∈ (s.get t).flatten) :
    ∃ k, d.reachableCount = .ok k ∧ (d.parted n p i).reachableCount = .ok (k + 1) := by
  obtain ⟨ns, -, once, mem⟩ := preorder_spec h.toRegular
  have new : d.size ∉ ns := fun hm => Nat.lt_irrefl _ (((mem d.size).1 hm).lt_size h.toRegular)
  refine ⟨ns.length, reachableCount_eq h.toRegular once mem,
    reachableCount_eq (Refinement.regular_parted parts) (List.nodup_cons.2 ⟨new, once⟩)
      fun m => ?_⟩
  rw [← (h.parted parts hn).exists_mem_iff, h.mem_splitTrees_iff hn, h.exists_mem_iff,
    List.mem_cons, mem]

/-- A split does not show in the source. -/
theorem prints_parted (h : d.Twofold s) (parts : d.Parts n p i) (hn : ∀ t, n ∈ (s.get t).flatten)
    (t : Time) : Printing.source (d.parted n p i) t = Printing.source d t := by
  have twofold := h.parted parts hn
  rw [Printing.source_eq twofold.toRegular (twofold.shape t),
    Printing.source_eq h.toRegular (h.shape t), tree_splitTrees, Printing.printed,
    Printing.printed, Forest.lines_map]
  refine congrArg (fun ls => Except.ok (Text.unlines ls)) (Forest.lines_congr fun m hm => ?_)
  have old := h.lt_size (List.mem_cons_of_mem root hm)
  exact ⟨parts.look_splitName old Printing.ownLines (fun _ => rfl) fun _ => by cases t <;> rfl,
    parts.look_splitName old (Printing.closingLines · t) (fun _ => rfl) fun _ => by cases t <;> rfl⟩

end Twofold

/-! ## Joining the parts again -/

theorem source_parted : (d.parted n p i).source = d.source := by
  rw [parted, source_link, severed, source_update, source_unlink, bequeathed, source_adopt,
    source_unlinkAll, doubled, source_update]
  rfl

/-- The copy once it is taken out. -/
def remnant (d : Diff) (n : Handle) : Node := (d.payload n).renewed.closedBy none

theorem payload_joined_parted (parts : d.Parts n p i) {q : Handle} {j : Nat}
    (meets : (d.parted n p i).Meets n d.size q j) :
    ((d.parted n p i).joined n d.size q j).payload m =
      if m = d.size then d.remnant n else d.payload m := by
  have closing : ((d.parted n p i).look d.size).closing.after = (d.payload n).closing.after := by
    rw [← closing_payload, payload_parted parts, if_pos rfl]
    rfl
  rw [payload_joined meets, payload_parted parts, closing]
  by_cases first : m = n
  · subst first
    have old : m ≠ d.size := Nat.ne_of_lt parts.inStore
    rw [if_pos rfl, if_neg old, if_pos rfl, if_neg old]
    exact Node.shared_withdrawn parts.whole
  · rw [if_neg (Ne.symm first), if_neg first]
    by_cases second : m = d.size
    · rw [if_pos second.symm, if_pos second, if_pos second]
      rfl
    · rw [if_neg (Ne.symm second), if_neg second, if_neg second]

/-- The parts of a node, joined again, are the diff as it was, with the copy left behind. -/
theorem joined_parted (h : d.Symmetric) (parts : d.Parts n p i) {q : Handle} {j : Nat}
    (meets : (d.parted n p i).Meets n d.size q j) :
    (d.parted n p i).joined n d.size q j = d.append (d.remnant n) := by
  have back (x) (hx : x < d.size) : standIn d.size n (standIn n d.size x) = x :=
    standIn_standIn (Nat.ne_of_lt hx)
  have away (x) : standIn n d.size x ≠ n := by
    unfold standIn
    split
    · exact Nat.ne_of_gt parts.inStore
    · assumption
  refine ext_edges ?_ ?_ (fun t m => ?_) (fun t m => ?_) fun m hm => ?_
  · rw [source_joined, source_parted]
    rfl
  · rw [size_joined, size_parted, size_append]
  · rw [above_append (x := d.remnant n) fun t => by cases t <;> rfl]
    cases t with
    | before => rw [meets.above_before, parts.above_before]
    | after =>
      by_cases new : m = d.size
      · rw [new, above_joined meets, if_neg fun e => meets.other e.2.symm, if_pos ⟨rfl, rfl⟩,
          above_eq_none (Nat.lt_irrefl _)]
      · have joined := meets.replaces.above meets.toSymmetric (away m)
        rw [standIn_standIn new, parts.replaces.above parts.toSymmetric new] at joined
        rw [joined]
        cases hq : d.above .after m with
        | none => rfl
        | some q => exact congrArg some (back q (h.parent_lt hq))
  · rw [below_append (x := d.remnant n) fun t => by cases t <;> rfl]
    cases t with
    | before => rw [meets.below_before, parts.below_before]
    | after =>
      by_cases new : m = d.size
      · rw [new, below_joined meets, if_neg fun e => meets.other e.2.symm, if_pos ⟨rfl, rfl⟩,
          below_eq_nil (Nat.lt_irrefl _)]
      · have joined := meets.replaces.below meets.toSymmetric (away m)
        rw [standIn_standIn new, parts.replaces.below parts.toSymmetric new, List.map_map] at joined
        rw [joined]
        exact (List.map_congr_left fun c hc => back c (h.child_lt hc)).trans (List.map_id _)
  · rw [payload_append, payload_joined_parted parts meets]
    rfl

end Diff

namespace Refinement

open Diff Printing

variable {d : Diff} {n p : Handle} {i : Nat} {s : Sides (Forest Handle)}

/-- A node that is there at both times can be split. -/
theorem run_split (h : d.Twofold s) (parts : d.Parts n p i) (hn : ∀ t, n ∈ (s.get t).flatten) :
    (split n).run d = .ok d.size (d.parted n p i) := by
  have twofold := h.parted parts hn
  have node := run_check twofold (n := n) (u := .before) (List.mem_cons_of_mem _ (hn .before))
  have copy := run_check twofold (h.new_mem_splitTrees hn)
  rw [run_split_eq parts]
  simp only [EStateM.run_bind, node, copy]
  rfl

/-- The parts of a node meet, and joining them undoes the split. -/
theorem run_join_parted (h : d.Twofold s) (parts : d.Parts n p i)
    (hn : ∀ t, n ∈ (s.get t).flatten) :
    (join n d.size).run (d.parted n p i) = .ok () (d.append (d.remnant n)) := by
  have twofold := h.parted parts hn
  have removed : ((d.parted n p i).look n).change = .removed := by
    rw [← change_payload, payload_parted parts, if_neg (Nat.ne_of_lt parts.inStore), if_pos rfl]
    rfl
  have added : ((d.parted n p i).look d.size).change = .added := by
    rw [← change_payload, payload_parted parts, if_pos rfl]
    rfl
  have new : d.size ∈ ((d.splitTrees n s).get .after).flatten :=
    List.mem_of_ne_of_mem (Nat.ne_of_gt h.root_lt) (h.new_mem_splitTrees hn)
  obtain ⟨q, j, meets, -⟩ := twofold.meets (hn .before) new removed added
  rw [run_join meets, joined_parted h.toSymmetric parts meets]

/-- An unchanged node of a sound diff can be split: what results is sound, has one node more and
prints the same at both times. Joining the parts leaves the diff as it was, with a node without edges
behind it in the store. -/
theorem split_join {d : Diff} (hd : d.Regular) (sound : d.Sound) {n : Handle} (hn : d.Reaches n)
    (below : n ≠ root) (whole : (d.look n).change = .unchanged) :
    ∃ d', (split n).run d = .ok d.size d' ∧ d'.Regular ∧ d'.Sound ∧
      (∃ k, d.reachableCount = .ok k ∧ d'.reachableCount = .ok (k + 1)) ∧
      (∀ t, ∃ text, source d t = .ok text ∧ source d' t = .ok text) ∧
      ∃ y : Node, y.detached = y ∧ (join n d.size).run d' = .ok () (d.append y) := by
  obtain ⟨s, twofold⟩ := sound.exists_twofold hd
  have both (t) : n ∈ (s.get t).flatten := twofold.mem_both hn below whole t
  obtain ⟨p, i, parts⟩ := twofold.parts both whole
  refine ⟨d.parted n p i, run_split twofold parts both, regular_parted parts,
    (twofold.parted parts both).sound, twofold.reachableCount_parted parts both, fun t => ?_,
    d.remnant n, rfl, run_join_parted twofold parts both⟩
  have prints := source_eq hd (twofold.shape t)
  exact ⟨_, prints, (twofold.prints_parted parts both t).trans prints⟩

/-- A condition hangs below another one before the edit and above it after the edit; it is split and
joined again. -/
theorem split_join_crossed : ∃ d', (split 2).run (crossedChains bothClosings) = .ok 3 d' ∧
    d'.Sound ∧ ∃ y : Node, y.detached = y ∧
      (join 2 3).run d' = .ok () ((crossedChains bothClosings).append y) := by
  have regular : (crossedChains bothClosings).Regular := (built_ofCalls _).regular
  have sound : (crossedChains bothClosings).Sound :=
    sound_ofCalls (by decide +kernel) (by decide +kernel)
  have reaches : (crossedChains bothClosings).Reaches 2 :=
    .child (t := .after) .root (by decide +kernel)
  have size : (crossedChains bothClosings).size = 3 := by decide +kernel
  obtain ⟨d', run, -, sound', -, -, y, bare, again⟩ :=
    split_join regular sound reaches (by decide) (by decide +kernel)
  rw [size] at run again
  exact ⟨d', run, sound', y, bare, again⟩

end Refinement

end Variation
