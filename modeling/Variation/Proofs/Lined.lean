import Variation.Proofs.Placed
import Variation.Proofs.Trees

/-!
# What is read stands in order

A run reads its lines at places that go up. So the lines that it has put into its outline have rising
places along the nest of each time, and all of them stand in front of the line that is read next.
Closing a chain appends its closing line, a new node appends its label, and code that joins appends to
the last label. The main statement says that the places of a diff that was read go up along the tree of
each time, whether they are counted in the diff or in the text of that time.
-/

namespace Variation

/-! ## What a nest spells -/

namespace Nest

variable {α β : Type} {first last first' last' : α → List β} {n : Nest α} {f : Forest α}

/-- What a nest spells; what is open has not ended yet. -/
def spell (first last : α → List β) : Nest α → List β
  | base a done => first a ++ done.spell first last
  | under a done rest => rest.spell first last ++ first a ++ done.spell first last

@[simp] theorem spell_hang :
    (n.hang f).spell first last = n.spell first last ++ f.spell first last := by
  cases n <;> simp [hang, spell]

/-- It does not matter with what an open place would end. -/
theorem spell_congr (once : n.flatten.Nodup) (begins : ∀ a ∈ n.flatten, first a = first' a)
    (ends : ∀ a ∈ n.flatten, a ∉ n.opened → last a = last' a) :
    n.spell first last = n.spell first' last' := by
  induction n with
  | base a done =>
    obtain ⟨new, -⟩ := List.nodup_cons.1 once
    obtain ⟨here, below⟩ := List.forall_mem_cons.1 begins
    have inner : done.spell first last = done.spell first' last' :=
      Forest.spell_congr fun b hb => ⟨below b hb, ends b (List.mem_cons_of_mem _ hb) fun h => by
        rw [opened, List.mem_singleton] at h
        exact new (h ▸ hb)⟩
    rw [spell, spell, here, inner]
  | under a done rest ih =>
    obtain ⟨outer, inner, apart⟩ := List.nodup_append.1 once
    obtain ⟨new, -⟩ := List.nodup_cons.1 inner
    obtain ⟨sameRest, same⟩ := List.forall_mem_append.1 begins
    obtain ⟨here, below⟩ := List.forall_mem_cons.1 same
    have finished : done.spell first last = done.spell first' last' :=
      Forest.spell_congr fun b hb => ⟨below b hb,
        ends b (List.mem_append_right _ (List.mem_cons_of_mem _ hb)) fun h => by
          obtain rfl | h := List.mem_cons.1 h
          · exact new hb
          · exact apart b (mem_flatten_of_mem_opened h) b (List.mem_cons_of_mem _ hb) rfl⟩
    rw [spell, spell, here, finished, ih outer sameRest fun b hb closed =>
      ends b (List.mem_append_left _ hb) fun h => by
        obtain rfl | h := List.mem_cons.1 h
        · exact apart b hb b List.mem_cons_self rfl
        · exact closed h]

end Nest

/-- Open places that are finished end one after the other. -/
theorem Diff.Holds.exists_folded {β : Type} {d : Diff} {t : Time} {n : Nest Handle}
    {as rest : List Handle} (first last : Handle → List β) (h : d.Holds t n)
    (split : n.opened = as ++ rest) (left : rest ≠ []) :
    ∃ n', n'.opened = rest ∧ d.Holds t n' ∧
      n'.spell first last = n.spell first last ++ as.flatMap last := by
  induction as generalizing n with
  | nil => exact ⟨n, split, h, (List.append_nil _).symm⟩
  | cons a as ih =>
    cases n with
    | base b done =>
      obtain ⟨rfl, none⟩ := List.cons.inj split
      exact absurd (List.append_eq_nil_iff.1 none.symm).2 left
    | under b done outer =>
      obtain ⟨rfl, more⟩ := List.cons.inj split
      obtain ⟨n', opened, holds, spelled⟩ := ih h.fold (Nest.opened_hang.trans more)
      refine ⟨n', opened, holds, ?_⟩
      rw [spelled, Nest.spell_hang, Forest.spell_tree, Nest.spell, List.flatMap_cons]
      simp only [List.append_assoc]

/-! ## Lines in order -/

namespace Printing

variable {es front : List Entry} {bound bound' line : Int} {change : Change} {l : Label}
  {more : List String}

/-- Recorded lines that stand in order, in front of a place. -/
structure Rises (bound : Int) (es : List Entry) : Prop where
  order : es.Pairwise Entry.Precedes
  recorded : ∀ e ∈ es, e.added = false ∧ 0 ≤ e.order
  below : ∀ e ∈ es, e.line < bound

theorem rises_nil : Rises bound [] :=
  ⟨.nil, fun _ he => absurd he List.not_mem_nil, fun _ he => absurd he List.not_mem_nil⟩

theorem Rises.mono (h : Rises bound es) (le : bound ≤ bound') : Rises bound' es :=
  ⟨h.order, h.recorded, fun e he => Int.lt_of_lt_of_le (h.below e he) le⟩

theorem Rises.append (h : Rises line es) (less : line < bound) :
    Rises bound (es ++ labelEntries line change l) := by
  refine ⟨List.pairwise_append.2 ⟨h.order, pairwise_labelEntries, fun a ha b hb => ?_⟩,
    List.forall_mem_append.2 ⟨h.recorded, fun e he => ?_⟩,
    List.forall_mem_append.2 ⟨(h.mono (Int.le_of_lt less)).below, fun e he => ?_⟩⟩
  · obtain ⟨recorded, rfl, -⟩ := mem_labelEntries hb
    exact ⟨(h.recorded a ha).1.trans recorded.symm, .inl (h.below a ha)⟩
  · obtain ⟨recorded, -, order⟩ := mem_labelEntries he
    exact ⟨recorded, order⟩
  · obtain ⟨-, rfl, -⟩ := mem_labelEntries he
    exact less

/-- The last label may grow. -/
theorem Rises.lengthen (h : Rises bound (front ++ labelEntries line change l)) (full : l.lines ≠ [])
    (more : List String) : Rises bound (front ++ labelEntries line change (l.append more)) := by
  obtain ⟨text, texts, lines⟩ := List.exists_cons_of_ne_nil full
  -- the first line of the label is behind all that comes before the label
  have first : (⟨line, false, 0, change, text⟩ : Entry) ∈ labelEntries line change l := by
    simp [labelEntries, lines]
  obtain ⟨order, -, apart⟩ := List.pairwise_append.1 h.order
  have recorded := (List.forall_mem_append.1 h.recorded).1
  have before : Rises line front := ⟨order, recorded, fun e he => by
    obtain ⟨-, less | ⟨-, less⟩⟩ := apart e he _ first
    · exact less
    · exact absurd (recorded e he).2 (Int.not_le_of_gt less)⟩
  exact before.append (h.below _ (List.mem_append_right _ first))

end Printing

/-! ## What an outline lists -/

namespace Reading.Outline

open Diff Printing

variable {o o' : Outline} {key : Position → Int} {t : Time} {es : List Entry}
  {closing : ClosingLine} {m : Time → Nest Facet} {ns rest : List Handle}

/-- The lines along a nest of a diff at a time, with the places that a key gives them. -/
def along (key : Position → Int) (d : Diff) (t : Time) (n : Nest Handle) : List Entry :=
  n.spell (fun a => firstPlaced key (d.look a)) fun a => lastPlaced key t (d.look a)

/-- What an outline lists at a time: the lines along the nest that its diff holds. -/
def Lists (o : Outline) (key : Position → Int) (t : Time) (es : List Entry) : Prop :=
  ∃ n : Nest Handle, o.opened.get t = n.opened ∧ o.diff.Holds t n ∧ o.Recalls t n ∧
    along key o.diff t n = es

theorem lists_start (source : Source) : (Outline.start source).Lists key t [] := by
  have store : root < (Outline.start source).diff.size := Nat.zero_lt_one
  refine ⟨.base root .nil, by cases t <;> rfl, ⟨⟨store, ?_, trivial⟩, List.nodup_singleton _, rfl⟩,
    ?_, rfl⟩
  · cases t <;> rfl
  · exact fun c hc => nomatch hc

/-! ### Closing -/

/-- Closing a chain finishes branches up to the one that opened the chain. -/
theorem closeChain_splits {next : Position} {d d' : Diff}
    (h : closeChain t closing next d ns = .ok (d', rest)) :
    ∃ as b, ns = as ++ b :: rest ∧ (d.look b).kind = .ifBranch ∧
      ∀ a ∈ as, (d.look a).kind ≠ .ifBranch := by
  have closes := closesChain_of_run h
  clear h
  induction closes with
  | @opening _ _ b _ _ _ opens =>
    exact ⟨[], b, rfl, opens, fun a ha => absurd ha List.not_mem_nil⟩
  | @branch next d _ a _ _ _ inStore other _ ih =>
    obtain ⟨as, b, rfl, opens, others⟩ := ih
    have touched : Retouched t d (d.update a (endAt t closing next false)) := retouched_endAt inStore
    have kind (n : Handle) := touched.kind (n := n)
    rw [kind] at opens
    simp only [kind] at others
    exact ⟨a :: as, b, rfl, opens, List.forall_mem_cons.2 ⟨other, others⟩⟩

theorem closeAt_splits {s : Time} (h : closeAt closing o s = .ok o') (t : Time) :
    if t = s then ∃ as b, o.opened.get t = as ++ b :: o'.opened.get t ∧
      (o.diff.look b).kind = .ifBranch ∧ ∀ a ∈ as, (o.diff.look a).kind ≠ .ifBranch
    else o'.opened.get t = o.opened.get t := by
  rw [closeAt] at h
  obtain ⟨⟨d, rest⟩, chain, run⟩ := Outcome.bind_eq_ok_iff.1 h
  obtain rfl : { o with diff := d, opened := o.opened.set s rest } = o' := Except.ok.inj run
  show if t = s then ∃ as b, _ = as ++ b :: (o.opened.set s rest).get t ∧ _ else
    (o.opened.set s rest).get t = _
  split
  · next here =>
    subst here
    rw [Sides.get_set_self]
    exact closeChain_splits chain
  · next other => rw [Sides.get_set, if_neg other]

/-- Closing chains finishes, at each of the times, branches up to the one that opened the chain. -/
theorem closeAll_splits {ts : List Time} (once : ts.Nodup)
    (h : ts.foldlM (closeAt closing) o = .ok o') (t : Time) :
    if t ∈ ts then ∃ as b, o.opened.get t = as ++ b :: o'.opened.get t ∧
      (o.diff.look b).kind = .ifBranch ∧ ∀ a ∈ as, (o.diff.look a).kind ≠ .ifBranch
    else o'.opened.get t = o.opened.get t := by
  induction ts generalizing o with
  | nil =>
    cases h
    rfl
  | cons s ts ih =>
    obtain ⟨new, once⟩ := List.nodup_cons.1 once
    rw [List.foldlM_cons] at h
    obtain ⟨o₁, run, h⟩ := Outcome.bind_eq_ok_iff.1 h
    have first := closeAt_splits run t
    have later := ih once h
    have kind (n : Handle) : (o₁.diff.look n).kind = (o.diff.look n).kind := by
      have single : [s].foldlM (closeAt closing) o = .ok o₁ := by
        rw [List.foldlM_cons, run]
        rfl
      exact (closeAll_alike single).1.kind
    simp only [kind] at later
    by_cases here : t = s
    · subst here
      rw [if_pos rfl] at first
      rw [if_neg new] at later
      rw [if_pos List.mem_cons_self, later]
      exact first
    · rw [if_neg here] at first
      rw [first] at later
      simpa [here] using later

/-- What is listed along a nest stays, as what was not open ends with what it ended with. -/
theorem Shuts.along_eq {n : Nest Handle} (shuts : Shuts closing o o') (holds : o.diff.Holds t n)
    (opened : o.opened.get t = n.opened) : along key o'.diff t n = along key o.diff t n := by
  refine Nest.spell_congr holds.once (fun a _ => ?_) fun a _ closed => ?_
  · rw [firstPlaced, firstPlaced, shuts.alike.kind, shuts.alike.start, shuts.alike.change,
      shuts.label]
  · have same : (o'.diff.look a).closing.get t = (o.diff.look a).closing.get t := by
      rw [shuts.closing, if_neg fun h => closed (opened ▸ h.1)]
    rw [lastPlaced, lastPlaced, Node.closingAt, Node.closingAt, shuts.alike.kind, same]

/-- The branches that are finished end with nothing, and what opened the chain ends with the closing
line. -/
theorem Shuts.lastPlaced_eq {as : List Handle} {b : Handle} (shuts : Shuts closing o o')
    (split : o.opened.get t = as ++ b :: o'.opened.get t) (once : (o.opened.get t).Nodup)
    (opens : (o.diff.look b).kind = .ifBranch)
    (others : ∀ a ∈ as, (o.diff.look a).kind ≠ .ifBranch) :
    ((as ++ [b]).flatMap fun a => lastPlaced key t (o'.diff.look a)) = closingPlaced key closing := by
  have branches : (as.flatMap fun a => lastPlaced key t (o'.diff.look a)) = [] :=
    List.flatMap_eq_nil_iff.2 fun a ha => lastPlaced_eq_nil (shuts.alike.kind ▸ others a ha)
  rw [split] at once
  have mem : b ∈ o.opened.get t := split ▸ List.mem_append_right _ List.mem_cons_self
  have left : b ∉ o'.opened.get t := (List.nodup_cons.1 (List.nodup_append.1 once).2.1).1
  rw [List.flatMap_append, branches, List.nil_append, List.flatMap_singleton, lastPlaced,
    Node.closingAt, shuts.alike.kind, if_pos opens, shuts.closing, if_pos ⟨mem, left, opens⟩,
    Option.toList_some, List.flatMap_singleton]

/-- Closing a chain appends the closing line, at each time at which it is there. -/
theorem Lists.closeChains (lists : o.Lists key t es) (ho : ∀ t, o.Shows t (m t))
    (h : closeChains closing o = .ok o') :
    o'.Lists key t (if closing.change.existsAt t then es ++ closingPlaced key closing else es) := by
  obtain ⟨n, opened, holds, -, rfl⟩ := lists
  obtain ⟨m', -, shown⟩ := closeChains_cases ho h
  rw [closeChains_eq] at h
  obtain ⟨shuts, -⟩ := closeAll_shuts (o := { o with lastCode := none })
    (fun t => (ho t).nodup_opened) h
  have splits := closeAll_splits (nodup_times _) h t
  simp only [Change.mem_times] at splits
  have spelled : along key o'.diff t n = along key o.diff t n := shuts.along_eq holds opened
  have forgets (n : Nest Handle) : o'.Recalls t n := by
    intro c hc
    rw [shuts.lastCode] at hc
    cases hc
  by_cases there : closing.change.existsAt t = true
  · simp only [there, if_true] at splits ⊢
    obtain ⟨as, b, split, opens, others⟩ := splits
    have parts : n.opened = (as ++ [b]) ++ o'.opened.get t := by
      rw [← opened, List.append_assoc]
      exact split
    have some : o'.opened.get t ≠ [] := by
      obtain ⟨k, left, -⟩ := shown t
      obtain ⟨os, eq⟩ := k.opened_eq_cons
      rw [left, eq]
      exact List.cons_ne_nil _ _
    obtain ⟨n', opened', holds', spelled'⟩ := (shuts.alike.holds holds).exists_folded
      (fun a => firstPlaced key (o'.diff.look a)) (fun a => lastPlaced key t (o'.diff.look a)) parts
      some
    refine ⟨n', opened'.symm, holds', forgets n', ?_⟩
    rw [along, spelled', shuts.lastPlaced_eq split (ho t).nodup_opened opens others]
    change along key o'.diff t n ++ _ = _
    rw [spelled]
  · rw [if_neg there]
    simp only [there] at splits
    exact ⟨n, splits.trans opened, shuts.alike.holds holds, forgets n, spelled⟩

/-! ### Adding -/

section Adding

variable {x : Node} {tops : Time → Handle} {c : Handle} {change : Change} {start stop : Position}
  {lines : List String}

/-- What an outline lists along a nest stays when a node is added. -/
theorem along_pushed {n : Nest Handle} (holds : o.diff.Holds t n) :
    along key (o.pushed tops x).diff t n = along key o.diff t n := by
  have old (a : Handle) (ha : a ∈ n.flatten) : a ≠ o.diff.size := Nat.ne_of_lt (holds.lt_size ha)
  refine Nest.spell_congr holds.once (fun a ha => ?_) fun a ha _ => ?_
  · simp only [firstPlaced, kind_pushed, start_pushed, change_pushed, label_pushed, if_neg (old a ha)]
  · simp only [lastPlaced, Node.closingAt, kind_pushed, closing_pushed, if_neg (old a ha)]

/-- A new node appends its label, at each time at which it is there. -/
theorem Grows.lists (h : o.Grows x o' tops) (hx : ∀ t, x.children.get t = [])
    (lists : o.Lists key t es) :
    o'.Lists key t
      (if x.change.existsAt t then es ++ labelEntries (key x.start) x.change x.label else es) := by
  obtain rfl := h.result
  obtain ⟨n, opened, holds, -, rfl⟩ := lists
  have first : firstPlaced key ((o.pushed tops x).diff.look o.diff.size) =
      labelEntries (key x.start) x.change x.label := by
    simp only [firstPlaced, kind_pushed, start_pushed, change_pushed, label_pushed, if_true,
      if_neg h.kind]
  split
  · next there =>
    have top : n.top = tops t := by
      have head := h.head t
      rw [opened, Nest.head?_opened] at head
      exact Option.some.inj head
    have entered := holds_pushed hx h.inStore holds top there
    by_cases annotates : x.kind.annotates = true
    · refine ⟨.under o.diff.size .nil n, ?_, entered, recalls_pushed fun code => ?_, ?_⟩
      · rw [opened_pushed, if_pos ⟨annotates, there⟩, opened]
        rfl
      · rw [code] at annotates
        cases annotates
      · rw [along, Nest.spell, first, Forest.spell, List.append_nil]
        exact congrArg (· ++ _) (along_pushed holds)
    · have leaf : lastPlaced key t ((o.pushed tops x).diff.look o.diff.size) = [] := by
        refine lastPlaced_eq_nil fun opens => annotates ?_
        rw [kind_pushed, if_pos rfl] at opens
        rw [opens]
        rfl
      refine ⟨n.hang (.tree o.diff.size .nil), ?_, entered.fold, recalls_pushed fun _ => ?_, ?_⟩
      · rw [opened_pushed, if_neg fun h => annotates h.1, opened, Nest.opened_hang]
      · rw [if_pos there]
        exact ⟨n, rfl⟩
      · rw [along, Nest.spell_hang, Forest.spell_tree, first, leaf, Forest.spell, List.append_nil,
          List.append_nil]
        exact congrArg (· ++ _) (along_pushed holds)
  · next absent =>
    refine ⟨n, ?_, holds_pushed_of_absent hx h.inStore holds absent, recalls_pushed fun _ => ?_,
      along_pushed holds⟩
    · rw [opened_pushed, if_neg fun h => absent h.2, opened]
    · rw [if_neg absent]
      exact fun h => Nat.lt_irrefl _ (holds.lt_size h)

/-- Code that joins appends to the last label, at each time at which it is there. -/
theorem Joins.lists (h : o.Joins c change start stop lines o') (lists : o.Lists key t es) :
    if change.existsAt t then
      ∃ front line, es = front ++ labelEntries line change (o.diff.look c).label ∧
        o'.Lists key t (front ++ labelEntries line change ((o.diff.look c).label.append lines))
    else o'.Lists key t es := by
  obtain ⟨last, same, -, rfl⟩ := h
  obtain ⟨n, opened, holds, recalls, rfl⟩ := lists
  obtain ⟨inStore, code, place⟩ := recalls c last
  have alike : Alike o.diff (o.joined c lines stop).diff := alike_joined inStore
  have look (n : Handle) : (o.joined c lines stop).diff.look n =
      if c = n then { o.diff.look n with label := (o.diff.look n).label.append lines, stop }
      else o.diff.look n := look_update inStore
  have others {k : Nest Handle} (once : k.flatten.Nodup) (hc : c ∉ k.flatten) :
      along key (o.joined c lines stop).diff t k = along key o.diff t k := by
    have other (a : Handle) (ha : a ∈ k.flatten) : c ≠ a := fun e => hc (e ▸ ha)
    refine Nest.spell_congr once (fun a ha => ?_) fun a ha _ => ?_
    · rw [look, if_neg (other a ha)]
    · rw [look, if_neg (other a ha)]
  rw [same] at place
  split
  · next there =>
    rw [if_pos there] at place
    obtain ⟨k, rfl⟩ := place
    have once := holds.once
    rw [Nest.flatten_hang, List.nodup_append] at once
    refine ⟨along key o.diff t k, key (o.diff.look c).start, ?_, k.hang (.tree c .nil), opened,
      alike.holds holds, recalls_joined inStore recalls, ?_⟩
    · rw [along, Nest.spell_hang, Forest.spell_tree, Forest.spell, firstPlaced, lastPlaced,
        Node.closingAt, code, same]
      simp [along]
    · rw [← others once.1 (not_mem_of_hang holds.once), along, Nest.spell_hang, Forest.spell_tree,
        Forest.spell, firstPlaced, lastPlaced, Node.closingAt, look, if_pos rfl, code, same]
      simp [along]
  · next absent =>
    rw [if_neg absent] at place
    exact ⟨n, opened, alike.holds holds, recalls_joined inStore recalls, others holds.once place⟩

end Adding

/-- A line that is put behind what is listed is listed in order. -/
theorem Lists.put {options : Options} {dialect : Dialect} {line : LogicalLine} {change : Change}
    {last : Position} {bound bound' : Int} (lists : o.Lists key t es) (rises : Rises bound es)
    (sturdy : o.Sturdy) (h : o.put options dialect line change last = .ok o')
    (behind : change.existsAt t = true → bound ≤ key ((startOf line last).restrict change) ∧
      key ((startOf line last).restrict change) < bound') (le : bound ≤ bound') :
    ∃ es', o'.Lists key t es' ∧ Rises bound' es' := by
  obtain ⟨⟨neat, m, ho⟩, filled⟩ := sturdy
  obtain ⟨stop, range⟩ := Run.place_of_put h
  -- a label is appended at the times at which the line is there
  have appended (lists : o'.Lists key t (if change.existsAt t then
      es ++ labelEntries (key ((startOf line last).restrict change)) change ⟨line.lines⟩ else es)) :
      ∃ es', o'.Lists key t es' ∧ Rises bound' es' := by
    refine ⟨_, lists, ?_⟩
    split
    · next there =>
      exact (rises.mono (behind there).1).append (behind there).2
    · exact rises.mono le
  obtain ⟨-, -, -, closed | ⟨kind, formula, tops, -, grows⟩⟩ | ⟨-, -, c, joins⟩ := put_cases range ho h
  · exact appended (lists.closeChains ho closed)
  · exact appended (grows.lists (fun _ => children_newNode) lists)
  · have listed := joins.lists lists
    split at listed
    · obtain ⟨front, place, rfl, joined⟩ := listed
      have full : (o.diff.look c).label.lines ≠ [] := by
        obtain ⟨n, -, -, -, recalls⟩ := ho .before
        obtain ⟨inStore, code, -⟩ := recalls c joins.last
        exact filled.label c (ne_root_of_kind neat.orderly.toRegular code (by decide)) inStore
      exact ⟨_, joined, (rises.lengthen full _).mono le⟩
    · exact ⟨es, listed, rises.mono le⟩

end Reading.Outline

/-! ## What is recorded -/

namespace Reading.Outline

open Diff

variable {o o' : Outline} {closing : ClosingLine} {m : Time → Nest Facet}

/-- Exactly the chains that are not open have recorded a closing line, one that is there at the time for
which it was recorded; what was recorded for one time was recorded for all times at which it is there. -/
structure Recorded (o : Outline) : Prop where
  unclosed : o.Unclosed
  mem : ∀ n t c, (o.diff.look n).closing.get t = some c →
    (o.diff.look n).kind = .ifBranch ∧ o.diff.lives t n = true ∧ c.change.existsAt t = true
  both : ∀ n t u c, (o.diff.look n).closing.get t = some c → c.change.existsAt u = true →
    ∃ m, (o.diff.look m).closing.get u = some c

theorem recorded_start (source : Source) : (Outline.start source).Recorded := by
  have w := written_start source
  refine ⟨w.unclosed, fun n t c hc => ?_, fun n t u c hc => ?_⟩
  · exact absurd (w.recorded n t c hc) List.not_mem_nil
  · exact absurd (w.recorded n t c hc) List.not_mem_nil

theorem Recorded.closeChains (h : o.Recorded) (neat : o.Neat) (ho : ∀ t, o.Shows t (m t))
    (run : closeChains closing o = .ok o') : o'.Recorded := by
  rw [closeChains_eq] at run
  obtain ⟨shuts, found⟩ := closeAll_shuts (o := { o with lastCode := none })
    (fun t => (ho t).nodup_opened) run
  have splits := closeAll_splits (nodup_times _) run
  -- what has recorded a closing line keeps it
  have keeps (n) (t) (c) (hc : (o.diff.look n).closing.get t = some c) :
      (o'.diff.look n).closing.get t = some c := by
    obtain ⟨kind, there, -⟩ := h.mem n t c hc
    have shut : n ∉ o.opened.get t := by
      rw [← h.unclosed n t kind there, hc]
      exact Option.some_ne_none c
    rw [shuts.closing, if_neg fun h => shut h.1]
    exact hc
  refine ⟨shuts.unclosed h.unclosed, fun n t c hc => ?_, fun n t u c hc there => ?_⟩
  · rw [shuts.alike.kind, shuts.alike.lives]
    rw [shuts.closing] at hc
    split at hc
    · next closed =>
      cases hc
      refine ⟨closed.2.2, neat.lives t n closed.1, ?_⟩
      -- at the other times nothing is closed
      by_contra absent
      have same := splits t
      rw [if_neg fun h => absent (Change.mem_times.1 h)] at same
      exact closed.2.1 (same ▸ closed.1)
    · exact h.mem n t c hc
  · rw [shuts.closing] at hc
    split at hc
    · cases hc
      obtain ⟨m, hm, left, kind⟩ := found u (Change.mem_times.2 there)
      exact ⟨m, by rw [shuts.closing, if_pos ⟨hm, left, kind⟩]⟩
    · obtain ⟨m, hm⟩ := h.both n t u c hc there
      exact ⟨m, keeps m u c hm⟩

/-- Closing lines that stay with their nodes stay recorded. -/
theorem Recorded.of_same (h : o.Recorded) (unclosed : o'.Unclosed)
    (same : ∀ n < o.diff.size, (o'.diff.look n).closing = (o.diff.look n).closing ∧
      (o'.diff.look n).kind = (o.diff.look n).kind ∧ ∀ t, o'.diff.lives t n = o.diff.lives t n)
    (new : ∀ n t c, (o'.diff.look n).closing.get t = some c → n < o.diff.size) : o'.Recorded := by
  have size (n) (t) (c) (hc : (o.diff.look n).closing.get t = some c) : n < o.diff.size :=
    lt_size_of_lives (h.mem n t c hc).2.1
  refine ⟨unclosed, fun n t c hc => ?_, fun n t u c hc there => ?_⟩
  · obtain ⟨closing, kind, lives⟩ := same n (new n t c hc)
    rw [closing] at hc
    rw [kind, lives]
    exact h.mem n t c hc
  · rw [(same n (new n t c hc)).1] at hc
    obtain ⟨m, hm⟩ := h.both n t u c hc there
    exact ⟨m, by rw [(same m (size m u c hm)).1, hm]⟩

theorem Recorded.grows {x : Node} {tops : Time → Handle} (h : o.Recorded)
    (grows : o.Grows x o' tops) (bare : ∀ t, x.closing.get t = none) : o'.Recorded := by
  obtain rfl := grows.result
  refine h.of_same (Unclosed.pushed h.unclosed bare) (fun n hn => ?_) fun n t c hc => ?_
  · have old := Nat.ne_of_lt hn
    exact ⟨by rw [closing_pushed, if_neg old], by rw [kind_pushed, if_neg old],
      fun t => by rw [lives_pushed, if_neg old]⟩
  · rw [closing_pushed] at hc
    split at hc
    · rw [bare] at hc
      cases hc
    · exact lt_size_of_lives (h.mem n t c hc).2.1

theorem Recorded.joined {c : Handle} {lines : List String} {stop : Position} (h : o.Recorded)
    (inStore : c < o.diff.size) : (o.joined c lines stop).Recorded := by
  have alike : Alike o.diff (o.joined c lines stop).diff := alike_joined inStore
  refine h.of_same (Unclosed.joined h.unclosed inStore)
    (fun n _ => ⟨closing_joined inStore, alike.kind, fun t => alike.lives⟩) fun n t e he => ?_
  rw [closing_joined inStore] at he
  exact lt_size_of_lives (h.mem n t e he).2.1

end Reading.Outline

theorem Reading.kept_recorded {options : Reading.Options} {dialect : Dialect} :
    Run.Kept options dialect fun o => o.Sturdy ∧ o.Recorded := by
  intro o o' line change last ⟨sturdy, recorded⟩ full put
  refine ⟨kept_sturdy o o' line change last sturdy full put, ?_⟩
  obtain ⟨⟨neat, m, ho⟩, -⟩ := sturdy
  obtain ⟨stop, range⟩ := Run.place_of_put put
  obtain ⟨-, -, -, closed | ⟨kind, formula, tops, -, grows⟩⟩ | ⟨-, -, c, joins⟩ :=
    Outline.put_cases range ho put
  · exact recorded.closeChains neat ho closed
  · exact recorded.grows grows fun t => by cases t <;> rfl
  · obtain ⟨last, -, -, rfl⟩ := joins
    exact recorded.joined (Outline.Shows.lastCode_lt ho c last)

/-! ## The run -/

/-- A key counts the places of a text that has the lines of a time: a place that is restricted to a
change of that time keeps its number, and the number goes up by one with every line that is there, and
by one or not at all with any other line. -/
structure Position.Counts (key : Position → Int) (t : Time) : Prop where
  restrict : ∀ p c, c.existsAt t = true → key (p.restrict c) = key p
  there : ∀ p q c, p.shift? 1 c = some q → c.existsAt t = true → key q = key p + 1
  shift : ∀ p q c, p.shift? 1 c = some q → key p ≤ key q

namespace Reading.Run

open Outline Printing

variable {options : Options} {dialect : Dialect} {r r' : Run} {key : Position → Int} {t : Time}

/-- The place of the line that is put next, at the earliest. -/
def bound (key : Position → Int) (t : Time) (r : Run) : Int :=
  match (r.pending.get t).start with
  | some p => key p
  | none => key r.place + 1

/-- What a run has put lies in order in front of what it reads. -/
structure Lies (key : Position → Int) (t : Time) (r : Run) : Prop where
  ahead : ∀ p, (r.pending.get t).start = some p → key p ≤ key r.place
  lists : ∃ es, r.outline.Lists key t es ∧ Rises (r.bound key t) es

theorem bound_of_some {p : Position} (h : (r.pending.get t).start = some p) :
    r.bound key t = key p := by rw [bound, h]

theorem bound_of_none (h : (r.pending.get t).start = none) :
    r.bound key t = key r.place + 1 := by rw [bound, h]

theorem lies_start (source : Source) : (Run.start source).Lies key t := by
  refine ⟨fun p hp => ?_, [], lists_start source, rises_nil⟩
  cases t <;> cases hp

/-- What is put at the times of a change is the line that is pending there. -/
theorem Lies.put {line : LogicalLine} {change : Change} {outline : Outline}
    {pending : Sides LogicalLine} (lies : r.Lies key t) (counts : Position.Counts key t)
    (sturdy : r.outline.Sturdy)
    (h : r.outline.put options dialect line change r.place = .ok outline)
    (own : change.existsAt t = true → r.pending.get t = line ∧ line.hasStarted = true)
    (left : pending.get t = if change.existsAt t then {} else r.pending.get t) :
    ({ r with outline, pending } : Run).Lies key t := by
  obtain ⟨ahead, es, lists, rises⟩ := lies
  by_cases there : change.existsAt t = true
  · rw [if_pos there] at left
    obtain ⟨rfl, started⟩ := own there
    obtain ⟨p, hp⟩ := Option.isSome_iff_exists.1 started
    have empty : ({ r with outline, pending } : Run).bound key t = key r.place + 1 :=
      bound_of_none (by rw [left])
    have first : key ((startOf (r.pending.get t) r.place).restrict change) = r.bound key t := by
      rw [counts.restrict _ _ there, startOf, hp, bound_of_some hp]
      rfl
    have less : r.bound key t < key r.place + 1 := by
      rw [bound_of_some hp]
      exact Int.lt_add_one_of_le (ahead p hp)
    refine ⟨fun q hq => ?_, ?_⟩
    · rw [left] at hq
      cases hq
    · rw [empty]
      exact lists.put rises sturdy h (fun _ => ⟨first.ge, first ▸ less⟩) (Int.le_of_lt less)
  · rw [if_neg there] at left
    have same : ({ r with outline, pending } : Run).bound key t = r.bound key t := by
      rw [bound, bound, left]
    refine ⟨fun p hp => ahead p (left ▸ hp), ?_⟩
    rw [same]
    exact lists.put rises sturdy h (fun h => absurd h there) (Int.le_refl _)

theorem Lies.flush {u : Time} (lies : r.Lies key t) (counts : Position.Counts key t)
    (sturdy : r.outline.Sturdy) (h : r.flush options dialect u = .ok r') : r'.Lies key t := by
  obtain ⟨-, rfl⟩ | ⟨complete, outline, put, rfl⟩ := flush_cases h
  · exact lies
  · refine lies.put counts sturdy put (fun there => ?_) ?_
    · rw [Change.existsAt_onlyAt, beq_iff_eq] at there
      subst there
      rw [LogicalLine.isComplete, Bool.and_eq_true, Bool.and_eq_true] at complete
      exact ⟨rfl, complete.1.1⟩
    · simp only [Sides.get_set, Change.existsAt_onlyAt, beq_iff_eq]

theorem Lies.flushAll (lies : r.Lies key t) (counts : Position.Counts key t)
    (bears : r.Bears Sturdy) (shared : r.shared = true → r.pending.before = r.pending.after)
    (h : r.flushAll options dialect = .ok r') : r'.Lies key t := by
  obtain ⟨⟨both, complete, -⟩, outline, put, rfl⟩ | ⟨-, r₁, run, rest⟩ := flushAll_cases h
  · refine lies.put counts bears.outline put (fun _ => ⟨?_, ?_⟩) (Sides.get_both _ t)
    · cases t
      · rfl
      · exact (shared both).symm
    · rw [LogicalLine.isComplete, Bool.and_eq_true, Bool.and_eq_true] at complete
      exact complete.1.1
  · exact (lies.flush counts bears.outline run).flush counts
      (bears.flush kept_sturdy run).outline rest

/-- A run that moves on leaves what it has put behind. -/
theorem Lies.move {change : Change} {place : Position} (lies : r.Lies key t)
    (counts : Position.Counts key t) (shifted : r.place.shift? 1 change = some place) :
    ({ r with place } : Run).Lies key t := by
  obtain ⟨ahead, es, lists, rises⟩ := lies
  have up := counts.shift _ _ _ shifted
  refine ⟨fun p hp => (ahead p hp).trans up, es, lists, rises.mono ?_⟩
  cases hp : (r.pending.get t).start with
  | some p => exact (bound_of_some hp).le.trans (bound_of_some (r := { r with place }) hp).ge
  | none =>
    rw [bound_of_none hp, bound_of_none (r := { r with place }) hp]
    exact Int.add_le_add_right up 1

/-- A line that is taken goes behind what is pending. -/
theorem Lies.take {change : Change} {place : Position} (lies : r.Lies key t)
    (counts : Position.Counts key t) (shifted : r.place.shift? 1 change = some place)
    (content : String) : (({ r with place } : Run).take change content).Lies key t := by
  have moved := lies.move counts shifted
  obtain ⟨ahead, es, lists, rises⟩ := lies
  have pending : (({ r with place } : Run).take change content).pending.get t =
      if change.existsAt t then (r.pending.get t).consume content place else r.pending.get t :=
    get_take content
  by_cases there : change.existsAt t = true
  · rw [if_pos there] at pending
    have starts : ((({ r with place } : Run).take change content).pending.get t).start =
        (r.pending.get t).start.or (some place) := by
      rw [pending]
      rfl
    cases hp : (r.pending.get t).start with
    | some p =>
      rw [hp, Option.some_or] at starts
      refine ⟨fun q hq => ?_, es, lists, rises.mono ?_⟩
      · obtain rfl := Option.some.inj (starts.symm.trans hq)
        exact moved.ahead p hp
      · rw [bound_of_some hp, bound_of_some starts]
    | none =>
      rw [hp, Option.none_or] at starts
      refine ⟨fun q hq => ?_, es, lists, rises.mono ?_⟩
      · obtain rfl := Option.some.inj (starts.symm.trans hq)
        exact Int.le_refl _
      · rw [bound_of_none hp, bound_of_some starts, counts.there _ _ _ shifted there]
  · rw [if_neg there] at pending
    refine ⟨fun p hp => moved.ahead p (pending ▸ hp), ?_⟩
    rw [bound, pending]
    exact moved.lists

theorem Lies.step {line : PhysicalLine} (lies : r.Lies key t) (counts : Position.Counts key t)
    (bears : r.Bears Sturdy) (tuned : r.Tuned) (h : r.step options dialect line = .ok r') :
    r'.Lies key t := by
  obtain ⟨change, place, hc, shifted⟩ := exists_shift_of_step h
  rw [step_eq hc shifted] at h
  split at h
  · obtain rfl : { r with place } = r' := Except.ok.inj h
    exact lies.move counts shifted
  · have moved : ({ r with place } : Run).Bears Sturdy := ⟨bears.outline, bears.pending⟩
    have tuned' : ({ r with place } : Run).Tuned := ⟨tuned.shared, tuned.fresh⟩
    exact (lies.take counts shifted line.content).flushAll counts (moved.take change line.content)
      (tuned'.take line.content).shared h

/-- What a whole run has put lies in order. -/
theorem Lies.run {source : Source} (read : List PhysicalLine) {rest : List PhysicalLine}
    (counts : Position.Counts key t)
    (hr : read.foldlM (Run.step options dialect) (Run.start source) = .ok r) (lies : r.Lies key t)
    (h : rest.foldlM (Run.step options dialect) r = .ok r') : r'.Lies key t := by
  induction rest generalizing read r with
  | nil =>
    cases h
    exact lies
  | cons line rest ih =>
    rw [List.foldlM_cons] at h
    obtain ⟨r₁, step, h⟩ := Outcome.bind_eq_ok_iff.1 h
    have bears := (bears_start (sturdy_start source)).run kept_sturdy hr
    obtain ⟨tuned, -⟩ := plays_run (tuned_start source) (waits_start source)
      (plays_start source) hr
    exact ih (read ++ [line]) (run_snoc hr step) (lies.step counts bears tuned step) h

end Reading.Run

/-! ## What was read -/

theorem Position.counts_diff (t : Time) : Position.Counts Position.diff t where
  restrict _ _ _ := rfl
  there _ _ _ shifted _ := Reading.diff_shift shifted
  shift _ _ _ shifted := by
    rw [Reading.diff_shift shifted]
    omega

theorem Position.counts_get (t : Time) : Position.Counts (·.get t) t where
  restrict p c there := by rw [Position.get_restrict, if_pos there]
  there p q c shifted there := by
    have moved := Reading.get_shift shifted t
    rw [if_pos there, lineNumber?_eq_some_iff] at moved
    exact moved.1.symm
  shift p q c shifted := by
    have moved := Reading.get_shift shifted t
    split at moved
    · have := (lineNumber?_eq_some_iff.1 moved).1
      omega
    · exact moved.ge

namespace Reading

open Diff Outline Printing

variable {options : Options} {dialect : Dialect} {source : Source} {lines : List PhysicalLine}
  {d : Diff} {key : Position → Int} {t : Time} {f : Forest Handle}

/-- The places of a diff that was read go up along its tree. -/
theorem placed_ofLines (counts : Position.Counts key t)
    (h : ofLines options dialect source lines = .ok d) (shape : d.Shape t f) :
    (placed key d t f).Pairwise Entry.Precedes := by
  obtain ⟨r, run, finish⟩ := Outcome.bind_eq_ok_iff.1 h
  obtain ⟨-, es, ⟨n, opened, holds, -, rfl⟩, rises⟩ :=
    Run.Lies.run [] counts rfl (Run.lies_start source) run
  obtain ⟨-, unopened, rfl⟩ := Run.of_finish finish
  obtain ⟨g, rfl, shape'⟩ := holds.exists_shape (opened ▸ unopened t)
  obtain rfl := shape'.unique shape
  rw [along, Nest.spell] at rises
  exact (List.pairwise_append.1 rises.order).2.1

/-- The nodes of a tree of a diff that was read are told apart by the lines at which they begin, and the
root by its kind. -/
theorem eq_of_start_ofLines {s : Sides (Forest Handle)} {n m : Handle}
    (h : ofLines options dialect source lines = .ok d) (twofold : d.Twofold s)
    (hn : n ∈ root :: (s.get t).flatten) (hm : m ∈ root :: (s.get t).flatten)
    (kind : (d.look n).kind = (d.look m).kind)
    (line : (d.look n).start.diff = (d.look m).start.diff) : n = m := by
  have top := look_root_kind twofold.toRegular
  obtain rfl | hn := List.mem_cons.1 hn <;> obtain rfl | hm := List.mem_cons.1 hm
  · rfl
  · exact absurd (kind.symm.trans top) (twofold.kind t m hm)
  · exact absurd (kind.trans top) (twofold.kind t n hn)
  · have full {k : Handle} (hk : k ∈ (s.get t).flatten) : (d.look k).label.lines ≠ [] := by
      refine (filled_ofLines h).label k ?_ (twofold.lt_size (List.mem_cons_of_mem root hk))
      rintro rfl
      exact (twofold.shape t).root_not_mem hk
    exact eq_of_start (placed_ofLines (Position.counts_diff t) h (twofold.shape t)) hn hm
      (twofold.kind t n hn) (twofold.kind t m hm) (full hn) (full hm) line

/-- The closing lines of a diff that was read are those of its chains, and no two chains are closed by
one line at the same time. -/
theorem shut_ofLines {s : Sides (Forest Handle)} (h : ofLines options dialect source lines = .ok d)
    (twofold : d.Twofold s) : Shut d s := by
  obtain ⟨o, ⟨⟨⟨neat, m, ho⟩, filled⟩, recorded⟩, unopened, rfl⟩ :=
    kept_ofLines ⟨sturdy_start source, recorded_start source⟩ kept_recorded h
  have closedAll (n) (t) (kind : (o.diff.look n).kind = .ifBranch) (ht : n ∈ o.opened.get t) :
      False := by
    obtain ⟨k, opened, holds, -⟩ := ho t
    obtain ⟨g, rfl, -⟩ := holds.exists_shape (opened ▸ unopened t)
    rw [opened, Nest.opened, List.mem_singleton] at ht
    exact ne_root_of_kind neat.orderly.toRegular kind (by decide) ht
  have mem (n) (t) (c) (hc : (o.diff.look n).closing.get t = some c) :
      n ∈ (s.get t).flatten := by
    obtain ⟨kind, there, -⟩ := recorded.mem n t c hc
    have reaches := neat.orderly.reaches (lt_size_of_lives there)
    exact (List.mem_cons.1 ((twofold.lives_iff neat.orderly.top reaches).1 there)).resolve_left
      (ne_root_of_kind neat.orderly.toRegular kind (by decide))
  have recordedAt {n : Handle} {t : Time} {c : ClosingLine} (hc : o.diff.Records n t c) :
      (o.diff.look n).closing.get t = some c := (Node.closingAt_eq_some_iff.1 hc.2).2
  refine ⟨twofold, neat.orderly.top, fun n t _ kind there => ?_, fun n t c hc => ?_,
    fun n t u c hc there => ?_, fun t n k c e hc he same => ?_⟩
  · by_contra none
    rw [Bool.not_eq_true, Option.isSome_eq_false_iff, Option.isNone_iff_eq_none] at none
    exact closedAll n t kind ((recorded.unclosed n t kind there).1 none)
  · exact ⟨mem n t c (recordedAt hc), (recorded.mem n t c (recordedAt hc)).2.2⟩
  · obtain ⟨k, hk⟩ := recorded.both n t u c (recordedAt hc) there
    obtain ⟨kind, lives, -⟩ := recorded.mem k u c hk
    exact ⟨k, neat.orderly.reaches (lt_size_of_lives lives),
      Node.closingAt_eq_some_iff.2 ⟨kind, hk⟩⟩
  · exact eq_of_rises (placed_ofLines (Position.counts_diff t) h (twofold.shape t))
      (mem n t c (recordedAt hc)) (mem k t e (recordedAt he)) hc.2 he.2
      (filled.closing n t c (recordedAt hc)) (filled.closing k t e (recordedAt he)) same

end Reading

end Variation
