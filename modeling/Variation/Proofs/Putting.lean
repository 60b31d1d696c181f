import Variation.Proofs.Outlines

/-!
# Putting a line into an outline

A complete line that is put into an outline closes a chain at each of its times, or adds one node
below the innermost open places of its times, or joins the code that was read last. The first two
are what the line does to the nest of each of its times alone; what joins leaves a nest that prints
the same as if it had been added. So a line can be put into an outline exactly if it can be put into
the nest of each time at which it is there. What `put` can do is said once, in `put_cases`.
-/

namespace Variation.Reading.Outline

open Diff

variable {o o' : Outline} {t : Time} {m m' : Time → Nest Facet} {options : Options}
  {dialect : Dialect} {line : LogicalLine} {change : Change} {last stop : Position}

/-- The place at which a line starts. -/
def startOf (line : LogicalLine) (last : Position) : Position := line.start.getD last

theorem put_unreadable (item : dialect.item? line.text = none) (range : last.add? 1 = some stop) :
    ∃ cause, o.put options dialect line change last =
      fail cause ((startOf line last).restrict change) := by
  unfold Dialect.item? at item
  split at item
  · next cause unread =>
    refine ⟨cause, ?_⟩
    rw [put, range]
    simp only [Outcome.inRange_some, Outcome.ok_bind, unread]
    rfl
  · cases item
  · next kind? other read =>
    split at item
    · next conditional =>
      split at item
      · next cause unread =>
        refine ⟨cause, ?_⟩
        obtain ⟨kind, rfl⟩ : ∃ kind, kind? = some kind := by
          cases kind? with
          | none => cases conditional
          | some kind => exact ⟨kind, rfl⟩
        rw [put, range]
        simp only [Outcome.inRange_some, Outcome.ok_bind, read, unread]
        rw [show (pure (some kind) : Outcome (Option Kind)) = .ok (some kind) from rfl,
          Outcome.ok_bind, if_neg other]
        simp only [Option.isNone_some, Bool.and_false, conditional]
        rfl
      · cases item
    · cases item

theorem put_closing (item : dialect.item? line.text = some .closing)
    (range : last.add? 1 = some stop) :
    o.put options dialect line change last =
      o.closeChains ⟨change, (startOf line last).restrict change, ⟨line.lines⟩⟩ := by
  unfold Dialect.item? at item
  split at item
  · cases item
  · next read =>
    rw [put, range]
    simp only [Outcome.inRange_some, Outcome.ok_bind, read]
    rfl
  · split at item
    · split at item <;> cases item
    · cases item

/-- The outline after lines joined a code node. -/
def joined (o : Outline) (c : Handle) (lines : List String) (stop : Position) : Outline :=
  { o with diff := o.diff.update c fun x => { x with label := x.label.append lines, stop } }

/-- A line joins the code that was read last: it has the same change and begins where that ends. -/
structure Joins (o : Outline) (c : Handle) (change : Change) (start stop : Position)
    (lines : List String) (o' : Outline) : Prop where
  last : o.lastCode = some c
  change : (o.diff.look c).change = change
  ends : (o.diff.look c).stop.diff = start.diff
  result : o' = o.joined c lines stop

/-- The code that a line joins: the code that was read last, if code is collapsed, the line is no
annotation, and that code has the same change and ends where the line starts. -/
def host? (options : Options) (dialect : Dialect) (line : LogicalLine) (change : Change)
    (start : Position) (o : Outline) : Option Handle :=
  if options.collapse && dialect.isCode line.text then
    o.lastCode.filter fun c =>
      (o.diff.look c).change = change ∧ (o.diff.look c).stop.diff = start.diff
  else none

/-- The code that a further line may join is the code that was read last, if that fits. -/
theorem joinable?_eq (start : Position) (recalls : ∀ c, o.lastCode = some c → c < o.diff.size) :
    o.joinable? change start = .ok (o.lastCode.filter fun c =>
      (o.diff.look c).change = change ∧ (o.diff.look c).stop.diff = start.diff) := by
  unfold joinable?
  cases hc : o.lastCode with
  | none => rfl
  | some c =>
    show (o.diff.node c >>= fun x => pure _) = _
    rw [node_look (recalls c hc), Outcome.ok_bind, Option.filter]
    simp only [decide_eq_true_eq]
    rfl

/-- Putting a line that becomes a node: it joins its host, or it is added. -/
theorem put_node_eq (options : Options) (change : Change) {kind : Kind} {formula : Option Formula}
    (recalls : ∀ c, o.lastCode = some c → c < o.diff.size)
    (item : dialect.item? line.text = some (.node kind formula)) (range : last.add? 1 = some stop) :
    o.put options dialect line change last =
      match o.host? options dialect line change ((startOf line last).restrict change) with
      | some c => .ok (o.joined c line.lines (stop.restrict change))
      | none => o.push change kind ((startOf line last).restrict change) (stop.restrict change) formula
          ⟨line.lines⟩ := by
  obtain ⟨kind?, read, other, rfl, carried⟩ := Dialect.item?_cases item
  have code : dialect.isCode line.text = kind?.isNone := by
    rw [Dialect.isCode, read]
    cases kind? <;> rfl
  rw [put, range, host?, code]
  simp only [Outcome.inRange_some, Outcome.ok_bind, read]
  rw [show (pure kind? : Outcome (Option Kind)) = .ok kind? from rfl, Outcome.ok_bind, if_neg other]
  by_cases joining : (options.collapse && kind?.isNone) = true
  · rw [if_pos joining, if_pos joining, joinable?_eq _ recalls, Outcome.ok_bind, startOf]
    obtain rfl : kind? = none := by simpa using (Bool.and_eq_true_iff.1 joining).2
    obtain rfl : formula = none := carried
    cases o.lastCode.filter _ with
    | none => rfl
    | some c => rfl
  · rw [if_neg joining, if_neg joining]
    split at carried
    · next conditional =>
      obtain ⟨f, readable, rfl⟩ := carried
      simp only [conditional, readable]
      rfl
    · next leaf =>
      subst carried
      simp only [leaf]
      rfl

theorem put_node (options : Options) (change : Change) {kind : Kind} {formula : Option Formula}
    (recalls : ∀ c, o.lastCode = some c → c < o.diff.size)
    (item : dialect.item? line.text = some (.node kind formula)) (range : last.add? 1 = some stop) :
    (o.put options dialect line change last = o.push change kind ((startOf line last).restrict change)
      (stop.restrict change) formula ⟨line.lines⟩) ∨
    (options.collapse = true ∧ kind = .artifact ∧ ∃ c o',
      o.put options dialect line change last = .ok o' ∧
      o.Joins c change ((startOf line last).restrict change) (stop.restrict change) line.lines o') := by
  rw [put_node_eq options change recalls item range]
  cases hosted : o.host? options dialect line change ((startOf line last).restrict change) with
  | none => exact .inl rfl
  | some c =>
    unfold host? at hosted
    split at hosted
    · next both =>
      obtain ⟨collapse, code⟩ := Bool.and_eq_true_iff.1 both
      obtain ⟨recent, fits⟩ := Option.filter_eq_some_iff.1 hosted
      obtain ⟨same, ends⟩ := decide_eq_true_iff.1 fits
      rw [Dialect.item?_of_isCode code] at item
      cases item
      exact .inr ⟨collapse, rfl, c, _, rfl, recent, same, ends, rfl⟩
    · cases hosted

theorem Shows.exists_top (ho : ∀ t, o.Shows t (m t)) :
    ∃ tops : Time → Handle, ∀ t, (o.opened.get t).head? = some (tops t) ∧ tops t < o.diff.size := by
  have each (t : Time) : ∃ a, (o.opened.get t).head? = some a ∧ a < o.diff.size := by
    obtain ⟨n, opened, holds, -, -⟩ := ho t
    exact ⟨n.top, by rw [opened, Nest.head?_opened], holds.lt_size Nest.top_mem_flatten⟩
  exact ⟨fun t => (each t).choose, fun t => (each t).choose_spec⟩

theorem Shows.lastCode_lt (ho : ∀ t, o.Shows t (m t)) (c : Handle) (hc : o.lastCode = some c) :
    c < o.diff.size := by
  obtain ⟨n, -, -, -, recalls⟩ := ho .before
  exact (recalls c hc).1

/-- What a line says carries a condition exactly if its kind does, and is no closing mark. -/
theorem item?_node {text : String} {kind : Kind} {formula : Option Formula}
    (h : dialect.item? text = some (.node kind formula)) :
    kind ≠ .endMark ∧ formula.isSome = kind.isConditional := by
  obtain ⟨kind?, -, other, rfl, carried⟩ := Dialect.item?_cases h
  refine ⟨fun mark => ?_, ?_⟩
  · cases kind? with
    | none => cases mark
    | some kind => exact other (congrArg some mark)
  · split at carried
    · next conditional =>
      obtain ⟨f, -, rfl⟩ := carried
      exact conditional.symm
    · next leaf =>
      rw [carried]
      exact (Bool.eq_false_iff.2 leaf).symm

/-! ## Closing -/

/-- The nest of a time after the innermost chain was closed at the times of a change. -/
def closedAt? (closing : ClosingLine) (m : Time → Nest Facet) (t : Time) : Option (Nest Facet) :=
  if closing.change.existsAt t then closed? closing t (m t) else some (m t)

section Closing

variable {closing : ClosingLine}

theorem closeChains_total (ho : ∀ t, o.Shows t (m t))
    (hm : ∀ t, closedAt? closing m t = some (m' t)) :
    ∃ o', closeChains closing o = .ok o' ∧ ∀ t, o'.Shows t (m' t) := by
  have there (t : Time) (ht : t ∈ closing.change.times) : closed? closing t (m t) = some (m' t) := by
    have h := hm t
    rw [closedAt?, if_pos (Change.mem_times.1 ht)] at h
    exact h
  have absent (t : Time) (ht : t ∉ closing.change.times) : m' t = m t := by
    have h := hm t
    rw [closedAt?, if_neg fun e => ht (Change.mem_times.2 e)] at h
    exact (Option.some.inj h).symm
  obtain ⟨o', run, -, -, shows'⟩ :=
    closeAll_ok rfl (fun t => (ho t).forget) (nodup_times _) there absent
  exact ⟨o', run, shows'⟩

theorem closeChains_cases (ho : ∀ t, o.Shows t (m t)) (h : closeChains closing o = .ok o') :
    ∃ m' : Time → Nest Facet,
      (∀ t, closedAt? closing m t = some (m' t)) ∧ ∀ t, o'.Shows t (m' t) := by
  have all (t : Time) : ∃ k, closedAt? closing m t = some k := by
    unfold closedAt?
    split
    · next there =>
      cases hk : closed? closing t (m t) with
      | some k => exact ⟨k, rfl⟩
      | none =>
        rw [closeChains_eq, closeAll_error rfl (fun t => (ho t).forget) (nodup_times _)
          (Change.mem_times.2 there) hk] at h
        cases h
    · exact ⟨m t, rfl⟩
  have chosen (t : Time) : closedAt? closing m t = some (all t).choose := (all t).choose_spec
  obtain ⟨o₁, run, shows₁⟩ := closeChains_total ho chosen
  rw [run] at h
  cases h
  exact ⟨_, chosen, shows₁⟩

end Closing

/-! ## Adding -/

/-- A node that grows an outline: it hangs below the innermost open places, and these allow it. -/
structure Grows (o : Outline) (x : Node) (o' : Outline) (tops : Time → Handle) : Prop where
  head : ∀ t, (o.opened.get t).head? = some (tops t)
  inStore : ∀ t, tops t < o.diff.size
  kind : x.kind ≠ .root
  mark : x.kind ≠ .endMark
  law : x.formula.isSome = x.kind.isConditional
  branch : x.kind.isContinuation = true → ∀ t, x.change.existsAt t = true →
    tops t ≠ root ∧ (o.diff.look (tops t)).kind ≠ .elseBranch
  result : o' = o.pushed tops x

/-- The nest of a time after a node was entered at the times of its change. -/
def enteredAt? (change : Change) (a : Time → Facet) (m : Time → Nest Facet) (t : Time) :
    Option (Nest Facet) :=
  if change.existsAt t then Nest.enter (a t) (m t) else some (m t)

section Adding

variable {kind : Kind} {start : Position} {formula : Option Formula} {label : Label}
  {tops : Time → Handle}

/-- What a nest says about its innermost place is what the outline holds there. -/
theorem Shows.continuable {k : Nest Facet} (ho : o.Shows t k)
    (head : (o.opened.get t).head? = some (tops t)) (hk : k.continuable = true) :
    tops t ≠ root ∧ (o.diff.look (tops t)).kind ≠ .elseBranch := by
  obtain ⟨n, opened, holds, rfl, -⟩ := ho
  rw [opened, Nest.head?_opened] at head
  have top : n.top = tops t := Option.some.inj head
  rw [← top]
  cases n with
  | base a done => cases hk
  | under a done rest =>
    have other : ((o.diff.look a).kind != .elseBranch) = true := hk
    exact ⟨holds.ne_root, bne_iff_ne.1 other⟩

theorem push_total (mark : kind ≠ .endMark) (law : formula.isSome = kind.isConditional)
    (ho : ∀ t, o.Shows t (m t))
    (hm : ∀ t, enteredAt? change (newFacet kind start stop formula label) m t = some (m' t)) :
    ∃ o' tops, push change kind start stop formula label o = .ok o' ∧
      Grows o (newNode change kind start stop formula label) o' tops ∧
      ∀ t, o'.Shows t (m' t) := by
  obtain ⟨tops, htops⟩ := Shows.exists_top ho
  have entered (t : Time) (there : change.existsAt t = true) :
      kind ≠ .root ∧ (kind.isContinuation = true → (m t).continuable = true) ∧
        (if kind.annotates then .under (newFacet kind start stop formula label t) .nil (m t)
          else (m t).hang (.tree (newFacet kind start stop formula label t) .nil)) = m' t := by
    have h := hm t
    rw [enteredAt?, if_pos there] at h
    exact Nest.enter_eq_some_iff.1 h
  have hk : kind ≠ .root := by
    obtain there | there := change.existsAt_or
    · exact (entered _ there).1
    · exact (entered _ there).1
  have branches (hc : kind.isContinuation = true) (t : Time) (there : change.existsAt t = true) :
      (m t).continuable = true := (entered t there).2.1 hc
  have run := push_eq (fun t => (htops t).1) (fun t => (htops t).2) hk law
    (fun hc t there => (checkBranch_eq_ok_iff (ho t) start
      (newNode change kind start stop formula label)).2 (branches hc t there))
  refine ⟨_, tops, run, ⟨fun t => (htops t).1, fun t => (htops t).2, hk, mark, law,
    fun hc t there => (ho t).continuable (htops t).1 (branches hc t there), rfl⟩, fun t => ?_⟩
  have bare (t : Time) : (newNode change kind start stop formula label).children.get t = [] :=
    children_newNode
  by_cases there : change.existsAt t = true
  · have shown := shows_pushed bare (htops t).1 (fun t => (htops t).2) (ho t) there
    rw [facet_newNode] at shown
    have result := (entered t there).2.2
    rw [← result]
    exact shown
  · have h := hm t
    rw [enteredAt?, if_neg there] at h
    rw [← Option.some.inj h]
    exact shows_pushed_of_absent bare (fun t => (htops t).2) (ho t) there

theorem push_cases (mark : kind ≠ .endMark) (law : formula.isSome = kind.isConditional)
    (ho : ∀ t, o.Shows t (m t)) (h : push change kind start stop formula label o = .ok o') :
    ∃ m' : Time → Nest Facet,
      (∀ t, enteredAt? change (newFacet kind start stop formula label) m t = some (m' t)) ∧
      (∀ t, o'.Shows t (m' t)) ∧
      ∃ tops, Grows o (newNode change kind start stop formula label) o' tops := by
  have all (t : Time) :
      ∃ k, enteredAt? change (newFacet kind start stop formula label) m t = some k := by
    unfold enteredAt?
    split
    · next there =>
      -- what cannot be entered makes the whole step fail
      cases hk : Nest.enter (newFacet kind start stop formula label t) (m t) with
      | some k => exact ⟨k, rfl⟩
      | none =>
        exfalso
        have refused : ¬ (kind ≠ .root ∧ (kind.isContinuation = true → (m t).continuable = true)) := by
          intro allowed
          have entered := (Nest.enter_eq_some_iff (a := newFacet kind start stop formula label t)
            (n := m t)).2 ⟨allowed.1, allowed.2, rfl⟩
          rw [hk] at entered
          cases entered
        by_cases hr : kind = .root
        · have refusal : ∃ e, (Edit.addNode change kind start stop formula label).result o.diff =
            .error e := result_addNode_root hr o.diff
          obtain ⟨e, he⟩ := refusal
          rw [push, he] at h
          cases h
        · have continuation : kind.isContinuation = true := by
            by_contra hc
            exact refused ⟨hr, fun c => absurd c hc⟩
          have closed : ¬ (m t).continuable = true := fun c => refused ⟨hr, fun _ => c⟩
          obtain ⟨e, he⟩ := push_error continuation law there fun c =>
            closed ((checkBranch_eq_ok_iff (ho t) start
              (newNode change kind start stop formula label)).1 c)
          rw [he] at h
          cases h
    · exact ⟨m t, rfl⟩
  have chosen (t : Time) : enteredAt? change (newFacet kind start stop formula label) m t =
      some (all t).choose := (all t).choose_spec
  obtain ⟨o₁, tops, run, grows, shows₁⟩ := push_total mark law ho chosen
  rw [run] at h
  cases h
  exact ⟨_, chosen, shows₁, tops, grows⟩

end Adding

/-! ## Either -/

/-- The nest of a time after a complete line of a change was put, if it can be put there. -/
def putAt? (dialect : Dialect) (line : LogicalLine) (change : Change) (start stop : Position)
    (m : Time → Nest Facet) (t : Time) : Option (Nest Facet) :=
  if change.existsAt t then (m t).put dialect line.lines (start.get t) (stop.get t) else some (m t)

theorem putAt?_closing {start : Position} (item : dialect.item? line.text = some .closing)
    (t : Time) : putAt? dialect line change start stop m t =
      closedAt? ⟨change, start.restrict change, ⟨line.lines⟩⟩ m t := by
  unfold putAt? closedAt?
  split
  · next there =>
    have same : ({ lines := line.lines } : LogicalLine).text = line.text := rfl
    rw [Nest.put, same, item, closed?]
    simp only [Position.get_restrict, there, if_true]
  · rfl

theorem putAt?_node {start : Position} {kind : Kind} {formula : Option Formula}
    (item : dialect.item? line.text = some (.node kind formula)) (t : Time) :
    putAt? dialect line change start stop m t =
      enteredAt? change (newFacet kind (start.restrict change) (stop.restrict change) formula
        ⟨line.lines⟩) m t := by
  unfold putAt? enteredAt?
  split
  · next there =>
    have same : ({ lines := line.lines } : LogicalLine).text = line.text := rfl
    rw [Nest.put, same, item]
    simp only [newFacet, Position.get_restrict, there, if_true]
  · rfl

/-- What a line cannot be put into at some time, it cannot be put into at all. -/
theorem putAt?_unreadable {start : Position} (item : dialect.item? line.text = none) :
    ∃ t, putAt? dialect line change start stop m t = none := by
  have same : ({ lines := line.lines } : LogicalLine).text = line.text := rfl
  have each (t : Time) (there : change.existsAt t = true) :
      putAt? dialect line change start stop m t = none := by
    rw [putAt?, if_pos there, Nest.put, same, item]
  obtain there | there := change.existsAt_or
  · exact ⟨_, each _ there⟩
  · exact ⟨_, each _ there⟩

/-! ## Joining -/

section Joining

variable {c : Handle} {start : Position} {lines : List String} {kind : Kind}
  {formula : Option Formula}

/-- What code says after lines joined it. -/
def extended (lines : List String) (stop : Int) (a : Facet) : Facet :=
  { a with label := a.label.append lines, stop }

/-- The nest of a time after lines joined the code that was read last, at the times of a change. -/
def extendedAt (change : Change) (lines : List String) (stop : Position) (m : Time → Nest Facet)
    (t : Time) : Nest Facet :=
  if change.existsAt t then (m t).atEnd (extended lines (stop.get t)) else m t

theorem alike_joined (hc : c < o.diff.size) : Alike o.diff (o.joined c lines stop).diff := by
  refine ⟨size_update .., fun n => ?_⟩
  simp only [joined, core, look_update hc]
  split <;> rfl

theorem facet_joined (hc : c < o.diff.size) {n : Handle} :
    (o.joined c lines stop).diff.facet t n =
      if c = n then extended lines (stop.get t) (o.diff.facet t n) else o.diff.facet t n := by
  simp only [joined, facet, look_update hc]
  split
  · next same =>
    subst same
    rfl
  · rfl

theorem recalls_joined {n : Nest Handle} (hc : c < o.diff.size) (recalls : o.Recalls t n) :
    (o.joined c lines stop).Recalls t n := by
  intro a ha
  obtain ⟨size, code, place⟩ := recalls a ha
  have alike : Alike o.diff (o.joined c lines stop).diff := alike_joined hc
  rw [alike.size, alike.kind, alike.change]
  exact ⟨size, code, place⟩

/-- What is finished last in a nest without repetition is nowhere else. -/
theorem not_mem_of_hang {k : Nest Handle} (once : (k.hang (.tree c .nil)).flatten.Nodup) :
    c ∉ k.flatten := by
  rw [Nest.flatten_hang, Forest.flatten_tree, List.nodup_append] at once
  exact fun hc => once.2.2 c hc c List.mem_cons_self rfl

/-- What joins extends the last leaf of the nest of each of its times. -/
theorem Joins.shows (h : o.Joins c change start stop lines o') (ho : ∀ t, o.Shows t (m t)) :
    (∀ t, o'.Shows t (extendedAt change lines stop m t)) ∧
      ∀ t, change.existsAt t = true →
        ∃ (k : Nest Facet) (a : Facet), m t = k.hang (.tree a .nil) ∧ a.kind = .artifact := by
  obtain ⟨last, same, -, rfl⟩ := h
  have inStore : c < o.diff.size := by
    obtain ⟨n, -, -, -, recalls⟩ := ho .before
    exact (recalls c last).1
  have alike : Alike o.diff (o.joined c lines stop).diff := alike_joined inStore
  refine ⟨fun t => ?_, fun t there => ?_⟩
  · obtain ⟨n, opened, holds, image, recalls⟩ := ho t
    refine ⟨n, opened, alike.holds holds, ?_, recalls_joined inStore recalls⟩
    obtain ⟨-, -, place⟩ := recalls c last
    rw [same] at place
    rw [extendedAt]
    by_cases there : change.existsAt t = true
    · rw [if_pos there] at place ⊢
      obtain ⟨k, rfl⟩ := place
      have apart : ∀ a ∈ k.flatten, c ≠ a := fun a ha e => not_mem_of_hang holds.once (e ▸ ha)
      have rest : k.map ((o.joined c lines stop).diff.facet t) = k.map (o.diff.facet t) :=
        Nest.map_congr fun a ha => by rw [facet_joined inStore, if_neg (apart a ha)]
      rw [← image, Nest.map_hang, Nest.map_hang, Forest.map_tree, Forest.map_tree, Nest.atEnd_hang,
        rest, facet_joined inStore, if_pos rfl]
      rfl
    · rw [if_neg there] at place ⊢
      rw [← image]
      refine Nest.map_congr fun a ha => ?_
      rw [facet_joined inStore, if_neg]
      rintro rfl
      exact place ha
  · obtain ⟨n, opened, holds, image, recalls⟩ := ho t
    obtain ⟨-, code, place⟩ := recalls c last
    rw [same, if_pos there] at place
    obtain ⟨k, rfl⟩ := place
    rw [Nest.map_hang] at image
    exact ⟨_, _, image.symm, code⟩

end Joining

/-- What putting a line does: it closes chains or adds one node, and at each time it puts the line
into the nest; or it joins the code that was read last. -/
theorem put_cases (range : last.add? 1 = some stop) (ho : ∀ t, o.Shows t (m t))
    (h : o.put options dialect line change last = .ok o') :
    (∃ m' : Time → Nest Facet,
      (∀ t, putAt? dialect line change (startOf line last) stop m t = some (m' t)) ∧
      (∀ t, o'.Shows t (m' t)) ∧
      (closeChains ⟨change, (startOf line last).restrict change, ⟨line.lines⟩⟩ o = .ok o' ∨
        ∃ kind formula tops, dialect.item? line.text = some (.node kind formula) ∧
          o.Grows (newNode change kind ((startOf line last).restrict change)
            (stop.restrict change) formula ⟨line.lines⟩) o' tops)) ∨
    (options.collapse = true ∧ dialect.item? line.text = some (.node .artifact none) ∧
      ∃ c, o.Joins c change ((startOf line last).restrict change) (stop.restrict change)
        line.lines o') := by
  cases item : dialect.item? line.text with
  | none =>
    have failure : ∃ cause, o.put options dialect line change last =
      fail cause ((startOf line last).restrict change) := put_unreadable item range
    obtain ⟨cause, failed⟩ := failure
    rw [failed] at h
    cases h
  | some i =>
    cases i with
    | closing =>
      rw [put_closing item range] at h
      obtain ⟨m', closed, shows'⟩ := closeChains_cases ho h
      refine .inl ⟨m', fun t => ?_, shows', .inl h⟩
      rw [putAt?_closing item, closed t]
    | node kind formula =>
      obtain ⟨mark, law⟩ := item?_node item
      obtain pushing | ⟨collapse, rfl, c, o₁, joining, joins⟩ :=
        put_node options change (Shows.lastCode_lt ho) item range
      · rw [pushing] at h
        obtain ⟨m', entered, shows', tops, grows⟩ := push_cases mark law ho h
        refine .inl ⟨m', fun t => ?_, shows', .inr ⟨kind, formula, tops, rfl, grows⟩⟩
        rw [putAt?_node item, entered t]
      · rw [joining] at h
        cases h
        cases formula with
        | some f => cases law
        | none => exact .inr ⟨collapse, rfl, c, joins⟩

/-- A line can be put into an outline if it can be put into the nest of each time. -/
theorem put_total (range : last.add? 1 = some stop) (ho : ∀ t, o.Shows t (m t))
    (hm : ∀ t, putAt? dialect line change (startOf line last) stop m t = some (m' t)) :
    ∃ o', o.put options dialect line change last = .ok o' := by
  cases item : dialect.item? line.text with
  | none =>
    have refusal : ∃ t, putAt? dialect line change (startOf line last) stop m t = none :=
      putAt?_unreadable item
    obtain ⟨t, refused⟩ := refusal
    rw [hm t] at refused
    cases refused
  | some i =>
    cases i with
    | closing =>
      obtain ⟨o', run, -⟩ := closeChains_total ho fun t => by
        rw [← putAt?_closing item]
        exact hm t
      exact ⟨o', by rw [put_closing item range, run]⟩
    | node kind formula =>
      obtain pushing | ⟨-, -, c, o', joining, -⟩ :=
        put_node options change (Shows.lastCode_lt ho) item range
      · obtain ⟨mark, law⟩ := item?_node item
        obtain ⟨o', tops, run, -, -⟩ := push_total mark law ho fun t => by
          rw [← putAt?_node item]
          exact hm t
        exact ⟨o', by rw [pushing, run]⟩
      · exact ⟨o', joining⟩

end Variation.Reading.Outline
