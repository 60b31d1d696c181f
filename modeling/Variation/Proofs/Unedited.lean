import Variation.Proofs.Orderly

/-!
# Reading a text that nothing changes

Every line of a source text is unchanged, so both times of its run read the same lines and stay the
same. What a solo can read, the run of a source text can read too, and the diff it makes has the same
edges at both times and places that agree. The end of a node is the one thing that needs care: it is
patched for one time after the other, and its line in the diff is the greater one of the two. That it
is the line of both times in the end follows from the order of the lines (`Chained`): what is open
ended before the line that closes it.
-/

namespace Variation

open Reading

/-! ## Open annotations are in order -/

/-- Open annotations, the innermost first: each ends and starts at the latest where the one inside it
starts, the innermost one at the bound. -/
def Chained : Int → List Facet → Prop
  | _, [] => True
  | bound, a :: rest => a.stop ≤ bound ∧ a.start ≤ bound ∧ Chained a.start rest

section Chained

variable {bound bound' line stop : Int} {a : Facet} {as bs : List Facet} {n m : Nest Facet}
  {label : Label} {extra : Forest Facet}

theorem Chained.mono (h : Chained bound as) (le : bound ≤ bound') : Chained bound' as := by
  cases as with
  | nil => trivial
  | cons a as =>
    obtain ⟨ends, starts, rest⟩ := h
    exact ⟨Int.le_trans ends le, Int.le_trans starts le, rest⟩

theorem Chained.tail (h : Chained bound (a :: as)) : Chained bound as :=
  h.2.2.mono h.2.1

theorem Chained.suffix (h : Chained bound as) (suffix : bs <:+ as) : Chained bound bs := by
  induction as with
  | nil =>
    rw [List.suffix_nil.1 suffix]
    trivial
  | cons a as ih =>
    obtain rfl | suffix := List.suffix_cons_iff.1 suffix
    · exact h
    · exact ih h.tail suffix

namespace Nest

theorem opened_close_suffix (h : close line label stop extra n = some m) :
    m.opened <:+ n.opened := by
  induction n generalizing stop extra with
  | base a done => cases h
  | under a done rest ih =>
    rw [close] at h
    split at h
    · cases h
      rw [opened_hang]
      exact List.suffix_cons a rest.opened
    · exact (ih h).trans (List.suffix_cons a rest.opened)

/-- Putting a line keeps the order. -/
theorem chained_put {dialect : Dialect} {lines : List String} {start : Int}
    (h : put dialect lines start stop n = some m) (chained : Chained start n.opened)
    (le : start ≤ stop) : Chained stop m.opened := by
  unfold put at h
  split at h
  · cases h
  · exact (chained.suffix (opened_close_suffix h)).mono le
  · next kind formula _ =>
    obtain ⟨-, -, rfl⟩ := enter_eq_some_iff.1 h
    split
    · show stop ≤ stop ∧ start ≤ stop ∧ Chained start n.opened
      exact ⟨Int.le_refl _, le, chained⟩
    · rw [opened_hang]
      exact chained.mono le

end Nest

end Chained

namespace Reading.Solo

/-- The line at which the next thing that is put starts at the earliest. -/
def bound (s : Solo) : Int :=
  match s.pending.start with
  | some p => p.diff
  | none => s.place + 1

/-- What is open in a solo came before what is read now. -/
structure Timely (s : Solo) : Prop where
  ahead : s.bound ≤ s.place + 1
  chained : Chained s.bound s.nest.opened

variable {options : Options} {dialect : Dialect} {s s' : Solo} {content : String}

theorem bound_of_none (h : s.pending.start = none) : s.bound = s.place + 1 := by
  rw [bound, h]

theorem bound_of_some {p : Position} (h : s.pending.start = some p) : s.bound = p.diff := by
  rw [bound, h]

theorem startOf_eq_bound (h : s.pending.hasStarted = true) :
    (Outline.startOf s.pending (flat s.place)).diff = s.bound := by
  obtain ⟨p, hp⟩ := Option.isSome_iff_exists.1 h
  rw [Outline.startOf, bound, hp]
  rfl

theorem Timely.flush (timely : s.Timely) (h : s.flush dialect = some s') : s'.Timely := by
  unfold Solo.flush at h
  split at h
  · next complete =>
    obtain ⟨stop, ends, h⟩ := Option.bind_eq_some_iff.1 h
    obtain ⟨nest, put, h⟩ := Option.bind_eq_some_iff.1 h
    cases h
    have started : s.pending.hasStarted = true := by
      simp only [LogicalLine.isComplete, Bool.and_eq_true] at complete
      exact complete.1.1
    obtain ⟨rfl, -⟩ := lineNumber?_eq_some_iff.1 ends
    rw [startOf_eq_bound started] at put
    exact ⟨Int.le_refl _, Nest.chained_put put timely.chained timely.ahead⟩
  · cases h
    exact timely

/-- A line that is taken does not change where the next thing starts. -/
theorem Timely.take (timely : s.Timely) :
    Timely ⟨s.pending.consume content (flat (s.place + 1)), s.place + 1, s.nest⟩ := by
  have new : Solo.bound ⟨s.pending.consume content (flat (s.place + 1)), s.place + 1, s.nest⟩ =
      s.bound := by
    cases hp : s.pending.start with
    | none =>
      rw [bound_of_none hp]
      apply bound_of_some (p := flat (s.place + 1))
      simp only [LogicalLine.consume, hp, Option.none_or]
    | some p =>
      rw [bound_of_some hp]
      apply bound_of_some (p := p)
      simp only [LogicalLine.consume, hp, Option.some_or]
  obtain ⟨ahead, chained⟩ := timely
  refine ⟨?_, by rw [new]; exact chained⟩
  rw [new]
  show s.bound ≤ s.place + 1 + 1
  omega

theorem Timely.step (timely : s.Timely) (h : s.step options dialect content = some s') :
    s'.Timely := by
  obtain ⟨place, moved, h⟩ := Option.bind_eq_some_iff.1 h
  obtain ⟨rfl, -⟩ := lineNumber?_eq_some_iff.1 moved
  split at h
  · cases h
    obtain ⟨ahead, chained⟩ := timely
    cases hp : s.pending.start with
    | none =>
      have new : Solo.bound { s with place := s.place + 1 } = s.place + 1 + 1 := bound_of_none hp
      refine ⟨by rw [new], ?_⟩
      rw [new]
      apply chained.mono
      omega
    | some p =>
      have new : Solo.bound { s with place := s.place + 1 } = s.bound := by
        rw [bound_of_some hp]
        exact bound_of_some hp
      refine ⟨?_, by rw [new]; exact chained⟩
      show Solo.bound { s with place := s.place + 1 } ≤ s.place + 1 + 1
      omega
  · exact Timely.flush (Timely.take timely) h

theorem timely_start : start.Timely := by
  refine ⟨Int.le_refl _, ?_⟩
  show invalidLine ≤ 1 ∧ (0 : Int) ≤ 1 ∧ True
  decide

end Reading.Solo

/-! ## Closing on both sides -/

namespace Nest

theorem nodup_opened {α : Type} {n : Nest α} (h : n.flatten.Nodup) : n.opened.Nodup := by
  induction n with
  | base a done => exact List.nodup_singleton a
  | under a done rest ih =>
    obtain ⟨once, -, apart⟩ := List.nodup_append.1 h
    refine List.nodup_cons.2 ⟨fun hm => ?_, ih once⟩
    exact apart a (mem_flatten_of_mem_opened hm) a List.mem_cons_self rfl

end Nest

namespace Diff

/-- The places of a diff are those of a text that nothing changes, but for ends that are patched at
one time only: their line in the diff is the greater one. -/
structure Flat (d : Diff) : Prop where
  start : ∀ n, n < d.size → ∃ i, (d.look n).start = Solo.flat i
  stop : ∀ n, n < d.size → (d.look n).stop.diff = max (d.look n).stop.before (d.look n).stop.after

/-- Nothing in a diff changed. -/
structure Unedited (d : Diff) : Prop where
  change : ∀ n, n < d.size → (d.look n).change = .unchanged
  above : ∀ n, d.above .before n = d.above .after n
  below : ∀ n, d.below .before n = d.below .after n

theorem Unedited.alike {d d' : Diff} (h : d.Unedited) (same : Alike d d') : d'.Unedited := by
  refine ⟨fun n hn => ?_, fun n => ?_, fun n => ?_⟩
  · rw [same.change]
    exact h.change n (same.size ▸ hn)
  · rw [same.above, same.above, h.above]
  · rw [same.below, same.below, h.below]

end Diff

namespace Reading.Outline

open Diff

variable {d d' : Diff} {t : Time} {closing : ClosingLine} {next : Position} {a : Handle}
  {ns rest : List Handle} {o o' : Outline} {m m' : Time → Nest Facet}

/-- An end that moves down to a line keeps the greater one. -/
theorem max_endAt {x : Node} {opens : Bool} {i : Int}
    (stop : x.stop.diff = max x.stop.before x.stop.after) (flat : next = Solo.flat i)
    (le : x.stop.get t ≤ i) : (endAt t closing next opens x).stop.diff =
      max (endAt t closing next opens x).stop.before (endAt t closing next opens x).stop.after := by
  subst flat
  cases t with
  | before =>
    show max i x.stop.diff = max i x.stop.after
    have le : x.stop.before ≤ i := le
    omega
  | after =>
    show max i x.stop.diff = max x.stop.before i
    have le : x.stop.after ≤ i := le
    omega

theorem flat_endAt (h : d.Flat) (ha : a < d.size) {opens : Bool} {i : Int}
    (flat : next = Solo.flat i) (le : (d.facet t a).stop ≤ i) :
    (d.update a (endAt t closing next opens)).Flat := by
  refine ⟨fun n hn => ?_, fun n hn => ?_⟩
  · rw [size_update] at hn
    rw [look_update ha]
    split
    · exact h.start n hn
    · exact h.start n hn
  · rw [size_update] at hn
    rw [look_update ha]
    split
    · next e =>
      subst e
      exact max_endAt (h.stop a hn) flat le
    · exact h.stop n hn

theorem closeChain_flat {i : Int} (h : d.Flat) (flat : next = Solo.flat i) (once : ns.Nodup)
    (chained : Chained i (ns.map (d.facet t)))
    (run : closeChain t closing next d ns = .ok (d', rest)) : d'.Flat := by
  have closes := closesChain_of_run run
  clear run
  induction closes generalizing i with
  | opening _ inStore _ => exact flat_endAt h inStore flat chained.1
  | @branch next d _ a ns _ _ inStore _ _ ih =>
    obtain ⟨new, once⟩ := List.nodup_cons.1 once
    obtain ⟨ends, -, inner⟩ := chained
    obtain ⟨j, start⟩ := h.start a inStore
    refine ih (flat_endAt h inStore flat ends) start once ?_
    have same : ns.map ((d.update a (endAt t closing next false)).facet t) =
        ns.map (d.facet t) := by
      refine List.map_congr_left fun m hm => facet_endAt_of_ne inStore ?_
      rintro rfl
      exact new hm
    have line : (d.facet t a).start = j := by
      show (d.look a).start.get t = j
      rw [start]
      cases t <;> rfl
    rw [same, ← line]
    exact inner

theorem closeAll_flat {ts : List Time} {i : Int} (h : o.diff.Flat) (flat : closing.line = Solo.flat i)
    (fresh : o.lastCode = none) (ho : ∀ t, o.Shows t (m t)) (once : ts.Nodup)
    (chained : ∀ t ∈ ts, Chained i (m t).opened)
    (hc : ∀ t ∈ ts, closed? closing t (m t) = some (m' t))
    (run : ts.foldlM (closeAt closing) o = .ok o') : o'.diff.Flat := by
  induction ts generalizing o m with
  | nil =>
    cases run
    exact h
  | cons t ts ih =>
    obtain ⟨new, once⟩ := List.nodup_cons.1 once
    obtain ⟨here, chained⟩ := List.forall_mem_cons.1 chained
    obtain ⟨closed, hc⟩ := List.forall_mem_cons.1 hc
    obtain ⟨o₁, run₁, -, last, shows₁⟩ := closeAt_ok fresh ho closed
    rw [List.foldlM_cons, run₁, Outcome.ok_bind] at run
    have flat₁ : o₁.diff.Flat := by
      obtain ⟨n, opened, holds, image, -⟩ := ho t
      rw [closeAt, opened] at run₁
      obtain ⟨⟨d, rest⟩, chain, run₁⟩ := Outcome.bind_eq_ok_iff.1 run₁
      obtain rfl : { o with diff := d, opened := o.opened.set t rest } = o₁ := Except.ok.inj run₁
      refine closeChain_flat h flat (Nest.nodup_opened holds.once) ?_ chain
      rw [← Nest.opened_map, image]
      exact here
    -- the other times are as before
    have other (u : Time) (hu : u ∈ ts) : u ≠ t := by
      rintro rfl
      exact new hu
    refine ih flat₁ (last.trans fresh) shows₁ once (fun u hu => ?_) (fun u hu => ?_) run
    · rw [if_neg (other u hu)]
      exact chained u hu
    · rw [if_neg (other u hu)]
      exact hc u hu

section Grows

variable {x : Node} {tops : Time → Handle}

theorem start_pushed : ((o.pushed tops x).diff.look a).start =
    if a = o.diff.size then x.start else (o.diff.look a).start := by
  show ((o.pushed tops x).diff.payload a).start = _
  rw [payload_pushed]
  split <;> rfl

theorem stop_pushed : ((o.pushed tops x).diff.look a).stop =
    if a = o.diff.size then x.stop else (o.diff.look a).stop := by
  show ((o.pushed tops x).diff.payload a).stop = _
  rw [payload_pushed]
  split <;> rfl

theorem Grows.flat (h : o.Grows x o' tops) (hf : o.diff.Flat) {i j : Int}
    (start : x.start = Solo.flat i) (stop : x.stop = Solo.flat j) : o'.diff.Flat := by
  obtain rfl := h.result
  refine ⟨fun n hn => ?_, fun n hn => ?_⟩
  · rw [start_pushed]
    split
    · exact ⟨i, start⟩
    · next old =>
      rw [size_pushed] at hn
      exact hf.start n (Nat.lt_of_le_of_ne (Nat.le_of_lt_succ hn) old)
  · rw [stop_pushed]
    split
    · rw [stop]
      exact (Int.max_self j).symm
    · next old =>
      rw [size_pushed] at hn
      exact hf.stop n (Nat.lt_of_le_of_ne (Nat.le_of_lt_succ hn) old)

theorem Grows.unedited (h : o.Grows x o' tops) (hu : o.diff.Unedited) (change : x.change = .unchanged)
    (same : tops .before = tops .after) (hc : ∀ t, x.children.get t = [])
    (hp : ∀ t, x.parent.get t = none) : o'.diff.Unedited := by
  obtain rfl := h.result
  refine ⟨fun n hn => ?_, fun n => ?_, fun n => ?_⟩
  · rw [change_pushed]
    split
    · exact change
    · next old =>
      rw [size_pushed] at hn
      exact hu.change n (Nat.lt_of_le_of_ne (Nat.le_of_lt_succ hn) old)
  · rw [above_pushed hp, above_pushed hp, change, hu.above, same]
    rfl
  · rw [below_pushed hc h.inStore, below_pushed hc h.inStore, change, hu.below, same]
    rfl

end Grows

/-- Both times of an outline look the same. -/
structure Level (o : Outline) (m : Nest Facet) : Prop where
  shows : ∀ t, o.Shows t m
  opened : o.opened.before = o.opened.after
  unedited : o.diff.Unedited
  flat : o.diff.Flat

theorem level_start (s : Source) : (Outline.start s).Level (.base Solo.rootFacet .nil) := by
  have only (n : Handle) (hn : n < (Outline.start s).diff.size) : n = Diff.root :=
    Nat.lt_one_iff.1 hn
  have bare (t : Time) (n : Handle) : (Outline.start s).diff.below t n = [] ∧
      (Outline.start s).diff.above t n = none := by
    by_cases hn : n < (Outline.start s).diff.size
    · rw [only n hn]
      cases t <;> exact ⟨rfl, rfl⟩
    · exact ⟨below_eq_nil hn, above_eq_none hn⟩
  refine ⟨Run.shows_start s, rfl, ⟨fun n hn => ?_, fun n => ?_, fun n => ?_⟩,
    ⟨fun n hn => ?_, fun n hn => ?_⟩⟩
  · rw [only n hn]
    rfl
  · rw [(bare .before n).2, (bare .after n).2]
  · rw [(bare .before n).1, (bare .after n).1]
  · rw [only n hn]
    exact ⟨0, rfl⟩
  · rw [only n hn]
    rfl

/-- Two ends of a list that are equally long are equal. -/
theorem eq_of_suffix {α : Type} {as bs cs : List α} (ha : as <:+ cs) (hb : bs <:+ cs)
    (same : as.length = bs.length) : as = bs :=
  (List.suffix_of_suffix_length_le ha hb same.le).eq_of_length same

theorem Level.length_opened {k : Nest Facet} (level : o.Level k) (t : Time) :
    (o.opened.get t).length = k.opened.length := by
  obtain ⟨n, opened, -, image, -⟩ := level.shows t
  rw [opened, ← image, Nest.opened_map, List.length_map]

theorem level_closeChains {k k' : Nest Facet} {i : Int} (level : o.Level k)
    (line : closing.line = Solo.flat i) (change : closing.change = .unchanged)
    (chained : Chained i k.opened) (shown : ∀ t, o'.Shows t k')
    (h : closeChains closing o = .ok o') : o'.Level k' := by
  obtain ⟨alike, suffix⟩ := closeChains_alike h
  obtain ⟨m, closed, -⟩ := closeChains_cases level.shows h
  have each (t : Time) (_ : t ∈ closing.change.times) : closed? closing t k = some (m t) := by
    have all : closing.change.existsAt t = true := by rw [change]; rfl
    have h := closed t
    rw [closedAt?, if_pos all] at h
    exact h
  have flat : o'.diff.Flat := by
    rw [closeChains_eq] at h
    exact closeAll_flat (o := { o with lastCode := none }) level.flat line rfl
      (fun t => (level.shows t).forget) (nodup_times _) (fun _ _ => chained) each h
  have length (t : Time) : (o'.opened.get t).length = k'.opened.length := by
    obtain ⟨n, opened, -, image, -⟩ := shown t
    rw [opened, ← image, Nest.opened_map, List.length_map]
  refine ⟨shown, ?_, level.unedited.alike alike, flat⟩
  have before : o'.opened.before <:+ o.opened.before := suffix .before
  have after : o'.opened.after <:+ o.opened.after := suffix .after
  rw [← level.opened] at after
  exact eq_of_suffix before after ((length .before).trans (length .after).symm)

theorem level_grows {k k' : Nest Facet} {x : Node} {tops : Time → Handle} {i j : Int}
    (level : o.Level k) (grows : o.Grows x o' tops) (start : x.start = Solo.flat i)
    (stop : x.stop = Solo.flat j) (change : x.change = .unchanged)
    (hc : ∀ t, x.children.get t = []) (hp : ∀ t, x.parent.get t = none)
    (shown : ∀ t, o'.Shows t k') : o'.Level k' := by
  have top : tops .before = tops .after := by
    have before : o.opened.before.head? = some (tops .before) := grows.head .before
    have after : o.opened.after.head? = some (tops .after) := grows.head .after
    rw [level.opened, after] at before
    exact (Option.some.inj before).symm
  refine ⟨shown, ?_, grows.unedited level.unedited change top hc hp,
    grows.flat level.flat start stop⟩
  obtain rfl := grows.result
  have before : (o.pushed tops x).opened.before = _ := opened_pushed (t := .before)
  have after : (o.pushed tops x).opened.after = _ := opened_pushed (t := .after)
  have same : o.opened.get .before = o.opened.get .after := level.opened
  rw [before, after, same, change]
  rfl

theorem flat_joined {c : Handle} {lines : List String} {i : Int} (h : o.diff.Flat)
    (hc : c < o.diff.size) : (o.joined c lines (Solo.flat i)).diff.Flat := by
  refine ⟨fun n hn => ?_, fun n hn => ?_⟩
  · rw [(alike_joined hc).size] at hn
    rw [(alike_joined hc).start]
    exact h.start n hn
  · rw [(alike_joined hc).size] at hn
    simp only [joined, look_update hc]
    split
    · exact (Int.max_self i).symm
    · exact h.stop n hn

/-- Lines that join code join it at both times. -/
theorem level_joins {k : Nest Facet} {c : Handle} {start : Position} {lines : List String} {i : Int}
    (level : o.Level k) (joins : o.Joins c .unchanged start (Solo.flat i) lines o') :
    o'.Level (k.atEnd (extended lines i)) := by
  have shown (t : Time) : o'.Shows t (k.atEnd (extended lines i)) := by
    have here := (joins.shows level.shows).1 t
    cases t <;> exact here
  have inStore := Shows.lastCode_lt level.shows c joins.last
  obtain rfl := joins.result
  exact ⟨shown, level.opened, level.unedited.alike (alike_joined inStore),
    flat_joined level.flat inStore⟩

/-- An unchanged line that can be put into the nest of both times can be put into an outline, and
both times stay the same. -/
theorem level_put {options : Options} {dialect : Dialect} {line : LogicalLine} {i j : Int}
    {k n n' : Nest Facet} (level : o.Level k) (seen : Sees options k n)
    (start : startOf line (Solo.flat j) = Solo.flat i) (stop : lineNumber? (j + 1) = some (j + 1))
    (chained : Chained i n.opened) (put : n.put dialect line.lines i (j + 1) = some n') :
    ∃ o' k', o.put options dialect line .unchanged (Solo.flat j) = .ok o' ∧ o'.Level k' ∧
      Sees options k' n' := by
  have range : (Solo.flat j).add? 1 = some (Solo.flat (j + 1)) := by
    simp [Position.add?, Position.shift?, Solo.flat, stop]
  have both {k k' : Nest Facet} (put : k.put dialect line.lines i (j + 1) = some k') (t : Time) :
      putAt? dialect line .unchanged (startOf line (Solo.flat j)) (Solo.flat (j + 1)) (fun _ => k) t =
        some k' := by
    rw [putAt?, start]
    cases t <;> exact put
  obtain ⟨k', put', seen'⟩ := seen.symm.put put
  obtain ⟨o', run⟩ := put_total range level.shows (both put')
  obtain ⟨m, hm, shown, result⟩ | ⟨collapse, item, c, joins⟩ := put_cases range level.shows run
  · have shown (t : Time) : o'.Shows t k' := by
      have same := hm t
      rw [both put' t] at same
      rw [Option.some.inj same]
      exact shown t
    refine ⟨o', k', run, ?_, seen'.symm⟩
    rw [start] at result
    obtain closed | ⟨kind, formula, tops, -, grows⟩ := result
    · rw [← seen.akin.opened] at chained
      exact level_closeChains level rfl rfl chained shown closed
    · refine level_grows level grows rfl rfl rfl (fun t => ?_) (fun t => ?_) shown
      · cases t <;> rfl
      · cases t <;> rfl
  · refine ⟨o', _, run, level_joins level joins, ?_⟩
    obtain ⟨m, hm, alike⟩ := putAt?_extended (startOf line (Solo.flat j)) (Solo.flat (j + 1))
      collapse item (fun _ => seen) (joins.shows level.shows).2
    have same := hm .before
    rw [both put .before] at same
    rw [Option.some.inj same]
    exact alike .before

end Reading.Outline

namespace Reading

open Diff Outline

namespace Run

variable {options : Options} {dialect : Dialect} {r r' : Run} {s s' : Solo} {content : String}

/-- Both times of a run are the same solo. -/
structure Tracks (r : Run) (options : Options) (s : Solo) : Prop where
  pending : r.pending = .both s.pending
  place : r.place = Solo.flat s.place
  shared : s.pending.hasStarted = true → r.shared = true
  level : ∃ k, r.outline.Level k ∧ Sees options k s.nest
  neat : r.outline.Neat
  start : ∀ p, s.pending.start = some p → ∃ i, p = Solo.flat i

theorem tracks_start (source : Source) : (Run.start source).Tracks options .start := by
  refine ⟨rfl, rfl, fun started => ?_, ⟨_, level_start source, .refl options _⟩, neat_start source,
    fun p hp => ?_⟩
  · cases started
  · cases hp

/-- What a solo can flush, a run of which both times are that solo can flush. -/
theorem tracks_flushAll (tracks : r.Tracks options s)
    (timely : s.Timely) (h : s.flush dialect = some s') :
    ∃ r', r.flushAll options dialect = .ok r' ∧ r'.Tracks options s' := by
  obtain ⟨pending, place, shared, ⟨k, level, seen⟩, neat, start⟩ := tracks
  have before : r.pending.before = s.pending := by rw [pending]; rfl
  have after : r.pending.after = s.pending := by rw [pending]; rfl
  have each (t : Time) : r.pending.get t = s.pending := by rw [pending, Sides.get_both]
  by_cases complete : s.pending.isComplete = true
  · rw [Solo.flush, if_pos complete] at h
    obtain ⟨stop, ends, h⟩ := Option.bind_eq_some_iff.1 h
    obtain ⟨nest, put, h⟩ := Option.bind_eq_some_iff.1 h
    cases h
    obtain ⟨rfl, fits⟩ := lineNumber?_eq_some_iff.1 ends
    have started : s.pending.hasStarted = true := by
      simp only [LogicalLine.isComplete, Bool.and_eq_true] at complete
      exact complete.1.1
    obtain ⟨p, hp⟩ := Option.isSome_iff_exists.1 started
    obtain ⟨i, rfl⟩ := start p hp
    have begins : startOf s.pending (Solo.flat s.place) = Solo.flat i := by
      rw [startOf, hp]
      rfl
    have bound : s.bound = i := Solo.bound_of_some hp
    have chained := timely.chained
    rw [bound] at chained
    rw [begins] at put
    obtain ⟨outline, k', run, level', seen'⟩ := level_put level seen begins ends chained put
    have together : (r.shared && r.pending.before.isComplete && r.pending.after.isComplete) =
        true := by
      rw [before, after, shared started, complete]
      rfl
    refine ⟨{ r with outline, pending := .both {} }, ?_, rfl, place, fun unstarted => ?_,
      ⟨k', level', seen'⟩, neat.put level.shows run, fun p hp => ?_⟩
    · rw [flushAll, if_pos together, before, place, run]
      rfl
    · cases unstarted
    · cases hp
  · have incomplete : s.pending.isComplete = false := Bool.eq_false_iff.2 complete
    rw [Solo.flush_of_incomplete incomplete] at h
    cases h
    have apart : ¬ (r.shared && r.pending.before.isComplete && r.pending.after.isComplete) =
        true := by
      rw [before, incomplete]
      simp
    have still (t : Time) : r.flush options dialect t = .ok r := by
      rw [flush, each t, incomplete]
      rfl
    refine ⟨r, ?_, pending, place, shared, ⟨k, level, seen⟩, neat, start⟩
    rw [flushAll, if_neg apart, still .before]
    exact still .after

/-- A line that starts in the text of one time begins at a flat place. -/
theorem flat_of_consume {l : LogicalLine} {i : Int} {p : Position}
    (start : ∀ p, l.start = some p → ∃ i, p = Solo.flat i)
    (h : (l.consume content (Solo.flat i)).start = some p) : ∃ i, p = Solo.flat i := by
  cases hs : l.start with
  | none =>
    simp only [LogicalLine.consume, hs, Option.none_or, Option.some.injEq] at h
    exact ⟨i, h.symm⟩
  | some q =>
    simp only [LogicalLine.consume, hs, Option.some_or, Option.some.injEq] at h
    exact start p (h ▸ hs)

/-- An unchanged line is taken at both times. -/
theorem tracks_take {i : Int} (tracks : r.Tracks options s) :
    (({ r with place := Solo.flat i } : Run).take .unchanged content).Tracks options
      ⟨s.pending.consume content (Solo.flat i), i, s.nest⟩ := by
  have same : r.pending = .both s.pending := tracks.pending
  refine ⟨?_, rfl, fun _ => ?_, tracks.level, tracks.neat, fun p => flat_of_consume tracks.start⟩
  · apply Sides.ext_get
    intro t
    rw [get_take, Sides.get_both]
    show (r.pending.get t).consume content _ = _
    rw [same, Sides.get_both]
  · -- the line is shared from its first physical line on
    show (Change.unchanged == .unchanged && (r.shared ||
      (!r.pending.before.hasStarted && !r.pending.after.hasStarted))) = true
    have before : r.pending.before = s.pending := by rw [same]; rfl
    have after : r.pending.after = s.pending := by rw [same]; rfl
    rw [before, after]
    cases started : s.pending.hasStarted with
    | false => simp
    | true => simp [tracks.shared started]

/-- What a solo can read, a run of unchanged lines of which both times are that solo can read. -/
theorem tracks_step (tracks : r.Tracks options s) (timely : s.Timely)
    (h : s.step options dialect content = some s') :
    ∃ r', r.step options dialect (.ofSourceLine content) = .ok r' ∧ r'.Tracks options s' := by
  obtain ⟨place, moved, h⟩ := Option.bind_eq_some_iff.1 h
  have shifted : r.place.shift? 1 .unchanged = some (Solo.flat place) := by
    obtain ⟨rfl, -⟩ := lineNumber?_eq_some_iff.1 moved
    rw [tracks.place]
    simp [Position.shift?, Solo.flat, moved]
  have change : (PhysicalLine.ofSourceLine content).change = some .unchanged := rfl
  rw [step_eq change shifted]
  split at h
  · next skipped =>
    cases h
    refine ⟨{ r with place := Solo.flat place }, if_pos skipped, ?_⟩
    exact ⟨tracks.pending, rfl, tracks.shared, tracks.level, tracks.neat, tracks.start⟩
  · next taken =>
    have timely' : Solo.Timely ⟨s.pending.consume content (Solo.flat place), place, s.nest⟩ := by
      obtain ⟨rfl, -⟩ := lineNumber?_eq_some_iff.1 moved
      exact timely.take
    obtain ⟨r', run, tracks'⟩ := tracks_flushAll (tracks_take tracks) timely' h
    exact ⟨r', (if_neg taken).trans run, tracks'⟩

theorem tracks_run {contents : List String} (tracks : r.Tracks options s) (timely : s.Timely)
    (h : s.read options dialect contents = some s') :
    ∃ r', (contents.map PhysicalLine.ofSourceLine).foldlM (Run.step options dialect) r = .ok r' ∧
      r'.Tracks options s' := by
  induction contents generalizing r s with
  | nil =>
    cases h
    exact ⟨r, rfl, tracks⟩
  | cons content contents ih =>
    rw [Solo.read, List.foldlM_cons] at h
    obtain ⟨s₁, step, h⟩ := Option.bind_eq_some_iff.1 h
    obtain ⟨r₁, run₁, tracks₁⟩ := tracks_step tracks timely step
    obtain ⟨r', run, tracks'⟩ := ih tracks₁ (timely.step step) h
    refine ⟨r', ?_, tracks'⟩
    rw [List.map_cons, List.foldlM_cons, run₁]
    exact run

end Run

variable {options : Options} {dialect : Dialect} {s : Solo} {contents : List String}

/-- What a solo can read to its end can be read as a source text, and nothing changes in the diff
that is made of it. -/
theorem ofSource_spec (source : Source)
    (h : Solo.start.read options dialect contents = some s) (ended : s.pending = {})
    (closed : s.nest.opened.length ≤ 1) :
    ∃ d, ofLines options dialect source (contents.map PhysicalLine.ofSourceLine) = .ok d ∧
      d.Unedited ∧ d.Flat := by
  obtain ⟨r, run, tracks⟩ :=
    Run.tracks_run (Run.tracks_start source) Solo.timely_start h
  obtain ⟨k, level, seen⟩ := tracks.level
  refine ⟨r.outline.diff, ?_, level.unedited, level.flat⟩
  have unstarted (t : Time) : (r.pending.get t).hasStarted = false := by
    rw [tracks.pending, Sides.get_both, ended]
    rfl
  have finish : r.outline.finish = .ok r.outline.diff := by
    refine Outline.finish_eq_ok_iff.2 ⟨fun t => ?_, tracks.neat.orderly.accepted, rfl⟩
    rw [level.length_opened, seen.akin.opened]
    exact closed
  have before : r.pending.before.hasStarted = false := unstarted .before
  have after : r.pending.after.hasStarted = false := unstarted .after
  rw [ofLines, run, Outcome.ok_bind, Run.finish, before, after]
  exact finish

end Reading

end Variation
