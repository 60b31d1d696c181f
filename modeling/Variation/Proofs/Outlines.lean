import Variation.Proofs.Edits
import Variation.Proofs.Nest

/-!
# An outline seen at one time

At each time an outline holds a nest of its nodes. Putting a line into the outline changes the nest
at the times at which the line is there, in the way in which the line would be put into the nest
alone, and leaves the nest at the other time as it is.
-/

namespace Variation

open Reading

namespace Diff

/-- The edges of a diff at a time are those of a nest; `inner` is what is open below the innermost
place. -/
def Linked (d : Diff) (t : Time) : List Handle → Nest Handle → Prop
  | inner, .base a done => a < d.size ∧ d.below t a = done.roots ++ inner ∧ d.Spans t done
  | inner, .under a done rest =>
    a < d.size ∧ d.below t a = done.roots ++ inner ∧ d.Spans t done ∧ Linked d t [a] rest

/-- A diff holds a nest at a time. -/
structure Holds (d : Diff) (t : Time) (n : Nest Handle) : Prop where
  linked : d.Linked t [] n
  once : n.flatten.Nodup
  bottom : n.bottom = root

section Linked

variable {d d' : Diff} {t : Time} {n : Nest Handle} {inner : List Handle} {a c m : Handle}
  {f : Forest Handle}

theorem Linked.lt_size (h : d.Linked t inner n) (hm : m ∈ n.flatten) : m < d.size := by
  induction n generalizing inner with
  | base a done =>
    obtain ⟨size, -, spans⟩ := h
    obtain rfl | hm := List.mem_cons.1 hm
    · exact size
    · exact spans.lt_size hm
  | under a done rest ih =>
    obtain ⟨size, -, spans, hr⟩ := h
    obtain hm | hm := List.mem_append.1 hm
    · exact ih hr hm
    · obtain rfl | hm := List.mem_cons.1 hm
      · exact size
      · exact spans.lt_size hm

theorem Linked.congr (h : d.Linked t inner n)
    (same : ∀ m ∈ n.flatten, m < d'.size ∧ d'.below t m = d.below t m) : d'.Linked t inner n := by
  induction n generalizing inner with
  | base a done =>
    obtain ⟨-, below, spans⟩ := h
    obtain ⟨⟨size, eq⟩, same⟩ := List.forall_mem_cons.1 same
    exact ⟨size, by rw [eq, below], spans.congr same⟩
  | under a done rest ih =>
    obtain ⟨-, below, spans, hr⟩ := h
    obtain ⟨sameRest, same⟩ := List.forall_mem_append.1 same
    obtain ⟨⟨size, eq⟩, same⟩ := List.forall_mem_cons.1 same
    exact ⟨size, by rw [eq, below], spans.congr same, ih hr sameRest⟩

/-- A place at the innermost end is open below what comes next. -/
theorem Linked.attach (h : d.Linked t [] n) (once : n.flatten.Nodup)
    (size : ∀ m ∈ n.flatten, m < d'.size)
    (top : d'.below t n.top = d.below t n.top ++ [c])
    (same : ∀ m ∈ n.flatten, m ≠ n.top → d'.below t m = d.below t m) : d'.Linked t [c] n := by
  cases n with
  | base a done =>
    obtain ⟨-, below, spans⟩ := h
    obtain ⟨new, -⟩ := List.nodup_cons.1 once
    refine ⟨size a List.mem_cons_self, by rw [Nest.top] at top; rw [top, below, List.append_nil],
      spans.congr fun m hm => ⟨size m (List.mem_cons_of_mem _ hm), ?_⟩⟩
    exact same m (List.mem_cons_of_mem _ hm) fun (e : m = a) => new (e ▸ hm)
  | under a done rest =>
    obtain ⟨-, below, spans, hr⟩ := h
    obtain ⟨-, once, apart⟩ := List.nodup_append.1 once
    obtain ⟨new, -⟩ := List.nodup_cons.1 once
    refine ⟨size a (List.mem_append_right _ List.mem_cons_self),
      by rw [Nest.top] at top; rw [top, below, List.append_nil],
      spans.congr fun m hm => ⟨size m (List.mem_append_right _ (List.mem_cons_of_mem _ hm)), ?_⟩,
      hr.congr fun m hm => ⟨size m (List.mem_append_left _ hm), ?_⟩⟩
    · exact same m (List.mem_append_right _ (List.mem_cons_of_mem _ hm)) fun (e : m = a) => new (e ▸ hm)
    · exact same m (List.mem_append_left _ hm) (apart m hm a List.mem_cons_self)

/-- What is open at the innermost end may be counted as finished. -/
theorem Linked.fold (h : d.Linked t [] (.under a f n)) : d.Linked t [] (n.hang (.tree a f)) := by
  obtain ⟨size, below, spans, hr⟩ := h
  have tree : d.Spans t (.tree a f) := ⟨size, by rw [below, List.append_nil], spans, trivial⟩
  cases n with
  | base b done =>
    obtain ⟨hb, below, spans⟩ := hr
    refine ⟨hb, ?_, spans_append.2 ⟨spans, tree⟩⟩
    rw [below, List.append_nil, Forest.roots_append, Forest.roots_tree]
  | under b done rest =>
    obtain ⟨hb, below, spans, hr⟩ := hr
    refine ⟨hb, ?_, spans_append.2 ⟨spans, tree⟩, hr⟩
    rw [below, List.append_nil, Forest.roots_append, Forest.roots_tree]

namespace Holds

theorem lt_size (h : d.Holds t n) (hm : m ∈ n.flatten) : m < d.size := h.linked.lt_size hm

theorem congr (h : d.Holds t n)
    (same : ∀ m ∈ n.flatten, m < d'.size ∧ d'.below t m = d.below t m) : d'.Holds t n :=
  ⟨h.linked.congr same, h.once, h.bottom⟩

theorem fold (h : d.Holds t (.under a f n)) : d.Holds t (n.hang (.tree a f)) := by
  refine ⟨h.linked.fold, ?_, ?_⟩
  · rw [Nest.flatten_hang, Forest.flatten_tree]
    exact h.once
  · rw [Nest.bottom_hang]
    exact h.bottom

/-- A new node below the innermost open place is open itself. -/
theorem enter (h : d.Holds t n) (size : d.size ≤ d'.size) (hc : c < d'.size) (new : d.size ≤ c)
    (none : d'.below t c = [])
    (top : d'.below t n.top = d.below t n.top ++ [c])
    (same : ∀ m ∈ n.flatten, m ≠ n.top → d'.below t m = d.below t m) :
    d'.Holds t (.under c .nil n) := by
  have inStore (m) (hm : m ∈ n.flatten) : m < d'.size := Nat.lt_of_lt_of_le (h.lt_size hm) size
  refine ⟨⟨hc, none, trivial, h.linked.attach h.once inStore top same⟩, ?_, h.bottom⟩
  rw [Nest.flatten, Forest.flatten, List.nodup_append]
  refine ⟨h.once, by simp, fun m hm k hk e => ?_⟩
  obtain rfl : k = c := List.mem_singleton.1 hk
  exact Nat.not_lt_of_le new (e ▸ h.lt_size hm)

/-- An open place other than the bottom is not the root. -/
theorem ne_root (h : d.Holds t (.under a f n)) : a ≠ root := by
  rintro rfl
  have mem : root ∈ n.flatten := by
    rw [← h.bottom]
    exact n.bottom_mem_flatten
  obtain ⟨-, -, apart⟩ := List.nodup_append.1 h.once
  exact apart root mem root List.mem_cons_self rfl

end Holds

end Linked

/-- What a node holds apart from its end, its text and its closing lines. -/
def core (d : Diff) (n : Handle) : Node :=
  { d.look n with stop := .invalid, label := {}, closing := .both none }

/-- Two diffs agree in all but the ends, the texts and the closing lines of their nodes. -/
structure Alike (d d' : Diff) : Prop where
  size : d'.size = d.size
  core : ∀ n, d'.core n = d.core n

/-- A diff after ends and closing lines were changed at one time. -/
structure Retouched (t : Time) (d d' : Diff) : Prop extends Alike d d' where
  facet : ∀ u, u ≠ t → ∀ n, d'.facet u n = d.facet u n

namespace Alike

variable {d d' e : Diff} {t : Time} {n : Handle}

theorem refl (d : Diff) : Alike d d := ⟨rfl, fun _ => rfl⟩

theorem trans (h : Alike d d') (h' : Alike d' e) : Alike d e :=
  ⟨h'.size.trans h.size, fun n => (h'.core n).trans (h.core n)⟩

theorem below (h : Alike d d') : d'.below t n = d.below t n := by
  by_cases hn : n < d.size
  · have same := congrArg (fun x : Node => x.children.get t) (h.core n)
    rw [below_look hn, below_look (h.size ▸ hn)]
    exact same
  · rw [below_eq_nil hn, below_eq_nil (h.size ▸ hn)]

theorem above (h : Alike d d') : d'.above t n = d.above t n := by
  by_cases hn : n < d.size
  · have same := congrArg (fun x : Node => x.parent.get t) (h.core n)
    rw [above_look hn, above_look (h.size ▸ hn)]
    exact same
  · rw [above_eq_none hn, above_eq_none (h.size ▸ hn)]

theorem change (h : Alike d d') : (d'.look n).change = (d.look n).change := by
  have same := congrArg (fun x : Node => x.change) (h.core n)
  exact same

theorem kind (h : Alike d d') : (d'.look n).kind = (d.look n).kind := by
  have same := congrArg (fun x : Node => x.kind) (h.core n)
  exact same

theorem start (h : Alike d d') : (d'.look n).start = (d.look n).start := by
  have same := congrArg (fun x : Node => x.start) (h.core n)
  exact same

theorem formula (h : Alike d d') : (d'.look n).formula = (d.look n).formula := by
  have same := congrArg (fun x : Node => x.formula) (h.core n)
  exact same

theorem lives (h : Alike d d') : d'.lives t n = d.lives t n := by
  by_cases hn : n < d.size
  · rw [lives_look hn, lives_look (h.size ▸ hn), Node.existsAt, Node.existsAt, h.change]
  · rw [lives_eq_false hn, lives_eq_false (h.size ▸ hn)]

theorem holds (h : Alike d d') {m : Nest Handle} (hm : d.Holds t m) : d'.Holds t m :=
  hm.congr fun _ hn => ⟨h.size ▸ hm.lt_size hn, h.below⟩

end Alike

namespace Retouched

variable {d d' e : Diff} {t : Time}

theorem trans (h : Retouched t d d') (h' : Retouched t d' e) : Retouched t d e :=
  ⟨h.toAlike.trans h'.toAlike, fun u hu n => (h'.facet u hu n).trans (h.facet u hu n)⟩

end Retouched

end Diff

namespace Reading.Outline

open Diff

/-! ## Closing a chain -/

section Close

variable {d : Diff} {t : Time} {n : Nest Handle} {extra : Forest Handle} {closing : ClosingLine}
  {next : Position}

/-- A node that ends at a place, at one time; it remembers the closing line if it opened the chain. -/
def endAt (t : Time) (closing : ClosingLine) (next : Position) (opens : Bool) (x : Node) : Node :=
  { x with
    stop := (x.stop.setDiff (max next.diff x.stop.diff)).set (next.get t) t
    closing := if opens then x.closing.set t (some closing) else x.closing }

theorem retouched_endAt {a : Handle} (ha : a < d.size) {opens : Bool} :
    Retouched t d (d.update a (endAt t closing next opens)) := by
  refine ⟨⟨size_update .., fun n => ?_⟩, fun u hu n => ?_⟩
  · simp only [core, look_update ha]
    split <;> rfl
  · simp only [facet, look_update ha]
    split
    · cases t <;> cases u <;> cases opens <;> first | rfl | exact absurd rfl hu
    · rfl

theorem facet_endAt {a : Handle} (ha : a < d.size) :
    (d.update a (endAt t closing next ((d.look a).kind == .ifBranch))).facet t a =
      Nest.ended (next.get t) (closing.line.get t) closing.label (d.facet t a) := by
  simp only [facet, look_update ha, if_true, Nest.ended, Node.facet, endAt, Position.get_set_self]
  congr 1
  by_cases opens : ((d.look a).kind == .ifBranch) = true <;> simp only [opens, if_true] <;> simp

theorem facet_endAt_of_ne {a m : Handle} (ha : a < d.size) (hm : m ≠ a) {opens : Bool} :
    (d.update a (endAt t closing next opens)).facet t m = d.facet t m := by
  simp only [facet, look_update ha, if_neg (Ne.symm hm)]

theorem closeChain_cons {a : Handle} (hn : a ≠ root) (ha : a < d.size) (ns : List Handle) :
    closeChain t closing next d (a :: ns) =
      if (d.look a).kind == .ifBranch then
        .ok (d.update a (endAt t closing next ((d.look a).kind == .ifBranch)), ns)
      else closeChain t closing (d.look a).start
        (d.update a (endAt t closing next ((d.look a).kind == .ifBranch))) ns := by
  rw [closeChain, if_neg hn, node_look ha]
  rfl

/-- How a chain is closed: its branches end from the innermost one outwards, each where the one inside
it starts, up to the condition that opened the chain. -/
inductive ClosesChain (t : Time) (closing : ClosingLine) :
    Position → Diff → List Handle → Diff → List Handle → Prop where
  | opening {next : Position} {d : Diff} {a : Handle} {ns : List Handle} (below : a ≠ root)
      (inStore : a < d.size) (opens : (d.look a).kind = .ifBranch) :
      ClosesChain t closing next d (a :: ns) (d.update a (endAt t closing next true)) ns
  | branch {next : Position} {d d' : Diff} {a : Handle} {ns rest : List Handle} (below : a ≠ root)
      (inStore : a < d.size) (other : (d.look a).kind ≠ .ifBranch)
      (outer : ClosesChain t closing (d.look a).start (d.update a (endAt t closing next false)) ns
        d' rest) : ClosesChain t closing next d (a :: ns) d' rest

/-- If a chain could be closed, it was closed branch by branch. -/
theorem closesChain_of_run {d' : Diff} {ns rest : List Handle}
    (h : closeChain t closing next d ns = .ok (d', rest)) :
    ClosesChain t closing next d ns d' rest := by
  induction ns generalizing d next with
  | nil => cases h
  | cons a ns ih =>
    by_cases bottom : a = root
    · rw [closeChain, if_pos bottom] at h
      cases h
    by_cases ha : a < d.size
    · rw [closeChain_cons bottom ha] at h
      by_cases opens : (d.look a).kind = .ifBranch
      · rw [beq_iff_eq.2 opens, if_pos rfl] at h
        cases h
        exact .opening bottom ha opens
      · rw [beq_eq_false_iff_ne.2 opens, if_neg Bool.false_ne_true] at h
        exact .branch bottom ha opens (ih h)
    · have unknown := node_eq_error_iff.2 ⟨Nat.le_of_not_lt ha, rfl⟩
      rw [closeChain, if_neg bottom, unknown] at h
      cases h

/-- Closing a chain in a diff closes it in the nest that the diff holds. -/
theorem closeChain_spec (closing : ClosingLine) (next : Position) (h : d.Holds t (n.hang extra)) :
    match Nest.close (closing.line.get t) closing.label (next.get t) (extra.map (d.facet t))
      (n.map (d.facet t)) with
    | none => closeChain t closing next d n.opened = fail .endifWithoutIf closing.line
    | some m => ∃ d' n', closeChain t closing next d n.opened = .ok (d', n'.opened) ∧
        Retouched t d d' ∧ d'.Holds t n' ∧ n'.map (d'.facet t) = m := by
  induction n generalizing d extra next with
  | base a done =>
    obtain rfl : a = root := h.bottom
    simp only [Nest.map, Nest.close]
    rw [Nest.opened, closeChain, if_pos rfl]
  | under a done rest ih =>
    rw [Nest.hang_under] at h
    have ha : a < d.size := h.linked.1
    have touched : Retouched t d (d.update a (endAt t closing next ((d.look a).kind == .ifBranch))) :=
      retouched_endAt ha
    -- no other place of the nest is the one that ends
    obtain ⟨-, onceTree, apart⟩ := List.nodup_append.1 h.once
    have other (m) (hm : m ∈ rest.flatten ∨ m ∈ (done ++ extra).flatten) :
        d.facet t m =
          (d.update a (endAt t closing next ((d.look a).kind == .ifBranch))).facet t m := by
      refine (facet_endAt_of_ne ha ?_).symm
      obtain hm | hm := hm
      · exact apart m hm a List.mem_cons_self
      · rintro rfl
        exact (List.nodup_cons.1 onceTree).1 hm
    have restEq := Nest.map_congr fun m hm => other m (.inl hm)
    have treeEq := Forest.map_congr fun m hm => other m (.inr hm)
    have folded := (touched.holds h).fold
    simp only [Nest.map, Nest.opened, Nest.close, closeChain_cons h.ne_root ha]
    rw [← Forest.map_append, restEq, treeEq, ← facet_endAt ha]
    by_cases opens : ((d.look a).kind == .ifBranch) = true
    · have : ((d.facet t a).kind == .ifBranch) = true := opens
      rw [if_pos this, if_pos opens]
      refine ⟨_, rest.hang (.tree a (done ++ extra)), by rw [Nest.opened_hang], touched, folded, ?_⟩
      rw [Nest.map_hang, Forest.map_tree]
    · have : ¬ ((d.facet t a).kind == .ifBranch) = true := opens
      rw [if_neg this, if_neg opens]
      have inner := ih (d.look a).start folded
      rw [Forest.map_tree] at inner
      have start : (d.look a).start.get t = (d.facet t a).start := rfl
      rw [start] at inner
      split at inner
      · exact inner
      · obtain ⟨d', n', run, touched', holds, image⟩ := inner
        exact ⟨d', n', run, touched.trans touched', holds, image⟩

end Close

/-- The code that was read last is the last leaf of a nest at each time at which it is there, and not
in the nest of the other time. -/
def Recalls (o : Outline) (t : Time) (n : Nest Handle) : Prop :=
  ∀ c, o.lastCode = some c → c < o.diff.size ∧ (o.diff.look c).kind = .artifact ∧
    if (o.diff.look c).change.existsAt t then ∃ k : Nest Handle, n = k.hang (.tree c .nil)
    else c ∉ n.flatten

/-- What is seen of an outline at a time: the nest that its diff holds along the open annotations. -/
def Shows (o : Outline) (t : Time) (m : Nest Facet) : Prop :=
  ∃ n : Nest Handle, o.opened.get t = n.opened ∧ o.diff.Holds t n ∧ n.map (o.diff.facet t) = m ∧
    o.Recalls t n

/-- An outline that forgets the code that was read last still shows the same. -/
theorem Shows.forget {o : Outline} {t : Time} {m : Nest Facet} (ho : o.Shows t m) :
    ({ o with lastCode := none } : Outline).Shows t m := by
  obtain ⟨n, opened, holds, image, -⟩ := ho
  exact ⟨n, opened, holds, image, fun _ h => nomatch h⟩

section Chains

variable {o : Outline} {t : Time} {closing : ClosingLine} {m m' : Time → Nest Facet}
  {ts : List Time}

/-- Closes the innermost chain at one time. -/
def closeAt (closing : ClosingLine) (o : Outline) (t : Time) : Outcome Outline := do
  let (diff, rest) ← closeChain t closing closing.line o.diff (o.opened.get t)
  return { o with diff, opened := o.opened.set t rest }

/-- The nest of a time with its innermost chain closed. -/
def closed? (closing : ClosingLine) (t : Time) (m : Nest Facet) : Option (Nest Facet) :=
  m.close (closing.line.get t) closing.label (closing.line.get t) .nil

theorem closeAt_error {k : Nest Facet} (ho : o.Shows t k) (h : closed? closing t k = none) :
    closeAt closing o t = fail .endifWithoutIf closing.line := by
  obtain ⟨n, opened, holds, image, -⟩ := ho
  have whole : o.diff.Holds t (n.hang .nil) := by rw [Nest.hang_nil]; exact holds
  have spec := closeChain_spec closing closing.line whole
  rw [Forest.map, image] at spec
  rw [closed?] at h
  rw [h] at spec
  rw [closeAt, opened, spec]
  rfl

theorem closeAt_ok {k : Nest Facet} (fresh : o.lastCode = none) (ho : ∀ u, o.Shows u (m u))
    (h : closed? closing t (m t) = some k) :
    ∃ o', closeAt closing o t = .ok o' ∧ Retouched t o.diff o'.diff ∧ o'.lastCode = o.lastCode ∧
      ∀ u, o'.Shows u (if u = t then k else m u) := by
  obtain ⟨n, opened, holds, image, -⟩ := ho t
  have whole : o.diff.Holds t (n.hang .nil) := by rw [Nest.hang_nil]; exact holds
  have spec := closeChain_spec closing closing.line whole
  rw [Forest.map, image] at spec
  rw [closed?] at h
  rw [h] at spec
  obtain ⟨d', n', run, touched, holds', image'⟩ := spec
  refine ⟨{ o with diff := d', opened := o.opened.set t n'.opened }, ?_, touched, rfl, fun u => ?_⟩
  · rw [closeAt, opened, run]
    rfl
  · have recalls (l : Nest Handle) : Recalls
        { o with diff := d', opened := o.opened.set t n'.opened } u l := fun c hc => by
      rw [fresh] at hc
      cases hc
    by_cases hu : u = t
    · subst hu
      rw [if_pos rfl]
      exact ⟨n', Sides.get_set_self .., holds', image', recalls _⟩
    · rw [if_neg hu]
      obtain ⟨l, opened, holds, image, -⟩ := ho u
      refine ⟨l, ?_, touched.toAlike.holds holds, ?_, recalls _⟩
      · rw [Sides.get_set, if_neg hu, opened]
      · rw [← image]
        exact Nest.map_congr fun a _ => touched.facet u hu a

theorem closeAll_error (fresh : o.lastCode = none) (ho : ∀ u, o.Shows u (m u)) (once : ts.Nodup)
    (ht : t ∈ ts) (h : closed? closing t (m t) = none) :
    ts.foldlM (closeAt closing) o = fail .endifWithoutIf closing.line := by
  induction ts generalizing o m with
  | nil => cases ht
  | cons s ts ih =>
    obtain ⟨new, once⟩ := List.nodup_cons.1 once
    rw [List.foldlM_cons]
    obtain rfl | ht := List.mem_cons.1 ht
    · rw [closeAt_error (ho t) h]
      rfl
    · cases hs : closed? closing s (m s) with
      | none =>
        rw [closeAt_error (ho s) hs]
        rfl
      | some k =>
        obtain ⟨o', run, -, last, shows'⟩ := closeAt_ok fresh ho hs
        rw [run, Outcome.ok_bind]
        refine ih (last.trans fresh) shows' once ht ?_
        rw [if_neg fun (e : t = s) => new (e ▸ ht)]
        exact h

theorem closeAll_ok (fresh : o.lastCode = none) (ho : ∀ u, o.Shows u (m u)) (once : ts.Nodup)
    (hc : ∀ t ∈ ts, closed? closing t (m t) = some (m' t)) (hn : ∀ t, t ∉ ts → m' t = m t) :
    ∃ o', ts.foldlM (closeAt closing) o = .ok o' ∧ Alike o.diff o'.diff ∧
      o'.lastCode = o.lastCode ∧ ∀ t, o'.Shows t (m' t) := by
  induction ts generalizing o m with
  | nil =>
    refine ⟨o, rfl, .refl _, rfl, fun t => ?_⟩
    rw [hn t List.not_mem_nil]
    exact ho t
  | cons s ts ih =>
    obtain ⟨new, once⟩ := List.nodup_cons.1 once
    obtain ⟨here, hc⟩ := List.forall_mem_cons.1 hc
    obtain ⟨o₁, run, touched, last, shows₁⟩ := closeAt_ok fresh ho here
    obtain ⟨o', run', alike, last', shows'⟩ := ih (last.trans fresh) shows₁ once
      (fun t ht => by rw [if_neg fun (e : t = s) => new (e ▸ ht)]; exact hc t ht) fun t ht => by
        split
        · next e => rw [e]
        · next e => exact hn t fun h => (List.mem_cons.1 h).elim e ht
    refine ⟨o', ?_, touched.toAlike.trans alike, last'.trans last, shows'⟩
    rw [List.foldlM_cons, run]
    exact run'

theorem nodup_times (c : Change) : c.times.Nodup := by cases c <;> decide

theorem closeChains_eq (closing : ClosingLine) (o : Outline) :
    closeChains closing o = closing.change.times.foldlM (closeAt closing) { o with lastCode := none } :=
  rfl

end Chains

/-! ## Adding a node -/

section Push

variable {o : Outline} {t : Time} {change : Change} {kind : Kind} {start stop : Position}
  {formula : Option Formula} {label : Label} {m m' : Time → Nest Facet}

/-- The node that is added, without edges. -/
def newNode (change : Change) (kind : Kind) (start stop : Position) (formula : Option Formula)
    (label : Label) : Node :=
  { change, kind, start, stop, formula, label }

/-- What the new node says at a time. -/
def newFacet (kind : Kind) (start stop : Position) (formula : Option Formula) (label : Label)
    (t : Time) : Facet :=
  ⟨kind, start.get t, stop.get t, formula, label, none⟩

theorem facet_newNode :
    (newNode change kind start stop formula label).facet t =
      newFacet kind start stop formula label t := by
  cases t <;> rfl

theorem children_newNode : (newNode change kind start stop formula label).children.get t = [] := by
  cases t <;> rfl

theorem parent_newNode : (newNode change kind start stop formula label).parent.get t = none := by
  cases t <;> rfl

theorem result_addNode (hk : kind ≠ .root) (law : formula.isSome = kind.isConditional) (d : Diff) :
    (Edit.addNode change kind start stop formula label).result d =
      .ok (d.size, d.append (newNode change kind start stop formula label)) := by
  have lawful : ¬ (kind = .root ∨ formula.isSome ≠ kind.isConditional) := by simp [hk, law]
  simp only [Edit.addNode, if_neg lawful]
  rfl

theorem result_addNode_root (hk : kind = .root) (d : Diff) :
    ∃ e, (Edit.addNode change kind start stop formula label).result d = .error e := by
  have lawless : kind = .root ∨ formula.isSome ≠ kind.isConditional := .inl hk
  simp only [Edit.addNode, if_pos lawless]
  exact ⟨_, rfl⟩

/-- Whether another branch may follow, seen in the nest. -/
theorem checkBranch_eq_ok_iff {k : Nest Facet} (ho : o.Shows t k) (p : Position) (x : Node) :
    checkBranch { o with diff := o.diff.append x } p t = .ok () ↔ k.continuable = true := by
  obtain ⟨n, opened, holds, rfl, -⟩ := ho
  cases n with
  | base a done =>
    simp only [checkBranch, opened, Nest.opened, Nest.map, Nest.continuable]
    simp [Outline.fail]
  | under a done rest =>
    obtain ⟨os, hos⟩ := rest.opened_eq_cons
    have ha : a < o.diff.size := holds.linked.1
    have look : (o.diff.append x).look a = o.diff.look a := by
      rw [look_append, if_neg (Nat.ne_of_lt ha)]
    simp only [checkBranch, opened, Nest.opened, hos, Nest.map, Nest.continuable,
      node_look (d := o.diff.append x) (n := a) (by rw [size_append]; exact Nat.lt_succ_of_lt ha),
      look, Outcome.ok_bind]
    rw [Outline.fail, Outcome.ite_fail_eq_ok_iff]
    simp [facet, Node.facet]

theorem get_pushed (opened : Sides (List Handle)) (c : Change) (n : Handle) (t : Time) :
    (c.times.foldl (fun opened t => opened.set t (n :: opened.get t)) opened).get t =
      if c.existsAt t then n :: opened.get t else opened.get t := by
  cases c <;> cases t <;> rfl

/-- The outline after a node was added below the places `tops`. -/
def pushed (o : Outline) (tops : Time → Handle) (x : Node) : Outline where
  diff := (o.diff.append x).linkAll tops o.diff.size x.change.times
  opened :=
    if x.kind.annotates then
      x.change.times.foldl (fun opened t => opened.set t (o.diff.size :: opened.get t)) o.opened
    else o.opened
  lastCode := if x.kind = .artifact then some o.diff.size else none

theorem push_eq {tops : Time → Handle} (htops : ∀ t, (o.opened.get t).head? = some (tops t))
    (inStore : ∀ t, tops t < o.diff.size) (hk : kind ≠ .root)
    (law : formula.isSome = kind.isConditional)
    (hc : kind.isContinuation = true → ∀ t, change.existsAt t = true →
      checkBranch { o with diff := o.diff.append (newNode change kind start stop formula label) }
        start t = .ok ()) :
    push change kind start stop formula label o =
      .ok (pushed o tops (newNode change kind start stop formula label)) := by
  have look : ((o.diff.append (newNode change kind start stop formula label)).look o.diff.size) =
      newNode change kind start stop formula label := by
    rw [look_append, if_pos rfl]
  have attached : (Edit.attachBelow o.diff.size (o.opened.map List.head?)).result
      (o.diff.append (newNode change kind start stop formula label)) =
        .ok (true, (o.diff.append (newNode change kind start stop formula label)).linkAll tops
          o.diff.size change.times) := by
    have run : (Edit.attachBelow o.diff.size (o.opened.map List.head?)).run
        (o.diff.append (newNode change kind start stop formula label)) =
          .ok true ((o.diff.append (newNode change kind start stop formula label)).linkAll tops
            o.diff.size ((o.diff.append (newNode change kind start stop formula label)).look
              o.diff.size).change.times) := by
      refine Edit.run_attachBelow (fun t => ?_) ?_ (fun t => ?_) fun t => ?_
      · rw [Sides.get_map, htops]
      · rw [size_append]
        exact Nat.lt_succ_self _
      · rw [size_append]
        exact Nat.lt_succ_of_lt (inStore t)
      · rw [above_append fun _ => parent_newNode]
        exact above_eq_none (Nat.lt_irrefl _)
    rw [look] at run
    rw [Edit.result, run]
    rfl
  rw [push, result_addNode hk law, Outcome.ok_bind]
  by_cases continuation : kind.isContinuation = true
  · have branches : change.times.forM (checkBranch { o with
        diff := o.diff.append (newNode change kind start stop formula label) } start) = .ok () :=
      Outcome.forM_eq_ok_iff.2 fun t ht => hc continuation t (Change.mem_times.1 ht)
    simp only [if_pos continuation, branches, Outcome.ok_bind, attached]
    rfl
  · simp only [if_neg continuation, attached, Outcome.ok_bind]
    rfl

/-- If a branch cannot follow at some time, nothing is added. -/
theorem push_branches_error {e : Failure} (hk : kind.isContinuation = true)
    (law : formula.isSome = kind.isConditional)
    (hb : change.times.forM (checkBranch { o with
      diff := o.diff.append (newNode change kind start stop formula label) } start) = .error e) :
    push change kind start stop formula label o = .error e := by
  have root : kind ≠ .root := by rintro rfl; cases hk
  rw [push, result_addNode root law, Outcome.ok_bind]
  simp only [if_pos hk, hb]
  rfl

theorem push_error (hk : kind.isContinuation = true) (law : formula.isSome = kind.isConditional)
    (ht : change.existsAt t = true)
    (hc : checkBranch { o with diff := o.diff.append (newNode change kind start stop formula label) }
      start t ≠ .ok ()) :
    ∃ e, push change kind start stop formula label o = .error e := by
  cases hb : change.times.forM (checkBranch { o with
      diff := o.diff.append (newNode change kind start stop formula label) } start) with
  | ok _ => exact absurd (Outcome.forM_eq_ok_iff.1 hb t (Change.mem_times.2 ht)) hc
  | error e => exact ⟨e, push_branches_error hk law hb⟩

theorem facet_linkAll {d : Diff} {x : Node} {tops : Time → Handle} {c a : Handle}
    {ts : List Time} :
    ((d.append x).linkAll tops c ts).facet t a = if a = d.size then x.facet t else d.facet t a := by
  have facet_payload (d : Diff) : d.facet t a = (d.payload a).facet t := rfl
  rw [facet_payload, payload_linkAll, payload_append]
  split <;> rfl

section Shows

variable {tops : Time → Handle} {x : Node}

theorem below_pushed (hx : ∀ t, x.children.get t = []) (inStore : ∀ t, tops t < o.diff.size)
    (a : Handle) : (o.pushed tops x).diff.below t a =
      if x.change.existsAt t = true ∧ a = tops t then o.diff.below t a ++ [o.diff.size]
      else o.diff.below t a := by
  have lt (t : Time) : tops t < (o.diff.append x).size := by
    rw [size_append]
    exact Nat.lt_succ_of_lt (inStore t)
  rw [pushed, below_linkAll (nodup_times _) fun t _ => lt t, below_append hx]
  simp only [Change.mem_times]

theorem size_pushed : (o.pushed tops x).diff.size = o.diff.size + 1 := by
  rw [pushed, size_linkAll, size_append]

theorem image_pushed {n : Nest Handle} (hn : o.diff.Holds t n) :
    n.map ((o.pushed tops x).diff.facet t) = n.map (o.diff.facet t) :=
  Nest.map_congr fun a ha => by rw [pushed, facet_linkAll, if_neg (Nat.ne_of_lt (hn.lt_size ha))]

theorem payload_pushed {a : Handle} : (o.pushed tops x).diff.payload a =
    if a = o.diff.size then x.detached else o.diff.payload a := by
  rw [pushed, payload_linkAll, payload_append]

theorem kind_pushed {a : Handle} : ((o.pushed tops x).diff.look a).kind =
    if a = o.diff.size then x.kind else (o.diff.look a).kind := by
  show ((o.pushed tops x).diff.payload a).kind = _
  rw [payload_pushed]
  split <;> rfl

theorem change_pushed {a : Handle} : ((o.pushed tops x).diff.look a).change =
    if a = o.diff.size then x.change else (o.diff.look a).change := by
  show ((o.pushed tops x).diff.payload a).change = _
  rw [payload_pushed]
  split <;> rfl

/-- An outline recalls the node that was added last if it is code. -/
theorem recalls_pushed {n : Nest Handle} (h : x.kind = .artifact →
    if x.change.existsAt t then ∃ k : Nest Handle, n = k.hang (.tree o.diff.size .nil)
    else o.diff.size ∉ n.flatten) : (o.pushed tops x).Recalls t n := by
  intro c hc
  have last : (o.pushed tops x).lastCode = if x.kind = .artifact then some o.diff.size else none :=
    rfl
  rw [last] at hc
  split at hc
  · next code =>
    obtain rfl := Option.some.inj hc
    rw [size_pushed, kind_pushed, change_pushed, if_pos rfl, if_pos rfl]
    exact ⟨Nat.lt_succ_self _, code, h code⟩
  · cases hc

theorem opened_pushed : (o.pushed tops x).opened.get t =
    if x.kind.annotates = true ∧ x.change.existsAt t = true then o.diff.size :: o.opened.get t
    else o.opened.get t := by
  show (if x.kind.annotates then
    x.change.times.foldl (fun opened t => opened.set t (o.diff.size :: opened.get t)) o.opened
    else o.opened).get t = _
  by_cases annotates : x.kind.annotates = true
  · rw [if_pos annotates, get_pushed]
    simp only [annotates, true_and]
  · rw [if_neg annotates, if_neg fun h => annotates h.1]

/-- A new node opens a place below the innermost one, at each time at which it is there. -/
theorem holds_pushed {n : Nest Handle} (hx : ∀ t, x.children.get t = [])
    (inStore : ∀ t, tops t < o.diff.size) (holds : o.diff.Holds t n) (top : n.top = tops t)
    (there : x.change.existsAt t = true) :
    (o.pushed tops x).diff.Holds t (.under o.diff.size .nil n) := by
  refine holds.enter ?_ ?_ (Nat.le_refl _) ?_ ?_ fun a ha hne => ?_
  · rw [size_pushed]
    exact Nat.le_succ _
  · rw [size_pushed]
    exact Nat.lt_succ_self _
  · have other : ¬ (x.change.existsAt t = true ∧ o.diff.size = tops t) := fun h =>
      absurd (inStore t) (h.2 ▸ Nat.lt_irrefl _)
    rw [below_pushed hx inStore, if_neg other]
    exact below_eq_nil (Nat.lt_irrefl _)
  · rw [below_pushed hx inStore, top, if_pos ⟨there, rfl⟩]
  · rw [below_pushed hx inStore, if_neg fun h => hne (h.2.trans top.symm)]

/-- A new node leaves the nest of a time at which it is not there. -/
theorem holds_pushed_of_absent {n : Nest Handle} (hx : ∀ t, x.children.get t = [])
    (inStore : ∀ t, tops t < o.diff.size) (holds : o.diff.Holds t n)
    (absent : ¬ x.change.existsAt t = true) : (o.pushed tops x).diff.Holds t n := by
  refine holds.congr fun a ha => ⟨?_, ?_⟩
  · rw [size_pushed]
    exact Nat.lt_succ_of_lt (holds.lt_size ha)
  · rw [below_pushed hx inStore, if_neg fun h => absent h.1]

/-- A new node is in the nest of each time at which it is there. -/
theorem shows_pushed {k : Nest Facet} (hx : ∀ t, x.children.get t = [])
    (htops : (o.opened.get t).head? = some (tops t)) (inStore : ∀ t, tops t < o.diff.size)
    (ho : o.Shows t k) (there : x.change.existsAt t = true) :
    (o.pushed tops x).Shows t (if x.kind.annotates then .under (x.facet t) .nil k
      else k.hang (.tree (x.facet t) .nil)) := by
  obtain ⟨n, opened, holds, rfl, -⟩ := ho
  have top : n.top = tops t := by
    rw [opened, Nest.head?_opened] at htops
    exact Option.some.inj htops
  have entered : (o.pushed tops x).diff.Holds t (.under o.diff.size .nil n) :=
    holds_pushed hx inStore holds top there
  have new : (o.pushed tops x).diff.facet t o.diff.size = x.facet t := by
    rw [pushed, facet_linkAll, if_pos rfl]
  split
  · next annotates =>
    refine ⟨.under o.diff.size .nil n, ?_, entered, ?_, recalls_pushed fun code => ?_⟩
    · rw [opened_pushed, if_pos ⟨annotates, there⟩, opened]
      rfl
    · rw [Nest.map, new, image_pushed holds, Forest.map]
    · rw [code] at annotates
      cases annotates
  · next leaf =>
    refine ⟨n.hang (.tree o.diff.size .nil), ?_, entered.fold, ?_, recalls_pushed fun _ => ?_⟩
    · rw [opened_pushed, if_neg fun h => leaf h.1, opened, Nest.opened_hang]
    · rw [Nest.map_hang, image_pushed holds, Forest.map_tree, new, Forest.map]
    · rw [if_pos there]
      exact ⟨n, rfl⟩

/-- A new node is not seen at a time at which it is not there. -/
theorem shows_pushed_of_absent {k : Nest Facet} (hx : ∀ t, x.children.get t = [])
    (inStore : ∀ t, tops t < o.diff.size) (ho : o.Shows t k) (absent : ¬ x.change.existsAt t = true) :
    (o.pushed tops x).Shows t k := by
  obtain ⟨n, opened, holds, rfl, -⟩ := ho
  refine ⟨n, ?_, holds_pushed_of_absent hx inStore holds absent, image_pushed holds,
    recalls_pushed fun _ => ?_⟩
  · rw [opened_pushed, if_neg fun h => absent h.2, opened]
  · rw [if_neg absent]
    exact fun h => Nat.lt_irrefl _ (holds.lt_size h)

end Shows

end Push

end Reading.Outline

end Variation
