import Mathlib.Data.List.Nodup
import Variation.Proofs.Orderly

/-!
# Diffs with the same annotations

Two diffs have the same annotations if their nodes but the code can be matched in the order in which they
were added, so that matched nodes have the same kind, change and condition, and the same annotations below
them at each time. What is put into two outlines whose diffs are matched in this way, and whose open
annotations are, is put into both or into none, and keeps them matched. Code that is put into one of them
changes nothing.
-/

namespace Variation

/-- Two outcomes agree: both are failures, or what they give is related. -/
def Outcome.Agrees {α β : Type} (R : α → β → Prop) : Outcome α → Outcome β → Prop
  | .ok a, .ok b => R a b
  | .error _, .error _ => True
  | _, _ => False

namespace Outcome

variable {α β γ δ : Type} {R R' : α → β → Prop} {S : γ → δ → Prop} {x : Outcome α} {y : Outcome β}

theorem Agrees.bind {f : α → Outcome γ} {g : β → Outcome δ} (h : x.Agrees R y)
    (next : ∀ a b, x = .ok a → y = .ok b → R a b → (f a).Agrees S (g b)) :
    (x >>= f).Agrees S (y >>= g) := by
  cases x <;> cases y
  · trivial
  · exact h.elim
  · exact h.elim
  · exact next _ _ rfl rfl h

theorem Agrees.mono (h : x.Agrees R y) (weaker : ∀ a b, R a b → R' a b) : x.Agrees R' y := by
  cases x <;> cases y
  · trivial
  · exact h.elim
  · exact h.elim
  · exact weaker _ _ h

theorem Agrees.isOk_iff (h : x.Agrees R y) : (∃ a, x = .ok a) ↔ ∃ b, y = .ok b := by
  cases x <;> cases y
  · simp
  · exact h.elim
  · exact h.elim
  · simp

theorem Agrees.related {a : α} {b : β} (h : x.Agrees R y) (ha : x = .ok a) (hb : y = .ok b) : R a b := by
  subst ha hb
  exact h

end Outcome

namespace Diff

/-- The nodes but the code: the root and the annotations, in the order in which they were added. -/
def annotations (d : Diff) : List Handle :=
  (List.range d.size).filter fun n => (d.look n).kind != .artifact

/-- The annotations below a node at a time. -/
def annotationsBelow (d : Diff) (t : Time) (n : Handle) : List Handle :=
  (d.below t n).filter fun m => (d.look m).kind != .artifact

/-- A function matches the annotations of two diffs, with the annotations below them. -/
structure Matches (φ : Handle → Handle) (d d' : Diff) : Prop where
  nodes : d'.annotations = d.annotations.map φ
  root : ∀ n ∈ d.annotations, φ n = Diff.root ↔ n = Diff.root
  same : ∀ n ∈ d.annotations, (d'.look (φ n)).kind = (d.look n).kind ∧
    (d'.look (φ n)).change = (d.look n).change ∧ (d'.look (φ n)).formula = (d.look n).formula
  below : ∀ n ∈ d.annotations, ∀ t, d'.annotationsBelow t (φ n) = (d.annotationsBelow t n).map φ

/-- Two diffs have the same annotations in the same order, with the same kinds, changes and conditions and
with the same annotations below them at each time. -/
def SameAnnotations (d d' : Diff) : Prop := ∃ φ, Matches φ d d'

section Matches

variable {d d' e e' : Diff} {φ ψ : Handle → Handle} {n m : Handle} {t : Time}

theorem mem_annotations : n ∈ d.annotations ↔ n < d.size ∧ (d.look n).kind ≠ .artifact := by
  rw [annotations, List.mem_filter, List.mem_range, bne_iff_ne]

theorem nodup_annotations : d.annotations.Nodup := List.nodup_range.filter _

/-- What hangs below is in the store. -/
theorem Orderly.annotationsBelow_subset (h : d.Orderly) (hm : m ∈ d.annotationsBelow t n) :
    m ∈ d.annotations := by
  obtain ⟨below, annotation⟩ := List.mem_filter.1 hm
  exact mem_annotations.2 ⟨lt_size_of_above (h.above_of_mem below), bne_iff_ne.1 annotation⟩

namespace Matches

theorem mem (h : Matches φ d d') (hn : n ∈ d.annotations) : φ n ∈ d'.annotations := by
  rw [h.nodes]
  exact List.mem_map_of_mem hn

theorem injOn (h : Matches φ d d') (hn : n ∈ d.annotations) (hm : m ∈ d.annotations)
    (same : φ n = φ m) : n = m :=
  List.inj_on_of_nodup_map (h.nodes ▸ nodup_annotations) hn hm same

end Matches

/-- A diff has the annotations of another one, and the same annotations below them. -/
structure KeepsAnnotations (d e : Diff) : Prop where
  nodes : e.annotations = d.annotations
  same : ∀ n ∈ d.annotations, (e.look n).kind = (d.look n).kind ∧
    (e.look n).change = (d.look n).change ∧ (e.look n).formula = (d.look n).formula
  below : ∀ n ∈ d.annotations, ∀ t, e.annotationsBelow t n = d.annotationsBelow t n

theorem KeepsAnnotations.refl (d : Diff) : KeepsAnnotations d d :=
  ⟨rfl, fun _ _ => ⟨rfl, rfl, rfl⟩, fun _ _ _ => rfl⟩

theorem KeepsAnnotations.trans {d₁ d₂ : Diff} (h : KeepsAnnotations d d₁) (h' : KeepsAnnotations d₁ d₂) :
    KeepsAnnotations d d₂ := by
  refine ⟨h'.nodes.trans h.nodes, fun n hn => ?_, fun n hn t => ?_⟩
  · obtain ⟨kind, change, formula⟩ := h.same n hn
    obtain ⟨kind', change', formula'⟩ := h'.same n (h.nodes ▸ hn)
    exact ⟨kind'.trans kind, change'.trans change, formula'.trans formula⟩
  · exact (h'.below n (h.nodes ▸ hn) t).trans (h.below n hn t)

/-- Ends, texts and closing lines are nothing to annotations. -/
theorem Alike.keepsAnnotations (h : Alike d e) : KeepsAnnotations d e := by
  refine ⟨?_, fun n _ => ⟨h.kind, h.change, h.formula⟩, fun n _ t => ?_⟩
  · rw [annotations, annotations, h.size]
    exact List.filter_congr fun n _ => by rw [h.kind]
  · rw [annotationsBelow, annotationsBelow, h.below]
    exact List.filter_congr fun n _ => by rw [h.kind]

theorem Matches.keep (h : Matches φ d d') (he : KeepsAnnotations d e) (he' : KeepsAnnotations d' e') :
    Matches φ e e' := by
  refine ⟨?_, ?_, fun n hn => ?_, fun n hn t => ?_⟩
  · rw [he.nodes, he'.nodes, h.nodes]
  · rw [he.nodes]
    exact h.root
  · rw [he.nodes] at hn
    obtain ⟨kind, change, formula⟩ := he.same n hn
    obtain ⟨kind', change', formula'⟩ := he'.same _ (h.mem hn)
    rw [kind, change, formula, kind', change', formula']
    exact h.same n hn
  · rw [he.nodes] at hn
    rw [he.below n hn t, he'.below _ (h.mem hn) t, h.below n hn t]

/-- A diff gets a further annotation, below the given node at each time of its change. -/
structure GainsAnnotation (d e : Diff) (new : Handle) (x : Node) (tops : Time → Handle) : Prop where
  nodes : e.annotations = d.annotations ++ [new]
  inner : new ≠ root
  fresh : new ∉ d.annotations
  same : ∀ n ∈ d.annotations, (e.look n).kind = (d.look n).kind ∧
    (e.look n).change = (d.look n).change ∧ (e.look n).formula = (d.look n).formula
  gained : (e.look new).kind = x.kind ∧ (e.look new).change = x.change ∧ (e.look new).formula = x.formula
  below : ∀ n ∈ d.annotations, ∀ t, e.annotationsBelow t n =
    if x.change.existsAt t = true ∧ n = tops t then d.annotationsBelow t n ++ [new]
    else d.annotationsBelow t n
  leaf : ∀ t, e.annotationsBelow t new = []

variable {new new' : Handle} {x x' : Node} {tops tops' : Time → Handle}

theorem GainsAnnotation.forall_mem (g : GainsAnnotation d e new x tops) {P : Handle → Prop}
    (old : ∀ n ∈ d.annotations, P n) (recent : P new) : ∀ n ∈ e.annotations, P n := by
  rw [g.nodes]
  exact List.forall_mem_append.2 ⟨old, List.forall_mem_singleton.2 recent⟩

/-- Annotations that say the same, below nodes that are matched, are matched. -/
theorem Matches.gain (h : Matches φ d d') (g : GainsAnnotation d e new x tops)
    (g' : GainsAnnotation d' e' new' x' tops')
    (same : x'.kind = x.kind ∧ x'.change = x.change ∧ x'.formula = x.formula)
    (top : ∀ t, tops t ∈ d.annotations) (matched : ∀ t, tops' t = φ (tops t))
    (known : ∀ t n, ∀ m ∈ d.annotationsBelow t n, m ∈ d.annotations) :
    Matches (Function.update φ new new') e e' := by
  have old {n : Handle} (hn : n ∈ d.annotations) : Function.update φ new new' n = φ n :=
    Function.update_of_ne (ne_of_mem_of_not_mem hn g.fresh) _ _
  have olds {ns : List Handle} (hns : ∀ n ∈ ns, n ∈ d.annotations) :
      ns.map (Function.update φ new new') = ns.map φ := List.map_congr_left fun n hn => old (hns n hn)
  have recent : Function.update φ new new' new = new' := Function.update_self ..
  refine ⟨?_, g.forall_mem (fun n hn => ?_) ?_, g.forall_mem (fun n hn => ?_) ?_,
    g.forall_mem (fun n hn t => ?_) fun t => ?_⟩
  · rw [g.nodes, g'.nodes, List.map_append, olds fun _ hn => hn, List.map_singleton, recent, h.nodes]
  · rw [old hn]
    exact h.root n hn
  · rw [recent]
    exact iff_of_false g'.inner g.inner
  · obtain ⟨kind, change, formula⟩ := g.same n hn
    obtain ⟨kind', change', formula'⟩ := g'.same _ (h.mem hn)
    rw [old hn, kind, change, formula, kind', change', formula']
    exact h.same n hn
  · obtain ⟨kind, change, formula⟩ := g.gained
    obtain ⟨kind', change', formula'⟩ := g'.gained
    rw [recent, kind, change, formula, kind', change', formula']
    exact same
  · have tied : φ n = tops' t ↔ n = tops t := by
      rw [matched]
      exact ⟨h.injOn hn (top t), congrArg φ⟩
    rw [old hn, g.below n hn, g'.below _ (h.mem hn), same.2.1]
    simp only [tied]
    split
    · rw [List.map_append, olds (known t n), List.map_singleton, recent, h.below n hn t]
    · rw [olds (known t n), h.below n hn t]
  · rw [recent, g.leaf, g'.leaf]
    rfl

end Matches

end Diff

namespace Reading.Outline

open Diff

/-- A function matches the annotations of two outlines and the open ones among them. -/
structure Matches (φ : Handle → Handle) (o o' : Outline) : Prop where
  diff : Diff.Matches φ o.diff o'.diff
  known : ∀ t, ∀ n ∈ o.opened.get t, n ∈ o.diff.annotations
  opened : ∀ t, o'.opened.get t = (o.opened.get t).map φ

/-- An outline has the annotations of another one, and the same ones are open. -/
structure Keeps (o o₁ : Outline) : Prop where
  diff : KeepsAnnotations o.diff o₁.diff
  opened : ∀ t, o₁.opened.get t = o.opened.get t

theorem Keeps.refl (o : Outline) : Keeps o o := ⟨.refl _, fun _ => rfl⟩

theorem Keeps.trans {o o₁ o₂ : Outline} (h : Keeps o o₁) (h' : Keeps o₁ o₂) : Keeps o o₂ :=
  ⟨h.diff.trans h'.diff, fun t => (h'.opened t).trans (h.opened t)⟩

section Closing

variable {o o' o₁ : Outline} {φ : Handle → Handle} {d d' : Diff} {t : Time} {ns : List Handle}
  {closing closing' : ClosingLine}

theorem Matches.keep {o₁' : Outline} (h : Matches φ o o') (kept : Keeps o o₁) (kept' : Keeps o' o₁') :
    Matches φ o₁ o₁' := by
  refine ⟨h.diff.keep kept.diff kept'.diff, fun t n hn => ?_, fun t => ?_⟩
  · rw [kept.opened] at hn
    rw [kept.diff.nodes]
    exact h.known t n hn
  · rw [kept.opened, kept'.opened, h.opened]

theorem Matches.inStore (h : Matches φ o o') (t : Time) : ∀ n ∈ o.opened.get t, n < o.diff.size :=
  fun n hn => (mem_annotations.1 (h.known t n hn)).1

theorem Matches.inStore' (h : Matches φ o o') (t : Time) : ∀ n ∈ o'.opened.get t, n < o'.diff.size := by
  intro n hn
  rw [h.opened] at hn
  obtain ⟨m, hm, rfl⟩ := List.mem_map.1 hn
  exact (mem_annotations.1 (h.diff.mem (h.known t m hm))).1

/-- What stays open when the innermost chain of open places is closed. -/
def chainRest (d : Diff) : List Handle → Option (List Handle)
  | [] => none
  | n :: ns =>
    if n = root then none else if (d.look n).kind = .ifBranch then some ns else chainRest d ns

theorem chainRest_congr {e : Diff} (h : Alike d e) : chainRest e ns = chainRest d ns := by
  induction ns with
  | nil => rfl
  | cons n ns ih => rw [chainRest, chainRest, h.kind, ih]

/-- Whether a chain can be closed and what stays open depends on the open places and their kinds. -/
theorem closeChain_eq (t : Time) (closing : ClosingLine) (next : Position)
    (inStore : ∀ n ∈ ns, n < d.size) :
    match chainRest d ns with
    | none => ∃ e, closeChain t closing next d ns = .error e
    | some rest => ∃ d', closeChain t closing next d ns = .ok (d', rest) := by
  induction ns generalizing d next with
  | nil => exact ⟨_, rfl⟩
  | cons n ns ih =>
    obtain ⟨here, inStore⟩ := List.forall_mem_cons.1 inStore
    rw [chainRest]
    by_cases bottom : n = root
    · rw [if_pos bottom, closeChain, if_pos bottom]
      exact ⟨_, rfl⟩
    · have touched : Alike d (d.update n (endAt t closing next ((d.look n).kind == .ifBranch))) :=
        (retouched_endAt here).toAlike
      rw [if_neg bottom, closeChain_cons bottom here]
      by_cases opens : (d.look n).kind = .ifBranch
      · rw [if_pos opens, if_pos (beq_iff_eq.2 opens)]
        exact ⟨_, rfl⟩
      · rw [if_neg opens, if_neg fun e => opens (beq_iff_eq.1 e), ← chainRest_congr touched]
        exact ih _ fun m hm => touched.size ▸ inStore m hm

theorem chainRest_map (h : Diff.Matches φ d d') (known : ∀ n ∈ ns, n ∈ d.annotations) :
    chainRest d' (ns.map φ) = (chainRest d ns).map (List.map φ) := by
  induction ns with
  | nil => rfl
  | cons n ns ih =>
    obtain ⟨here, known⟩ := List.forall_mem_cons.1 known
    rw [List.map_cons, chainRest, chainRest, (h.same n here).1, ih known]
    by_cases bottom : n = root
    · rw [if_pos bottom, if_pos ((h.root n here).2 bottom)]
      rfl
    · rw [if_neg bottom, if_neg ((h.root n here).not.2 bottom)]
      split <;> rfl

/-- Chains are closed in both outlines or in none. -/
theorem Matches.closeAt (h : Matches φ o o') (t : Time) :
    (closeAt closing o t).Agrees (Matches φ) (closeAt closing' o' t) := by
  have mine := closeChain_eq t closing closing.line (h.inStore t)
  have other := closeChain_eq t closing' closing'.line (h.inStore' t)
  have maps : chainRest o'.diff (o'.opened.get t) =
      (chainRest o.diff (o.opened.get t)).map (List.map φ) := by
    rw [h.opened]
    exact chainRest_map h.diff (h.known t)
  rw [maps] at other
  rw [Outline.closeAt, Outline.closeAt]
  cases hr : chainRest o.diff (o.opened.get t) with
  | none =>
    rw [hr] at mine other
    obtain ⟨e, failed⟩ := mine
    obtain ⟨e', failed'⟩ := other
    rw [failed, failed']
    trivial
  | some rest =>
    rw [hr] at mine other
    obtain ⟨d, run⟩ := mine
    obtain ⟨d', run'⟩ := other
    obtain ⟨alike, suffix⟩ := closeChain_alike run
    obtain ⟨alike', -⟩ := closeChain_alike run'
    rw [run, run']
    refine ⟨h.diff.keep alike.keepsAnnotations alike'.keepsAnnotations, fun u n hn => ?_, fun u => ?_⟩
    · rw [alike.keepsAnnotations.nodes]
      simp only [Sides.get_set] at hn
      split at hn
      · next e => exact h.known t n (suffix.subset hn)
      · exact h.known u n hn
    · simp only [Sides.get_set]
      split
      · rfl
      · exact h.opened u

theorem Matches.closeAll (h : Matches φ o o') (ts : List Time) :
    (ts.foldlM (Outline.closeAt closing) o).Agrees (Matches φ)
      (ts.foldlM (Outline.closeAt closing') o') := by
  induction ts generalizing o o' with
  | nil => exact h
  | cons t ts ih =>
    rw [List.foldlM_cons, List.foldlM_cons]
    exact (h.closeAt t).bind fun _ _ _ _ h => ih h

theorem Matches.closeChains (h : Matches φ o o') (same : closing.change = closing'.change) :
    (Outline.closeChains closing o).Agrees (Matches φ) (Outline.closeChains closing' o') := by
  have forgot : Matches φ { o with lastCode := none } { o' with lastCode := none } :=
    ⟨h.diff, h.known, h.opened⟩
  rw [closeChains_eq, closeChains_eq, same]
  exact forgot.closeAll _

end Closing

/-! ## Adding -/

section Adding

variable {o o' : Outline} {φ : Handle → Handle} {t : Time} {x x' : Node} {tops tops' : Time → Handle}
  {n : Handle} {m m' : Time → Nest Facet} {kind : Kind} {change : Change}
  {start stop start' stop' : Position} {formula : Option Formula} {label label' : Label}

theorem kind_pushed_of_lt (hn : n < o.diff.size) :
    ((o.pushed tops x).diff.look n).kind = (o.diff.look n).kind := by
  rw [kind_pushed, if_neg (Nat.ne_of_lt hn)]

theorem annotations_pushed : (o.pushed tops x).diff.annotations =
    if x.kind = .artifact then o.diff.annotations else o.diff.annotations ++ [o.diff.size] := by
  have old : (List.range o.diff.size).filter
      (fun n => ((o.pushed tops x).diff.look n).kind != .artifact) = o.diff.annotations :=
    List.filter_congr fun n hn => by rw [kind_pushed_of_lt (List.mem_range.1 hn)]
  have new : ((o.pushed tops x).diff.look o.diff.size).kind = x.kind := by
    rw [kind_pushed, if_pos rfl]
  rw [annotations, size_pushed, List.range_succ, List.filter_append, old, List.filter_singleton, new]
  split
  · next code => simp [code]
  · next unlike =>
    have other : (x.kind != .artifact) = true := bne_iff_ne.2 unlike
    simp [other]

theorem annotationsBelow_pushed (order : o.diff.Orderly) (hx : ∀ t, x.children.get t = [])
    (inStore : ∀ t, tops t < o.diff.size) : (o.pushed tops x).diff.annotationsBelow t n =
      if x.kind ≠ .artifact ∧ x.change.existsAt t = true ∧ n = tops t then
        o.diff.annotationsBelow t n ++ [o.diff.size]
      else o.diff.annotationsBelow t n := by
  have old : (o.diff.below t n).filter
      (fun m => ((o.pushed tops x).diff.look m).kind != .artifact) = o.diff.annotationsBelow t n :=
    List.filter_congr fun m hm => by rw [kind_pushed_of_lt (lt_size_of_above (order.above_of_mem hm))]
  have new : ((o.pushed tops x).diff.look o.diff.size).kind = x.kind := by
    rw [kind_pushed, if_pos rfl]
  rw [annotationsBelow, below_pushed hx inStore]
  by_cases there : x.change.existsAt t = true ∧ n = tops t
  · rw [if_pos there, List.filter_append, old, List.filter_singleton, new]
    by_cases code : x.kind = .artifact
    · simp [code]
    · have other : (x.kind != .artifact) = true := bne_iff_ne.2 code
      simp [other, code, there]
  · rw [if_neg there, if_neg fun all => there all.2, old]

/-- Code below the open places is nothing to annotations. -/
theorem keepsAnnotations_pushed (order : o.diff.Orderly) (hx : ∀ t, x.children.get t = [])
    (inStore : ∀ t, tops t < o.diff.size) (code : x.kind = .artifact) :
    KeepsAnnotations o.diff (o.pushed tops x).diff := by
  refine ⟨by rw [annotations_pushed, if_pos code], fun n hn => ?_, fun n hn t => ?_⟩
  · have old : n ≠ o.diff.size := Nat.ne_of_lt (mem_annotations.1 hn).1
    rw [kind_pushed, change_pushed, formula_pushed, if_neg old, if_neg old, if_neg old]
    exact ⟨rfl, rfl, rfl⟩
  · rw [annotationsBelow_pushed order hx inStore, if_neg fun all => all.1 code]

/-- An annotation is added below the open places of its times. -/
theorem gainsAnnotation_pushed (order : o.diff.Orderly) (hx : ∀ t, x.children.get t = [])
    (inStore : ∀ t, tops t < o.diff.size) (other : x.kind ≠ .artifact) :
    GainsAnnotation o.diff (o.pushed tops x).diff o.diff.size x tops := by
  refine ⟨by rw [annotations_pushed, if_neg other], Nat.ne_of_gt (Nat.zero_lt_of_lt (inStore .before)),
    fun mem => Nat.lt_irrefl _ (mem_annotations.1 mem).1, fun n hn => ?_, ?_, fun n hn t => ?_, fun t => ?_⟩
  · have old : n ≠ o.diff.size := Nat.ne_of_lt (mem_annotations.1 hn).1
    rw [kind_pushed, change_pushed, formula_pushed, if_neg old, if_neg old, if_neg old]
    exact ⟨rfl, rfl, rfl⟩
  · rw [kind_pushed, change_pushed, formula_pushed, if_pos rfl, if_pos rfl, if_pos rfl]
    exact ⟨rfl, rfl, rfl⟩
  · rw [annotationsBelow_pushed order hx inStore]
    simp only [ne_eq, other, not_false_eq_true, true_and]
  · have outer : o.diff.size ≠ tops t := Nat.ne_of_gt (inStore t)
    rw [annotationsBelow_pushed order hx inStore, if_neg fun all => outer all.2.2, annotationsBelow,
      below_eq_nil (Nat.lt_irrefl _)]
    rfl

/-- Annotations that are added to both outlines are matched. -/
theorem Matches.pushed (h : Matches φ o o') (order : o.diff.Orderly) (order' : o'.diff.Orderly)
    (hx : ∀ t, x.children.get t = []) (hx' : ∀ t, x'.children.get t = [])
    (head : ∀ t, (o.opened.get t).head? = some (tops t))
    (head' : ∀ t, (o'.opened.get t).head? = some (tops' t))
    (annotates : x.kind.annotates = true)
    (same : x'.kind = x.kind ∧ x'.change = x.change ∧ x'.formula = x.formula) :
    Matches (Function.update φ o.diff.size o'.diff.size) (o.pushed tops x) (o'.pushed tops' x') := by
  have top (t : Time) : tops t ∈ o.diff.annotations := h.known t _ (List.mem_of_mem_head? (head t))
  have matched (t : Time) : tops' t = φ (tops t) := by
    have both := head' t
    rw [h.opened, List.head?_map, head t] at both
    exact (Option.some.inj both).symm
  have inStore (t : Time) : tops t < o.diff.size := (mem_annotations.1 (top t)).1
  have inStore' (t : Time) : tops' t < o'.diff.size := by
    rw [matched]
    exact (mem_annotations.1 (h.diff.mem (top t))).1
  have other : x.kind ≠ .artifact := by
    intro code
    rw [code] at annotates
    cases annotates
  have gains := gainsAnnotation_pushed order hx inStore other
  have gains' := gainsAnnotation_pushed order' hx' inStore' (same.1 ▸ other)
  have olds (t : Time) : (o.opened.get t).map (Function.update φ o.diff.size o'.diff.size) =
      (o.opened.get t).map φ :=
    List.map_congr_left fun n hn => Function.update_of_ne (Nat.ne_of_lt (h.inStore t n hn)) _ _
  refine ⟨h.diff.gain gains gains' same top matched fun t n m hm => order.annotationsBelow_subset hm,
    fun t n hn => ?_, fun t => ?_⟩
  · rw [gains.nodes]
    rw [opened_pushed] at hn
    split at hn
    · obtain rfl | hn := List.mem_cons.1 hn
      · exact List.mem_append_right _ List.mem_cons_self
      · exact List.mem_append_left _ (h.known t n hn)
    · exact List.mem_append_left _ (h.known t n hn)
  · rw [opened_pushed, opened_pushed, same.1, same.2.1]
    split
    · rw [List.map_cons, Function.update_self, olds, h.opened]
    · rw [olds, h.opened]

/-- Whether another branch may follow the innermost open place. -/
def branchable (d : Diff) : List Handle → Bool
  | n :: _ :: _ => (d.look n).kind != .elseBranch
  | _ => false

theorem checkBranch_eq (known : ∀ n ∈ o.opened.get t, n < o.diff.size) (p : Position) (x : Node) :
    Outline.checkBranch { o with diff := o.diff.append x } p t = .ok () ↔
      branchable o.diff (o.opened.get t) = true := by
  rw [Outline.checkBranch]
  generalize o.opened.get t = ns at known ⊢
  cases ns with
  | nil => simp [branchable, Outline.fail]
  | cons n ns =>
    cases ns with
    | nil => simp [branchable, Outline.fail]
    | cons n' ns =>
      have old : n < o.diff.size := known n List.mem_cons_self
      have look : (o.diff.append x).look n = o.diff.look n := by
        rw [look_append, if_neg (Nat.ne_of_lt old)]
      have node : (o.diff.append x).node n = .ok (o.diff.look n) := by
        rw [node_look (by rw [size_append]; exact Nat.lt_succ_of_lt old), look]
      simp only [node, Outcome.ok_bind, branchable, bne_iff_ne]
      rw [Outline.fail, Outcome.ite_fail_eq_ok_iff]

theorem branchable_map {d d' : Diff} {ns : List Handle}
    (kinds : ∀ n ∈ ns, (d'.look (φ n)).kind = (d.look n).kind) :
    branchable d' (ns.map φ) = branchable d ns := by
  cases ns with
  | nil => rfl
  | cons n ns =>
    cases ns with
    | nil => rfl
    | cons n' ns =>
      show ((d'.look (φ n)).kind != .elseBranch) = _
      rw [kinds n List.mem_cons_self]
      rfl

/-- What the open places of an outline allow to be added at the times of a change. -/
def Allows (o : Outline) (change : Change) (kind : Kind) : Prop :=
  kind ≠ .root ∧ (kind.isContinuation = true → ∀ t, change.existsAt t = true →
    branchable o.diff (o.opened.get t) = true)

/-- What may be added depends on the open places and their kinds. -/
theorem allows_congr (opened : ∀ t, o'.opened.get t = (o.opened.get t).map φ)
    (kinds : ∀ t, ∀ n ∈ o.opened.get t, (o'.diff.look (φ n)).kind = (o.diff.look n).kind) :
    o'.Allows change kind ↔ o.Allows change kind := by
  have each (t : Time) : branchable o'.diff (o'.opened.get t) = branchable o.diff (o.opened.get t) := by
    rw [opened, branchable_map (kinds t)]
  simp only [Allows, each]

theorem Matches.allows_iff (h : Matches φ o o') : o'.Allows change kind ↔ o.Allows change kind :=
  allows_congr h.opened fun t n hn => (h.diff.same n (h.known t n hn)).1

theorem push_of_allows (law : formula.isSome = kind.isConditional)
    (head : ∀ t, (o.opened.get t).head? = some (tops t) ∧ tops t < o.diff.size)
    (known : ∀ t, ∀ n ∈ o.opened.get t, n < o.diff.size) (allows : o.Allows change kind) :
    push change kind start stop formula label o =
      .ok (o.pushed tops (newNode change kind start stop formula label)) :=
  push_eq (fun t => (head t).1) (fun t => (head t).2) allows.1 law fun continuation t there =>
    (checkBranch_eq (known t) _ _).2 (allows.2 continuation t there)

theorem push_of_not_allows (law : formula.isSome = kind.isConditional)
    (known : ∀ t, ∀ n ∈ o.opened.get t, n < o.diff.size) (refuses : ¬ o.Allows change kind) :
    ∃ e, push change kind start stop formula label o = .error e := by
  by_cases top : kind = .root
  · obtain ⟨e, failed⟩ : ∃ e,
        (Edit.addNode change kind start stop formula label).result o.diff = .error e :=
      result_addNode_root top o.diff
    exact ⟨e, by rw [push, failed]; rfl⟩
  · obtain ⟨continuation, t, there, none⟩ : kind.isContinuation = true ∧ ∃ t,
        change.existsAt t = true ∧ ¬ branchable o.diff (o.opened.get t) = true := by
      simpa [Allows, top] using refuses
    exact push_error continuation law there fun h => none ((checkBranch_eq (known t) _ _).1 h)

/-- An outline that is in order and shows nests. -/
structure Ready (o : Outline) : Prop where
  neat : o.Neat
  shown : ∃ m : Time → Nest Facet, ∀ t, o.Shows t (m t)

/-- Two outlines whose annotations are matched, and the open ones among them. -/
def Corresponds (o o' : Outline) : Prop := ∃ φ, Matches φ o o'

variable {dialect : Dialect} {line line' : LogicalLine} {last : Position}

theorem Corresponds.keep {o₁ o₁' : Outline} (h : Corresponds o o') (kept : Keeps o o₁)
    (kept' : Keeps o' o₁') : Corresponds o₁ o₁' := by
  obtain ⟨φ, h⟩ := h
  exact ⟨φ, h.keep kept kept'⟩

/-- Code can always be put, and changes no annotations. -/
theorem put_code (ready : o.Ready) (item : dialect.item? line.text = some (.node .artifact formula))
    (range : last.add? 1 = some stop) (options : Options) (change : Change) :
    ∃ o₁, o.put options dialect line change last = .ok o₁ ∧ o.Keeps o₁ := by
  obtain ⟨m, shown⟩ := ready.shown
  obtain pushing | ⟨-, -, c, o₁, joining, joins⟩ :=
    put_node options change (Shows.lastCode_lt shown) item range
  · obtain ⟨tops, head⟩ := Shows.exists_top shown
    have allows : o.Allows change .artifact := ⟨Kind.noConfusion, Bool.noConfusion⟩
    have known (t : Time) (n : Handle) (hn : n ∈ o.opened.get t) : n < o.diff.size :=
      lt_size_of_lives (ready.neat.lives t n hn)
    refine ⟨_, by rw [pushing, push_of_allows (item?_node item).2 head known allows],
      keepsAnnotations_pushed ready.neat.orderly (fun _ => children_newNode) (fun t => (head t).2) rfl,
      fun t => ?_⟩
    rw [opened_pushed, if_neg fun h => Bool.false_ne_true h.1]
  · obtain ⟨last, -, -, rfl⟩ := joins
    have alike : Alike o.diff (o.joined c line.lines (stop.restrict change)).diff :=
      alike_joined (Shows.lastCode_lt shown c last)
    exact ⟨_, joining, alike.keepsAnnotations, fun _ => rfl⟩

theorem corresponds_start (source : Source) :
    Corresponds (Outline.start source) (Outline.start source) := by
  have opened (t : Time) : (Outline.start source).opened.get t = [root] := Sides.get_both _ t
  refine ⟨id, ⟨(List.map_id _).symm, fun _ _ => .rfl, fun _ _ => ⟨rfl, rfl, rfl⟩,
    fun _ _ _ => (List.map_id _).symm⟩, fun t n hn => ?_, fun _ => (List.map_id _).symm⟩
  rw [opened] at hn
  obtain rfl := List.mem_singleton.1 hn
  exact mem_annotations.2 ⟨Nat.zero_lt_one, Kind.noConfusion⟩

/-- An annotation of one kind is added to both outlines or to none. -/
theorem Matches.push {kind : Kind} {formula : Option Formula} (h : Matches φ o o') (ready : o.Ready)
    (ready' : o'.Ready) (law : formula.isSome = kind.isConditional) (code : kind ≠ .artifact)
    (change : Change) (start start' stop : Position) (label label' : Label) :
    (o.push change kind start stop formula label).Agrees Corresponds
      (o'.push change kind start' stop formula label') := by
  obtain ⟨m, shown⟩ := ready.shown
  obtain ⟨m', shown'⟩ := ready'.shown
  obtain ⟨tops, head⟩ := Shows.exists_top shown
  obtain ⟨tops', head'⟩ := Shows.exists_top shown'
  by_cases allows : o.Allows change kind
  · rw [push_of_allows law head h.inStore allows,
      push_of_allows law head' h.inStore' (h.allows_iff.2 allows)]
    have annotates : kind.annotates = true := by
      by_contra none
      obtain artifact | top := Kind.annotates_eq_false_iff.1 (Bool.eq_false_iff.2 none)
      · exact code artifact
      · exact allows.1 top
    exact ⟨_, h.pushed ready.neat.orderly ready'.neat.orderly (fun _ => children_newNode)
      (fun _ => children_newNode) (fun t => (head t).1) (fun t => (head' t).1) annotates
      ⟨rfl, rfl, rfl⟩⟩
  · obtain ⟨e, failed⟩ := push_of_not_allows law h.inStore allows
    obtain ⟨e', failed'⟩ := push_of_not_allows law h.inStore' (h.allows_iff.not.2 allows)
    rw [failed, failed']
    trivial

/-- What says the same is put into both outlines or into none. -/
theorem Corresponds.put (h : Corresponds o o') (ready : o.Ready) (ready' : o'.Ready)
    (same : dialect.item? line'.text = dialect.item? line.text) (range : last.add? 1 = some stop)
    (options options' : Options) (change : Change) :
    (o.put options dialect line change last).Agrees Corresponds
      (o'.put options' dialect line' change last) := by
  obtain ⟨φ, h⟩ := h
  cases item : dialect.item? line.text with
  | none =>
    obtain ⟨cause, failed⟩ : ∃ cause, o.put options dialect line change last =
      fail cause ((startOf line last).restrict change) := put_unreadable item range
    obtain ⟨cause', failed'⟩ : ∃ cause, o'.put options' dialect line' change last =
      fail cause ((startOf line' last).restrict change) := put_unreadable (same.trans item) range
    rw [failed, failed']
    trivial
  | some i =>
    cases i with
    | closing =>
      have closed : (closeChains ⟨change, (startOf line last).restrict change, ⟨line.lines⟩⟩ o).Agrees
          (Matches φ) (closeChains ⟨change, (startOf line' last).restrict change, ⟨line'.lines⟩⟩ o') :=
        h.closeChains rfl
      rw [put_closing item range, put_closing (same.trans item) range]
      exact closed.mono fun _ _ h => ⟨φ, h⟩
    | node kind formula =>
      by_cases code : kind = .artifact
      · subst code
        obtain ⟨o₁, run, kept⟩ := put_code ready item range options change
        obtain ⟨o₁', run', kept'⟩ := put_code ready' (same.trans item) range options' change
        rw [run, run']
        exact ⟨φ, h.keep kept kept'⟩
      · obtain ⟨m, shown⟩ := ready.shown
        obtain ⟨m', shown'⟩ := ready'.shown
        obtain pushing | ⟨-, artifact, -⟩ :=
          put_node options change (Shows.lastCode_lt shown) item range
        · obtain pushing' | ⟨-, artifact, -⟩ :=
            put_node options' change (Shows.lastCode_lt shown') (same.trans item) range
          · rw [pushing, pushing']
            exact h.push ready ready' (item?_node item).2 code change _ _ _ _ _
          · exact absurd artifact code
        · exact absurd artifact code

end Adding

/-- Whether an outline is accepted at the end depends on how many places are open. -/
theorem finish_agrees {R : Diff → Diff → Prop} {o o' : Outline} (neat : o.Neat) (neat' : o'.Neat)
    (lengths : ∀ t, (o'.opened.get t).length = (o.opened.get t).length) (related : R o.diff o'.diff) :
    o.finish.Agrees R o'.finish := by
  by_cases few : ∀ t, (o.opened.get t).length ≤ 1
  · have run : o.finish = .ok o.diff := finish_eq_ok_iff.2 ⟨few, neat.orderly.accepted, rfl⟩
    have run' : o'.finish = .ok o'.diff :=
      finish_eq_ok_iff.2 ⟨fun t => lengths t ▸ few t, neat'.orderly.accepted, rfl⟩
    rw [run, run']
    exact related
  · cases run : o.finish with
    | ok d => exact absurd (finish_eq_ok_iff.1 run).1 few
    | error e =>
      cases run' : o'.finish with
      | ok d => exact absurd (fun t => lengths t ▸ (finish_eq_ok_iff.1 run').1 t) few
      | error e' => trivial

/-- At the end both outlines are accepted or none is, with the same annotations. -/
theorem Corresponds.finish {o o' : Outline} (h : Corresponds o o') (neat : o.Neat) (neat' : o'.Neat) :
    o.finish.Agrees SameAnnotations o'.finish := by
  obtain ⟨φ, h⟩ := h
  have lengths (t : Time) : (o'.opened.get t).length = (o.opened.get t).length := by
    rw [h.opened, List.length_map]
  exact finish_agrees neat neat' lengths ⟨φ, h.diff⟩

end Reading.Outline

end Variation
