import Variation.Proofs.Presences

/-!
# Simplified diffs have nothing to simplify

A collapse takes away one chain and makes no other one: the new condition hangs where the chain began,
so no chain goes on with it, and below it hangs what could not continue the chain. It leaves no
unedited leaf behind either. Once all chains are collapsed none is left, and the main statement says
that a sound diff can be cut and collapsed, that all edits are kept, and that doing so again changes
nothing.
-/

namespace Variation

namespace Diff

/-- A chain that cannot be made longer does not go on with what hangs below it. -/
theorem Whole.shut {d : Diff} {first last : Handle} {ns : List Handle} (h : d.Whole ns)
    (chain : d.Chain first last ns) : ¬ d.Passes last := by
  obtain ⟨p, closes⟩ := h.closes last chain.head?
  exact closes.shut

/-- What holds the first node of a chain is not in it. -/
theorem Chain.parent_not_mem {d : Diff} {first last p : Handle} {ns : List Handle} {t : Time}
    (h : d.Chain first last ns) (hd : d.Regular) (sound : d.Sound) (up : d.above t first = some p) :
    p ∉ ns :=
  fun inside => (h.child_mem inside (h.parent_ne hd sound up) up).2 rfl

namespace Collapses

variable {d d' : Diff} {first last n p c : Handle} {ns ms : List Handle} {t : Time}

/-! ## Edges around the new condition -/

section Edges

variable (h : d.Collapses d' first last ns) (chain : d.Chain first last ns)

include h chain

/-- Nodes outside the chain have the children that they had, with the new condition in place of the
first node of the chain. -/
theorem above_iff_of_not_mem (out : p ∉ ns) (old : p ≠ d.size) :
    d'.above t n = some p ↔
      (n = d.size ∧ d.above t first = some p) ∨ (n ∉ ns ∧ d.above t n = some p) := by
  constructor
  · intro hp
    obtain here | ⟨-, start, ⟨-, new⟩ | ⟨-, up⟩⟩ := h.parent_cases hp
    · exact .inl here
    · exact absurd new old
    · exact .inr ⟨fun inside => out (chain.parent_mem inside start up).1, up⟩
  · rintro (⟨rfl, up⟩ | ⟨outside, up⟩)
    · rw [h.above_new, up]
    · obtain ⟨rfl, -⟩ | ⟨-, here⟩ := h.above_cases chain outside up
      · exact absurd chain.last_mem out
      · exact here

/-- Outside the chain it stays so whether a node has one child, which is unchanged. -/
theorem passes_iff (out : p ∉ ns) (old : p ≠ d.size) : d'.Passes p ↔ d.Passes p := by
  have edge {t : Time} {n : Handle} := h.above_iff_of_not_mem chain (t := t) (n := n) out old
  -- only the first node of the chain is a child of something outside
  have entry {t : Time} {y : Handle} (inside : y ∈ ns) (up : d.above t y = some p) : y = first := by
    by_contra other
    exact out (chain.parent_mem inside other up).1
  constructor
  · rintro ⟨c, ⟨⟨t, up⟩, only⟩, unchanged⟩
    have single {u : Time} {y : Handle} (hy : d.above u y = some p) :
        (y ∈ ns → c = d.size) ∧ (y ∉ ns → y = c) := by
      refine ⟨fun inside => ?_, fun outside => only u y (edge.2 (.inr ⟨outside, hy⟩))⟩
      exact (only u d.size (edge.2 (.inl ⟨rfl, entry inside hy ▸ hy⟩))).symm
    obtain ⟨rfl, start⟩ | ⟨outside, start⟩ := edge.1 up
    · refine ⟨first, ⟨⟨t, start⟩, fun u y hy => ?_⟩, (chain.plain _ chain.first_mem).change⟩
      by_cases inside : y ∈ ns
      · exact entry inside hy
      · exact absurd ((single hy).2 inside) (lt_size_of_above hy).ne
    · have old := (lt_size_of_above start).ne
      refine ⟨c, ⟨⟨t, start⟩, fun u y hy => ?_⟩, (h.change_old old).symm.trans unchanged⟩
      by_cases inside : y ∈ ns
      · exact absurd ((single hy).1 inside) old
      · exact (single hy).2 inside
  · rintro ⟨c, ⟨⟨t, up⟩, only⟩, unchanged⟩
    by_cases inside : c ∈ ns
    · obtain rfl := entry inside up
      refine ⟨d.size, ⟨⟨t, edge.2 (.inl ⟨rfl, up⟩)⟩, fun u y hy => ?_⟩, h.change⟩
      obtain ⟨new, -⟩ | ⟨outside, hy⟩ := edge.1 hy
      · exact new
      · exact absurd (only u y hy ▸ inside) outside
    · refine ⟨c, ⟨⟨t, edge.2 (.inr ⟨inside, up⟩)⟩, fun u y hy => ?_⟩,
        (h.change_old (lt_size_of_above up).ne).trans unchanged⟩
      obtain ⟨rfl, start⟩ | ⟨-, hy⟩ := edge.1 hy
      · exact absurd (only u first start ▸ chain.first_mem) inside
      · exact only u y hy

/-- An only child of an old node was one before. -/
theorem sole_back (outside : n ∉ ns) (old : n ≠ d.size) (held : p ≠ d.size) (sole : d'.Sole n p) :
    d.Sole n p := by
  have parent (t : Time) : p ≠ last ∧ d.above t n = some p := by
    obtain ⟨new, -⟩ | ⟨-, -, ⟨-, new⟩ | up⟩ := h.parent_cases (sole.parent t)
    · exact absurd new old
    · exact absurd new held
    · exact up
  have out : p ∉ ns := fun inside =>
    outside (chain.child_mem inside (parent .before).1 (parent .before).2).1
  have edge {t : Time} {n : Handle} := h.above_iff_of_not_mem chain (t := t) (n := n) out held
  refine ⟨fun t => (parent t).2, fun t y hy => ?_⟩
  by_cases inside : y ∈ ns
  · have start : y = first := by
      by_contra other
      exact out (chain.parent_mem inside other hy).1
    exact absurd (sole.only t _ (edge.2 (.inl ⟨rfl, start ▸ hy⟩))).symm old
  · exact sole.only t y (edge.2 (.inr ⟨inside, hy⟩))

variable (hd : d.Regular)

include hd

theorem plain_back (old : n ≠ d.size) (plain : d'.Plain n) : n ∉ ns ∧ d.Plain n := by
  obtain ⟨out, reached⟩ := (h.reaches_cases chain hd plain.reaches).resolve_left old
  exact ⟨out, reached, (h.change_old old).symm.trans plain.change,
    (h.annotates_old old).symm.trans plain.annotates⟩

variable (sound : d.Sound)

include sound

/-- Below the new condition hangs what hung below the last node of the chain. -/
theorem above_new_iff : d'.above t n = some d.size ↔ d.above t n = some last := by
  constructor
  · intro hp
    obtain ⟨-, up⟩ | ⟨-, -, ⟨up, -⟩ | ⟨-, up⟩⟩ := h.parent_cases hp
    · exact absurd rfl (hd.parent_lt up).ne
    · exact up
    · exact absurd rfl (hd.parent_lt up).ne
  · intro up
    have start : n ≠ first := fun e => chain.parent_ne hd sound (e ▸ up) rfl
    rw [h.above, if_neg (lt_size_of_above up).ne, if_neg start, if_pos up]

/-- What has the new condition as its only child had the first node of the chain as its only child. -/
theorem sole_first (sole : d'.Sole d.size p) : d.Sole first p := by
  have parent (t : Time) : d.above t first = some p := h.above_new.symm.trans (sole.parent t)
  have out := chain.parent_not_mem hd sound (parent .before)
  have edge {t : Time} {n : Handle} :=
    h.above_iff_of_not_mem chain (t := t) (n := n) out (hd.parent_lt (parent .before)).ne
  refine ⟨parent, fun t y hy => ?_⟩
  by_contra other
  have outside : y ∉ ns := fun inside => out (chain.parent_mem inside other hy).1
  exact (lt_size_of_above hy).ne (sole.only t y (edge.2 (.inr ⟨outside, hy⟩)))

/-- A node below the root that had one parent at both times and a child has a child still. -/
theorem keeps_pruned (whole : d.Whole ns) (pruned : d.Pruned) : d'.Pruned := by
  intro n p hn hp
  obtain rfl | ⟨out, reached⟩ := h.reaches_cases chain hd hn
  · obtain ⟨q, closes⟩ := whole.closes last chain.head?
    obtain ⟨t, c, up⟩ := pruned last q closes.plain.reaches closes.sole.parent
    exact ⟨t, c, (h.above_new_iff chain hd sound).2 up⟩
  · have old := (reached.lt_size hd).ne
    obtain ⟨q, parent⟩ : ∃ q, ∀ t, d.above t n = some q := by
      by_cases new : p = d.size
      · subst new
        exact ⟨last, fun t => (h.above_new_iff chain hd sound).1 (hp t)⟩
      · refine ⟨p, fun t => ?_⟩
        obtain ⟨other, -⟩ | ⟨-, -, ⟨-, other⟩ | ⟨-, up⟩⟩ := h.parent_cases (hp t)
        · exact absurd other old
        · exact absurd other new
        · exact up
    obtain ⟨t, c, up⟩ := pruned n q reached parent
    have edge {c : Handle} := h.above_iff_of_not_mem chain (t := t) (n := c) out old
    by_cases inside : c ∈ ns
    · have start : c = first := by
        by_contra other
        exact out (chain.parent_mem inside other up).1
      exact ⟨t, d.size, edge.2 (.inl ⟨rfl, start ▸ up⟩)⟩
    · exact ⟨t, c, edge.2 (.inr ⟨inside, up⟩)⟩

/-- The edits below the root stay there, and none is new. -/
theorem edited_iff : d'.Reaches n ∧ (d'.look n).change ≠ .unchanged ↔
    d.Reaches n ∧ (d.look n).change ≠ .unchanged := by
  constructor
  · rintro ⟨hn, edited⟩
    obtain rfl | ⟨-, reached⟩ := h.reaches_cases chain hd hn
    · exact absurd h.change edited
    · exact ⟨reached, h.change_old (reached.lt_size hd).ne ▸ edited⟩
  · rintro ⟨hn, edited⟩
    have out : n ∉ ns := fun inside => edited (chain.plain n inside).change
    exact ⟨h.reaches_of_not_mem chain hd sound out hn,
      (h.change_old (hn.lt_size hd).ne).symm ▸ edited⟩

/-! ## No chain begins at the new condition or below it -/

variable (whole : d.Whole ns)

include whole

/-- Nothing unchanged is the only child of the new condition. -/
theorem not_sole_new (unchanged : (d'.look n).change = .unchanged) : ¬ d'.Sole n d.size := by
  intro sole
  have edge {t : Time} {m : Handle} := h.above_new_iff chain hd sound (t := t) (n := m)
  have up := edge.1 (sole.parent .before)
  refine whole.shut chain ⟨n, ⟨⟨.before, up⟩, fun t y hy => sole.only t y (edge.2 hy)⟩, ?_⟩
  exact (h.change_old (lt_size_of_above up).ne).symm.trans unchanged

omit sound in
/-- An unchanged only child outside the chain hangs outside the chain, and is an only child still. -/
theorem sole_kept (out : n ∉ ns) (unchanged : (d.look n).change = .unchanged) (sole : d.Sole n p) :
    p ∉ ns ∧ d'.Sole n p := by
  have outside : p ∉ ns := fun inside => by
    by_cases final : p = last
    · exact whole.shut chain ⟨n, final ▸ sole.lone, unchanged⟩
    · exact out (chain.child_mem inside final (sole.parent .before)).1
  exact ⟨outside, h.sole_old chain hd out outside sole⟩

theorem begins_iff (out : n ∉ ns) (old : n ≠ d.size) (unchanged : (d.look n).change = .unchanged) :
    d'.Begins n ↔ d.Begins n := by
  have passes := h.passes_iff chain out old
  constructor
  · intro begins p sole
    obtain ⟨top, further⟩ := begins p (h.sole_kept chain hd whole out unchanged sole).2
    exact ⟨top, passes.1 further⟩
  · intro begins p sole
    have held : p ≠ d.size := fun e =>
      h.not_sole_new chain hd sound whole ((h.change_old old).trans unchanged) (e ▸ sole)
    obtain ⟨top, further⟩ := begins p (h.sole_back chain out old held sole)
    exact ⟨top, passes.2 further⟩

theorem growing_back (grows : d'.Growing n) (old : n ≠ d.size) : d.Growing n := by
  induction grows with
  | begin plain begins =>
    obtain ⟨out, plain⟩ := h.plain_back chain hd old plain
    exact .begin plain ((h.begins_iff chain hd sound whole out old plain.change).1 begins)
  | @more n p up plain sole passes ih =>
    have held : p ≠ d.size := fun e =>
      h.not_sole_new chain hd sound whole plain.change (e ▸ sole)
    obtain ⟨out, plain⟩ := h.plain_back chain hd old plain
    exact .more (ih held) plain (h.sole_back chain out old held sole)
      ((h.passes_iff chain out old).1 passes)

/-- A chain that is left was there before, and is another one. -/
theorem closes_back (closes : d'.Closes n p) : n ∉ ns ∧ d.Closes n p := by
  have held : p ≠ d.size := fun e =>
    h.not_sole_new chain hd sound whole closes.plain.change (e ▸ closes.sole)
  have old : n ≠ d.size := by
    rintro rfl
    have begins := whole.begins first chain.getLast?
    exact closes.growing.plain.ne_root h.regular
      (begins p (h.sole_first chain hd sound closes.sole)).1
  obtain ⟨out, plain⟩ := h.plain_back chain hd old closes.plain
  exact ⟨out, h.growing_back chain hd sound whole closes.growing held, plain,
    h.sole_back chain out old held closes.sole,
    fun passes => closes.shut ((h.passes_iff chain out old).2 passes)⟩

theorem growing_kept (grows : d.Growing n) (out : n ∉ ns) : d'.Growing n := by
  induction grows with
  | begin plain begins =>
    have old := (plain.reaches.lt_size hd).ne
    exact .begin (h.plain_old chain hd sound out plain)
      ((h.begins_iff chain hd sound whole out old plain.change).2 begins)
  | @more n p up plain sole passes ih =>
    obtain ⟨outside, sole⟩ := h.sole_kept chain hd whole out plain.change sole
    exact .more (ih outside) (h.plain_old chain hd sound out plain) sole
      ((h.passes_iff chain out (plain.reaches.lt_size hd).ne).2 passes)

/-- A chain that has no node of the collapsed one cannot be made longer afterwards either. -/
theorem whole_kept (other : d.Whole ms) (plain : ∀ m ∈ ms, d.Plain m)
    (apart : ∀ m ∈ ms, m ∉ ns) : d'.Whole ms where
  begins m hm := by
    have mem := List.mem_of_getLast? hm
    have old := ((plain m mem).reaches.lt_size hd).ne
    exact (h.begins_iff chain hd sound whole (apart m mem) old (plain m mem).change).2
      (other.begins m hm)
  closes m hm := by
    obtain ⟨p, closes⟩ := other.closes m hm
    have out := apart m (List.mem_of_head? hm)
    have old := (closes.plain.reaches.lt_size hd).ne
    obtain ⟨outside, sole⟩ := h.sole_kept chain hd whole out closes.plain.change closes.sole
    exact ⟨p, h.growing_kept chain hd sound whole closes.growing outside,
      h.plain_old chain hd sound out closes.plain, sole,
      fun passes => closes.shut ((h.passes_iff chain out old).1 passes)⟩

end Edges

end Collapses

/-- Sound diffs that only differ in what is unchanged: the edits below the root are the same. -/
structure Spares (d d' : Diff) : Prop where
  size : d.size ≤ d'.size
  payload : ∀ n, n < d.size → d'.payload n = d.payload n
  edited : ∀ n, d'.Reaches n ∧ (d'.look n).change ≠ .unchanged ↔
    d.Reaches n ∧ (d.look n).change ≠ .unchanged

theorem Spares.refl (d : Diff) : d.Spares d := ⟨Nat.le_refl _, fun _ _ => rfl, fun _ => .rfl⟩

theorem Spares.trans {d d' d'' : Diff} (h : d.Spares d') (h' : d'.Spares d'') : d.Spares d'' :=
  ⟨h.size.trans h'.size, fun n hn => (h'.payload n (hn.trans_le h.size)).trans (h.payload n hn),
    fun n => (h'.edited n).trans (h.edited n)⟩

theorem Trims.spares {d d' : Diff} (h : d.Trims d') : d.Spares d' where
  size := h.size.ge
  payload n _ := h.payload n
  edited n := by
    rw [h.change]
    exact and_congr_left fun edited => ⟨h.reaches n, fun hn => h.edited n hn edited⟩

/-- A diff without unedited leaves, and all of its chains. -/
structure Chainable (d : Diff) (chains : List (List Handle)) : Prop where
  regular : d.Regular
  sound : d.Sound
  unmarked : d.Unmarked
  pruned : d.Pruned
  chained : d.Chained chains
  whole : ∀ ns ∈ chains, d.Whole ns
  closed : ∀ n p, d.Closes n p → n ∈ chains.flatten

end Diff

namespace Simplification

open Diff Edit

variable {d : Diff} {ns : List Handle} {cs : List (List Handle)}

/-- A chain that is collapsed leaves the other chains and no unedited leaf. -/
theorem run_collapse_one (h : d.Chainable (ns :: cs)) :
    ∃ d', (collapseChain ns).run d = .ok () d' ∧ d'.Chainable cs ∧ d.Spares d' := by
  obtain ⟨hd, sound, unmarked, pruned, chained, whole, closed⟩ := h
  obtain ⟨here, whole⟩ := List.forall_mem_cons.1 whole
  obtain ⟨first, last, chain⟩ := chained.chain ns List.mem_cons_self
  obtain ⟨d', run, h⟩ := collapseChain_spec hd sound unmarked chain
  refine ⟨d', run, ⟨h.regular, h.keeps_sound chain hd sound, h.keeps_unmarked chain hd unmarked,
    h.keeps_pruned chain hd sound here pruned, h.keeps_chained chain hd sound chained,
    fun ms hms => ?_, fun n p closes => ?_⟩, ?_, fun n hn => h.payload n hn.ne,
    fun n => h.edited_iff chain hd sound⟩
  · obtain ⟨first', last', other⟩ := chained.tail.chain ms hms
    exact h.whole_kept chain hd sound here (whole ms hms) other.plain fun m hm inside =>
      chained.apart m inside (List.mem_flatten.2 ⟨ms, hms, hm⟩)
  · obtain ⟨out, closes⟩ := h.closes_back chain hd sound here closes
    have mem := closed n p closes
    rw [List.flatten_cons, List.mem_append] at mem
    exact mem.resolve_left out
  · exact h.size ▸ Nat.le_succ _

/-- Once all chains are collapsed none is left. -/
theorem run_collapse_each (h : d.Chainable cs) :
    ∃ d', (cs.forM collapseChain).run d = .ok () d' ∧ d'.Chainable [] ∧ d.Spares d' := by
  induction cs generalizing d with
  | nil => exact ⟨d, rfl, h, .refl d⟩
  | cons ns cs ih =>
    obtain ⟨d₁, run₁, h₁, spares₁⟩ := run_collapse_one h
    obtain ⟨d', run', h', spares'⟩ := ih h₁
    refine ⟨d', ?_, h', spares₁.trans spares'⟩
    change EStateM.run (collapseChain ns >>= fun _ => cs.forM collapseChain) d = _
    rw [EStateM.run_bind, run₁]
    exact run'

/-- Without chains nothing is collapsed. -/
theorem run_collapse_nothing (h : d.Chainable []) : collapse.run.run d = .ok () d := by
  obtain ⟨cs, found, chained, whole, -⟩ := chains_spec h.regular
  have none : cs = [] := by
    refine List.eq_nil_iff_forall_not_mem.2 fun ns hns => ?_
    obtain ⟨first, last, chain⟩ := chained.chain ns hns
    obtain ⟨p, closes⟩ := (whole ns hns).closes last chain.head?
    exact absurd (h.closed last p closes) List.not_mem_nil
  change EStateM.run (Edit.ask chains >>= fun cs => cs.forM collapseChain) d = _
  rw [EStateM.run_bind, run_ask_ok found, none]
  rfl

/-- A sound diff can be cut and collapsed, which keeps all edits; doing so again changes nothing. -/
theorem cut_collapse_stable (hd : d.Regular) (sound : d.Sound) (unmarked : d.Unmarked) :
    ∃ d', apply [cut, collapse] d = .ok d' ∧ d'.Regular ∧ d'.Sound ∧
      (∀ n, d'.Reaches n ∧ (d'.look n).change ≠ .unchanged ↔
        d.Reaches n ∧ (d.look n).change ≠ .unchanged) ∧
      (∀ n, d.Reaches n → d'.payload n = d.payload n) ∧
      apply [cut, collapse] d' = .ok d' := by
  obtain ⟨d₁, run₁, trims, reaches⟩ := run_cut hd sound
  have unmarked₁ : d₁.Unmarked := fun n hn => by
    rw [kind_of_payload (trims.payload n)]
    exact unmarked n (trims.reaches n hn)
  obtain ⟨cs, found, chained, whole, closed⟩ := chains_spec trims.regular
  obtain ⟨d', run', ready, spares⟩ := run_collapse_each
    ⟨trims.regular, trims.sound, unmarked₁, pruned_of_cut hd trims reaches, chained, whole, closed⟩
  have collapsed : collapse.run.run d₁ = .ok () d' := by
    change EStateM.run (Edit.ask chains >>= fun cs => cs.forM collapseChain) d₁ = _
    rw [EStateM.run_bind, run_ask_ok found]
    exact run'
  have all := trims.spares.trans spares
  exact ⟨d', apply_cut_collapse run₁ collapsed ready.regular ready.sound, ready.regular, ready.sound,
    all.edited, fun n hn => all.payload n (hn.lt_size hd),
    apply_cut_collapse (cut_of_pruned ready.regular ready.pruned) (run_collapse_nothing ready)
      ready.regular ready.sound⟩

/-- An unchanged line is cut, two conditions above an added line become one, and that is all. -/
theorem cut_collapse_stable_nested : ∃ d d',
    Reading.diff " #if A\n y\n #if B\n+x\n #endif\n #endif\n" {} .unknown .preprocessor = .ok d ∧
    d.Regular ∧ d.Sound ∧ d.Unmarked ∧ d.preorder = .ok [root, 1, 2, 3, 4] ∧
    apply [cut, collapse] d = .ok d' ∧ d'.Regular ∧ d'.Sound ∧ d'.preorder = .ok [root, 5, 4] ∧
    (∀ n, d'.Reaches n ∧ (d'.look n).change ≠ .unchanged ↔
      d.Reaches n ∧ (d.look n).change ≠ .unchanged) ∧
    d'.payload 4 = d.payload 4 ∧ apply [cut, collapse] d' = .ok d' := by
  have run : (do
      let d ← Reading.diff " #if A\n y\n #if B\n+x\n #endif\n #endif\n" {} .unknown .preprocessor
      let d' ← apply [cut, collapse] d
      return (← d.preorder, ← d'.preorder) : Outcome _).toOption =
        some ([root, 1, 2, 3, 4], [root, 5, 4]) := by
    decide +kernel
  obtain ⟨d, read, rest⟩ := Outcome.bind_eq_ok_iff.1 (Outcome.eq_ok_of_toOption run)
  obtain ⟨d', simplified, rest⟩ := Outcome.bind_eq_ok_iff.1 rest
  obtain ⟨ns, walk, rest⟩ := Outcome.bind_eq_ok_iff.1 rest
  obtain ⟨ns', walk', rest⟩ := Outcome.bind_eq_ok_iff.1 rest
  obtain ⟨rfl, rfl⟩ := Prod.mk.inj (Except.ok.inj rest)
  have hd : d.Regular := (Diff.Handled.read read).regular
  obtain ⟨-, sound, kinds⟩ := readable_ofLines read
  have unmarked : d.Unmarked := fun n hn kind =>
    kinds n hn (by rw [kindOf, getElem?_look (hn.lt_size hd), Option.map_some, kind])
  obtain ⟨ms, walked, -, reached⟩ := preorder_spec hd
  obtain rfl := Except.ok.inj (walk.symm.trans walked)
  obtain ⟨e, applied, hd', sound', edited, same, again⟩ := cut_collapse_stable hd sound unmarked
  obtain rfl := Except.ok.inj (simplified.symm.trans applied)
  exact ⟨d, d', read, hd, sound, unmarked, walk, simplified, hd', sound', walk', edited,
    same 4 ((reached 4).1 (by decide)), again⟩

end Simplification

end Variation
