import Variation.Proofs.Collapsed

/-!
# What is left of a collapsed diff

Below the root of a diff in which a chain was collapsed hangs what hung there before, without the
nodes of the chain, and the new condition. All rules still hold for it, and every other chain is still
a chain.
-/

namespace Variation.Diff

/-- The nodes below the root are no closing marks. -/
def Unmarked (d : Diff) : Prop := ∀ n, d.Reaches n → (d.look n).kind ≠ .endMark

/-- The root is in no chain. -/
theorem Chain.root_not_mem {d : Diff} {first last : Handle} {ns : List Handle}
    (chain : d.Chain first last ns) (hd : d.Regular) : root ∉ ns :=
  fun inside => (chain.plain _ inside).ne_root hd rfl

namespace Collapses

variable {d d' : Diff} {first last n p : Handle} {ns : List Handle} {t : Time}

section Places

variable (h : d.Collapses d' first last ns) (chain : d.Chain first last ns)

include h

theorem kind_old (old : n ≠ d.size) : (d'.look n).kind = (d.look n).kind :=
  kind_of_payload (h.payload n old)

theorem change_old (old : n ≠ d.size) : (d'.look n).change = (d.look n).change :=
  change_of_payload (h.payload n old)

theorem existsAt_old (old : n ≠ d.size) : (d'.look n).existsAt t = (d.look n).existsAt t :=
  existsAt_of_payload (h.payload n old)

theorem annotates_old (old : n ≠ d.size) : d'.annotates n = d.annotates n :=
  annotates_of_payload (h.payload n old)

theorem continues_old (old : n ≠ d.size) : d'.continues n = d.continues n :=
  continues_of_payload (h.payload n old)

theorem not_continues_new : d'.continues d.size = false := by
  rw [continues, h.kind]
  rfl

theorem annotates_new : d'.annotates d.size = true := by
  rw [annotates, h.kind]
  rfl

theorem above_new : d'.above t d.size = d.above t first := by rw [h.above, if_pos rfl]

/-- What had no parent at a time has none. -/
theorem above_of_free (old : n ≠ d.size) (free : d.above t n = none) : d'.above t n = none := by
  rw [h.above, if_neg old, free]
  simp

/-- A parent is that of the first node of the chain, is the new condition in place of the last node of
the chain, or was the parent before. -/
theorem parent_cases (hp : d'.above t n = some p) :
    (n = d.size ∧ d.above t first = some p) ∨ n ≠ d.size ∧ n ≠ first ∧
      ((d.above t n = some last ∧ p = d.size) ∨ (p ≠ last ∧ d.above t n = some p)) := by
  rw [h.above] at hp
  by_cases new : n = d.size
  · rw [if_pos new] at hp
    exact .inl ⟨new, hp⟩
  rw [if_neg new] at hp
  by_cases start : n = first
  · rw [if_pos start] at hp
    cases hp
  rw [if_neg start] at hp
  refine .inr ⟨new, start, ?_⟩
  by_cases below : d.above t n = some last
  · rw [if_pos below] at hp
    exact .inl ⟨below, (Option.some.inj hp).symm⟩
  · rw [if_neg below] at hp
    exact .inr ⟨fun e => below (e ▸ hp), hp⟩

include chain

/-- What is not in the chain keeps its parent, unless that was the last node of the chain; no other
node of the chain is its parent. -/
theorem above_cases (out : n ∉ ns) (hp : d.above t n = some p) :
    (p = last ∧ d'.above t n = some d.size) ∨ (p ∉ ns ∧ d'.above t n = some p) := by
  have old : n ≠ d.size := (lt_size_of_above hp).ne
  have other : n ≠ first := fun e => out (e ▸ chain.first_mem)
  by_cases below : p = last
  · exact .inl ⟨below, by rw [h.above, if_neg old, if_neg other, if_pos (by rw [hp, below])]⟩
  · refine .inr ⟨fun inside => out (chain.child_mem inside below hp).1, ?_⟩
    rw [h.above, if_neg old, if_neg other, hp, if_neg fun e => below (Option.some.inj e)]

end Places

section Sound

variable (h : d.Collapses d' first last ns) (chain : d.Chain first last ns) (hd : d.Regular)

include h chain hd

/-- Below the root hangs nothing but what hung there and the new condition. -/
theorem reaches_cases (hn : d'.Reaches n) : n = d.size ∨ (n ∉ ns ∧ d.Reaches n) := by
  induction hn with
  | root => exact .inr ⟨chain.root_not_mem hd, .root⟩
  | @child t p c _ hc ih =>
    obtain ⟨new, -⟩ | ⟨-, start, up⟩ := h.parent_cases (h.regular.above_of_mem hc)
    · exact .inl new
    right
    obtain ⟨below, -⟩ | ⟨-, up⟩ := up
    · refine ⟨fun inside => (chain.parent_mem inside start below).2 rfl, ?_⟩
      exact (chain.plain _ chain.last_mem).reaches.child (hd.mem_of_above below)
    · obtain ⟨out, reached⟩ := ih.resolve_left (hd.parent_lt up).ne
      exact ⟨fun inside => out (chain.parent_mem inside start up).1,
        reached.child (hd.mem_of_above up)⟩

theorem ascends (ascends : d.Ascends t n) :
    (n ∉ ns → d'.Ascends t n) ∧ (n ∈ ns → d'.Ascends t d.size) := by
  induction ascends with
  | root => exact ⟨fun _ => .root, fun inside => absurd inside (chain.root_not_mem hd)⟩
  | @step n p hp _ ih =>
    constructor
    · intro out
      obtain ⟨rfl, up⟩ | ⟨other, up⟩ := h.above_cases chain out hp
      · exact .step up (ih.2 chain.last_mem)
      · exact .step up (ih.1 other)
    · intro inside
      by_cases top : p ∈ ns
      · exact ih.2 top
      · have start : n = first := by
          by_contra other
          exact top (chain.parent_mem inside other hp).1
        exact .step (by rw [h.above_new, ← start, hp]) (ih.1 top)

variable (sound : d.Sound)

include sound

/-- What is not in the chain still hangs below the root. -/
theorem reaches_of_not_mem (out : n ∉ ns) (hn : d.Reaches n) : d'.Reaches n := by
  obtain ⟨t, there⟩ : ∃ t, (d.look n).existsAt t = true :=
    ((d.look n).change.existsAt_or).elim (fun h => ⟨.before, h⟩) fun h => ⟨.after, h⟩
  have up := ((sound_iff_fits hd).1 sound n hn).2 t there
  exact ((h.ascends chain hd up).1 out).reaches h.regular

theorem fits_new : d'.Fits d.size := by
  have plain := chain.plain _ chain.first_mem
  have law := ((sound_iff_fits hd).1 sound first plain.reaches).1
  have old {t : Time} {p : Handle} (hp : d'.above t d.size = some p) :
      d.above t first = some p ∧ p ≠ d.size := by
    rw [h.above_new] at hp
    exact ⟨hp, (hd.parent_lt hp).ne⟩
  refine ⟨fun kind => ?_, fun _ t => ?_, fun p hp => ?_, fun t p hp => ?_, fun t p _ more => ?_, ?_⟩
  · rw [h.kind] at kind
    cases kind
  · obtain ⟨p, hp⟩ := plain.exists_above hd sound t
    rw [h.above_new, hp, Node.existsAt, h.change]
    rfl
  · rw [h.change_old (old (hp .before)).2]
    exact law.shared p fun t => (old (hp t)).1
  · rw [h.existsAt_old (old hp).2]
    exact law.there t p (old hp).1
  · rw [h.not_continues_new] at more
    cases more
  · rw [h.formula, h.kind]
    rfl

theorem fits_old (out : n ∉ ns) (hn : d.Reaches n) : d'.Fits n := by
  have law := ((sound_iff_fits hd).1 sound n hn).1
  have old : n ≠ d.size := (hn.lt_size hd).ne
  have free {t : Time} (lone : d.above t n = none) : d'.above t n = none :=
    h.above_of_free old lone
  -- the parent is the former one, or the new condition
  have parent {t : Time} {p : Handle} (hp : d'.above t n = some p) :
      p = d.size ∨ (p ≠ d.size ∧ d.above t n = some p) := by
    obtain ⟨new, -⟩ | ⟨-, -, ⟨-, new⟩ | ⟨-, up⟩⟩ := h.parent_cases hp
    · exact absurd new old
    · exact .inl new
    · exact .inr ⟨(hd.parent_lt up).ne, up⟩
  have same (t : Time) : (d'.above t n).isSome = (d.above t n).isSome := by
    cases up : d.above t n with
    | none => rw [free up]
    | some q =>
      obtain ⟨-, there⟩ | ⟨-, there⟩ := h.above_cases chain out up
      · rw [there]
        rfl
      · rw [there]
  refine ⟨fun kind t => ?_, fun kind t => ?_, fun p hp => ?_, fun t p hp => ?_,
    fun t p hp more => ?_, ?_⟩
  · rw [h.kind_old old] at kind
    exact free (law.root kind t)
  · rw [h.kind_old old] at kind
    rw [same, h.existsAt_old old, law.arity kind]
  · obtain rfl | ⟨other, -⟩ := parent (hp .before)
    · exact h.change
    · rw [h.change_old other]
      exact law.shared p fun t => ((parent (hp t)).resolve_left other).2
  · obtain rfl | ⟨other, up⟩ := parent hp
    · rw [Node.existsAt, h.change]
      rfl
    · rw [h.existsAt_old other]
      exact law.there t p up
  · obtain rfl | ⟨other, up⟩ := parent hp
    · rw [h.kind]
      rfl
    · rw [h.kind_old other]
      exact law.branch t p up (by rwa [← h.continues_old old])
  · rw [formula_of_payload (h.payload n old), h.kind_old old, law.formula]

/-- All rules hold in the diff that is left. -/
theorem keeps_sound : d'.Sound := by
  refine (sound_iff_fits h.regular).2 fun n hn => ?_
  obtain rfl | ⟨out, reached⟩ := h.reaches_cases chain hd hn
  · refine ⟨h.fits_new chain hd sound, fun t _ => ?_⟩
    have plain := chain.plain _ chain.first_mem
    have up := ((sound_iff_fits hd).1 sound first plain.reaches).2 t
      (by rw [Node.existsAt, plain.change]; rfl)
    exact (h.ascends chain hd up).2 chain.first_mem
  · refine ⟨h.fits_old chain hd sound out reached, fun t there => ?_⟩
    rw [h.existsAt_old (reached.lt_size hd).ne] at there
    exact (h.ascends chain hd (((sound_iff_fits hd).1 sound n reached).2 t there)).1 out

omit sound in
theorem keeps_unmarked (unmarked : d.Unmarked) : d'.Unmarked := by
  intro n hn
  obtain rfl | ⟨-, reached⟩ := h.reaches_cases chain hd hn
  · rw [h.kind]
    decide
  · rw [h.kind_old (reached.lt_size hd).ne]
    exact unmarked n reached

theorem plain_old (out : n ∉ ns) (plain : d.Plain n) : d'.Plain n := by
  have old : n ≠ d.size := (plain.reaches.lt_size hd).ne
  refine ⟨h.reaches_of_not_mem chain hd sound out plain.reaches, ?_, ?_⟩
  · rw [h.change_old old, plain.change]
  · rw [h.annotates_old old, plain.annotates]

omit sound in
/-- An only child outside the chain is one still. -/
theorem sole_old {c : Handle} (outside : c ∉ ns) (out : p ∉ ns) (sole : d.Sole c p) :
    d'.Sole c p where
  parent t := by
    obtain ⟨rfl, -⟩ | ⟨-, up⟩ := h.above_cases chain outside (sole.parent t)
    · exact absurd chain.last_mem out
    · exact up
  only t y hy := by
    obtain ⟨-, up⟩ | ⟨-, -, ⟨-, new⟩ | ⟨-, up⟩⟩ := h.parent_cases hy
    · exact absurd (sole.only t first up ▸ chain.first_mem) outside
    · exact absurd new (hd.parent_lt (sole.parent t)).ne
    · exact sole.only t y up

/-- A chain that has no node of the collapsed one is a chain still. -/
theorem chain_old {first' last' : Handle} {ms : List Handle} (other : d.Chain first' last' ms)
    (apart : ∀ m ∈ ms, m ∉ ns) : d'.Chain first' last' ms := by
  induction other with
  | one plain => exact .one (h.plain_old chain hd sound (apart _ List.mem_cons_self) plain)
  | more up plain sole new ih =>
    obtain ⟨out, apart⟩ := List.forall_mem_cons.1 apart
    exact .more (ih apart) (h.plain_old chain hd sound out plain)
      (h.sole_old chain hd out (apart _ up.last_mem) sole) new

theorem keeps_chained {chains : List (List Handle)} (chained : d.Chained (ns :: chains)) :
    d'.Chained chains where
  once := chained.tail.once
  chain ms hms := by
    obtain ⟨first', last', other⟩ := chained.tail.chain ms hms
    refine ⟨first', last', h.chain_old chain hd sound other fun m hm inside => ?_⟩
    exact chained.apart m inside (List.mem_flatten.2 ⟨ms, hms, hm⟩)

end Sound

end Collapses

end Variation.Diff
