import Variation.Proofs.Consistency
import Variation.Proofs.Forest
import Mathlib.Data.Fintype.Card
import Mathlib.Data.Fintype.EquivFin

/-!
# The tree of a diff at one time

A forest of handles `Spans` a part of a diff at a time if the children of each of its nodes are the
roots of the forest below it. The `Shape` of a diff at a time is the forest that spans what hangs
below the root, in which no node comes twice. It exists as soon as the root has no parent, because a
node whose parents end is never above itself. `Twofold` puts the shapes at both times together; a
regular diff is sound exactly if it is twofold for some pair of shapes.
-/

namespace Variation.Diff

/-- The children at a time of each node of a forest are the roots of the forest below it. -/
def Spans (d : Diff) (t : Time) : Forest Handle → Prop
  | .nil => True
  | .cons n below rest =>
    n < d.size ∧ d.below t n = below.roots ∧ Spans d t below ∧ Spans d t rest

/-! ## Spanning forests -/

section Spans

variable {d d' : Diff} {t : Time} {n m c p : Handle} {f g : Forest Handle}

theorem spans_append : d.Spans t (f ++ g) ↔ d.Spans t f ∧ d.Spans t g := by
  induction f with
  | nil => simp [Spans]
  | cons n below rest _ ih => simp only [Forest.cons_append, Spans, ih, and_assoc]

theorem Spans.lt_size (h : d.Spans t f) (hn : n ∈ f.flatten) : n < d.size := by
  induction f with
  | nil => cases hn
  | cons m below rest ihb ihr =>
    obtain ⟨hm, -, hb, hr⟩ := h
    simp only [Forest.flatten, List.mem_cons, List.mem_append] at hn
    obtain rfl | hn | hn := hn
    · exact hm
    · exact ihb hb hn
    · exact ihr hr hn

/-- What hangs below a node of a spanning forest is in it. -/
theorem Spans.mem_of_mem_below (h : d.Spans t f) (hn : n ∈ f.flatten) (hc : c ∈ d.below t n) :
    c ∈ f.flatten := by
  induction f with
  | nil => cases hn
  | cons m below rest ihb ihr =>
    obtain ⟨-, hm, hb, hr⟩ := h
    simp only [Forest.flatten, List.mem_cons, List.mem_append] at hn ⊢
    obtain rfl | hn | hn := hn
    · rw [hm] at hc
      exact .inr (.inl (Forest.mem_flatten_of_mem_roots hc))
    · exact .inr (.inl (ihb hb hn))
    · exact .inr (.inr (ihr hr hn))

/-- A forest spans the image of a part of a diff if every list of children is the image of the
former one. -/
theorem Spans.map {s : Handle → Handle} (h : d.Spans t f)
    (hs : ∀ n ∈ f.flatten, s n < d'.size ∧ d'.below t (s n) = (d.below t n).map s) :
    d'.Spans t (f.map s) := by
  induction f with
  | nil => trivial
  | cons n below rest ihb ihr =>
    obtain ⟨-, hn, hb, hr⟩ := h
    simp only [Forest.flatten, List.forall_mem_cons, List.forall_mem_append] at hs
    obtain ⟨⟨size, image⟩, hsb, hsr⟩ := hs
    exact ⟨size, by rw [image, hn, Forest.roots_map], ihb hb hsb, ihr hr hsr⟩

/-- A forest still spans if the children of its nodes stay the same. -/
theorem Spans.congr (h : d.Spans t f)
    (hs : ∀ n ∈ f.flatten, n < d'.size ∧ d'.below t n = d.below t n) : d'.Spans t f := by
  induction f with
  | nil => trivial
  | cons n below rest ihb ihr =>
    obtain ⟨-, hn, hb, hr⟩ := h
    simp only [Forest.flatten, List.forall_mem_cons, List.forall_mem_append] at hs
    obtain ⟨⟨size, same⟩, hsb, hsr⟩ := hs
    exact ⟨size, by rw [same, hn], ihb hb hsb, ihr hr hsr⟩

theorem Spans.ascends (hd : d.Symmetric) (h : d.Spans t f) (hr : ∀ n ∈ f.roots, d.Ascends t n)
    (hn : n ∈ f.flatten) : d.Ascends t n := by
  induction f with
  | nil => cases hn
  | cons m below rest ihb ihr =>
    obtain ⟨-, hm, hb, hrest⟩ := h
    obtain ⟨up, hr⟩ := List.forall_mem_cons.1 hr
    simp only [Forest.flatten, List.mem_cons, List.mem_append] at hn
    obtain rfl | hn | hn := hn
    · exact up
    · refine ihb hb (fun c hc => .step (hd.above_of_mem ?_) up) hn
      rw [hm]
      exact hc
    · exact ihr hrest hr hn

end Spans

/-! ## The way up is unique -/

section Above

variable {d : Diff} {t : Time} {n m c p a b : Handle} {f : Forest Handle}

theorem Above.trans (h : d.Above t n m) (h' : d.Above t m p) : d.Above t n p := by
  induction h' with
  | parent hp => exact h.step hp
  | step _ hp ih => exact ih.step hp

/-- Of two nodes above the same node, one is the other or comes above it. -/
theorem Above.linear (ha : d.Above t n a) (hb : d.Above t n b) :
    a = b ∨ d.Above t a b ∨ d.Above t b a := by
  induction ha with
  | parent hp =>
    obtain ⟨q, hq, h⟩ := hb.cases_head
    rw [hp] at hq; cases hq
    exact h.imp_right .inl
  | step _ hp ih =>
    obtain rfl | h | h := ih
    · exact .inr (.inr (.parent hp))
    · obtain ⟨q, hq, h⟩ := h.cases_head
      rw [hp] at hq; cases hq
      exact h.imp_right .inl
    · exact .inr (.inr (h.step hp))

/-- Neither of two children of a node whose parents end comes above the other. -/
theorem not_above_sibling (h : d.Ends t n) (ha : d.above t a = some n) (hb : d.above t b = some n) :
    ¬ d.Above t a b := by
  intro hab
  obtain ⟨q, hq, hc⟩ := hab.cases_head
  rw [ha] at hq; cases hq
  obtain rfl | hc := hc
  · exact h.not_above (.parent hb)
  · exact h.not_above (hc.step hb)

/-- Every node of a spanning forest is a root of it or has one above it. -/
theorem Spans.root_above (hd : d.Symmetric) (h : d.Spans t f) (hm : m ∈ f.flatten) :
    ∃ a ∈ f.roots, m = a ∨ d.Above t m a := by
  induction f with
  | nil => cases hm
  | cons n below rest ihb ihr =>
    obtain ⟨-, hn, hb, hr⟩ := h
    simp only [Forest.flatten, List.mem_cons, List.mem_append] at hm
    obtain rfl | hm | hm := hm
    · exact ⟨m, List.mem_cons_self, .inl rfl⟩
    · obtain ⟨c, hc, up⟩ := ihb hb hm
      have parent : d.above t c = some n := hd.above_of_mem (hn ▸ hc)
      refine ⟨n, List.mem_cons_self, .inr ?_⟩
      obtain rfl | up := up
      · exact .parent parent
      · exact up.step parent
    · obtain ⟨a, ha, up⟩ := ihr hr hm
      exact ⟨a, List.mem_cons_of_mem n ha, up⟩

/-- No node comes twice in a forest that spans what hangs below a node whose parents end. -/
theorem Spans.nodup (hd : d.Symmetric) (h : d.Spans t f) (hn : d.Ends t n)
    (hr : ∀ a ∈ f.roots, d.above t a = some n) (once : f.roots.Nodup) : f.flatten.Nodup := by
  induction f generalizing n with
  | nil => exact .nil
  | cons a below rest ihb ihr =>
    obtain ⟨-, ha, hb, hrest⟩ := h
    obtain ⟨up, hr⟩ := List.forall_mem_cons.1 hr
    obtain ⟨new, once⟩ := List.nodup_cons.1 once
    have children (c) (hc : c ∈ below.roots) : d.above t c = some a := hd.above_of_mem (ha ▸ hc)
    have upward (m) (hm : m ∈ below.flatten) : d.Above t m a := by
      obtain ⟨c, hc, hm⟩ := hb.root_above hd hm
      obtain rfl | hm := hm
      · exact .parent (children m hc)
      · exact hm.step (children c hc)
    -- what hangs behind the first tree is apart from it, as siblings are apart
    have apart (m) (hm : m = a ∨ d.Above t m a) : m ∉ rest.flatten := fun hmr => by
      obtain ⟨b, hbr, hmb⟩ := hrest.root_above hd hmr
      have sibling := hr b hbr
      have different : a ≠ b := fun e => new (e ▸ hbr)
      obtain rfl | hma := hm
      · obtain rfl | hmb := hmb
        · exact different rfl
        · exact not_above_sibling hn up sibling hmb
      · obtain rfl | hmb := hmb
        · exact not_above_sibling hn sibling up hma
        · obtain e | e | e := hma.linear hmb
          · exact different e
          · exact not_above_sibling hn up sibling e
          · exact not_above_sibling hn sibling up e
    have ends : d.Ends t a := .step up hn
    rw [Forest.flatten, List.nodup_cons, List.nodup_append]
    refine ⟨fun hm => ?_, ihb hb ends children (ha ▸ hd.once t a), ihr hrest hn hr once, ?_⟩
    · obtain hm | hm := List.mem_append.1 hm
      · exact ends.not_above (upward a hm)
      · exact apart a (.inl rfl) hm
    · intro m hm k hk e
      exact apart m (.inr (upward m hm)) (e ▸ hk)

/-- Below a node whose parents end there is a spanning forest. -/
theorem exists_spans (hd : d.Symmetric) (hn : d.Ends t n) :
    ∃ f, d.below t n = f.roots ∧ d.Spans t f := by
  by_cases inStore : n < d.size
  · let r : {n : Fin d.size // d.Ends t n} → {n : Fin d.size // d.Ends t n} → Prop :=
      fun c n => d.Above t c.1.1 n.1.1
    have trans : IsTrans _ r := ⟨fun _ _ _ h h' => h.trans h'⟩
    have irrefl : Std.Irrefl r := ⟨fun n => n.2.not_above⟩
    have wf : WellFounded r := Finite.wellFounded_of_trans_of_irrefl r
    have all (n : {n : Fin d.size // d.Ends t n}) :
        ∃ f, d.below t n.1.1 = f.roots ∧ d.Spans t f := by
      induction n using wf.induction with
      | _ n ih =>
        have part (cs : List Handle) (hcs : ∀ c ∈ cs, c ∈ d.below t n.1.1) :
            ∃ f, cs = f.roots ∧ d.Spans t f := by
          induction cs with
          | nil => exact ⟨.nil, rfl, trivial⟩
          | cons c cs ihcs =>
            obtain ⟨hc, hcs⟩ := List.forall_mem_cons.1 hcs
            have up := hd.above_of_mem hc
            obtain ⟨f, hf, spans⟩ := ih ⟨⟨c, hd.child_lt hc⟩, .step up n.2⟩ (Above.parent up)
            obtain ⟨g, hg, spansRest⟩ := ihcs hcs
            exact ⟨.cons c f g, by rw [Forest.roots, ← hg], hd.child_lt hc, hf, spans, spansRest⟩
        exact part _ fun _ h => h
    exact all ⟨⟨n, inStore⟩, hn⟩
  · exact ⟨.nil, below_eq_nil inStore, trivial⟩

end Above

/-! ## Shapes -/

/-- A forest is the tree of a diff at a time, without the root. -/
structure Shape (d : Diff) (t : Time) (f : Forest Handle) : Prop where
  below : d.below t root = f.roots
  spans : d.Spans t f
  once : (root :: f.flatten).Nodup

section Shape

variable {d : Diff} {t : Time} {n m c p : Handle} {f : Forest Handle}

theorem exists_shape (hd : d.Symmetric) (free : d.above t root = none) : ∃ f, d.Shape t f := by
  obtain ⟨f, hf, spans⟩ := exists_spans hd (Ends.top free)
  have children (c) (hc : c ∈ f.roots) : d.above t c = some root := hd.above_of_mem (hf ▸ hc)
  have once : f.flatten.Nodup := spans.nodup hd (.top free) children (hf ▸ hd.once t root)
  refine ⟨f, hf, spans, List.nodup_cons.2 ⟨fun hr => ?_, once⟩⟩
  obtain ⟨a, ha, up⟩ := spans.root_above hd hr
  obtain rfl | up := up
  · have := children _ ha
    rw [free] at this; cases this
  · obtain ⟨p, hp, -⟩ := up.cases_head
    rw [free] at hp; cases hp

namespace Shape

theorem mem_iff (hd : d.Symmetric) (h : d.Shape t f) : n ∈ root :: f.flatten ↔ d.Ascends t n := by
  constructor
  · intro hn
    obtain rfl | hn := List.mem_cons.1 hn
    · exact .root
    · refine h.spans.ascends hd (fun c hc => .step (hd.above_of_mem ?_) .root) hn
      rw [h.below]
      exact hc
  · intro hn
    induction hn with
    | root => exact List.mem_cons_self
    | step hp _ ih =>
      have hc := hd.mem_of_above hp
      refine List.mem_cons_of_mem _ ?_
      obtain rfl | hm := List.mem_cons.1 ih
      · exact Forest.mem_flatten_of_mem_roots (h.below ▸ hc)
      · exact h.spans.mem_of_mem_below hm hc

/-- The tree without the root has fewer nodes than the store. -/
theorem length_lt (hd : d.Regular) (h : d.Shape t f) : f.flatten.length < d.size := by
  have inStore : root :: f.flatten ⊆ List.range d.size := fun n hn => by
    obtain rfl | hn := List.mem_cons.1 hn
    · exact List.mem_range.2 hd.root_lt
    · exact List.mem_range.2 (h.spans.lt_size hn)
  have few := (h.once.subperm inStore).length_le
  rw [List.length_range, List.length_cons] at few
  omega

theorem root_not_mem (h : d.Shape t f) : root ∉ f.flatten := (List.nodup_cons.1 h.once).1

/-- Every node of the tree but the root has its parent there. -/
theorem exists_above (hd : d.Symmetric) (h : d.Shape t f) (hn : n ∈ f.flatten) :
    ∃ p, d.above t n = some p ∧ p ∈ root :: f.flatten := by
  have up := (h.mem_iff hd).1 (List.mem_cons_of_mem _ hn)
  cases up with
  | root => exact absurd hn h.root_not_mem
  | step hp up => exact ⟨_, hp, (h.mem_iff hd).2 up⟩

end Shape

end Shape

/-! ## Both times together -/

/-- The trees of a diff at both times, with the rules for what is in them: a node is in the tree at
each time at which it is there, it has children only then, a branch hangs below a condition, and
exactly the conditional kinds carry a formula. -/
structure Twofold (d : Diff) (s : Sides (Forest Handle)) : Prop extends Regular d where
  free : ∀ t, d.above t Diff.root = none
  shape : ∀ t, d.Shape t (s.get t)
  here : ∀ u t n, n ∈ Diff.root :: (s.get u).flatten → d.lives t n = true →
    n ∈ Diff.root :: (s.get t).flatten
  there : ∀ u t n c, n ∈ Diff.root :: (s.get u).flatten → c ∈ d.below t n → d.lives t n = true
  kind : ∀ t n, n ∈ (s.get t).flatten → (d.look n).kind ≠ .root
  branch : ∀ t n p, n ∈ (s.get t).flatten → d.above t n = some p →
    (d.look n).kind.isContinuation = true → (d.look p).kind.isConditional = true
  formula : ∀ t n, n ∈ Diff.root :: (s.get t).flatten →
    (d.look n).formula.isSome = (d.look n).kind.isConditional

theorem look_root_kind {d : Diff} (hd : d.Regular) : (d.look Diff.root).kind = .root := by
  have := hd.root
  rw [kindOf, getElem?_look hd.root_lt, Option.map_some] at this
  exact Option.some.inj this

theorem ne_root_of_kind {d : Diff} {n : Handle} {k : Kind} (hd : d.Regular)
    (kind : (d.look n).kind = k) (other : k ≠ .root) : n ≠ Diff.root := by
  rintro rfl
  exact other (kind.symm.trans (look_root_kind hd))

namespace Twofold

variable {d : Diff} {s : Sides (Forest Handle)} {t u : Time} {n c p : Handle}

theorem lt_size (h : d.Twofold s) (hn : n ∈ Diff.root :: (s.get t).flatten) : n < d.size := by
  obtain rfl | hn := List.mem_cons.1 hn
  · exact h.root_lt
  · exact (h.shape t).spans.lt_size hn

/-- A node of the tree at a time is there at that time. -/
theorem lives_of_mem (h : d.Twofold s) (hn : n ∈ (s.get t).flatten) : d.lives t n = true := by
  obtain ⟨p, hp, -⟩ := (h.shape t).exists_above h.toSymmetric hn
  exact h.lives t n p hp

theorem mem_below (h : d.Twofold s) (hn : n ∈ Diff.root :: (s.get u).flatten)
    (hc : c ∈ d.below t n) : c ∈ (s.get t).flatten := by
  have hn := h.here u t n hn (h.there u t n c hn hc)
  obtain rfl | hn := List.mem_cons.1 hn
  · exact Forest.mem_flatten_of_mem_roots ((h.shape t).below ▸ hc)
  · exact (h.shape t).spans.mem_of_mem_below hn hc

/-- What hangs below the root is in one of the trees. -/
theorem exists_mem_iff (h : d.Twofold s) :
    (∃ t, n ∈ Diff.root :: (s.get t).flatten) ↔ d.Reaches n := by
  constructor
  · rintro ⟨t, hn⟩
    exact (((h.shape t).mem_iff h.toSymmetric).1 hn).reaches h.toRegular
  · intro hn
    induction hn with
    | root => exact ⟨.before, List.mem_cons_self⟩
    | @child t p c _ hc ih =>
      obtain ⟨u, hp⟩ := ih
      exact ⟨t, List.mem_cons_of_mem _ (h.mem_below hp hc)⟩

/-- What hangs below the root is there at the times at which it is in the tree. -/
theorem lives_iff (h : d.Twofold s) (top : ∀ t, d.lives t Diff.root = true) (hn : d.Reaches n) :
    d.lives t n = true ↔ n ∈ Diff.root :: (s.get t).flatten := by
  obtain ⟨u, mem⟩ := h.exists_mem_iff.2 hn
  refine ⟨h.here u t n mem, fun mem => ?_⟩
  obtain rfl | mem := List.mem_cons.1 mem
  · exact top t
  · exact h.lives_of_mem mem

theorem sound (h : d.Twofold s) : d.Sound := by
  intro n hn
  obtain ⟨u, hu⟩ := h.exists_mem_iff.2 hn
  have inStore := h.lt_size hu
  have edge (t) (p) (hp : (d.look n).parent.get t = some p) : d.above t n = some p := by
    rw [above_look inStore, hp]
  -- a node with a parent at a time is in the tree at that time, and so is its parent
  have inTree (t) (p) (hp : d.above t n = some p) :
      n ∈ (s.get t).flatten ∧ d.lives t p = true := by
    have hn := h.here u t n hu (h.lives t n p hp)
    obtain rfl | hn := List.mem_cons.1 hn
    · rw [h.free] at hp; cases hp
    · obtain ⟨q, hq, mem⟩ := (h.shape t).exists_above h.toSymmetric hn
      rw [hp] at hq; cases hq
      exact ⟨hn, h.there t t p n mem (h.mem_of_above hp)⟩
  refine ⟨d.look n, getElem?_look inStore, ⟨fun t c hc => ?_, fun t p hp => ?_, fun hk t => ?_,
    fun hk t => ?_, fun p hp => ?_, fun t p hp => ?_, fun t p hp hc => ?_, h.formula u n hu⟩,
    fun t ht => ?_⟩
  · exact h.above_of_mem (below_look inStore ▸ hc)
  · exact h.mem_of_above (edge t p hp)
  · rw [← above_look inStore]
    cases hp : d.above t n with
    | none => rfl
    | some p => exact absurd hk (h.kind t n (inTree t p hp).1)
  · rw [← above_look inStore, ← lives_look inStore, Bool.eq_iff_iff, Option.isSome_iff_exists]
    constructor
    · rintro ⟨p, hp⟩
      exact h.lives t n p hp
    · intro there
      have hn := h.here u t n hu there
      obtain rfl | hn := List.mem_cons.1 hn
      · exact absurd (look_root_kind h.toRegular) hk
      · obtain ⟨p, hp, -⟩ := (h.shape t).exists_above h.toSymmetric hn
        exact ⟨p, hp⟩
  · have present (t) : d.lives t p = true := (inTree t p (edge t p (hp t))).2
    have size := lt_size_of_lives (present .before)
    exact ⟨d.look p, getElem?_look size, (unchanged_iff size).2 present⟩
  · exact (inTree t p (edge t p hp)).2
  · have hn := (inTree t p (edge t p hp)).1
    exact ⟨d.look p, getElem?_look (h.parent_lt (edge t p hp)),
      h.branch t n p hn (edge t p hp) hc⟩
  · refine ((h.shape t).mem_iff h.toSymmetric).1 (h.here u t n hu ?_)
    rw [lives_look inStore, ht]

end Twofold

/-- A sound diff is twofold. -/
theorem Sound.exists_twofold {d : Diff} (hd : d.Regular) (h : d.Sound) : ∃ s, d.Twofold s := by
  have law (n) (hn : d.Reaches n) : d.Lawful n (d.look n) ∧
      ∀ t, (d.look n).existsAt t = true → d.Ascends t n := by
    obtain ⟨x, hx, law, up⟩ := h n hn
    rw [look_of_node hx]
    exact ⟨law, up⟩
  have free (t : Time) : d.above t root = none := by
    rw [above_look hd.root_lt, (law root .root).1.root (look_root_kind hd)]
  obtain ⟨f, hf⟩ := exists_shape hd.toSymmetric (free .before)
  obtain ⟨g, hg⟩ := exists_shape hd.toSymmetric (free .after)
  have shape (t : Time) : d.Shape t ((⟨f, g⟩ : Sides (Forest Handle)).get t) := by
    cases t
    · exact hf
    · exact hg
  have reaches (t n) (hn : n ∈ root :: ((⟨f, g⟩ : Sides (Forest Handle)).get t).flatten) :
      d.Reaches n :=
    (((shape t).mem_iff hd.toSymmetric).1 hn).reaches hd
  refine ⟨⟨f, g⟩, hd, free, shape, fun u t n hn there => ?_, fun u t n c hn hc => ?_,
    fun t n hn => ?_, fun t n p hn hp hc => ?_, fun t n hn => (law n (reaches t n hn)).1.formula⟩
  · have hr := reaches u n hn
    rw [lives_look (hr.lt_size hd)] at there
    exact ((shape t).mem_iff hd.toSymmetric).2 ((law n hr).2 t there)
  · have hr := (reaches u n hn).child hc
    exact (law c hr).1.lives t n (by rw [← above_look (hr.lt_size hd), hd.above_of_mem hc])
  · have hr := reaches t n (List.mem_cons_of_mem _ hn)
    obtain ⟨p, hp, -⟩ := (shape t).exists_above hd.toSymmetric hn
    exact (law n hr).1.kind_ne_root (getElem?_look (hr.lt_size hd)) hp
  · have hr := reaches t n (List.mem_cons_of_mem _ hn)
    obtain ⟨y, hy, conditional⟩ := (law n hr).1.branch t p
      (by rw [← above_look (hr.lt_size hd), hp]) hc
    rw [look_of_node hy]
    exact conditional

/-- A regular diff is sound exactly if it is twofold for some shapes. -/
theorem sound_iff_exists_twofold {d : Diff} (hd : d.Regular) : d.Sound ↔ ∃ s, d.Twofold s :=
  ⟨fun h => h.exists_twofold hd, fun ⟨_, h⟩ => h.sound⟩

end Variation.Diff
