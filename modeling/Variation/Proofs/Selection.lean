import Variation.Diff.View
import Variation.Proofs.Everywhere
import Variation.Proofs.Shape

/-!
# What the preprocessor selects

The branches of a chain are nested: each continues the one above it. A branch is taken if its own
condition is true and those of the branches that it continues are not, and a node is selected if all
branches are taken in whose bodies it lies, and it itself if it is a branch. The main statement says
that the presence of a node of a sound diff is true exactly if the node is selected, and that no two
branches of a chain are selected together, unless two branches continue the same one.
-/

namespace Variation.Diff

/-- A node of the tree at a time. -/
inductive Descends (d : Diff) (t : Time) : Handle → Prop where
  | root : Descends d t root
  | child {p c : Handle} (hp : Descends d t p) (hc : c ∈ d.below t p) : Descends d t c

/-- Whether a node continues the chain of the branch above it. -/
def continues (d : Diff) (n : Handle) : Bool := (d.look n).kind.isContinuation

/-- Whether a node is a branch. -/
def annotates (d : Diff) (n : Handle) : Bool := (d.look n).kind.annotates

/-- The truth value of the condition that a node carries itself; a node without one is never false. -/
def own (d : Diff) (v : String → Bool) (n : Handle) : Bool :=
  (d.look n).formula.elim true (·.holds v)

/-- A branch comes earlier in the chain of another one, which continues it at once or through others
between them. -/
inductive Earlier (d : Diff) (t : Time) : Handle → Handle → Prop where
  | parent {b p : Handle} (hb : d.continues b = true) (hp : d.above t b = some p) : Earlier d t b p
  | step {b p e : Handle} (hb : d.continues b = true) (hp : d.above t b = some p)
    (he : Earlier d t p e) : Earlier d t b e

/-- A branch is taken: its own condition is true, and those of all earlier branches are false. -/
def Taken (d : Diff) (t : Time) (v : String → Bool) (b : Handle) : Prop :=
  d.own v b = true ∧ ∀ e, d.Earlier t b e → d.own v e = false

/-- A branch and all earlier ones are false. -/
def Refused (d : Diff) (t : Time) (v : String → Bool) (b : Handle) : Prop :=
  d.own v b = false ∧ ∀ e, d.Earlier t b e → d.own v e = false

/-- A node lies in the body of another one: the path to it leaves that node through a child that does
not continue it. -/
def Encloses (d : Diff) (t : Time) (b n : Handle) : Prop :=
  ∃ c, d.above t c = some b ∧ d.continues c = false ∧ (c = n ∨ d.Above t n c)

/-- All branches around a node are taken. -/
def Entered (d : Diff) (t : Time) (v : String → Bool) (n : Handle) : Prop :=
  ∀ b, d.annotates b = true → d.Encloses t b n → d.Taken t v b

/-- A node is selected: it is taken itself if it is a branch, and so are all branches around it. -/
def Selected (d : Diff) (t : Time) (v : String → Bool) (n : Handle) : Prop :=
  (d.annotates n = true → d.Taken t v n) ∧ d.Entered t v n

section Recursion

variable {d : Diff} {t : Time} {v : String → Bool} {n p b e : Handle}

theorem earlier_iff (hb : d.continues b = true) (hp : d.above t b = some p) :
    d.Earlier t b e ↔ e = p ∨ d.Earlier t p e := by
  constructor
  · intro h
    cases h with
    | parent _ hq => rw [hp] at hq; cases hq; exact .inl rfl
    | step _ hq he => rw [hp] at hq; cases hq; exact .inr he
  · rintro (rfl | he)
    · exact .parent hb hp
    · exact .step hb hp he

theorem not_earlier (hb : d.continues b = false) : ¬ d.Earlier t b e := by
  intro h
  cases h with
  | parent h _ => rw [hb] at h; cases h
  | step h _ _ => rw [hb] at h; cases h

/-- The branches before one that continues another are that other one and those before it. -/
theorem earlier_refused_iff (hb : d.continues b = true) (hp : d.above t b = some p) :
    (∀ e, d.Earlier t b e → d.own v e = false) ↔ d.Refused t v p := by
  refine ⟨fun h => ⟨h p (.parent hb hp), fun e he => h e (.step hb hp he)⟩, fun h e he => ?_⟩
  obtain rfl | he := (earlier_iff hb hp).1 he
  · exact h.1
  · exact h.2 e he

theorem earlier_refused (hb : d.continues b = false) (e : Handle) (he : d.Earlier t b e) :
    d.own v e = false :=
  absurd he (not_earlier hb)

/-- A branch that continues another one is taken if its own condition is true and all before it
are refused. -/
theorem taken_iff (hb : d.continues b = true) (hp : d.above t b = some p) :
    d.Taken t v b ↔ d.own v b = true ∧ d.Refused t v p :=
  and_congr_right' (earlier_refused_iff hb hp)

theorem taken_iff_own (hb : d.continues b = false) : d.Taken t v b ↔ d.own v b = true :=
  and_iff_left (earlier_refused hb)

theorem refused_iff (hb : d.continues b = true) (hp : d.above t b = some p) :
    d.Refused t v b ↔ d.own v b = false ∧ d.Refused t v p :=
  and_congr_right' (earlier_refused_iff hb hp)

theorem refused_iff_own (hb : d.continues b = false) : d.Refused t v b ↔ d.own v b = false :=
  and_iff_left (earlier_refused hb)

/-- What lies above a node is its parent or lies above that. -/
theorem above_iff (hp : d.above t n = some p) {m : Handle} :
    d.Above t n m ↔ m = p ∨ d.Above t p m := by
  constructor
  · intro h
    obtain ⟨q, hq, e⟩ := h.cases_head
    rw [hp] at hq; cases hq
    exact e.imp_left Eq.symm
  · rintro (rfl | h)
    · exact .parent hp
    · exact Above.trans (.parent hp) h

/-- A branch that continues another one lies in the bodies around that one. -/
theorem entered_iff_of_continues (hn : d.continues n = true) (hp : d.above t n = some p) :
    d.Entered t v n ↔ d.Entered t v p := by
  have same (b : Handle) : d.Encloses t b n ↔ d.Encloses t b p := by
    refine exists_congr fun c => and_congr_right fun _ => and_congr_right fun hc => ?_
    have other : c ≠ n := fun e => by rw [e, hn] at hc; cases hc
    rw [above_iff hp]
    exact or_iff_right other
  exact forall_congr' fun b => imp_congr_right fun _ => imp_congr_left (same b)

/-- Any other node lies in the body of its parent too. -/
theorem entered_iff_selected (hn : d.continues n = false) (hp : d.above t n = some p) :
    d.Entered t v n ↔ d.Selected t v p := by
  have split (b : Handle) : d.Encloses t b n ↔ b = p ∨ d.Encloses t b p := by
    constructor
    · rintro ⟨c, hc, body, rfl | above⟩
      · exact .inl (Option.some.inj (hc.symm.trans hp))
      · exact .inr ⟨c, hc, body, (above_iff hp).1 above⟩
    · rintro (rfl | ⟨c, hc, body, above⟩)
      · exact ⟨n, hp, hn, .inl rfl⟩
      · exact ⟨c, hc, body, .inr ((above_iff hp).2 above)⟩
  constructor
  · intro h
    exact ⟨fun hb => h p hb ((split p).2 (.inl rfl)), fun b hb hc => h b hb ((split b).2 (.inr hc))⟩
  · intro h b hb hc
    obtain rfl | hc := (split b).1 hc
    · exact h.1 hb
    · exact h.2 b hb hc

theorem selected_of_plain (plain : d.annotates n = false) : d.Selected t v n ↔ d.Entered t v n :=
  ⟨fun h => h.2, fun h => ⟨fun branch => absurd (plain.symm.trans branch) (by decide), h⟩⟩

theorem selected_of_branch (branch : d.annotates n = true) :
    d.Selected t v n ↔ d.Taken t v n ∧ d.Entered t v n :=
  and_congr_left fun _ => ⟨fun h => h branch, fun h _ => h⟩

theorem entered_of_free (free : d.above t n = none) : d.Entered t v n := by
  rintro b - ⟨c, hc, -, rfl | above⟩
  · rw [free] at hc; cases hc
  · obtain ⟨q, hq, -⟩ := above.cases_head
    rw [free] at hq; cases hq

end Recursion

/-! ## Paths to the root -/

/-- The nodes on the way from a node up to the root, which is left out. -/
inductive Way (d : Diff) (t : Time) : Handle → List Handle → Prop where
  | root : Way d t root []
  | step {n p : Handle} {ms : List Handle} (hp : d.above t n = some p) (up : Way d t p ms) :
    Way d t n (n :: ms)

section Way

variable {d : Diff} {t : Time} {n m p c : Handle} {ms ks : List Handle}

theorem Way.unique (free : d.above t Diff.root = none) (h : d.Way t n ms) (h' : d.Way t n ks) :
    ms = ks := by
  induction h generalizing ks with
  | root =>
    cases h' with
    | root => rfl
    | step hp _ => rw [free] at hp; cases hp
  | step hp _ ih =>
    cases h' with
    | root => rw [free] at hp; cases hp
    | step hq up =>
      rw [hp] at hq; cases hq
      rw [ih up]

theorem Way.of_mem (h : d.Way t n ms) (hm : m ∈ ms) :
    ∃ ks, d.Way t m ks ∧ ks.length ≤ ms.length ∧ m < d.size := by
  induction h with
  | root => cases hm
  | step hp up ih =>
    obtain rfl | hm := List.mem_cons.1 hm
    · exact ⟨_, .step hp up, Nat.le_refl _, lt_size_of_above hp⟩
    · obtain ⟨ks, way, short, inStore⟩ := ih hm
      exact ⟨ks, way, by rw [List.length_cons]; omega, inStore⟩

/-- A way does not come back, so it has fewer nodes than the store. -/
theorem Way.length_lt (free : d.above t Diff.root = none) (top : Diff.root < d.size)
    (h : d.Way t n ms) : ms.length < d.size := by
  have once : ms.Nodup := by
    induction h with
    | root => exact .nil
    | @step n p ms hp up ih =>
      refine List.nodup_cons.2 ⟨fun hn => ?_, ih⟩
      obtain ⟨ks, way, short, -⟩ := up.of_mem hn
      have same := way.unique free (.step hp up)
      rw [same, List.length_cons] at short
      omega
  have within : Diff.root :: ms ⊆ List.range d.size := fun m hm => by
    obtain rfl | hm := List.mem_cons.1 hm
    · exact List.mem_range.2 top
    · obtain ⟨-, -, -, inStore⟩ := h.of_mem hm
      exact List.mem_range.2 inStore
  have without : Diff.root ∉ ms := fun hm => by
    obtain ⟨ks, way, -, -⟩ := h.of_mem hm
    clear within once
    induction h with
    | root => cases hm
    | step hp up ih =>
      obtain e | hm := List.mem_cons.1 hm
      · rw [← e, free] at hp; cases hp
      · exact ih hm
  have few := ((List.nodup_cons.2 ⟨without, once⟩).subperm within).length_le
  rw [List.length_range, List.length_cons] at few
  omega

end Way

/-! ## Sound trees at a time -/

section Descends

variable {d : Diff} {t : Time} {n p c : Handle}

theorem Descends.reaches (h : d.Descends t n) : d.Reaches n := by
  induction h with
  | root => exact .root
  | child _ hc ih => exact ih.child hc

variable (top : d.kindOf Diff.root = some .root) (sound : d.Sound)

include sound

theorem Descends.law (h : d.Descends t n) : n < d.size ∧ d.Lawful n (d.look n) := by
  obtain ⟨x, hx, law, -⟩ := sound n h.reaches
  rw [look_of_node hx]
  exact ⟨lt_size_of_getElem? hx, law⟩

theorem Descends.above_of_mem (h : d.Descends t p) (hc : c ∈ d.below t p) :
    d.above t c = some p := by
  obtain ⟨hp, law⟩ := h.law sound
  rw [below_look hp] at hc
  exact law.down t c hc

theorem Descends.exists_parent (h : d.Descends t n) (other : n ≠ Diff.root) :
    ∃ p, d.above t n = some p ∧ d.Descends t p := by
  cases h with
  | root => exact absurd rfl other
  | child hq hc => exact ⟨_, hq.above_of_mem sound hc, hq⟩

/-- What a branch continues is a conditional. -/
theorem Descends.isConditional (h : d.Descends t n) (hp : d.above t n = some p)
    (continued : d.continues n = true) : (d.look p).kind.isConditional = true := by
  obtain ⟨hn, law⟩ := h.law sound
  obtain ⟨y, hy, conditional⟩ := law.branch t p (by rw [← above_look hn, hp]) continued
  rw [look_of_node hy]
  exact conditional

include top

theorem look_root_of_sound : (d.look root).kind = .root := by
  obtain ⟨x, hx, -⟩ := sound root .root
  rw [kindOf, hx] at top
  rw [look_of_node hx]
  exact Option.some.inj top

theorem root_free (t : Time) : d.above t root = none := by
  obtain ⟨hr, law⟩ := Descends.law sound (t := t) .root
  rw [above_look hr]
  exact law.root (look_root_of_sound top sound) t

theorem ne_root_of_above (hp : d.above t n = some p) : n ≠ Diff.root := by
  rintro rfl
  rw [root_free top sound] at hp
  cases hp

/-- No child is the root. -/
theorem ne_root_of_mem_belowBoth (symmetric : d.Symmetric) (hc : c ∈ d.belowBoth p) :
    c ≠ Diff.root := by
  obtain ⟨t, hc⟩ := symmetric.exists_above hc
  exact ne_root_of_above top sound hc

theorem Descends.parent (h : d.Descends t n) (hp : d.above t n = some p) :
    d.Descends t p ∧ d.lives t p = true := by
  obtain ⟨hn, law⟩ := h.law sound
  refine ⟨?_, law.lives t p (by rw [← above_look hn, hp])⟩
  cases h with
  | root => exact absurd rfl (ne_root_of_above top sound hp)
  | child hq hc =>
    rw [hq.above_of_mem sound hc] at hp
    cases hp
    exact hq

theorem Descends.kind_eq_root_iff (h : d.Descends t n) :
    (d.look n).kind = .root ↔ n = Diff.root := by
  refine ⟨fun kind => ?_, fun e => by rw [e, look_root_of_sound top sound]⟩
  by_contra other
  obtain ⟨p, hp, -⟩ := h.exists_parent sound other
  obtain ⟨hn, law⟩ := h.law sound
  rw [above_look hn, law.root kind] at hp
  cases hp

theorem Descends.kind_ne_root (h : d.Descends t n) (hp : d.above t n = some p) :
    (d.look n).kind ≠ .root := fun kind =>
  ne_root_of_above top sound hp ((h.kind_eq_root_iff top sound).1 kind)

/-- The way to the root is shorter than the store. -/
theorem length_way_lt {ms : List Handle} (way : d.Way t n ms) : ms.length < d.size :=
  way.length_lt (root_free top sound t) (Descends.law sound (t := t) .root).1

theorem Descends.exists_way (h : d.Descends t n) : ∃ ms, d.Way t n ms ∧ ms.length < d.size := by
  have exist : ∃ ms, d.Way t n ms := by
    induction h with
    | root => exact ⟨[], .root⟩
    | child hp hc ih =>
      obtain ⟨ms, way⟩ := ih
      exact ⟨_, .step (hp.above_of_mem sound hc) way⟩
  obtain ⟨ms, way⟩ := exist
  exact ⟨ms, way, length_way_lt top sound way⟩

/-- No node comes above itself. -/
theorem Descends.not_above (h : d.Descends t n) : ¬ d.Above t n n := by
  refine Ends.not_above ?_
  induction h with
  | root => exact .top (root_free top sound t)
  | child hp hc ih => exact .step (hp.above_of_mem sound hc) ih

end Descends

/-! ## The clauses of a presence -/

section Clauses

variable {d : Diff} {t : Time} {n p b : Handle} {f : Formula} {s : Nat} {ms : List Handle}

theorem ownFormula_eq (hn : n < d.size) (hf : (d.look n).formula = some f) :
    d.ownFormula n = .ok f := by
  rw [ownFormula, node_look hn, Outcome.ok_bind, hf]
  rfl

theorem own_of_formula (hf : (d.look n).formula = some f) (v : String → Bool) :
    d.own v n = f.holds v := by
  rw [own, hf]
  rfl

theorem presentParent?_of_above (hn : n < d.size) (hp : d.above t n = some p)
    (there : d.lives t p = true) : d.presentParent? n t = .ok (some p) := by
  have size := lt_size_of_lives there
  rw [above_look hn] at hp
  rw [lives_look size] at there
  rw [presentParent?, node_look hn, Outcome.ok_bind, hp]
  simp only [present, node_look size, Outcome.ok_bind, there, if_true]
  rfl

theorem requiredParent_eq (hn : n < d.size) (hp : d.above t n = some p)
    (there : d.lives t p = true) : d.requiredParent n t = .ok p := by
  rw [requiredParent, presentParent?_of_above hn hp there]
  rfl

theorem mapping_of_ifBranch (hn : n < d.size) (opens : (d.look n).kind = .ifBranch)
    (hf : (d.look n).formula = some f) : d.mapping n t = .ok f := by
  rw [mapping, mappingClauses, mappingClausesWithin, node_look hn, Outcome.ok_bind, opens]
  simp only [ownFormula_eq hn hf]
  rfl

variable (top : d.kindOf Diff.root = some .root) (sound : d.Sound)

include top sound

/-- The walk up a chain of branches comes to the node that opens it; the clauses that it gives say that
all branches on the way are refused. -/
theorem chainAbove_spec (way : d.Way t n ms) (h : d.Descends t n)
    (conditional : (d.look n).kind.isConditional = true) (enough : ms.length < s) :
    ∃ fs o ks, d.chainAbove b t s n = .ok (fs, o) ∧ (d.look o).kind = .ifBranch ∧
      d.Descends t o ∧ d.Way t o ks ∧ ks.length ≤ ms.length ∧
      ∀ v, (fs.all (·.holds v) = true ↔ d.Refused t v n) ∧ (d.Entered t v n ↔ d.Entered t v o) := by
  induction way generalizing s with
  | root =>
    rw [look_root_of_sound top sound] at conditional
    cases conditional
  | @step n p ms hp up ih =>
    obtain ⟨hn, law⟩ := h.law sound
    obtain ⟨f, hf⟩ := Option.isSome_iff_exists.1 (law.formula.trans conditional)
    obtain ⟨s, rfl⟩ : ∃ k, s = k + 1 := ⟨s - 1, by omega⟩
    rw [List.length_cons] at enough
    rw [chainAbove, node_look hn, Outcome.ok_bind, ownFormula_eq hn hf]
    by_cases opens : (d.look n).kind = .ifBranch
    · have body : d.continues n = false := by rw [continues, opens]; rfl
      refine ⟨[f.negate], n, _, by rw [if_pos opens]; rfl, opens, h, .step hp up, Nat.le_refl _,
        fun v => ⟨?_, Iff.rfl⟩⟩
      rw [refused_iff_own body, own_of_formula hf]
      simp
    · have continuation : (d.look n).kind = .elifBranch := by
        revert conditional opens
        cases (d.look n).kind <;> simp [Kind.isConditional]
      have continued : d.continues n = true := by rw [continues, continuation]; rfl
      obtain ⟨hq, there⟩ := h.parent top sound hp
      obtain ⟨fs, o, ks, run, kind, ho, way, short, means⟩ :=
        ih hq (h.isConditional sound hp continued) (s := s) (by omega)
      refine ⟨f.negate :: fs, o, ks, ?_, kind, ho, way, Nat.le_succ_of_le short, fun v => ⟨?_, ?_⟩⟩
      · rw [if_neg opens, if_pos continuation, requiredParent_eq hn hp there]
        simp only [Outcome.ok_bind, run]
        rfl
      · rw [List.all_cons, Bool.and_eq_true, (means v).1, refused_iff continued hp,
          own_of_formula hf, Formula.holds_negate, Bool.not_eq_true']
      · rw [entered_iff_of_continues continued hp, (means v).2]

/-- The clauses of a branch that continues another one say that it is taken. -/
theorem branchClauses_spec (way : d.Way t n ms) (h : d.Descends t n)
    (continued : d.continues n = true) :
    ∃ fs o ks, d.branchClauses n t = .ok (fs, o) ∧ (d.look o).kind = .ifBranch ∧
      d.Descends t o ∧ d.Way t o ks ∧ ks.length < ms.length ∧
      ∀ v, (fs.all (·.holds v) = true ↔ d.Taken t v n) ∧ (d.Entered t v n ↔ d.Entered t v o) := by
  cases way with
  | root =>
    rw [continues, look_root_of_sound top sound] at continued
    cases continued
  | @step _ p ms hp up =>
    obtain ⟨hn, law⟩ := h.law sound
    obtain ⟨hq, there⟩ := h.parent top sound hp
    have few := length_way_lt top sound up
    obtain ⟨fs, o, ks, run, kind, ho, way, short, means⟩ := chainAbove_spec (b := n) top sound up hq
      (h.isConditional sound hp continued) (s := d.size + 1) (by omega)
    have walk : d.branchClauses n t = (do
        let own ← if (d.look n).kind = .elifBranch then List.singleton <$> d.ownFormula n else pure []
        pure (own ++ fs, o)) := by
      rw [branchClauses, node_look hn, Outcome.ok_bind, requiredParent_eq hn hp there]
      simp only [Outcome.ok_bind, run]
    rw [walk]
    by_cases elif : (d.look n).kind = .elifBranch
    · obtain ⟨f, hf⟩ := Option.isSome_iff_exists.1 (law.formula.trans (by rw [elif]; rfl))
      refine ⟨f :: fs, o, ks, ?_, kind, ho, way, Nat.lt_succ_of_le short, fun v => ⟨?_, ?_⟩⟩
      · rw [if_pos elif, ownFormula_eq hn hf]
        rfl
      · rw [List.all_cons, Bool.and_eq_true, (means v).1, taken_iff continued hp, own_of_formula hf]
      · rw [entered_iff_of_continues continued hp, (means v).2]
    · have none : (d.look n).formula = none := by
        have law := law.formula
        revert continued elif
        rw [continues]
        cases kind : (d.look n).kind <;> simp_all [Kind.isContinuation, Kind.isConditional]
      refine ⟨fs, o, ks, by rw [if_neg elif]; rfl, kind, ho, way, Nat.lt_succ_of_le short,
        fun v => ⟨?_, ?_⟩⟩
      · have own : d.own v n = true := by rw [Diff.own, none]; rfl
        rw [(means v).1, taken_iff continued hp, own, eq_self_iff_true, true_and]
      · rw [entered_iff_of_continues continued hp, (means v).2]

/-- Above the node that opens a chain of branches there is another one; the branch is reached exactly
if that one is selected. -/
theorem exists_outer (way : d.Way t n ms) (h : d.Descends t n) (continued : d.continues n = true) :
    ∃ fs o q ks, d.branchClauses n t = .ok (fs, o) ∧ d.presentParent? o t = .ok (some q) ∧
      d.Descends t q ∧ d.Way t q ks ∧ ks.length < ms.length ∧
      ∀ v, (fs.all (·.holds v) = true ↔ d.Taken t v n) ∧ (d.Entered t v n ↔ d.Selected t v q) := by
  obtain ⟨fs, o, ks, walk, opens, ho, way, short, means⟩ :=
    branchClauses_spec top sound way h continued
  have body : d.continues o = false := by rw [continues, opens]; rfl
  cases way with
  | root => rw [look_root_of_sound top sound] at opens; cases opens
  | @step _ q ks hq up =>
    obtain ⟨hq', there⟩ := ho.parent top sound hq
    exact ⟨fs, o, q, ks, walk, presentParent?_of_above (ho.law sound).1 hq there, hq', up,
      (Nat.lt_succ_self _).trans short, fun v =>
        ⟨(means v).1, (means v).2.trans (entered_iff_selected body hq)⟩⟩

/-- The clauses of a presence say that the node is selected. -/
theorem presenceClauses_spec (unmarked : ∀ n, d.Reaches n → (d.look n).kind ≠ .endMark)
    (way : d.Way t n ms) (h : d.Descends t n) (enough : ms.length < s) :
    ∃ fs, d.presenceClausesWithin t s n = .ok fs ∧
      ∀ v, fs.all (·.holds v) = true ↔ d.Selected t v n := by
  generalize length : ms.length = k at enough
  induction k using Nat.strong_induction_on generalizing n ms s with
  | _ k ih =>
    obtain ⟨hn, law⟩ := h.law sound
    obtain ⟨s, rfl⟩ : ∃ k, s = k + 1 := ⟨s - 1, by omega⟩
    by_cases atRoot : n = root
    · subst atRoot
      have kind := look_root_of_sound top sound
      refine ⟨[], ?_, fun v => ⟨fun _ => ⟨fun b => ?_, ?_⟩, fun _ => rfl⟩⟩
      · rw [presenceClausesWithin, node_look hn, Outcome.ok_bind, kind]
        rfl
      · rw [annotates, kind] at b
        cases b
      · exact entered_of_free (root_free top sound t)
    obtain ⟨p, hp, hq⟩ := h.exists_parent sound atRoot
    obtain ⟨-, there⟩ := h.parent top sound hp
    cases way with
    | root => exact absurd rfl atRoot
    | @step _ q ms hq' up =>
      rw [hp] at hq'
      cases hq'
      rw [List.length_cons] at length
      rw [presenceClausesWithin, node_look hn, Outcome.ok_bind]
      cases kind : (d.look n).kind with
      | root => exact absurd ((h.kind_eq_root_iff top sound).1 kind) atRoot
      | endMark => exact absurd kind (unmarked n h.reaches)
      | artifact =>
        obtain ⟨fs, run, means⟩ := ih ms.length (by omega) up hq (s := s) rfl (by omega)
        refine ⟨fs, ?_, fun v => ?_⟩
        · simp only [requiredParent_eq hn hp there, Outcome.ok_bind, run]
        · have plain : d.annotates n = false := by rw [annotates, kind]; rfl
          have body : d.continues n = false := by rw [continues, kind]; rfl
          rw [means, selected_of_plain plain, entered_iff_selected body hp]
      | ifBranch =>
        obtain ⟨f, hf⟩ := Option.isSome_iff_exists.1 (law.formula.trans (by rw [kind]; rfl))
        obtain ⟨fs, run, means⟩ := ih ms.length (by omega) up hq (s := s) rfl (by omega)
        refine ⟨fs ++ [f], ?_, fun v => ?_⟩
        · simp only [presentParent?_of_above hn hp there, Outcome.ok_bind, run,
            mapping_of_ifBranch hn kind hf]
          rfl
        · have branch : d.annotates n = true := by rw [annotates, kind]; rfl
          have body : d.continues n = false := by rw [continues, kind]; rfl
          rw [List.all_append, Bool.and_eq_true, means, List.all_cons, List.all_nil, Bool.and_true,
            selected_of_branch branch, entered_iff_selected body hp, taken_iff_own body,
            own_of_formula hf, and_comm]
      | elifBranch | elseBranch =>
        have branch : d.annotates n = true := by rw [annotates, kind]; rfl
        have continued : d.continues n = true := by rw [continues, kind]; rfl
        obtain ⟨fs, o, q, ks, walk, outer, hq, way, short, taken⟩ :=
          exists_outer top sound (.step hp up) h continued
        rw [List.length_cons] at short
        obtain ⟨gs, run, means⟩ := ih ks.length (by omega) way hq (s := s) rfl (by omega)
        refine ⟨fs ++ gs, ?_, fun v => ?_⟩
        · simp only [walk, outer, Outcome.ok_bind, run]
          rfl
        · rw [List.all_append, Bool.and_eq_true, (taken v).1, means, selected_of_branch branch,
            (taken v).2]

/-- The presence of a node of a sound tree is true exactly if the node is selected. -/
theorem exists_presence (unmarked : ∀ n, d.Reaches n → (d.look n).kind ≠ .endMark)
    (h : d.Descends t n) :
    ∃ f, d.presence n t = .ok f ∧ ∀ v, f.holds v = true ↔ d.Selected t v n := by
  obtain ⟨ms, way, few⟩ := h.exists_way top sound
  obtain ⟨fs, run, means⟩ := presenceClauses_spec top sound unmarked way h
    (s := d.size + 1) (by omega)
  refine ⟨Formula.conj fs, ?_, fun v => ?_⟩
  · rw [presence, presenceClauses, run]
    rfl
  · rw [Formula.holds_conj, means]

end Clauses

/-! ## Branches of one chain -/

/-- A condition opens the chain of a branch. -/
def Opens (d : Diff) (t : Time) (o b : Handle) : Prop :=
  (d.look o).kind = .ifBranch ∧ (o = b ∨ d.Earlier t b o)

/-- No two branches of the tree continue the same one. -/
def Single (d : Diff) (t : Time) : Prop :=
  ∀ p, d.Descends t p → ∀ b c, d.above t b = some p → d.above t c = some p →
    d.continues b = true → d.continues c = true → b = c

section Chain

variable {d : Diff} {t : Time} {v : String → Bool} {b c e o p : Handle}

/-- A branch is not taken together with an earlier one of its chain. -/
theorem Taken.not_earlier (h : d.Taken t v b) (he : d.Earlier t b e) : ¬ d.Taken t v e := by
  intro taken
  have refused := h.2 e he
  rw [taken.1] at refused
  cases refused

theorem Earlier.continues (h : d.Earlier t b e) : d.continues b = true := by
  cases h <;> assumption

/-- The chain of a branch comes to an earlier one through a branch that continues it at once. -/
theorem Earlier.exists_next (h : d.Earlier t b e) :
    ∃ c, d.above t c = some e ∧ d.continues c = true ∧ (b = c ∨ d.Earlier t b c) := by
  induction h with
  | parent hb hp => exact ⟨_, hp, hb, .inl rfl⟩
  | step hb hp _ ih =>
    obtain ⟨c, hc, continued, rfl | later⟩ := ih
    · exact ⟨_, hc, continued, .inr (.parent hb hp)⟩
    · exact ⟨c, hc, continued, .inr (.step hb hp later)⟩

variable (top : d.kindOf Diff.root = some .root) (sound : d.Sound)

include top sound

/-- If no two branches continue the same one, then of two branches of a chain one is the other or
comes earlier. -/
theorem Single.linear (single : d.Single t) (inTree : d.Descends t b) (hb : d.Earlier t b o)
    (hc : d.Earlier t c o) : b = c ∨ d.Earlier t b c ∨ d.Earlier t c b := by
  induction hb with
  | @parent b o continued hp =>
    obtain ⟨c', hc', continued', later⟩ := hc.exists_next
    obtain rfl := single o (inTree.parent top sound hp).1 b c' hp hc' continued continued'
    exact later.imp Eq.symm .inr
  | @step b p o continued hp _ ih =>
    have up := (inTree.parent top sound hp).1
    obtain rfl | earlier | later := ih up hc
    · exact .inr (.inl (.parent continued hp))
    · exact .inr (.inl (.step continued hp earlier))
    · obtain ⟨c', hc', continued', later⟩ := later.exists_next
      obtain rfl := single p up b c' hp hc' continued continued'
      exact later.imp Eq.symm .inr

theorem Opens.linear (single : d.Single t) (inTree : d.Descends t b) (hb : d.Opens t o b)
    (hc : d.Opens t o c) : b = c ∨ d.Earlier t b c ∨ d.Earlier t c b := by
  obtain ⟨-, hb⟩ := hb
  obtain ⟨-, hc⟩ := hc
  obtain rfl | hb := hb
  · exact hc.imp_right .inr
  · obtain rfl | hc := hc
    · exact .inr (.inl hb)
    · exact single.linear top sound inTree hb hc

/-- An earlier branch of a node of the tree is a condition of the tree. -/
theorem Earlier.conditional (h : d.Earlier t b e) (hb : d.Descends t b) :
    (d.look e).kind.isConditional = true := by
  induction h with
  | parent continued hp => exact hb.isConditional sound hp continued
  | step _ hp _ ih => exact ih (hb.parent top sound hp).1

/-- A branch is not selected together with an earlier one of its chain. -/
theorem Selected.not_earlier (h : d.Selected t v b) (hb : d.Descends t b) (he : d.Earlier t b e) :
    ¬ d.Selected t v e := by
  intro selected
  have branch : d.annotates b = true := by
    have continued := he.continues
    revert continued
    rw [Diff.continues, annotates]
    cases (d.look b).kind <;> simp [Kind.isContinuation, Kind.annotates]
  have earlier := Kind.annotates_of_isConditional (he.conditional top sound hb)
  exact (h.1 branch).not_earlier he (selected.1 earlier)

end Chain

/-- A diff that was read is sound and has no closing marks. -/
theorem readable_ofLines {options : Reading.Options} {dialect : Dialect} {source : Source}
    {lines : List Reading.PhysicalLine} {d : Diff}
    (h : Reading.ofLines options dialect source lines = .ok d) :
    d.kindOf root = some .root ∧ d.Sound ∧ ∀ n, d.Reaches n → d.kindOf n ≠ some .endMark := by
  have orderly := (Reading.ofLines_seems h).1
  refine ⟨orderly.root, orderly.sound, fun n hn kind => ?_⟩
  have inStore := hn.lt_size orderly.toRegular
  rw [kindOf, getElem?_look inStore, Option.map_some, Option.some.injEq] at kind
  exact Reading.unmarked_ofLines h n _ (getElem?_look inStore) kind

/-- A condition that two branches continue. -/
def forked : Diff :=
  [.addNode .unchanged .ifBranch .start .start (some (.literal "A")) (.single "#if A"),
    .addNode .unchanged .elifBranch .start .start (some (.literal "B")) (.single "#elif B"),
    .addNode .unchanged .elifBranch .start .start (some (.literal "C")) (.single "#elif C"),
    .attachLast 0 1 .before, .attachLast 0 1 .after, .attachLast 1 2 .before, .attachLast 1 2 .after,
    .attachLast 1 3 .before, .attachLast 1 3 .after].foldl (fun d (c : Call) => c.apply d)
      (.empty .unknown)

end Variation.Diff
