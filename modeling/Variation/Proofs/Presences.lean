import Variation.Proofs.Condensed
import Variation.Proofs.Growing
import Variation.Proofs.Idle

/-!
# Presences in a simplified diff

Cutting keeps the way from an edit up to the root, so it keeps its presence. Collapsing puts one
condition in place of a chain. What hangs below the chain has its presence still, if the chain begins
at the condition that opens its branches and the last node is not continued on the way down; a branch
that continues the last node continues the whole chain afterwards, and a chain that begins at a later
branch ends up below the earlier ones.
-/

namespace Variation

namespace Diff

/-- Two diffs agree about a node at a time: on whether it is taken, on whether it and all earlier
branches are false, and on whether all branches around it are taken. -/
structure Agrees (d d' : Diff) (t : Time) (v : String → Bool) (n : Handle) : Prop where
  taken : d'.Taken t v n ↔ d.Taken t v n
  refused : d'.Refused t v n ↔ d.Refused t v n
  entered : d'.Entered t v n ↔ d.Entered t v n

section Agrees

variable {d d' d'' : Diff} {n p : Handle} {t : Time} {v : String → Bool}

theorem Agrees.trans (h : d.Agrees d' t v n) (h' : d'.Agrees d'' t v n) : d.Agrees d'' t v n :=
  ⟨h'.taken.trans h.taken, h'.refused.trans h.refused, h'.entered.trans h.entered⟩

theorem Agrees.selected (h : d.Agrees d' t v n) (same : d'.payload n = d.payload n) :
    d'.Selected t v n ↔ d.Selected t v n := by
  rw [Selected, Selected, h.taken, h.entered, annotates_of_payload same]

/-- A node that continues nothing is taken and refused as it says itself. -/
theorem Agrees.of_entered (same : d'.payload n = d.payload n) (body : d.continues n = false)
    (entered : d'.Entered t v n ↔ d.Entered t v n) : d.Agrees d' t v n := by
  have body' : d'.continues n = false := (continues_of_payload same).trans body
  refine ⟨?_, ?_, entered⟩
  · rw [taken_iff_own body', taken_iff_own body, own_of_payload same]
  · rw [refused_iff_own body', refused_iff_own body, own_of_payload same]

/-- Diffs that agree about the parent agree about the node. -/
theorem Agrees.child (h : d.Agrees d' t v p) (same : d'.payload n = d.payload n)
    (parent : d'.payload p = d.payload p) (hp : d.above t n = some p)
    (hp' : d'.above t n = some p) : d.Agrees d' t v n := by
  by_cases more : d.continues n = true
  · have more' : d'.continues n = true := (continues_of_payload same).trans more
    refine ⟨?_, ?_, ?_⟩
    · rw [taken_iff more' hp', taken_iff more hp, own_of_payload same, h.refused]
    · rw [refused_iff more' hp', refused_iff more hp, own_of_payload same, h.refused]
    · rw [entered_iff_of_continues more' hp', entered_iff_of_continues more hp, h.entered]
  · have body : d.continues n = false := Bool.eq_false_iff.2 more
    have body' : d'.continues n = false := (continues_of_payload same).trans body
    refine .of_entered same body ?_
    rw [entered_iff_selected body' hp', entered_iff_selected body hp, h.selected parent]

/-- Diffs agree about the root. -/
theorem Agrees.root (hd : d.Regular) (sound : d.Sound) (hd' : d'.Regular) (sound' : d'.Sound)
    (same : d'.payload root = d.payload root) : d.Agrees d' t v root := by
  have body : d.continues Diff.root = false := by
    rw [continues, look_root_of_sound hd.root sound]
    rfl
  have free := entered_of_free (v := v) (root_free hd.root sound t)
  have free' := entered_of_free (v := v) (root_free hd'.root sound' t)
  exact .of_entered same body ⟨fun _ => free, fun _ => free'⟩

/-- A diff agrees with what was cut about all that is left. -/
theorem Trims.agrees (h : d.Trims d') (hd : d.Regular) (sound : d.Sound) (up : d'.Ascends t n) :
    d.Agrees d' t v n := by
  induction up with
  | root => exact .root hd sound h.regular h.sound (h.payload _)
  | step hp up ih =>
    have reached := (Ascends.step hp up).reaches h.regular
    exact ih.child (h.payload _) (h.payload _) ((h.above _ reached t).symm.trans hp) hp

end Agrees

/-! ## What a chain says -/

namespace Chain

variable {d : Diff} {first last : Handle} {ns : List Handle} {v : String → Bool}

/-- If the chain begins where the chain of branches is opened, its nodes are taken and refused at all
times alike. -/
theorem taken_after (chain : d.Chain first last ns) (opens : (d.look first).kind = .ifBranch)
    (t : Time) : (d.Taken .after v last ↔ d.Taken t v last) ∧
      (d.Refused .after v last ↔ d.Refused t v last) := by
  induction chain with
  | one =>
    have body : d.continues first = false := by rw [continues, opens]; rfl
    simp only [taken_iff_own body, refused_iff_own body, true_and]
  | @more n p ns up plain sole new ih =>
    cases body : d.continues n with
    | false => simp only [taken_iff_own body, refused_iff_own body, true_and]
    | true =>
      rw [taken_iff body (sole.parent .after), taken_iff body (sole.parent t),
        refused_iff body (sole.parent .after), refused_iff body (sole.parent t), ih.2]
      exact ⟨.rfl, .rfl⟩

/-- What a chain claims, and the first node being reached, is what it takes to come to the last node;
if the last node is to be skipped, it is what it takes to come to the branches of its chain. -/
theorem claims_iff (chain : d.Chain first last ns) (opens : (d.look first).kind = .ifBranch)
    (unmarked : ∀ n ∈ ns, (d.look n).kind ≠ .endMark) (t : Time) :
    (d.Claims v false ns ∧ d.Entered t v first ↔ d.Selected t v last) ∧
      (d.Claims v true ns ∧ d.Entered t v first ↔ d.Entered t v last) := by
  induction chain with
  | one plain =>
    rw [selected_of_branch plain.annotates, ← (taken_after (.one plain) opens t).1]
    simp only [Claims, and_true, true_and]
  | @more n p ns up plain sole new ih =>
    obtain ⟨marked, unmarked⟩ := List.forall_mem_cons.1 unmarked
    have ih := ih unmarked
    have above : d.Claims v (d.continues n) ns ∧ d.Entered t v first ↔ d.Entered t v n := by
      cases body : d.continues n with
      | false => rw [ih.1, entered_iff_selected body (sole.parent t)]
      | true => rw [ih.2, entered_iff_of_continues body (sole.parent t)]
    have skips : ((d.look n).kind != .ifBranch) = d.continues n := by
      have branch := plain.annotates
      revert branch marked
      rw [annotates, continues]
      cases (d.look n).kind <;> simp [Kind.annotates, Kind.isContinuation]
    refine ⟨?_, ?_⟩
    · rw [selected_of_branch plain.annotates, Claims, and_assoc, above,
        ((Chain.more up plain sole new).taken_after opens t).1]
    · rw [Claims, skips, above]

end Chain

/-! ## Clear of a chain -/

/-- A node is clear of a chain if, should it hang below the last node, the chain begins at the
condition that opens its branches and the way up comes to the last node through its body. -/
def Clear (d : Diff) (t : Time) (first last n : Handle) : Prop :=
  d.Above t n last → (d.look first).kind = .ifBranch ∧
    ∀ c, d.above t c = some last → c = n ∨ d.Above t n c → d.continues c = false

section Clear

variable {d d' : Diff} {first last first' last' n p c : Handle} {ns : List Handle} {t : Time}
  {v : String → Bool}

theorem Clear.parent (h : d.Clear t first last n) (hp : d.above t n = some p) :
    d.Clear t first last p := by
  intro above
  obtain ⟨opens, body⟩ := h ((above_iff hp).2 (.inr above))
  exact ⟨opens, fun c hc way => body c hc (.inr ((above_iff hp).2 way))⟩

namespace Collapses

variable (h : d.Collapses d' first last ns) (chain : d.Chain first last ns) (hd : d.Regular)

include h chain hd

/-- What comes above an old node came above it before; where the new condition comes, the first node
of the chain came. -/
theorem above_back (old : n ≠ d.size) (above : d'.Above t n p) :
    (p ≠ d.size → d.Above t n p) ∧ (p = d.size → d.Above t n first) := by
  have past {m : Handle} (below : d.above t m = some last) (way : m = n ∨ d.Above t n m) :
      d.Above t n first := by
    have last_above : d.Above t n last := by
      obtain rfl | way := way
      · exact .parent below
      · exact way.step below
    obtain same | top := chain.above_first (t := t)
    · exact same ▸ last_above
    · exact last_above.trans top
  induction above with
  | parent hp =>
    obtain ⟨new, -⟩ | ⟨-, -, ⟨below, new⟩ | ⟨-, up⟩⟩ := h.parent_cases hp
    · exact absurd new old
    · exact ⟨fun other => absurd new other, fun _ => past below (.inl rfl)⟩
    · exact ⟨fun _ => .parent up, fun new => absurd new (hd.parent_lt up).ne⟩
  | step _ hp ih =>
    obtain ⟨new, up⟩ | ⟨old', -, ⟨below, new⟩ | ⟨-, up⟩⟩ := h.parent_cases hp
    · exact ⟨fun _ => (ih.2 new).step up, fun new => absurd new (hd.parent_lt up).ne⟩
    · exact ⟨fun other => absurd new other, fun _ => past below (.inr (ih.1 old'))⟩
    · exact ⟨fun _ => (ih.1 old').step up, fun new => absurd new (hd.parent_lt up).ne⟩

/-- A node that is clear of another chain is clear of it still. -/
theorem clear (old : n ≠ d.size) (hf : first' ≠ d.size) (hl : last' ≠ d.size)
    (clear : d.Clear t first' last' n) : d'.Clear t first' last' n := by
  intro above
  obtain ⟨opens, body⟩ := clear ((h.above_back chain hd old above).1 hl)
  refine ⟨(h.kind_old hf).trans opens, fun c hc way => ?_⟩
  by_cases new : c = d.size
  · rw [new]
    exact h.not_continues_new
  rw [h.continues_old new]
  have up : d.above t c = some last' := by
    obtain ⟨e, -⟩ | ⟨-, -, ⟨-, e⟩ | ⟨-, up⟩⟩ := h.parent_cases hc
    · exact absurd e new
    · exact absurd e hl
    · exact up
  exact body c up (way.imp_right fun way => (h.above_back chain hd old way).1 new)

variable (sound : d.Sound) (unmarked : d.Unmarked)

include sound unmarked

/-- The diffs agree about what is clear of the chain and not in it. If the chain begins where its
branches are opened, the new condition is reached exactly if the first node was. -/
theorem agrees_or_entered (up : d.Ascends t n) :
    (n ∉ ns → d.Clear t first last n → d.Agrees d' t v n) ∧
      (n ∈ ns → (d.look first).kind = .ifBranch →
        (d'.Entered t v d.size ↔ d.Entered t v first)) := by
  have same {m : Handle} (hm : m < d.size) : d'.payload m = d.payload m := h.payload m hm.ne
  induction up with
  | root =>
    refine ⟨fun _ _ => ?_, fun inside => absurd inside (chain.root_not_mem hd)⟩
    exact .root hd sound h.regular (h.keeps_sound chain hd sound) (same hd.root_lt)
  | @step n p hp up ih =>
    constructor
    · intro out clear
      have inStore := lt_size_of_above hp
      obtain ⟨rfl, up'⟩ | ⟨other, up'⟩ := h.above_cases chain out hp
      · -- below the chain
        obtain ⟨opens, body⟩ := clear (.parent hp)
        have body := body n hp (.inl rfl)
        have body' : d'.continues n = false := (continues_of_payload (same inStore)).trans body
        have marks : ∀ m ∈ ns, (d.look m).kind ≠ .endMark := fun m hm =>
          unmarked m (chain.plain m hm).reaches
        refine .of_entered (same inStore) body ?_
        rw [entered_iff_selected body' up', selected_of_branch h.annotates_new,
          taken_iff_own h.not_continues_new, h.own, ih.2 chain.last_mem opens,
          (chain.claims_iff opens marks t).1, entered_iff_selected body hp]
      · exact (ih.1 other (clear.parent hp)).child (same inStore) (same (hd.parent_lt hp)) hp up'
    · intro inside opens
      by_cases start : n = first
      · subst start
        -- the parent of the chain is neither in it nor below it
        have other := chain.parent_ne hd sound hp
        have out : p ∉ ns := fun inside => (chain.child_mem inside other hp).2 rfl
        have clear : d.Clear t n last p := fun above => by
          have descends := (chain.plain last chain.last_mem).descends hd sound t
          exact absurd ((chain.above_parent hp).trans above) (descends.not_above hd.root sound)
        have body : d.continues n = false := by rw [continues, opens]; rfl
        rw [entered_iff_selected h.not_continues_new (h.above_new.trans hp),
          entered_iff_selected body hp, (ih.1 out clear).selected (same (hd.parent_lt hp))]
      · exact ih.2 (chain.parent_mem inside start hp).1 opens

end Collapses

end Clear

/-! ## All chains -/

/-- A node is clear of all chains. -/
def ClearOf (d : Diff) (t : Time) (chains : List (List Handle)) (n : Handle) : Prop :=
  ∀ ns ∈ chains, ∀ first ∈ ns.getLast?, ∀ last ∈ ns.head?, d.Clear t first last n

/-- A diff in which every chain gave way to a condition. -/
structure Condenses (d d' : Diff) (chains : List (List Handle)) : Prop where
  regular : d'.Regular
  sound : d'.Sound
  unmarked : d'.Unmarked
  payload : ∀ n, n < d.size → d'.payload n = d.payload n
  reaches : ∀ n, d.Reaches n → n ∉ chains.flatten → d'.Reaches n
  agrees : ∀ t v n, d.Ascends t n → n ∉ chains.flatten → d.ClearOf t chains n → d.Agrees d' t v n

end Diff

namespace Simplification

open Diff Edit

variable {d d' : Diff} {steps : List Simplification} {cs : List (List Handle)}

/-- The chains can be collapsed one by one. -/
theorem run_collapseAll (hd : d.Regular) (sound : d.Sound) (unmarked : d.Unmarked)
    (chained : d.Chained cs) :
    ∃ d', (cs.forM collapseChain).run d = .ok () d' ∧ d.Condenses d' cs := by
  induction cs generalizing d with
  | nil =>
    exact ⟨d, rfl, hd, sound, unmarked, fun _ _ => rfl, fun _ hn _ => hn,
      fun _ _ _ _ _ _ => ⟨.rfl, .rfl, .rfl⟩⟩
  | cons ns cs ih =>
    obtain ⟨first, last, chain⟩ := chained.chain ns List.mem_cons_self
    obtain ⟨d₁, run₁, h⟩ := collapseChain_spec hd sound unmarked chain
    obtain ⟨d', run', rest⟩ := ih h.regular (h.keeps_sound chain hd sound)
      (h.keeps_unmarked chain hd unmarked) (h.keeps_chained chain hd sound chained)
    have out {n : Handle} (hn : n ∉ (ns :: cs).flatten) : n ∉ ns ∧ n ∉ cs.flatten := by
      rwa [List.flatten_cons, List.mem_append, not_or] at hn
    refine ⟨d', ?_, rest.regular, rest.sound, rest.unmarked, fun n hn => ?_, fun n hn away => ?_,
      fun t v n up away clear => ?_⟩
    · change EStateM.run (collapseChain ns >>= fun _ => cs.forM collapseChain) d = _
      rw [EStateM.run_bind, run₁]
      exact run'
    · rw [rest.payload n (h.size ▸ Nat.lt_succ_of_lt hn), h.payload n hn.ne]
    · exact rest.reaches n (h.reaches_of_not_mem chain hd sound (out away).1 hn) (out away).2
    · have inStore {m : Handle} {ms : List Handle} (hms : ms ∈ cs) (hm : m ∈ ms) :
          m ≠ d.size := by
        obtain ⟨first', last', other⟩ := chained.tail.chain ms hms
        exact ((other.plain m hm).reaches.lt_size hd).ne
      have here := clear ns List.mem_cons_self first chain.getLast? last chain.head?
      have first_step := (h.agrees_or_entered chain hd sound unmarked (v := v) up).1 (out away).1 here
      have up₁ := (h.ascends chain hd up).1 (out away).1
      refine first_step.trans (rest.agrees t v n up₁ (out away).2 fun ms hms f hf l hl => ?_)
      exact h.clear chain hd ((up.reaches hd).lt_size hd).ne
        (inStore hms (List.mem_of_getLast? hf)) (inStore hms (List.mem_of_head? hl))
        (clear ms (List.mem_cons_of_mem _ hms) f hf l hl)

/-- What runs and leaves a sound diff can be applied. -/
theorem apply_of_run (order : checkOrder steps = .ok ()) (run : (runAll steps).run d = .ok () d')
    (hd : d'.Regular) (sound : d'.Sound) : apply steps d = .ok d' := by
  have result : (runAll steps).result d = .ok ((), d') := by rw [Edit.result, run]
  rw [apply, order, Outcome.ok_bind, result, Outcome.ok_bind]
  dsimp only
  rw [sound.accepted hd]
  rfl

theorem apply_cut_collapse {d₁ : Diff} (cutted : cut.run.run d = .ok () d₁)
    (collapsed : collapse.run.run d₁ = .ok () d') (hd : d'.Regular) (sound : d'.Sound) :
    apply [cut, collapse] d = .ok d' := by
  have order : checkOrder [cut, collapse] = .ok () := by decide
  refine apply_of_run order ?_ hd sound
  change EStateM.run (cut.run >>= fun _ => collapse.run >>= fun _ => pure ()) d = _
  rw [EStateM.run_bind, cutted]
  dsimp only
  rw [EStateM.run_bind, collapsed]
  rfl

/-- A sound diff can be cut, and the chains of what is left can be collapsed. -/
theorem exists_simplified (hd : d.Regular) (sound : d.Sound) (unmarked : d.Unmarked) :
    ∃ d₁ cs d', apply [cut] d = .ok d₁ ∧ chains d₁ = .ok cs ∧ apply [cut, collapse] d = .ok d' ∧
      d.Trims d₁ ∧ d₁.Chained cs ∧ d₁.Condenses d' cs := by
  obtain ⟨d₁, run₁, trims, -⟩ := run_cut hd sound
  have unmarked₁ : d₁.Unmarked := fun n hn => by
    rw [kind_of_payload (trims.payload n)]
    exact unmarked n (trims.reaches n hn)
  obtain ⟨cs, found, chained, -⟩ := chains_spec trims.regular
  obtain ⟨d', run', condenses⟩ := run_collapseAll trims.regular trims.sound unmarked₁ chained
  have collapsed : collapse.run.run d₁ = .ok () d' := by
    change EStateM.run (Edit.ask chains >>= fun cs => cs.forM collapseChain) d₁ = _
    rw [EStateM.run_bind, run_ask_ok found]
    exact run'
  refine ⟨d₁, cs, d', apply_of_run rfl ?_ trims.regular trims.sound, found,
    apply_cut_collapse run₁ collapsed condenses.regular condenses.sound, trims, chained, condenses⟩
  change EStateM.run (cut.run >>= fun _ => pure ()) d = _
  rw [EStateM.run_bind, run₁]
  rfl

/-- Every diff that is read can be simplified. No edit is lost, and each one has its presence still if
it is clear of the chains that are collapsed. -/
theorem presence_simplified {text : String} {options : Reading.Options} {source : Source}
    {dialect : Dialect} (h : Reading.diff text options source dialect = .ok d) :
    ∃ d₁ cs d', apply [cut] d = .ok d₁ ∧ chains d₁ = .ok cs ∧ apply [cut, collapse] d = .ok d' ∧
      ∀ n, d.Reaches n → (d.look n).change ≠ .unchanged → d'.Reaches n ∧
        ∀ t, (d.look n).existsAt t = true →
          ∃ f g, d.presence n t = .ok f ∧ d'.presence n t = .ok g ∧
            (d₁.ClearOf t cs n → ∀ v, g.holds v = f.holds v) := by
  have hd : d.Regular := (Diff.Handled.read h).regular
  obtain ⟨-, sound, kinds⟩ := readable_ofLines h
  have unmarked : d.Unmarked := fun n hn kind =>
    kinds n hn (by rw [kindOf, getElem?_look (hn.lt_size hd), Option.map_some, kind])
  obtain ⟨d₁, cs, d', cutted, found, collapsed, trims, chained, condenses⟩ :=
    exists_simplified hd sound unmarked
  refine ⟨d₁, cs, d', cutted, found, collapsed, fun n hn edited => ?_⟩
  have reached₁ := trims.edited n hn edited
  have away : n ∉ cs.flatten := fun mem => by
    obtain ⟨ns, hns, mem⟩ := List.mem_flatten.1 mem
    obtain ⟨first, last, chain⟩ := chained.chain ns hns
    exact edited ((trims.change n).symm.trans (chain.plain n mem).change)
  have reached' := condenses.reaches n reached₁ away
  have same : d'.payload n = d.payload n :=
    (condenses.payload n (reached₁.lt_size trims.regular)).trans (trims.payload n)
  refine ⟨reached', fun t there => ?_⟩
  have there₁ : (d₁.look n).existsAt t = true := by rwa [existsAt_of_payload (trims.payload n)]
  have there' : (d'.look n).existsAt t = true := by rwa [existsAt_of_payload same]
  have up₁ := ((sound_iff_fits trims.regular).1 trims.sound n reached₁).2 t there₁
  obtain ⟨f, hf, means⟩ := exists_presence hd.root sound unmarked (hn.descends hd sound there)
  obtain ⟨g, hg, means'⟩ := exists_presence condenses.regular.root condenses.sound
    condenses.unmarked (reached'.descends condenses.regular condenses.sound there')
  refine ⟨f, g, hf, hg, fun clear v => ?_⟩
  have agrees : d.Agrees d' t v n :=
    (trims.agrees hd sound up₁).trans (condenses.agrees t v n up₁ away clear)
  rw [Bool.eq_iff_iff, means', means, agrees.selected same]

/-- An added line below two conditions has its presence still when they are collapsed. -/
theorem presence_simplified_nested : ∃ d d' f g,
    Reading.diff " #if A\n #if B\n+x\n #endif\n #endif\n" {} .unknown .preprocessor = .ok d ∧
    apply [cut, collapse] d = .ok d' ∧
    d.Reaches 3 ∧ (d.look 3).change ≠ .unchanged ∧ (d.look 3).existsAt .after = true ∧
    d'.Reaches 3 ∧ d.presence 3 .after = .ok f ∧ d'.presence 3 .after = .ok g ∧
    ∀ v, g.holds v = f.holds v := by
  have run : (do
      let d ← Reading.diff " #if A\n #if B\n+x\n #endif\n #endif\n" {} .unknown .preprocessor
      let d₁ ← apply [cut] d
      return (← d.preorder, ← chains d₁, (d.look 3).change,
        [(d₁.look 1).kind, (d₁.look 3).kind], d₁.below .after 2) : Outcome _).toOption =
        some ([root, 1, 2, 3], [[2, 1]], .added, [.ifBranch, .artifact], [3]) := by
    decide +kernel
  obtain ⟨d, read, rest⟩ := Outcome.bind_eq_ok_iff.1 (Outcome.eq_ok_of_toOption run)
  obtain ⟨d₁, cutted, rest⟩ := Outcome.bind_eq_ok_iff.1 rest
  obtain ⟨ns, walk, rest⟩ := Outcome.bind_eq_ok_iff.1 rest
  obtain ⟨cs, found, rest⟩ := Outcome.bind_eq_ok_iff.1 rest
  simp only [Outcome.pure_eq_ok_iff, Prod.mk.injEq, List.cons.injEq, and_true] at rest
  obtain ⟨rfl, rfl, change, ⟨opens, kind⟩, below⟩ := rest
  have handled : d₁.Handled := .simplified (.read read) (by simp [Scripted.cut]) cutted
  obtain ⟨e, cs, d', simplified, found', collapsed, spec⟩ := presence_simplified read
  obtain rfl := Except.ok.inj (cutted.symm.trans simplified)
  obtain rfl := Except.ok.inj (found.symm.trans found')
  obtain ⟨ns, walk', -, reached⟩ := preorder_spec (Diff.Handled.read read).regular
  obtain rfl := Except.ok.inj (walk.symm.trans walk')
  have edited : (d.look 3).change ≠ .unchanged := by
    rw [change]
    decide
  have there : (d.look 3).existsAt .after = true := by
    rw [Node.existsAt, change]
    rfl
  have reaches : d.Reaches 3 := (reached 3).1 (by decide)
  have clear : d₁.ClearOf .after [[2, 1]] 3 := by
    simp only [ClearOf, List.forall_mem_singleton, List.getLast?, List.head?, Option.mem_def,
      Option.some.injEq, forall_eq']
    refine fun _ => ⟨opens, fun c hc _ => ?_⟩
    have mem := handled.regular.mem_of_above hc
    rw [below] at mem
    obtain rfl := List.mem_singleton.1 mem
    rw [continues, kind]
    rfl
  obtain ⟨reached', presence⟩ := spec 3 reaches edited
  obtain ⟨f, g, hf, hg, same⟩ := presence .after there
  exact ⟨d, d', f, g, read, collapsed, reaches, edited, there, reached', hf, hg, same clear⟩

/-- The presences of a node of a text before and after it is simplified. -/
theorem presences_of_run {text : String} {n : Handle} {t : Time} {f g : Formula}
    (run : (do
      let d ← Reading.diff text {} .unknown .preprocessor
      let d' ← apply [cut, collapse] d
      return (← d.presence n t, ← d'.presence n t) : Outcome _).toOption = some (f, g)) :
    ∃ d d', Reading.diff text {} .unknown .preprocessor = .ok d ∧
      apply [cut, collapse] d = .ok d' ∧ d.presence n t = .ok f ∧ d'.presence n t = .ok g := by
  obtain ⟨d, read, rest⟩ := Outcome.bind_eq_ok_iff.1 (Outcome.eq_ok_of_toOption run)
  obtain ⟨d', simplified, rest⟩ := Outcome.bind_eq_ok_iff.1 rest
  obtain ⟨f, hf, rest⟩ := Outcome.bind_eq_ok_iff.1 rest
  obtain ⟨g, hg, rest⟩ := Outcome.bind_eq_ok_iff.1 rest
  obtain ⟨rfl, rfl⟩ := Prod.mk.inj (Except.ok.inj rest)
  exact ⟨d, d', read, simplified, hf, hg⟩

/-- A line in a branch that continues the last node of a chain: once the chain is collapsed, that
branch denies all that the chain says. -/
theorem presence_changed_in_continuation : ∃ d d' f g v,
    Reading.diff " #if A\n #if B\n-x\n #else\n-y\n #endif\n #endif\n" {} .unknown
      .preprocessor = .ok d ∧ apply [cut, collapse] d = .ok d' ∧
    d.presence 5 .before = .ok f ∧ d'.presence 5 .before = .ok g ∧
    f.holds v = false ∧ g.holds v = true := by
  obtain ⟨d, d', read, simplified, hf, hg⟩ :=
    @presences_of_run " #if A\n #if B\n-x\n #else\n-y\n #endif\n #endif\n" 5 .before
      (.all [.neg (.literal "B"), .literal "A"]) (.neg (.all [.literal "A", .literal "B"]))
      (by decide +kernel)
  exact ⟨d, d', _, _, fun _ => false, read, simplified, hf, hg, by decide, by decide⟩

/-- A line below a chain that begins at a later branch: once the chain is collapsed, the line is also
below the condition that the branch denies. -/
theorem presence_changed_below_branch : ∃ d d' f g v,
    Reading.diff " #if A\n-x\n #elif B\n #if C\n-y\n #endif\n #endif\n" {} .unknown
      .preprocessor = .ok d ∧ apply [cut, collapse] d = .ok d' ∧
    d.presence 5 .before = .ok f ∧ d'.presence 5 .before = .ok g ∧
    f.holds v = true ∧ g.holds v = false := by
  let skipped : Formula := .neg (.literal "A")
  obtain ⟨d, d', read, simplified, hf, hg⟩ :=
    @presences_of_run " #if A\n-x\n #elif B\n #if C\n-y\n #endif\n #endif\n" 5 .before
      (.all [.literal "B", skipped, .literal "C"])
      (.all [.literal "A", .all [.all [.literal "B", skipped], .literal "C"]]) (by decide +kernel)
  exact ⟨d, d', _, _, fun name => name != "A", read, simplified, hf, hg, by decide +kernel,
    by decide +kernel⟩

end Simplification

end Variation
