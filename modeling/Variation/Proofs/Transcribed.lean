import Variation.Proofs.Copied
import Variation.Proofs.Printable

/-!
# What a copy prints

The walk that prints a diff asks for nothing but what the nodes hold and for their children, so it
writes the same lines for a copy under other names. Only the levels down to which it goes depend on
the size of the store. Where the walk through the diff comes to an end, everything that it searches
for the last line below it is founded, and then the levels for the nodes of the copy alone suffice. The
last statement puts together what is promised of a deep copy.
-/

namespace Variation

open Diff

namespace Outcome

variable {α β γ δ : Type} {as : List α} {f : β → α → Outcome β} {g : γ → δ → Outcome γ}
  {name : α → δ} {b b' : β} {c : γ}

/-- A run follows another one through renamed elements if every step does. -/
theorem foldlM_follows {R : β → γ → Prop}
    (step : ∀ a ∈ as, ∀ b c b', R b c → f b a = .ok b' → ∃ c', g c (name a) = .ok c' ∧ R b' c')
    (start : R b c) (run : as.foldlM f b = .ok b') :
    ∃ c', (as.map name).foldlM g c = .ok c' ∧ R b' c' := by
  induction as generalizing b c with
  | nil =>
    obtain rfl := Except.ok.inj run
    exact ⟨c, rfl, start⟩
  | cons a as ih =>
    obtain ⟨here, step⟩ := List.forall_mem_cons.1 step
    rw [List.foldlM_cons] at run
    obtain ⟨b₁, first, run⟩ := bind_eq_ok_iff.1 run
    obtain ⟨c₁, first', start⟩ := here b c b₁ start first
    rw [List.map_cons, List.foldlM_cons, first', ok_bind]
    exact ih step start run

/-- What every step of a run keeps holds at its end, and every step finds something. -/
theorem foldlM_finds {keeps : β → Prop} {finds : α → Prop}
    (step : ∀ a ∈ as, ∀ b b', keeps b → f b a = .ok b' → keeps b' ∧ finds a) (start : keeps b)
    (run : as.foldlM f b = .ok b') : keeps b' ∧ ∀ a ∈ as, finds a := by
  induction as generalizing b with
  | nil =>
    obtain rfl := Except.ok.inj run
    exact ⟨start, fun a ha => absurd ha List.not_mem_nil⟩
  | cons a as ih =>
    obtain ⟨here, step⟩ := List.forall_mem_cons.1 step
    rw [List.foldlM_cons] at run
    obtain ⟨b₁, first, run⟩ := bind_eq_ok_iff.1 run
    obtain ⟨kept, found⟩ := here b b₁ start first
    obtain ⟨kept, all⟩ := ih step kept run
    exact ⟨kept, List.forall_mem_cons.2 ⟨found, all⟩⟩

end Outcome

namespace Diff.Copies

variable {d c : Diff} {name : Handle → Handle} {n : Handle}

/-- What is founded in the diff is founded in its copy. -/
theorem founded (hd : d.Regular) (enclosed : d.Enclosed) (h : d.Copies c name) (hn : d.Reaches n)
    (founded : d.Founded n) : c.Founded (name n) := by
  induction founded with
  | @intro n below ih =>
    refine .intro fun k hk => ?_
    rw [Under, h.belowBoth hd enclosed hn] at hk
    obtain ⟨m, hm, rfl⟩ := List.mem_map.1 hk
    exact ih m hm (hn.of_mem_belowBoth hm)

/-- The way down from what is founded meets no more nodes than the copy has. -/
theorem within (hd : d.Regular) (enclosed : d.Enclosed) (h : d.Copies c name) (hn : d.Reaches n)
    (founded : d.Founded n) : c.Within (c.size + 1) (name n) :=
  within_of_not_loops (h.regular hd enclosed) (h.size n hn)
    (h.founded hd enclosed hn founded).not_loops

end Diff.Copies

namespace Printing

variable {d c : Diff} {name : Handle → Handle} {n : Handle} {ends ends' : Ends} {levels : Nat}
  {p : Int × Ends}

/-! ## The last line below a node -/

/-- A search that comes to an end has met founded nodes only. -/
theorem founded_of_endBelow (hd : d.Regular) (memo : Memo d ends) (hn : n < d.size)
    (run : endBelow d levels n ends = .ok p) : Memo d p.2 ∧ d.Founded n := by
  induction levels using Nat.strong_induction_on generalizing n ends p with
  | _ levels ih =>
    obtain ⟨last, known, rfl⟩ | ⟨levels, own, q, rfl, -, -, search, rfl⟩ := endBelow_cases hn run
    · exact ⟨memo, memo n last known⟩
    · have step : ∀ k ∈ d.belowBoth n, ∀ b b' : Int × Ends, Memo d b.2 →
          endStep d levels b k = .ok b' → Memo d b'.2 ∧ d.Founded k := by
        intro k hk b b' kept one
        obtain ⟨r, inner, one⟩ := Outcome.bind_eq_ok_iff.1 one
        obtain rfl := Except.ok.inj one
        exact ih levels (Nat.lt_succ_self _) (p := r) kept (hd.lt_size_of_mem_belowBoth hk) inner
      obtain ⟨kept, below⟩ := Outcome.foldlM_finds step memo search
      exact ⟨kept.set (.intro below) _, .intro below⟩

/-- The last lines that are known in a diff and in its copy are the same. -/
structure SameEnds (d c : Diff) (name : Handle → Handle) (ends ends' : Ends) : Prop where
  size : ends.size = d.size
  size' : ends'.size = c.size
  known : ∀ n, d.Reaches n → ∀ last, ends'[name n]? = some (some last) ↔
    ends[n]? = some (some last)

theorem sameEnds_blank (d c : Diff) (name : Handle → Handle) :
    SameEnds d c name (Array.replicate d.size none) (Array.replicate c.size none) where
  size := Array.size_replicate
  size' := Array.size_replicate
  known n _ last := by
    simp only [Array.getElem?_replicate]
    split <;> split <;> simp

theorem SameEnds.set (hd : d.Regular) (h : d.Copies c name) (same : SameEnds d c name ends ends')
    (hn : d.Reaches n) (last : Int) : SameEnds d c name (ends.setIfInBounds n (some last))
      (ends'.setIfInBounds (name n) (some last)) where
  size := by rw [Array.size_setIfInBounds, same.size]
  size' := by rw [Array.size_setIfInBounds, same.size']
  known m hm other := by
    rw [Array.getElem?_setIfInBounds, Array.getElem?_setIfInBounds]
    by_cases here : n = m
    · subst here
      rw [if_pos rfl, if_pos rfl, same.size, same.size', if_pos (h.size n hn),
        if_pos (hn.lt_size hd)]
    · have apart : name n ≠ name m := fun e => here (h.apart n m hn hm e)
      rw [if_neg here, if_neg apart]
      exact same.known m hm other

/-- The search through the copy finds what the search through the diff found. -/
theorem endBelow_follows (hd : d.Regular) (enclosed : d.Enclosed) (h : d.Copies c name)
    {levels' : Nat} (hn : d.Reaches n) (within : c.Within levels' (name n))
    (same : SameEnds d c name ends ends') (run : endBelow d levels n ends = .ok p) :
    ∃ p', endBelow c levels' (name n) ends' = .ok p' ∧ p'.1 = p.1 ∧
      SameEnds d c name p.2 p'.2 := by
  induction levels using Nat.strong_induction_on generalizing n ends ends' p levels' with
  | _ levels ih =>
    obtain ⟨last, known, rfl⟩ | ⟨levels, own, q, rfl, new, first, search, rfl⟩ :=
      endBelow_cases (hn.lt_size hd) run
    · exact ⟨_, endBelow_known ((same.known n hn last).2 known), rfl, same⟩
    · have unknown (last : Int) : ends'[name n]? ≠ some (some last) := fun found =>
        new last ((same.known n hn last).1 found)
      obtain _ | levels' := levels'
      · exact within.elim
      have first' : ownEnd (c.look (name n)) = .ok own :=
        (h.tells ownEnd (fun _ => rfl) hn).trans first
      have step : ∀ k ∈ d.belowBoth n, ∀ b b' q : Int × Ends,
          (b'.1 = b.1 ∧ SameEnds d c name b.2 b'.2) → endStep d levels b k = .ok q →
          ∃ q', endStep c levels' b' (name k) = .ok q' ∧
            (q'.1 = q.1 ∧ SameEnds d c name q.2 q'.2) := by
        intro k hk b b' q along one
        obtain ⟨r, inner, one⟩ := Outcome.bind_eq_ok_iff.1 one
        obtain rfl := Except.ok.inj one
        have deeper : c.Within levels' (name k) := within (name k) (by
          rw [Under, h.belowBoth hd enclosed hn]
          exact List.mem_map_of_mem hk)
        obtain ⟨r', inner', last, same'⟩ :=
          ih levels (Nat.lt_succ_self _) (hn.of_mem_belowBoth hk) deeper along.2 inner
        refine ⟨(max b'.1 r'.1, r'.2), by rw [endStep, inner']; rfl, ?_, same'⟩
        rw [last, along.1]
      have start : (own, ends').1 = (own, ends).1 ∧ SameEnds d c name (own, ends).2 (own, ends').2 :=
        ⟨rfl, same⟩
      obtain ⟨q', search', last, same'⟩ := Outcome.foldlM_follows step start search
      refine ⟨(q'.1, q'.2.setIfInBounds (name n) (some q'.1)), ?_, last, ?_⟩
      · rw [endBelow_succ (h.size n hn) unknown, first', Outcome.ok_bind, h.belowBoth hd enclosed hn,
          search']
        rfl
      · rw [last]
        exact same'.set hd h hn q.1

/-! ## The walk -/

namespace Sheet

variable {s s' t : Sheet} {seen ns : List Handle} {f : Forest Handle} {depth : Nat}

/-- What was written for a diff and for its copy is the same, after the same nodes were met. -/
structure Follows (d c : Diff) (name : Handle → Handle) (seen : List Handle) (s s' : Sheet) :
    Prop where
  entries : s'.entries = s.entries
  closed : s'.closed = s.closed
  marked : d.Marked s.visited seen
  marked' : c.Marked s'.visited (seen.map name)
  ends : SameEnds d c name s.ends s'.ends
  memo : Memo d s.ends

theorem follows_blank (d c : Diff) (name : Handle → Handle) :
    Follows d c name [] (.blank d.size) (.blank c.size) where
  entries := rfl
  closed := rfl
  marked := .none d
  marked' := .none c
  ends := sameEnds_blank d c name
  memo := memo_replicate d d.size

theorem Follows.write (along : Follows d c name seen s s') (es : List Entry) :
    Follows d c name seen (s.write es) (s'.write es) :=
  { along with entries := congrArg (· ++ es.toArray) along.entries }

theorem Follows.meet (hd : d.Regular) (h : d.Copies c name) (hn : d.Reaches n)
    (along : Follows d c name seen s s') :
    Follows d c name (n :: seen) (s.meet d n) (s'.meet c (name n)) := by
  have lines : firstEntries c (name n) = firstEntries d n :=
    h.tells (fun x => if x.kind = .root then [] else labelEntries x.start.diff x.change x.label)
      (fun _ => rfl) hn
  have marked : Follows d c name (n :: seen) { s with visited := s.visited.mark n }
      { s' with visited := s'.visited.mark (name n) } :=
    { along with
      marked := along.marked.mark (hn.lt_size hd)
      marked' := along.marked'.mark (h.size n hn) }
  unfold Sheet.meet
  rw [lines]
  exact marked.write _

theorem Follows.writeClosings (along : Follows d c name seen s s') (cs : List ClosingLine) :
    Follows d c name seen (cs.foldl writeClosing s) (cs.foldl writeClosing s') := by
  induction cs generalizing s s' with
  | nil => exact along
  | cons line cs ih =>
    refine ih ?_
    unfold writeClosing
    rw [along.closed]
    split
    · exact along
    · exact { along.write _ with closed := rfl }

theorem Follows.locate (along : Follows d c name seen s s') (memo : Memo d ends)
    (same : SameEnds d c name ends ends') :
    Follows d c name seen { s with ends := ends } { s' with ends := ends' } :=
  { along with ends := same, memo := memo }

/-- What a node opened is closed in the same way. -/
theorem close_follows (hd : d.Regular) (enclosed : d.Enclosed) (h : d.Copies c name)
    (hn : d.Reaches n) (along : Follows d c name seen s s')
    (run : s.close d n (d.look n) depth = .ok t) :
    ∃ t', s'.close c (name n) (c.look (name n)) depth = .ok t' ∧ Follows d c name seen t t' := by
  have change := h.change hn
  have closing := h.tells (·.closing) (fun _ => rfl) hn
  rw [Sheet.close] at run ⊢
  rw [change, closing]
  have along := along.writeClosings ((d.look n).change.times.filterMap (d.look n).closing.get)
  dsimp only at run ⊢
  split at run
  · next all =>
    obtain rfl := Except.ok.inj run
    rw [if_pos all]
    exact ⟨_, rfl, along⟩
  · next missing =>
    obtain ⟨p, search, run⟩ := Outcome.bind_eq_ok_iff.1 run
    obtain rfl := Except.ok.inj run
    obtain ⟨memo, founded⟩ := founded_of_endBelow hd along.memo (hn.lt_size hd) search
    obtain ⟨p', search', last, ends⟩ := endBelow_follows hd enclosed h hn
      (h.within hd enclosed hn founded) along.ends search
    rw [if_neg missing, search', Outcome.ok_bind]
    refine ⟨_, rfl, ?_⟩
    rw [last]
    exact (along.locate memo ends).write _

/-- The walk through the copy writes what the walk through the diff writes, if there are levels for
the nodes that are still to be met. -/
theorem visit_follows (hd : d.Regular) (enclosed : d.Enclosed) (h : d.Copies c name)
    {levels levels' : Nat} (tour : d.Tours seen ns f) (reaches : ∀ n ∈ ns, d.Reaches n)
    (met : ∀ n ∈ seen, d.Reaches n) (deep : f.flatten.length < levels')
    (along : Follows d c name seen s s') (run : ns.foldlM (visit d levels depth) s = .ok t) :
    ∃ t', (ns.map name).foldlM (visit c levels' depth) s' = .ok t' ∧
      Follows d c name (f.flatten.reverse ++ seen) t t' := by
  induction tour generalizing levels levels' depth s s' t with
  | nil seen =>
    obtain rfl := Except.ok.inj run
    exact ⟨s', rfl, along⟩
  | @skip seen ns n f old rest ih =>
    obtain ⟨levels', rfl⟩ : ∃ k, levels' = k + 1 := ⟨levels' - 1, by omega⟩
    obtain _ | levels := levels
    · cases run
    rw [List.foldlM_cons, visit, if_pos ((along.marked.has n).2 old)] at run
    rw [List.map_cons, List.foldlM_cons, visit,
      if_pos ((along.marked'.has _).2 (List.mem_map_of_mem old))]
    exact ih (List.forall_mem_cons.1 reaches).2 met deep along run
  | @visit seen ns n below rest new inner outer ihb ihr =>
    obtain ⟨here, reaches⟩ := List.forall_mem_cons.1 reaches
    simp only [Forest.flatten, List.length_cons, List.length_append] at deep
    obtain ⟨levels', rfl⟩ : ∃ k, levels' = k + 1 := ⟨levels' - 1, by omega⟩
    obtain _ | levels := levels
    · cases run
    have children : ∀ k ∈ d.belowBoth n, d.Reaches k := fun k hk => here.of_mem_belowBoth hk
    have met' : ∀ k ∈ n :: seen, d.Reaches k := List.forall_mem_cons.2 ⟨here, met⟩
    have unmarked : ¬ s.visited.has n = true := fun marked => new ((along.marked.has n).1 marked)
    have unmarked' : ¬ s'.visited.has (name n) = true := fun marked => by
      obtain ⟨k, hk, same⟩ := List.mem_map.1 ((along.marked'.has _).1 marked)
      exact new (h.apart k n (met k hk) here same ▸ hk)
    rw [List.foldlM_cons, visit_eq (here.lt_size hd) unmarked] at run
    obtain ⟨s₂, visit₂, run⟩ := Outcome.bind_eq_ok_iff.1 run
    obtain ⟨s₁, visit₁, close₁⟩ := Outcome.bind_eq_ok_iff.1 visit₂
    obtain ⟨t₁, visit₁', along₁⟩ :=
      ihb children met' (show below.flatten.length < levels' by omega) (along.meet hd h here) visit₁
    have closes : ∃ t₂, (if (c.look (name n)).kind = .ifBranch then
        t₁.close c (name n) (c.look (name n)) depth else .ok t₁) = .ok t₂ ∧
        Follows d c name (below.flatten.reverse ++ n :: seen) s₂ t₂ := by
      rw [h.kind here]
      split at close₁
      · next kind =>
        rw [if_pos kind]
        exact close_follows hd enclosed h here along₁ close₁
      · next other =>
        obtain rfl := Except.ok.inj close₁
        rw [if_neg other]
        exact ⟨t₁, rfl, along₁⟩
    obtain ⟨t₂, close₁', along₂⟩ := closes
    obtain ⟨t', run', along'⟩ :=
      ihr reaches (inner.reaches_met here met) (show rest.flatten.length < levels' + 1 by omega) along₂ run
    refine ⟨t', ?_, ?_⟩
    · rw [List.map_cons, List.foldlM_cons, visit_eq (h.size n here) unmarked',
        h.belowBoth hd enclosed here, visit₁', Outcome.ok_bind, close₁', Outcome.ok_bind]
      exact run'
    · rw [Forest.reverse_flatten_cons]
      exact along'

end Sheet

/-- The line diff of a copy is that of the diff, wherever the latter has one. -/
theorem lineDiff_of_copies (hd : d.Regular) (enclosed : d.Enclosed) (h : d.Copies c name)
    {text : String} (run : lineDiff d = .ok text) : lineDiff c = .ok text := by
  obtain ⟨es, listed, run⟩ := Outcome.bind_eq_ok_iff.1 run
  obtain ⟨s, walk, listed⟩ := Outcome.bind_eq_ok_iff.1 listed
  obtain rfl := Except.ok.inj listed
  obtain ⟨f, tour⟩ := Tour.exists_tour hd
  have single (d : Diff) : [root].foldlM (Sheet.visit d (d.size + 1) 0) (.blank d.size) =
      Sheet.visit d (d.size + 1) 0 (.blank d.size) root := by
    rw [List.foldlM_cons]
    cases Sheet.visit d (d.size + 1) 0 (.blank d.size) root <;> rfl
  rw [← single d] at walk
  have deep : (Forest.tree root f).flatten.length < c.size + 1 := by
    rw [h.size_eq tour, Forest.flatten_tree, List.length_cons]
    exact Nat.lt_succ_self _
  obtain ⟨s', walk', along⟩ := Sheet.visit_follows hd enclosed h tour.tours
    (List.forall_mem_singleton.2 .root) (fun n hn => absurd hn List.not_mem_nil) deep
    (Sheet.follows_blank d c name) walk
  rw [List.map_singleton, h.top, single c] at walk'
  rw [lineDiff, entries, walk', Outcome.ok_bind, along.entries]
  exact run

end Printing

namespace Diff

/-- A deep copy is the compaction of a diff: it holds exactly the nodes that the walk from the root
lists, in that order, with what they hold, their parents and their children; it says the same, has the
same sources, the same line diff where there is one, and is copied as it is. -/
theorem compact_spec {d : Diff} (hd : d.Regular) (sound : d.Sound) :
    ∃ ns c, d.preorder = .ok ns ∧ d.compact = .ok c ∧ ns.Nodup ∧ c.size = ns.length ∧
      (∀ i n, ns[i]? = some n → c.payload i = d.payload n ∧ ∀ t,
        c.above t i = (d.above t n).map ns.idxOf ∧ c.below t i = (d.below t n).map ns.idxOf) ∧
      c.source = d.source ∧ d.saysSame c = .ok true ∧
      (∀ t, ∃ text, Printing.source d t = .ok text ∧ Printing.source c t = .ok text) ∧
      (∀ text, Printing.lineDiff d = .ok text → Printing.lineDiff c = .ok text) ∧
      c.compact = .ok c := by
  have enclosed := sound.enclosed hd
  obtain ⟨f, tour⟩ := Tour.exists_tour hd
  have copies := copies_gathered hd tour.nodup fun _ => tour.mem_iff
  refine ⟨root :: f.flatten, _, preorder_eq hd tour,
    compact_eq hd enclosed (preorder_eq hd tour) tour.nodup fun _ => tour.mem_iff, tour.nodup,
    size_gathered, fun i n hi => ?_, rfl,
    (copies.similar hd enclosed).saysSame hd (copies.regular hd enclosed),
    copies.source_eq hd sound, fun _ => Printing.lineDiff_of_copies hd enclosed copies,
    compact_gathered hd enclosed tour⟩
  obtain ⟨inside, rfl⟩ := List.getElem?_eq_some_iff.1 hi
  have reached := tour.mem_iff.1 (List.getElem_mem inside)
  have payload := copies.payload _ reached
  have above (t) := copies.above t _ reached
  have below (t) := copies.below t _ reached
  rw [tour.nodup.idxOf_getElem i inside] at payload above below
  exact ⟨payload, fun t => ⟨above t, below t⟩⟩

/-- Two conditions, of which the second one hangs below the first one before the edit and the other way
round after it, and a run of code that hangs nowhere. -/
def looseChains : Diff :=
  ofCalls [newCode, .addNode .unchanged .ifBranch ⟨1, 1, 2⟩ ⟨4, 4, 3⟩ (some (.literal "A"))
      (.single "#if A"),
    .addNode .unchanged .ifBranch ⟨2, 2, 1⟩ ⟨3, 3, 4⟩ (some (.literal "B")) (.single "#if B"),
    .attachLast 0 2 .before, .attachLast 2 3 .before, .attachLast 0 3 .after,
    .attachLast 3 2 .after, .setClosing 2 .before (some ⟨.unchanged, ⟨4, 4, 3⟩, .single "#endif"⟩),
    .setClosing 2 .after (some ⟨.unchanged, ⟨4, 4, 3⟩, .single "#endif"⟩),
    .setClosing 3 .before (some ⟨.unchanged, ⟨3, 3, 4⟩, .single "#endif"⟩),
    .setClosing 3 .after (some ⟨.unchanged, ⟨3, 3, 4⟩, .single "#endif"⟩)]

/-- That the parents of what hangs below the root hang there too can be read off the walk. -/
theorem enclosed_of_preorder {d : Diff} {ns : List Handle} (hd : d.Regular)
    (walk : d.preorder.toOption = some ns)
    (inside : ∀ n ∈ ns, ∀ t ∈ Time.all, ∀ p ∈ d.above t n, p ∈ ns) : d.Enclosed := by
  obtain ⟨ns', walk', -, mem⟩ := preorder_spec hd
  rw [walk'] at walk
  obtain rfl := Option.some.inj walk
  intro n hn t p hp
  have listed : t ∈ Time.all := by cases t <;> decide
  exact (mem p).1 (inside n ((mem n).2 hn) t listed p hp)

/-- The copy of crossed conditions leaves behind what hangs nowhere. -/
theorem compact_looseChains : looseChains.Regular ∧ looseChains.Sound ∧ looseChains.size = 4 ∧
    ∃ c text, looseChains.compact = .ok c ∧ c.size = 3 ∧ looseChains.saysSame c = .ok true ∧
      Printing.lineDiff looseChains = .ok text ∧ Printing.lineDiff c = .ok text ∧
      c.compact = .ok c := by
  have regular : looseChains.Regular := (built_ofCalls _).regular
  have listed : looseChains.preorder.toOption = some [0, 2, 3] := by decide +kernel
  have sound : looseChains.Sound := .of_accepted regular
    (Outcome.eq_ok_of_toOption (by decide +kernel))
    (enclosed_of_preorder regular listed (by decide +kernel))
  have printed : (Printing.lineDiff looseChains).isOk = true := by decide +kernel
  obtain ⟨ns, c, walk, copy, -, size, -, -, same, -, lines, again⟩ := compact_spec regular sound
  obtain ⟨text, run⟩ : ∃ text, Printing.lineDiff looseChains = .ok text := by
    cases run : Printing.lineDiff looseChains with
    | ok text => exact ⟨text, rfl⟩
    | error e =>
      rw [run] at printed
      cases printed
  rw [walk] at listed
  obtain rfl := Option.some.inj listed
  exact ⟨regular, sound, by decide +kernel, c, text, copy, size, same, run, lines text run, again⟩

end Diff

end Variation
