import Variation.Proofs.Improved
import Variation.Proofs.Lined

/-!
# Packed identifiers name nodes

A packed identifier says exactly the diff line at which a node begins, its change and its kind: nothing
is lost by packing, and nothing else unpacks. Within a diff that was read this is enough to name a node.
Two nodes of one change are there at a common time, and in the tree of that time no two nodes begin on
one line. Nodes of different changes may well begin on one line: the lines before and after the edit that
begin with the same unchanged line part as soon as one of them goes on with a changed line.
-/

namespace Variation

/-! ## Packing and unpacking -/

namespace StableId

variable {line line' : Int} {c c' : Change} {k k' : Kind} {id : Nat}

/-- Packed identifiers fit into 64 bits. -/
theorem encode_lt (high : line ≤ 2147483647) (c : Change) (k : Kind) : encode line c k < 2 ^ 64 := by
  have hk := k.ordinal_lt
  have hc := c.ordinal_lt
  unfold encode
  omega

theorem ordinal_of_ofOrdinal? {n : Nat} (h : Kind.ofOrdinal? n = some k) : k.ordinal = n := by
  have found := List.find?_some h
  exact beq_iff_eq.1 found

theorem ordinal_of_ofOrdinal?_change {n : Nat} (h : Change.ofOrdinal? n = some c) : c.ordinal = n := by
  have found := List.find?_some h
  exact beq_iff_eq.1 found

/-- What unpacks was packed. -/
theorem encode_of_decode? (h : decode? id = some (line, c, k)) : encode line c k = id := by
  obtain ⟨k', kind, h⟩ := Option.bind_eq_some_iff.1 h
  obtain ⟨c', change, h⟩ := Option.bind_eq_some_iff.1 h
  obtain ⟨line', number, h⟩ := Option.bind_eq_some_iff.1 h
  cases h
  have kind := ordinal_of_ofOrdinal? kind
  have change := ordinal_of_ofOrdinal?_change change
  obtain ⟨number, -⟩ := lineNumber?_eq_some_iff.1 number
  unfold encode
  omega

theorem encode_inj (low : 0 ≤ line) (low' : 0 ≤ line') (h : encode line c k = encode line' c' k') :
    line = line' ∧ c = c' ∧ k = k' := by
  have hk := k.ordinal_lt
  have hk' := k'.ordinal_lt
  have hc := c.ordinal_lt
  have hc' := c'.ordinal_lt
  unfold encode at h
  have kind : k.ordinal = k'.ordinal := by omega
  have change : c.ordinal = c'.ordinal := by omega
  have kinds := congrArg Kind.ofOrdinal? kind
  have changes := congrArg Change.ofOrdinal? change
  rw [Kind.ofOrdinal?_ordinal, Kind.ofOrdinal?_ordinal] at kinds
  rw [Change.ofOrdinal?_ordinal, Change.ofOrdinal?_ordinal] at changes
  exact ⟨by omega, Option.some.inj changes, Option.some.inj kinds⟩

end StableId

/-! ## No node begins in front of the text -/

namespace Reading

open Diff Outline

variable {options : Options} {dialect : Dialect} {t : Time}

/-- No node of an outline begins in front of the first line. -/
def Outline.Begun (o : Outline) : Prop := ∀ n, 0 ≤ (o.diff.look n).start.diff

/-- A line that does not begin in front of the text adds no node that does. -/
theorem Outline.Begun.put {o o' : Outline} {line : LogicalLine} {change : Change} {last : Position}
    (h : o.Begun) (sturdy : o.Sturdy) (behind : 0 ≤ (startOf line last).diff)
    (put : o.put options dialect line change last = .ok o') : o'.Begun := by
  obtain ⟨⟨-, m, ho⟩, -⟩ := sturdy
  obtain ⟨stop, range⟩ := Run.place_of_put put
  obtain ⟨-, -, -, closed | ⟨kind, formula, tops, -, grows⟩⟩ | ⟨-, -, c, joins⟩ :=
    put_cases range ho put
  · rw [closeChains_eq] at closed
    intro n
    rw [(closeAll_alike closed).1.start]
    exact h n
  · obtain rfl := grows.result
    intro n
    rw [start_pushed]
    split
    · exact behind
    · exact h n
  · obtain ⟨last, -, -, rfl⟩ := joins
    intro n
    rw [(alike_joined (Shows.lastCode_lt ho c last)).start]
    exact h n

namespace Run

variable {r r' : Run}

/-- Neither the place of a run nor what it has read begins in front of the first line. -/
structure Ahead (r : Run) : Prop where
  place : 0 ≤ r.place.diff
  pending : ∀ t p, (r.pending.get t).start = some p → 0 ≤ p.diff
  outline : r.outline.Begun

theorem Ahead.startOf (h : r.Ahead) (t : Time) : 0 ≤ (startOf (r.pending.get t) r.place).diff := by
  rw [Outline.startOf]
  cases started : (r.pending.get t).start with
  | none => exact h.place
  | some p => exact h.pending t p started

theorem ahead_start (source : Source) : (Run.start source).Ahead := by
  refine ⟨Int.le_refl 0, fun t p hp => ?_, fun n => ?_⟩
  · cases t <;> cases hp
  · cases n <;> exact Int.le_refl 0

theorem Ahead.flush (h : r.Ahead) (sturdy : r.outline.Sturdy)
    (run : r.flush options dialect t = .ok r') : r'.Ahead := by
  obtain ⟨-, rfl⟩ | ⟨-, outline, put, rfl⟩ := flush_cases run
  · exact h
  · refine ⟨h.place, fun u p hp => ?_, h.outline.put sturdy (h.startOf t) put⟩
    rw [Sides.get_set] at hp
    split at hp
    · cases hp
    · exact h.pending u p hp

theorem Ahead.flushAll (h : r.Ahead) (bears : r.Bears Sturdy)
    (run : r.flushAll options dialect = .ok r') : r'.Ahead := by
  obtain ⟨-, outline, put, rfl⟩ | ⟨-, r₁, run, rest⟩ := flushAll_cases run
  · refine ⟨h.place, fun u p hp => ?_, h.outline.put bears.outline (h.startOf .before) put⟩
    rw [Sides.get_both] at hp
    cases hp
  · exact (h.flush bears.outline run).flush (bears.flush kept_sturdy run).outline rest

theorem Ahead.take (h : r.Ahead) (change : Change) (content : String) :
    (r.take change content).Ahead := by
  refine ⟨h.place, fun u p hp => ?_, h.outline⟩
  rw [get_take] at hp
  split at hp
  · obtain old | ⟨-, new⟩ := Option.or_eq_some_iff.1 hp
    · exact h.pending u p old
    · obtain rfl := Option.some.inj new
      exact h.place
  · exact h.pending u p hp

theorem Ahead.step {line : PhysicalLine} (h : r.Ahead) (bears : r.Bears Sturdy)
    (run : r.step options dialect line = .ok r') : r'.Ahead := by
  obtain ⟨change, place, hc, shifted⟩ := exists_shift_of_step run
  have moved : ({ r with place } : Run).Ahead := by
    refine ⟨?_, h.pending, h.outline⟩
    have on := diff_shift shifted
    have here := h.place
    show 0 ≤ place.diff
    omega
  have bears' : ({ r with place } : Run).Bears Sturdy := ⟨bears.outline, bears.pending⟩
  rw [step_eq hc shifted] at run
  split at run
  · obtain rfl : { r with place } = r' := Except.ok.inj run
    exact moved
  · exact (moved.take change line.content).flushAll (bears'.take change line.content) run

/-- No run adds a node that begins in front of the first line. -/
theorem Ahead.run {lines : List PhysicalLine} (h : r.Ahead) (bears : r.Bears Sturdy)
    (run : lines.foldlM (Run.step options dialect) r = .ok r') : r'.Ahead := by
  induction lines generalizing r with
  | nil =>
    cases run
    exact h
  | cons line lines ih =>
    rw [List.foldlM_cons] at run
    obtain ⟨r₁, step, run⟩ := Outcome.bind_eq_ok_iff.1 run
    exact ih (h.step bears step) (bears.step kept_sturdy step) run

end Run

/-! ## Nodes of a diff that was read -/

section Read

variable {source : Source} {lines : List PhysicalLine} {d : Diff} {n m : Handle}

theorem begun_ofLines (h : ofLines options dialect source lines = .ok d) (n : Handle) :
    0 ≤ (d.look n).start.diff := by
  obtain ⟨r, run, finish⟩ := Outcome.bind_eq_ok_iff.1 h
  have ahead := (Run.ahead_start source).run (Run.bears_start (sturdy_start source)) run
  obtain ⟨-, -, rfl⟩ := Run.of_finish finish
  exact ahead.outline n

/-- Nodes of a diff that was read are told apart by their packed identifiers. -/
theorem eq_of_stableId_ofLines (h : ofLines options dialect source lines = .ok d)
    (hn : d.Reaches n) (hm : d.Reaches m) (same : (d.look n).stableId = (d.look m).stableId) :
    n = m := by
  have orderly := (ofLines_seems h).1
  obtain ⟨s, twofold⟩ := orderly.sound.exists_twofold orderly.toRegular
  obtain ⟨line, change, kind⟩ := StableId.encode_inj (begun_ofLines h n) (begun_ofLines h m) same
  -- both nodes are there at one time
  obtain ⟨t, inTree⟩ := twofold.exists_mem_iff.2 hn
  have there : d.lives t m = true := by
    have here := (twofold.lives_iff orderly.top hn).2 inTree
    rw [lives_look (hn.lt_size orderly.toRegular), Node.existsAt, change] at here
    rwa [lives_look (hm.lt_size orderly.toRegular)]
  have inTree' := (twofold.lives_iff orderly.top hm).1 there
  exact eq_of_start_ofLines h twofold inTree inTree' kind line

/-- The node with an identifier is found, if no other node has it. -/
theorem findStableId?_eq (hd : d.Regular) (hn : d.Reaches n)
    (alone : ∀ m, d.Reaches m → (d.look m).stableId = (d.look n).stableId → m = n) :
    d.findStableId? (d.look n).stableId = .ok (some n) := by
  obtain ⟨ns, listed, -, mem⟩ := preorder_spec hd
  have inStore : ∀ m ∈ ns, m < d.size := fun m hm => ((mem m).1 hm).lt_size hd
  rw [findStableId?, reachable, listed, Outcome.ok_bind, withNodes_eq inStore, Outcome.ok_bind]
  have listed : (n, d.look n) ∈ ns.map fun m => (m, d.look m) :=
    List.mem_map.2 ⟨n, (mem n).2 hn, rfl⟩
  cases found : (ns.map fun m => (m, d.look m)).find? (·.2.stableId == (d.look n).stableId) with
  | none =>
    have without := List.find?_eq_none.1 found _ listed
    exact absurd (beq_self_eq_true (d.look n).stableId) without
  | some w =>
    obtain ⟨m, hm, rfl⟩ := List.mem_map.1 (List.mem_of_find?_eq_some found)
    have same := List.find?_some found
    simp only [beq_iff_eq] at same
    obtain rfl := alone m ((mem m).1 hm) same
    rfl

end Read

/-- Packed identifiers name nodes faithfully: every diff line from the one that does not apply up to the
greatest number, with any change and kind, is packed into 64 bits and unpacked again; what unpacks is
packed to the same number; and in every diff that was read no two nodes below the root have one
identifier, so that a node is found by its own. -/
theorem stableId_names :
    (∀ line c k, -1 ≤ line → line ≤ 2147483647 → StableId.encode line c k < 2 ^ 64 ∧
      StableId.decode? (StableId.encode line c k) = some (line, c, k)) ∧
    (∀ id line c k, StableId.decode? id = some (line, c, k) → StableId.encode line c k = id) ∧
    ∀ (options : Options) (dialect : Dialect) (source : Source) (lines : List PhysicalLine) (d : Diff),
      ofLines options dialect source lines = .ok d →
      (∀ n m, d.Reaches n → d.Reaches m → (d.look n).stableId = (d.look m).stableId → n = m) ∧
      ∀ n, d.Reaches n → d.findStableId? (d.look n).stableId = .ok (some n) := by
  refine ⟨fun line c k low high => ?_, fun id line c k => StableId.encode_of_decode?,
    fun options dialect source lines d read => ?_⟩
  · exact ⟨StableId.encode_lt high c k,
      StableId.decode?_encode c k low ⟨Int.le_trans (by decide) low, high⟩⟩
  · have apart (n m) (hn : d.Reaches n) (hm : d.Reaches m)
        (same : (d.look n).stableId = (d.look m).stableId) : n = m :=
      eq_of_stableId_ofLines read hn hm same
    exact ⟨apart, fun n hn => findStableId?_eq (ofLines_seems read).1.toRegular hn
      fun m hm same => apart m n hm hn same⟩

/-- A line that goes on differently before and after the edit becomes two nodes that begin on it. -/
theorem stableId_names_parted :
    StableId.decode? (StableId.encode 2147483647 .unchanged .root) =
      some (2147483647, .unchanged, .root) ∧
    StableId.encode (-1) .added .ifBranch = 0 ∧ ∃ d,
      Reading.diff " x\\\n-y\n+z\n" {} .unknown .preprocessor = .ok d ∧
      (d.look 1).start.diff = (d.look 2).start.diff ∧
      (d.look 1).stableId ≠ (d.look 2).stableId ∧
      d.findStableId? (d.look 1).stableId = .ok (some 1) ∧
      d.findStableId? (d.look 2).stableId = .ok (some 2) := by
  have run : (do
      let d ← Reading.diff " x\\\n-y\n+z\n" {} .unknown .preprocessor
      return (d.below .before 0, d.below .after 0, (d.look 1).start.diff, (d.look 2).start.diff) :
        Outcome _).toOption = some ([1], [2], 1, 1) := by
    decide +kernel
  obtain ⟨d, read, rest⟩ := Outcome.bind_eq_ok_iff.1 (Outcome.eq_ok_of_toOption run)
  simp only [Outcome.pure_eq_ok_iff, Prod.mk.injEq] at rest
  obtain ⟨before, after, first, second⟩ := rest
  have left : d.Reaches 1 := Reaches.root.child (before ▸ by decide : 1 ∈ d.below .before 0)
  have right : d.Reaches 2 := Reaches.root.child (after ▸ by decide : 2 ∈ d.below .after 0)
  obtain ⟨packs, unpacks, names⟩ := stableId_names
  obtain ⟨apart, found⟩ := names _ _ _ _ d read
  refine ⟨(packs _ _ _ (by decide) (by decide)).2, unpacks 0 (-1) .added .ifBranch (by decide), d, read,
    first.trans second.symm, fun same => ?_, found 1 left, found 2 right⟩
  exact absurd (apart 1 2 left right same) (by decide)

end Reading

end Variation
