import Mathlib.Data.List.SplitBy
import Variation.Proofs.Alone

/-!
# Lines that go on with code

A run completes logical lines one after the other. A line of code goes on with the line that was
completed before it if that is code of the same change and ends where the line starts in the diff.
`segments` cuts the lines of a run into the longest pieces of lines that go on with each other, and
leaves out the closing lines, which become no nodes. `owners` tells for each line to which piece it
belongs.
-/

namespace Variation

/-- Whether a logical line becomes code; this may be an annotation that a dialect says to be code. -/
def Dialect.givesCode (dialect : Dialect) (text : String) : Bool :=
  match dialect.item? text with
  | some (.node .artifact _) => true
  | _ => false

/-- Whether a logical line closes a chain. -/
def Dialect.closes (dialect : Dialect) (text : String) : Bool :=
  match dialect.item? text with
  | some .closing => true
  | _ => false

namespace Reading

/-- A logical line that is complete, with its change and the place of its last physical line. -/
structure FullLine where
  line : LogicalLine
  change : Change
  last : Position

namespace FullLine

/-- The place at which the line starts. -/
def start (w : FullLine) : Position := (Outline.startOf w.line w.last).restrict w.change

/-- The place behind the line. -/
def stop (w : FullLine) : Position :=
  (⟨w.last.diff + 1, w.last.before + 1, w.last.after + 1⟩ : Position).restrict w.change

/-- Whether the second line goes on with the code of the first one: it is code of the same change, and
starts where the first one ends in the diff. -/
def joins (dialect : Dialect) (a b : FullLine) : Bool :=
  dialect.givesCode a.line.text && dialect.isCode b.line.text && a.change == b.change &&
    a.stop.diff == b.start.diff

end FullLine

/-! ## The lines of a run -/

namespace Run

/-- The lines that are put when all that is complete is flushed. -/
def complete (r : Run) : List FullLine :=
  if r.shared && r.pending.before.isComplete && r.pending.after.isComplete then
    [⟨r.pending.before, .unchanged, r.place⟩]
  else
    (Time.all.filter fun t => (r.pending.get t).isComplete).map fun t =>
      ⟨r.pending.get t, .onlyAt t, r.place⟩

/-- The lines that a physical line completes. -/
def completes (options : Options) (r : Run) (line : PhysicalLine) : List FullLine :=
  match line.change with
  | none => []
  | some change =>
    match r.place.shift? 1 change with
    | none => []
    | some place =>
      if options.skipBlank && (Text.trimStart line.content.toList).isEmpty then []
      else (({ r with place } : Run).take change line.content).complete

/-- The logical lines that a run completes, in order, up to the first line that it cannot read. -/
def fullLines (options : Options) (dialect : Dialect) : Run → List PhysicalLine → List FullLine
  | _, [] => []
  | r, line :: rest =>
    match r.step options dialect line with
    | .ok r' => r.completes options line ++ fullLines options dialect r' rest
    | .error _ => []

end Run

/-! ## Pieces -/

/-- The longest pieces of lines that go on with each other, without the closing lines. -/
def segments (dialect : Dialect) (ws : List FullLine) : List (List FullLine) :=
  (ws.splitBy (FullLine.joins dialect)).filter fun g => !g.any fun w => dialect.closes w.line.text

/-- The node that a piece of code becomes. -/
def codeOf? (g : List FullLine) : Option Node := do
  let first ← g.head?
  let last ← g.getLast?
  return {
    change := first.change
    kind := .artifact
    start := first.start
    stop := last.stop
    formula := none
    label := ⟨g.flatMap (·.line.lines)⟩ }

/-- For each element of some pieces the number of its piece, counted from 1. -/
def owners {α : Type} (gs : List (List α)) : List Nat :=
  gs.zipIdx.flatMap fun (g, i) => List.replicate g.length (i + 1)

section Pieces

variable {α : Type} {r : α → α → Bool} {l : List α} {a b : α} {g : List α} {gs : List (List α)}

/-- An element that is related to the last one makes the last piece longer. -/
theorem splitBy_concat_related (related : r a b = true) :
    ∃ front g, (l ++ [a]).splitBy r = front ++ [g ++ [a]] ∧
      (l ++ [a] ++ [b]).splitBy r = front ++ [g ++ [a] ++ [b]] := by
  have some : (l ++ [a]).splitBy r ≠ [] :=
    List.splitBy_ne_nil.2 (List.append_ne_nil_of_right_ne_nil _ (List.cons_ne_nil _ _))
  obtain ⟨front, g, pieces⟩ := (List.eq_nil_or_concat' _).resolve_left some
  obtain ⟨whole, full, chained, apart⟩ := List.splitBy_eq_iff.1 pieces
  have filled : g ≠ [] := fun e => full (e ▸ List.mem_append_right _ List.mem_cons_self)
  obtain ⟨g, a', rfl⟩ := (List.eq_nil_or_concat' g).resolve_left filled
  rw [List.flatten_append, List.flatten_singleton, ← List.append_assoc] at whole
  obtain ⟨rfl, same⟩ := List.append_inj' whole rfl
  obtain rfl := List.singleton_inj.1 same
  refine ⟨front, g, pieces, List.splitBy_eq_iff.2 ⟨?_, fun empty => ?_, ?_, ?_⟩⟩
  · simp only [List.flatten_append, List.flatten_singleton, List.append_assoc]
  · obtain old | new := List.mem_append.1 empty
    · exact full (List.mem_append_left _ old)
    · exact List.append_ne_nil_of_right_ne_nil _ (List.cons_ne_nil _ _) (List.mem_singleton.1 new).symm
  · rw [List.forall_mem_append, List.forall_mem_singleton] at chained ⊢
    refine ⟨chained.1, List.isChain_append.2 ⟨chained.2, List.isChain_singleton _, ?_⟩⟩
    simpa using related
  · obtain ⟨before, -, last⟩ := List.isChain_append.1 apart
    refine List.isChain_append.2 ⟨before, List.isChain_singleton _, fun x hx y hy => ?_⟩
    obtain ⟨hx', hy', unrelated⟩ := last x hx (g ++ [a]) rfl
    obtain rfl : g ++ [a] ++ [b] = y := Option.some.inj hy
    exact ⟨hx', List.append_ne_nil_of_left_ne_nil hy' _, by rw [List.head_append_left hy', unrelated]⟩

theorem owners_concat : owners (gs ++ [g]) = owners gs ++ List.replicate g.length (gs.length + 1) := by
  simp [owners, List.zipIdx_append]

theorem length_owners : (owners gs).length = gs.flatten.length := by
  induction gs using List.reverseRecOn with
  | nil => rfl
  | append_singleton gs g ih =>
    rw [owners_concat, List.length_append, List.length_replicate, ih, List.flatten_append,
      List.flatten_singleton, List.length_append]

theorem le_of_mem_owners {k : Nat} (h : k ∈ owners gs) : k ≤ gs.length := by
  obtain ⟨⟨g, i⟩, mem, here⟩ := List.mem_flatMap.1 h
  obtain rfl := List.eq_of_mem_replicate here
  exact (List.mem_zipIdx_iff_getElem?.1 mem |> List.getElem?_eq_some_iff.1).1

/-- Every piece that is not empty owns an element. -/
theorem succ_mem_owners {i : Nat} (full : ∀ g ∈ gs, g ≠ []) (hi : i < gs.length) :
    i + 1 ∈ owners gs := by
  have mem : (gs[i], i) ∈ gs.zipIdx := List.mem_zipIdx_iff_getElem?.2 (List.getElem?_eq_getElem hi)
  have some : gs[i].length ≠ 0 := fun e => full _ (List.getElem_mem hi) (List.length_eq_zero_iff.1 e)
  exact List.mem_flatMap.2 ⟨_, mem, List.mem_replicate.2 ⟨some, rfl⟩⟩

end Pieces

section Segments

variable {dialect : Dialect} {text : String} {ws g : List FullLine} {a w : FullLine} {x : Node}

theorem closes_eq_false_of_isCode (h : dialect.isCode text = true) : dialect.closes text = false := by
  rw [Dialect.closes, Dialect.item?_of_isCode h]

theorem closes_eq_false_of_givesCode (h : dialect.givesCode text = true) :
    dialect.closes text = false := by
  unfold Dialect.givesCode at h
  unfold Dialect.closes
  split at h
  · next item => rw [item]
  · cases h

theorem joins_iff : FullLine.joins dialect a w = true ↔ dialect.givesCode a.line.text = true ∧
    dialect.isCode w.line.text = true ∧ a.change = w.change ∧ a.stop.diff = w.start.diff := by
  simp only [FullLine.joins, Bool.and_eq_true, beq_iff_eq, and_assoc]

/-- All lines of a piece are code if its last one is. -/
theorem givesCode_of_chain (chain : (g ++ [a]).IsChain fun x y => FullLine.joins dialect x y = true)
    (last : dialect.givesCode a.line.text = true) :
    ∀ b ∈ g ++ [a], dialect.givesCode b.line.text = true := by
  induction g with
  | nil => exact List.forall_mem_singleton.2 last
  | cons b g ih =>
    obtain ⟨first, chain⟩ := List.isChain_cons.1 chain
    refine List.forall_mem_cons.2 ⟨?_, ih chain⟩
    obtain ⟨c, hc⟩ : ∃ c, (g ++ [a]).head? = some c := by cases g <;> exact ⟨_, rfl⟩
    exact (joins_iff.1 (first c hc)).1

/-- No piece is empty. -/
theorem ne_nil_of_mem_segments (h : g ∈ segments dialect ws) : g ≠ [] :=
  List.ne_nil_of_mem_splitBy (List.mem_filter.1 h).1

/-- A closing line belongs to no piece. -/
theorem segments_closing (closes : dialect.closes w.line.text = true) :
    segments dialect (ws ++ [w]) = segments dialect ws := by
  have apart (b : FullLine) : FullLine.joins dialect b w = false := by
    rw [Bool.eq_false_iff]
    intro joins
    rw [closes_eq_false_of_isCode (joins_iff.1 joins).2.1] at closes
    cases closes
  rw [segments, List.splitBy_append fun b _ c hc => by obtain rfl := Option.some.inj hc; exact apart b,
    List.filter_append]
  simp [segments, List.splitBy, List.splitBy.loop, closes]

/-- A line that does not go on with the one before it begins a piece. -/
theorem segments_alone (remains : dialect.closes w.line.text = false)
    (apart : ∀ b, ws.getLast? = some b → FullLine.joins dialect b w = false) :
    segments dialect (ws ++ [w]) = segments dialect ws ++ [[w]] := by
  rw [segments, List.splitBy_append fun b hb c hc => by
    obtain rfl := Option.some.inj hc; exact apart b hb, List.filter_append]
  simp [segments, List.splitBy, List.splitBy.loop, remains]

/-- A line that goes on with the one before it makes the last piece longer, which is code. -/
theorem segments_joined (ws : List FullLine) (joins : FullLine.joins dialect a w = true) :
    ∃ front g, segments dialect (ws ++ [a]) = front ++ [g ++ [a]] ∧
      segments dialect (ws ++ [a] ++ [w]) = front ++ [g ++ [a] ++ [w]] ∧
      ∀ b ∈ g ++ [a], dialect.givesCode b.line.text = true := by
  obtain ⟨front, g, pieces, longer⟩ := splitBy_concat_related (l := ws) joins
  obtain ⟨code, continues, -⟩ := joins_iff.1 joins
  have mem : g ++ [a] ∈ (ws ++ [a]).splitBy (FullLine.joins dialect) :=
    pieces ▸ List.mem_append_right _ List.mem_cons_self
  have all := givesCode_of_chain (List.isChain_of_mem_splitBy mem) code
  have kept : ((g ++ [a]).any fun w => dialect.closes w.line.text) = false :=
    List.any_eq_false.2 fun b hb => by simp [closes_eq_false_of_givesCode (all b hb)]
  refine ⟨front.filter fun g => !g.any fun w => dialect.closes w.line.text, g, ?_, ?_, all⟩
  · rw [segments, pieces, List.filter_append, List.filter_cons_of_pos (by rw [kept]; rfl)]
    rfl
  · have both : ((g ++ [a] ++ [w]).any fun w => dialect.closes w.line.text) = false := by
      rw [List.any_append, kept]
      simp [closes_eq_false_of_isCode continues]
    rw [segments, longer, List.filter_append, List.filter_cons_of_pos (by rw [both]; rfl)]
    rfl

theorem codeOf?_single : codeOf? [w] =
    some { change := w.change, kind := .artifact, start := w.start, stop := w.stop, formula := none,
           label := ⟨w.line.lines⟩ } := by
  simp [codeOf?]

/-- Code that gets a further line ends behind it. -/
theorem codeOf?_concat (h : codeOf? g = some x) : codeOf? (g ++ [w]) =
    some { x with stop := w.stop, label := x.label.append w.line.lines } := by
  obtain ⟨first, head, h⟩ := Option.bind_eq_some_iff.1 h
  obtain ⟨last, -, h⟩ := Option.bind_eq_some_iff.1 h
  obtain rfl := Option.some.inj h
  have head' : (g ++ [w]).head? = some first := by rw [List.head?_append, head]; rfl
  rw [codeOf?, head', List.getLast?_concat]
  simp [Label.append]

end Segments

end Reading

end Variation
