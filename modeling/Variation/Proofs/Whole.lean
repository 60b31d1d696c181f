import Variation.Proofs.Commutes

/-!
# Labels are whole logical lines

A logical line ends as soon as it is complete, so no label begins with another one: what is printed
can be told apart into the labels it consists of. Two diffs that print the same along one forest
therefore say the same at every place of it.
-/

namespace Variation

namespace Reading

/-- Whether lines complete a logical line exactly at their end, with a comment open in front of them
or not. -/
def Whole : Bool → List String → Prop
  | _, [] => False
  | inComment, line :: rest =>
    let comment := (Condition.lastDelimiterOpens? line.toList).getD inComment
    if (Text.endsWith '\\' line.toList || comment) = true then Whole comment rest else rest = []

theorem Whole.ne_nil {comment : Bool} {ls : List String} (h : Whole comment ls) : ls ≠ [] := by
  rintro rfl
  exact h

/-- Of two logical lines with which a text begins, neither is longer. -/
theorem Whole.eq_of_append {comment : Bool} {xs ys as bs : List String} (hx : Whole comment xs)
    (hy : Whole comment ys) (h : xs ++ as = ys ++ bs) : xs = ys := by
  induction xs generalizing comment ys with
  | nil => cases hx
  | cons x xs ih =>
    cases ys with
    | nil => cases hy
    | cons y ys =>
      rw [List.cons_append, List.cons_append] at h
      obtain ⟨rfl, behind⟩ := List.cons.inj h
      unfold Whole at hx hy
      dsimp only at hx hy
      split at hx
      · next goesOn =>
        rw [if_pos goesOn] at hy
        rw [ih hx hy behind]
      · next ends =>
        rw [if_neg ends] at hy
        rw [hx, hy]

/-- Lines that make up a label: a logical line of lines without line feeds. -/
def Told (ls : List String) : Prop := Whole false ls ∧ ∀ l ∈ ls, '\n' ∉ l.toList

namespace LogicalLine

variable {l : LogicalLine} {content : String} {p : Position}

/-- A logical line that is being read is complete as soon as what follows completes it. -/
def Open (l : LogicalLine) : Prop := ∀ rest, Whole l.inComment rest → Whole false (l.lines ++ rest)

theorem open_empty : ({} : LogicalLine).Open := fun _ h => h

theorem inComment_consume : (l.consume content p).inComment =
    (Condition.lastDelimiterOpens? content.toList).getD l.inComment := rfl

theorem isComplete_consume : (l.consume content p).isComplete =
    !(Text.endsWith '\\' content.toList || (l.consume content p).inComment) := by
  rw [isComplete, hasStarted_consume, Bool.true_and, Bool.not_or]
  rfl

theorem Open.consume (h : l.Open) (incomplete : (l.consume content p).isComplete = false) :
    (l.consume content p).Open := by
  intro rest hrest
  rw [isComplete_consume, Bool.not_eq_false'] at incomplete
  rw [lines_consume, List.append_assoc, List.singleton_append]
  refine h _ ?_
  rw [Whole, ← inComment_consume (p := p), if_pos incomplete]
  exact hrest

theorem Open.whole (h : l.Open) (complete : (l.consume content p).isComplete = true) :
    Whole false (l.consume content p).lines := by
  rw [isComplete_consume, Bool.not_eq_true'] at complete
  refine h _ ?_
  rw [Whole, ← inComment_consume (p := p), complete, if_neg Bool.false_ne_true]

end LogicalLine

end Reading

open Reading

/-! ## What a nest holds is told -/

/-- A facet holds whole logical lines. -/
structure Facet.Legible (a : Facet) : Prop where
  label : a.kind ≠ .root → Told a.label.lines
  closing : ∀ c, a.closing = some c → Told c.2.lines

/-- A facet that opened a chain says where the chain was closed. -/
def Facet.Shut (a : Facet) : Prop := a.kind = .ifBranch → a.closing.isSome = true

namespace Nest

/-- The finished places. -/
def done {α : Type} : Nest α → List α
  | base _ done => done.flatten
  | under _ done rest => rest.done ++ done.flatten

theorem done_hang {α : Type} {n : Nest α} {trees : Forest α} :
    (n.hang trees).done = n.done ++ trees.flatten := by
  cases n <;> simp [hang, done]

/-- One thing holds of the open places and one of the finished ones. -/
structure Bears (P Q : Facet → Prop) (n : Nest Facet) : Prop where
  opened : ∀ a ∈ n.opened, P a
  done : ∀ a ∈ n.done, Q a

variable {P Q : Facet → Prop} {line stop : Int} {label : Label} {extra trees : Forest Facet}
  {n m : Nest Facet} {a : Facet}

theorem Bears.hang (h : n.Bears P Q) (ht : ∀ a ∈ trees.flatten, Q a) : (n.hang trees).Bears P Q where
  opened := by
    rw [opened_hang]
    exact h.opened
  done := by
    rw [done_hang]
    exact List.forall_mem_append.2 ⟨h.done, ht⟩

/-- Closing a chain finishes its branches. -/
theorem Bears.close (hn : n.Bears P Q) (h : close line label stop extra n = some m)
    (he : ∀ a ∈ extra.flatten, Q a) (ends : ∀ a stop, P a → Q (ended stop line label a)) :
    m.Bears P Q := by
  induction n generalizing stop extra with
  | base a done => cases h
  | under a done rest ih =>
    obtain ⟨here, opened⟩ := List.forall_mem_cons.1 hn.opened
    obtain ⟨outer, finished⟩ := List.forall_mem_append.1 hn.done
    have closed : ∀ b ∈ (Forest.tree (ended stop line label a) (done ++ extra)).flatten, Q b := by
      rw [Forest.flatten_tree, Forest.flatten_append]
      simp only [List.forall_mem_cons, List.forall_mem_append]
      exact ⟨ends a stop here, finished, he⟩
    simp only [Nest.close] at h
    split at h
    · cases h
      exact Bears.hang ⟨opened, outer⟩ closed
    · exact ih ⟨opened, outer⟩ h closed

/-- A node that is entered becomes an open place or is finished at once. -/
theorem Bears.enter (hn : n.Bears P Q) (h : enter a n = some m)
    (opens : a.kind.annotates = true → P a) (ends : a.kind.annotates = false → Q a) :
    m.Bears P Q := by
  obtain ⟨-, -, rfl⟩ := enter_eq_some_iff.1 h
  split
  · next annotates =>
    exact ⟨List.forall_mem_cons.2 ⟨opens annotates, hn.opened⟩,
      List.forall_mem_append.2 ⟨hn.done, fun _ h => absurd h List.not_mem_nil⟩⟩
  · next leaf =>
    refine hn.hang ?_
    rw [Forest.flatten_tree]
    exact List.forall_mem_singleton.2 (ends (Bool.eq_false_iff.2 leaf))

/-- A nest of facets that hold whole logical lines, the finished ones with their closing lines. -/
abbrev Legible (n : Nest Facet) : Prop :=
  n.Bears Facet.Legible fun a => a.Legible ∧ a.Shut

theorem Legible.put {dialect : Dialect} {lines : List String} {start stop : Int} (hn : n.Legible)
    (told : Told lines) (h : put dialect lines start stop n = some m) : m.Legible := by
  unfold Nest.put at h
  split at h
  · cases h
  · refine hn.close h (fun _ h => absurd h List.not_mem_nil) fun a stop ha =>
      ⟨⟨ha.label, fun c hc => ?_⟩, fun opens => ?_⟩
    · simp only [ended] at hc
      split at hc
      · obtain rfl := Option.some.inj hc
        exact told
      · exact ha.closing c hc
    · have opener : (a.kind == .ifBranch) = true := beq_iff_eq.2 opens
      simp only [ended, opener, if_true, Option.isSome_some]
  · have legible (kind : Kind) (formula : Option Formula) :
        (⟨kind, start, stop, formula, ⟨lines⟩, none⟩ : Facet).Legible :=
      ⟨fun _ => told, fun c hc => by cases hc⟩
    refine hn.enter h (fun _ => legible ..) fun leaf => ⟨legible .., fun opens => ?_⟩
    dsimp only at leaf opens
    rw [opens] at leaf
    cases leaf

end Nest

namespace Reading

open Outline

namespace Solo

variable {options : Options} {dialect : Dialect} {s s' : Solo} {content : String}
  {contents : List String}

/-- What a solo reads becomes whole logical lines. -/
structure Heeds (s : Solo) : Prop where
  pending : s.pending.Open
  feeds : ∀ l ∈ s.pending.lines, '\n' ∉ l.toList
  nest : s.nest.Legible

theorem heeds_start : Solo.start.Heeds where
  pending := LogicalLine.open_empty
  feeds l hl := absurd hl List.not_mem_nil
  nest := by
    refine ⟨fun a ha => ?_, fun a ha => absurd ha List.not_mem_nil⟩
    obtain rfl := List.mem_singleton.1 ha
    exact ⟨fun h => absurd rfl h, fun c hc => nomatch hc⟩

theorem Heeds.step (h : s.Heeds) (feed : '\n' ∉ content.toList)
    (run : s.step options dialect content = some s') : s'.Heeds := by
  unfold Solo.step at run
  cases hp : lineNumber? (s.place + 1) with
  | none => simp [hp] at run
  | some place =>
    simp only [hp, Option.bind_eq_bind, Option.bind_some] at run
    have feeds : ∀ l ∈ (s.pending.consume content (flat place)).lines, '\n' ∉ l.toList := by
      rw [LogicalLine.lines_consume]
      exact List.forall_mem_append.2 ⟨h.feeds, List.forall_mem_singleton.2 feed⟩
    split at run
    · cases run
      exact ⟨h.pending, h.feeds, h.nest⟩
    · cases complete : (s.pending.consume content (flat place)).isComplete with
      | false =>
        rw [flush_of_incomplete complete] at run
        cases run
        exact ⟨h.pending.consume complete, feeds, h.nest⟩
      | true =>
        have told : Told (s.pending.consume content (flat place)).lines :=
          ⟨h.pending.whole complete, feeds⟩
        rw [Solo.flush, if_pos complete] at run
        cases hstop : lineNumber? (place + 1) with
        | none => simp [hstop] at run
        | some stop =>
          cases hm : s.nest.put dialect (s.pending.consume content (flat place)).lines
              (startOf (s.pending.consume content (flat place)) (flat place)).diff stop with
          | none =>
            simp only [hstop, Option.bind_eq_bind, Option.bind_some] at run
            rw [hm] at run
            cases run
          | some m =>
            simp only [hstop, Option.bind_eq_bind, Option.bind_some] at run
            rw [hm] at run
            cases run
            exact ⟨LogicalLine.open_empty, fun l hl => absurd hl List.not_mem_nil,
              h.nest.put told hm⟩

theorem Heeds.read (h : s.Heeds) (feeds : ∀ content ∈ contents, '\n' ∉ content.toList)
    (run : s.read options dialect contents = some s') : s'.Heeds := by
  induction contents generalizing s with
  | nil =>
    cases run
    exact h
  | cons content contents ih =>
    obtain ⟨feed, feeds⟩ := List.forall_mem_cons.1 feeds
    rw [Solo.read, List.foldlM_cons] at run
    cases hs : s.step options dialect content with
    | none => simp [hs] at run
    | some s₁ =>
      rw [hs] at run
      exact ih (h.step feed hs) feeds run

end Solo

/-- What is read at a time holds whole logical lines, and what opened a chain its closing line. -/
theorem ofLines_legible {options : Options} {dialect : Dialect} {source : Source}
    {lines : List PhysicalLine} {d : Diff} {t : Time} {f : Forest Handle} {n : Handle}
    (single : options.collapse = false) (h : ofLines options dialect source lines = .ok d)
    (feeds : ∀ line ∈ lines, '\n' ∉ line.content.toList) (shape : d.Shape t f)
    (hn : n ∈ f.flatten) : (d.facet t n).Legible ∧ (d.facet t n).Shut := by
  obtain ⟨f', s, shape', read, -, nest⟩ := (ofLines_spec single h).2 t
  have same : f = f' := shape.unique shape'
  subst same
  have inText : ∀ content ∈ contentsAt t lines, '\n' ∉ content.toList := by
    intro content hc
    obtain ⟨line, hl, here⟩ := List.mem_filterMap.1 hc
    cases change : line.change with
    | none => simp [change] at here
    | some c =>
      simp only [change, Option.bind_eq_bind, Option.bind_some] at here
      split at here
      · obtain rfl := Option.some.inj here
        exact feeds line hl
      · cases here
  have legible := (Solo.heeds_start.read inText read).nest
  rw [nest] at legible
  exact legible.done _ (Forest.mem_flatten_map_of_mem (d.facet t) hn)

theorem feed_not_mem_ofDiff {text : String} {line : PhysicalLine}
    (h : line ∈ PhysicalLine.ofDiff text) : '\n' ∉ line.content.toList := by
  obtain ⟨l, hl, rfl⟩ := List.mem_map.1 h
  intro hc
  rw [PhysicalLine.ofDiffLine, String.toList_ofList] at hc
  exact (Text.mem_linesFrom List.not_mem_nil hl (List.mem_of_mem_drop hc)).1 rfl

theorem feed_not_mem_ofSource {text : String} {line : PhysicalLine}
    (h : line ∈ PhysicalLine.ofSource text) : '\n' ∉ line.content.toList := by
  obtain ⟨l, hl, rfl⟩ := List.mem_map.1 h
  exact fun hc => (Text.mem_linesFrom List.not_mem_nil hl hc).1 rfl

end Reading

/-! ## Printed texts are told apart -/

namespace Text

/-- A text is cut at its first line feed in one way. -/
theorem toList_unlines_cons (line : String) (ls : List String) :
    (unlines (line :: ls)).toList = line.toList ++ '\n' :: (unlines ls).toList := by
  rw [unlines_cons, String.toList_append, String.toList_append, List.append_assoc]
  rfl

/-- Lines without line feeds can be told from the text that they make up. -/
theorem unlines_inj {ls ms : List String} (hl : ∀ l ∈ ls, '\n' ∉ l.toList)
    (hm : ∀ l ∈ ms, '\n' ∉ l.toList) (h : unlines ls = unlines ms) : ls = ms := by
  induction ls generalizing ms with
  | nil =>
    cases ms with
    | nil => rfl
    | cons m ms =>
      have chars := congrArg String.toList h
      rw [toList_unlines_cons] at chars
      simp [unlines] at chars
  | cons l ls ih =>
    cases ms with
    | nil =>
      have chars := congrArg String.toList h
      rw [toList_unlines_cons] at chars
      simp [unlines] at chars
    | cons m ms =>
      obtain ⟨here, hl⟩ := List.forall_mem_cons.1 hl
      obtain ⟨there, hm⟩ := List.forall_mem_cons.1 hm
      have chars := congrArg String.toList h
      rw [toList_unlines_cons, toList_unlines_cons] at chars
      obtain ⟨first, rest⟩ := append_mark_inj here there chars
      rw [String.toList_inj.1 first, ih hl hm (String.toList_inj.1 rest)]

end Text

/-- Of two lists of lines with which a text begins, neither is longer. -/
def Separate (xs ys : List String) : Prop := ∀ as bs, xs ++ as = ys ++ bs → xs = ys

theorem Separate.nil : Separate [] [] := fun _ _ _ => rfl

theorem Reading.Told.separate {xs ys : List String} (hx : Told xs) (hy : Told ys) :
    Separate xs ys :=
  fun _ _ h => hx.1.eq_of_append hy.1 h

/-- Two forests of one shape that print the same say the same at every place. -/
theorem Forest.eq_of_lines {α : Type} {first last first' last' : α → List String} {f : Forest α}
    {as bs : List String}
    (separate : ∀ a ∈ f.flatten, Separate (first a) (first' a) ∧ Separate (last a) (last' a))
    (h : f.lines first last ++ as = f.lines first' last' ++ bs) :
    (∀ a ∈ f.flatten, first a = first' a ∧ last a = last' a) ∧ as = bs := by
  induction f generalizing as bs with
  | nil => exact ⟨fun a ha => absurd ha List.not_mem_nil, h⟩
  | cons a below rest ihb ihr =>
    simp only [Forest.flatten, List.forall_mem_cons, List.forall_mem_append] at separate ⊢
    obtain ⟨⟨starts, ends⟩, separateBelow, separateRest⟩ := separate
    simp only [Forest.lines, List.append_assoc] at h
    have begins := starts _ _ h
    rw [begins] at h
    obtain ⟨below, h⟩ := ihb separateBelow (List.append_cancel_left h)
    have finishes := ends _ _ h
    rw [finishes] at h
    obtain ⟨rest, h⟩ := ihr separateRest (List.append_cancel_left h)
    exact ⟨⟨⟨begins, finishes⟩, below, rest⟩, h⟩

end Variation
