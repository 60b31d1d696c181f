import Mathlib.Data.List.Find
import Variation.Proofs.Comments
import Variation.Proofs.Nest
import Variation.Text.Blank

/-!
# Blank lines in comments

A blank line that a logical line takes within a comment is nothing but a longer comment: it opens and ends
none, and whoever reads the text of the logical line finds the same keyword in front of the comment and
the same condition without it. So two logical lines that differ in such lines cannot be told apart by what
is read behind them.
-/

namespace Variation

namespace Condition

section Blank

variable {c : Char} {cs bs : List Char}

/-- A blank is part of no delimiter. -/
theorem notMem_of_isBlank (h : Text.isBlank c = true) : c ∉ ['/', '*'] := by
  intro mem
  simp only [List.mem_cons, List.not_mem_nil, or_false] at mem
  obtain rfl | rfl := mem <;> exact absurd h (by decide)

/-- A text that does not end outside of comments has a slash. -/
theorem slash_mem_of_ending (h : ending cs ≠ .outside) : '/' ∈ cs := by
  induction cs with
  | nil => exact absurd rfl h
  | cons c cs ih =>
    by_cases opens : Opens c cs
    · rw [opens.1]
      exact List.mem_cons_self
    · rw [ending_of_not_opens opens] at h
      exact List.mem_cons_of_mem _ (ih h)

theorem afterComment_blank (blank : ∀ b ∈ bs, Text.isBlank b = true) :
    afterComment (bs ++ cs) = afterComment cs := by
  induction bs with
  | nil => rfl
  | cons b bs ih =>
    obtain ⟨here, blank⟩ := List.forall_mem_cons.1 blank
    have open_ : ¬ Closes b (bs ++ cs) := fun closes =>
      notMem_of_isBlank here (closes.1 ▸ List.mem_cons_of_mem _ List.mem_cons_self)
    rw [List.cons_append, afterComment_of_not_closes open_, ih blank]

/-- Within a comment blanks are left out. -/
theorem Ending.follow_blank {e : Ending} (h : e ≠ .outside) (blank : ∀ b ∈ bs, Text.isBlank b = true) :
    e.follow (bs ++ cs) = e.follow cs := by
  cases e with
  | outside => exact absurd rfl h
  | within => exact afterComment_blank blank
  | behind => rfl

theorem Ending.follow_nil (e : Ending) : e.follow [] = [] := by
  cases e
  · rw [follow, withoutComments]
  · rw [follow, afterComment]
  · rfl

theorem lastDelimiterOpens?_blank (blank : ∀ b ∈ bs, Text.isBlank b = true) :
    lastDelimiterOpens? bs = none := by
  induction bs with
  | nil => rfl
  | cons b bs ih =>
    obtain ⟨here, blank⟩ := List.forall_mem_cons.1 blank
    rw [lastDelimiterOpens?, ih blank, delimiter?_of_plain (notMem_of_isBlank here)]
    rfl

end Blank

end Condition

namespace Dialect

open Condition

section Exchange

variable {cs ds es xs bs word : List Char} {c : Char} {s s' : String}

theorem trimStart_append (solid : ∃ c ∈ cs, Text.isBlank c = false) :
    Text.trimStart (cs ++ xs) = Text.trimStart cs ++ xs := by
  induction cs with
  | nil =>
    obtain ⟨c, hc, -⟩ := solid
    cases hc
  | cons c cs ih =>
    rw [List.cons_append, Text.trimStart, List.dropWhile_cons, Text.trimStart, List.dropWhile_cons]
    cases blank : Text.isBlank c with
    | false => rfl
    | true =>
      obtain ⟨x, hx, solid⟩ := solid
      obtain rfl | hx := List.mem_cons.1 hx
      · exact absurd (blank.symm.trans solid) (by decide)
      · exact ih ⟨x, hx, solid⟩

/-- A word that is not in a text up to a character that it does not have is not in a longer text either. -/
theorem beginsWith_append (hc : c ∈ cs) (other : c ∉ word) :
    Text.beginsWith word (cs ++ xs) = Text.beginsWith word cs := by
  induction word generalizing cs with
  | nil => rfl
  | cons w word ih =>
    cases cs with
    | nil => cases hc
    | cons x cs =>
      rw [List.cons_append, Text.beginsWith, Text.beginsWith, Text.after?, Text.after?]
      split
      · next same =>
        obtain ⟨here, other⟩ := not_or.1 (List.mem_cons.not.1 other)
        obtain rfl | hc := List.mem_cons.1 hc
        · exact absurd same.symm here
        · exact ih hc other
      · rfl

theorem mem_trimStart (hc : c ∈ cs) (solid : Text.isBlank c = false) : c ∈ Text.trimStart cs := by
  induction cs with
  | nil => cases hc
  | cons x cs ih =>
    rw [Text.trimStart, List.dropWhile_cons]
    split
    · next blank =>
      obtain rfl | hc := List.mem_cons.1 hc
      · exact absurd (blank.symm.trans solid) (by decide)
      · exact ih hc
    · exact hc

theorem directive?_append (xs : List Char) (slash : '/' ∈ cs) :
    directive? (cs ++ xs) = (directive? cs).map (· ++ xs) ∧ ∀ body ∈ directive? cs, '/' ∈ body := by
  have front := mem_trimStart slash (by decide)
  rw [directive?, directive?, trimStart_append ⟨'/', slash, by decide⟩]
  match ht : Text.trimStart cs, front with
  | c :: rest, front =>
    rw [List.cons_append]
    by_cases hash : c = '#'
    · subst hash
      have inner : '/' ∈ rest := (List.mem_cons.1 front).resolve_left (by decide)
      refine ⟨?_, fun body hb => ?_⟩
      · show some (Text.trimStart (rest ++ xs)) = some (Text.trimStart rest ++ xs)
        rw [trimStart_append ⟨'/', inner, by decide⟩]
      · obtain rfl := Option.some.inj hb
        exact mem_trimStart inner (by decide)
    · simp [hash]

/-- The keyword of an annotation stands in front of the first slash. -/
theorem annotationKind?_append (slash : '/' ∈ cs) :
    annotationKind? (String.ofList (cs ++ xs)) = annotationKind? (String.ofList cs) := by
  have words : ∀ w ∈ annotationWords, '/' ∉ w.1.toList := by decide
  obtain ⟨longer, inner⟩ := directive?_append xs slash
  rw [annotationKind?, annotationKind?, String.toList_ofList, String.toList_ofList, longer]
  cases hd : directive? cs with
  | none => rfl
  | some body =>
    have same : annotationWords.find? (fun w => Text.beginsWith w.1.toList (body ++ xs)) =
        annotationWords.find? fun w => Text.beginsWith w.1.toList body :=
      List.find?_congr fun w hw => beginsWith_append (inner body hd) (words w hw)
    exact congrArg (Option.map (·.2)) same

/-- Two texts that say the same, whatever follows behind a space. -/
def Exchangeable (cs ds : List Char) : Prop :=
  ∀ xs, (∀ x ∈ xs.head?, x = ' ') →
    annotationKind? (String.ofList (cs ++ xs)) = annotationKind? (String.ofList (ds ++ xs)) ∧
      withoutComments (cs ++ xs) = withoutComments (ds ++ xs)

/-- A text without the keyword of an annotation is code. -/
theorem item?_of_plain (plain : annotationKind? s = none) :
    preprocessor.item? s = some (.node .artifact none) := by
  have classify : preprocessor.classify s = .ok none := congrArg Except.ok plain
  rw [item?, classify]
  rfl

namespace Exchangeable

theorem refl (cs : List Char) : Exchangeable cs cs := fun _ _ => ⟨rfl, rfl⟩

theorem trans (h : Exchangeable cs ds) (h' : Exchangeable ds es) : Exchangeable cs es :=
  fun xs space => ⟨(h xs space).1.trans (h' xs space).1, (h xs space).2.trans (h' xs space).2⟩

theorem symm (h : Exchangeable cs ds) : Exchangeable ds cs :=
  fun xs space => ⟨(h xs space).1.symm, (h xs space).2.symm⟩

theorem append (h : Exchangeable cs ds) (xs : List Char) :
    Exchangeable (cs ++ ' ' :: xs) (ds ++ ' ' :: xs) := by
  intro ys _
  rw [List.append_assoc, List.append_assoc]
  exact h _ fun x hx => (Option.some.inj hx).symm

/-- Blanks at the end of a comment say nothing. -/
theorem blank (inside : ending cs ≠ .outside) (blank : ∀ b ∈ bs, Text.isBlank b = true) :
    Exchangeable (cs ++ ' ' :: bs) cs := by
  have blank' : ∀ b ∈ ' ' :: bs, Text.isBlank b = true := List.forall_mem_cons.2 ⟨by decide, blank⟩
  intro xs space
  refine ⟨?_, ?_⟩
  · rw [List.append_assoc, annotationKind?_append (slash_mem_of_ending inside),
      annotationKind?_append (slash_mem_of_ending inside)]
  · rw [List.append_assoc, List.cons_append, (withoutComments_append_cons (by decide)).1,
      ← List.cons_append, Ending.follow_blank inside blank']
    cases xs with
    | nil => rw [Ending.follow_nil, List.append_nil, List.append_nil]
    | cons x xs =>
      obtain rfl := space x rfl
      rw [(withoutComments_append_cons (by decide)).1]

theorem conditionOf_eq (h : Exchangeable s.toList s'.toList) :
    conditionOf s = conditionOf s' ∨ ∃ e e', conditionOf s = .error e ∧ conditionOf s' = .error e' := by
  have bare := (h [] fun _ hx => nomatch hx).2
  rw [List.append_nil, List.append_nil] at bare
  rw [conditionOf, conditionOf, bare]
  cases (directive? (Text.trimEnd (withoutComments s'.toList))).bind conditionBehind? with
  | none => exact .inr ⟨_, _, rfl, rfl⟩
  | some v => exact .inl rfl

/-- What cannot be told apart is read as the same. -/
theorem item?_eq (h : Exchangeable s.toList s'.toList) :
    preprocessor.item? s = preprocessor.item? s' := by
  have kind := (h [] fun _ hx => nomatch hx).1
  rw [List.append_nil, List.append_nil, String.ofList_toList, String.ofList_toList] at kind
  have classify : preprocessor.classify s = preprocessor.classify s' := congrArg Except.ok kind
  rw [item?, item?, classify]
  obtain same | ⟨e, e', failed, failed'⟩ := h.conditionOf_eq
  · have condition : preprocessor.condition s = preprocessor.condition s' := same
    rw [condition]
  · have condition : preprocessor.condition s = .error e := failed
    have condition' : preprocessor.condition s' = .error e' := failed'
    rw [condition, condition']

end Exchangeable

end Exchange

end Dialect

namespace Reading.LogicalLine

open Condition Dialect

/-- Two logical lines that differ in blank lines within a comment, if at all. -/
structure Stands (l l' : LogicalLine) : Prop where
  start : l'.start = l.start
  full : l'.lines = [] ↔ l.lines = []
  inComment : l'.inComment = l.inComment
  continued : l.inComment = false → l'.continued = l.continued
  text : Exchangeable l'.text.toList l.text.toList

section Stands

variable {l l' : LogicalLine} {content : String}

theorem Stands.refl (l : LogicalLine) : Stands l l := ⟨rfl, .rfl, rfl, fun _ => rfl, .refl _⟩

theorem Stands.hasStarted (h : Stands l l') : l'.hasStarted = l.hasStarted := by
  rw [LogicalLine.hasStarted, LogicalLine.hasStarted, h.start]

theorem Stands.isComplete (h : Stands l l') : l'.isComplete = l.isComplete := by
  rw [LogicalLine.isComplete, LogicalLine.isComplete, h.hasStarted, h.inComment]
  cases comment : l.inComment with
  | true => rw [Bool.not_true, Bool.and_false, Bool.and_false]
  | false => rw [h.continued comment]

theorem text_first (empty : l.lines = []) (content : String) (p : Position) :
    (l.consume content p).text = withoutBackslash content := by
  rw [LogicalLine.text, lines_consume, empty]
  exact String.intercalate_singleton

/-- Both take the next line in the same way. -/
theorem Stands.consume (h : Stands l l') (content : String) (p : Position) :
    Stands (l.consume content p) (l'.consume content p) := by
  refine ⟨?_, ?_, ?_, fun _ => rfl, ?_⟩
  · show l'.start.or _ = l.start.or _
    rw [h.start]
  · simp
  · show (lastDelimiterOpens? content.toList).getD l'.inComment = _
    rw [h.inComment]
    rfl
  · by_cases empty : l.lines = []
    · rw [text_first empty, text_first (h.full.2 empty)]
      exact .refl _
    · rw [text_consume empty, text_consume (h.full.not.2 empty)]
      simp only [String.append_assoc, String.toList_append, show " ".toList = [' '] from rfl,
        List.singleton_append]
      exact h.text.append _

/-- Whether blanks are all that a line has. -/
theorem blank_of_trimStart (h : (Text.trimStart content.toList).isEmpty = true) :
    ∀ c ∈ content.toList, Text.isBlank c = true := by
  intro c hc
  by_contra solid
  have left := mem_trimStart hc (Bool.eq_false_iff.2 solid)
  rw [List.isEmpty_iff.1 h] at left
  cases left

theorem endsWith_blank (blank : ∀ c ∈ content.toList, Text.isBlank c = true) :
    Text.endsWith '\\' content.toList = false := by
  refine beq_eq_false_iff_ne.2 fun last => ?_
  exact absurd (blank _ (List.mem_of_getLast? last)) (by decide)

/-- A blank line on its own is complete. -/
theorem consume_blank_first (blank : ∀ c ∈ content.toList, Text.isBlank c = true) (p : Position) :
    (({} : LogicalLine).consume content p).isComplete = true ∧
      (({} : LogicalLine).consume content p).text = content := by
  rw [text_first rfl, LogicalLine.isComplete, hasStarted_consume, withoutBackslash, endsWith_blank blank,
    if_neg Bool.false_ne_true]
  refine ⟨?_, rfl⟩
  show (true && !Text.endsWith '\\' content.toList &&
    !(lastDelimiterOpens? content.toList).getD false) = true
  rw [endsWith_blank blank, lastDelimiterOpens?_blank blank]
  rfl

/-- A blank line ends no comment. -/
theorem inComment_consume_blank (blank : ∀ c ∈ content.toList, Text.isBlank c = true)
    (inComment : l.inComment = true) (p : Position) : (l.consume content p).inComment = true := by
  show (lastDelimiterOpens? content.toList).getD l.inComment = true
  rw [lastDelimiterOpens?_blank blank, inComment]
  rfl

theorem isComplete_of_inComment (inComment : l.inComment = true) : l.isComplete = false := by
  rw [LogicalLine.isComplete, inComment, Bool.not_true, Bool.and_false]

/-- Only the first of them takes a blank line, within a comment. -/
theorem Stands.consume_blank (h : Stands l l') (blank : ∀ c ∈ content.toList, Text.isBlank c = true)
    (started : l.hasStarted = true) (inComment : l.inComment = true)
    (inside : ending l.text.toList ≠ .outside) (p : Position) : Stands (l.consume content p) l' := by
  have full : l.lines ≠ [] := by
    intro empty
    rw [LogicalLine.text, empty] at inside
    exact inside rfl
  obtain ⟨q, begins⟩ := Option.isSome_iff_exists.1 started
  have stays : (l.consume content p).inComment = true := inComment_consume_blank blank inComment p
  refine ⟨?_, ?_, ?_, fun closed => ?_, ?_⟩
  · show l'.start = l.start.or _
    rw [h.start, begins]
    rfl
  · rw [h.full]
    simp [full]
  · rw [stays, h.inComment, inComment]
  · rw [stays] at closed
    cases closed
  · rw [text_consume full, withoutBackslash, endsWith_blank blank, if_neg Bool.false_ne_true]
    simp only [String.append_assoc, String.toList_append, show " ".toList = [' '] from rfl,
      List.singleton_append]
    exact h.text.trans (Exchangeable.blank inside blank).symm

/-- A line that has begun as code, whatever it takes behind its first slash. -/
structure IsCode (l : LogicalLine) : Prop where
  started : l.hasStarted = true
  slash : '/' ∈ l.text.toList
  plain : annotationKind? l.text = none

theorem IsCode.consume (h : l.IsCode) (content : String) (p : Position) : (l.consume content p).IsCode := by
  have full : l.lines ≠ [] := by
    intro empty
    have slash := h.slash
    rw [LogicalLine.text, empty] at slash
    cases slash
  have text : (l.consume content p).text =
      String.ofList (l.text.toList ++ ' ' :: (withoutBackslash content).toList) := by
    rw [text_consume full, ← String.ofList_toList (s := l.text ++ " " ++ withoutBackslash content)]
    simp only [String.append_assoc, String.toList_append, show " ".toList = [' '] from rfl,
      List.singleton_append]
  refine ⟨hasStarted_consume .., ?_, ?_⟩
  · rw [text, String.toList_ofList]
    exact List.mem_append_left _ h.slash
  · rw [text, annotationKind?_append h.slash, String.ofList_toList, h.plain]

end Stands

end Reading.LogicalLine

end Variation
