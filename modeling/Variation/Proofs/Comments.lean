import Mathlib.Data.List.Induction
import Variation.Proofs.Lexed
import Variation.Reading.LogicalLine

/-!
# Comments that are left open

Two readers tell whether a text ends in a block comment. A logical line asks which delimiter is the last
one of its lines; whoever leaves comments out reads the text from its front. The reader from the front
misses some delimiters: all behind `//`, and those that share a character with the delimiter in front of
them, as in `/*/` and `*/*`. The two readers agree exactly if the last delimiter is none of these.
-/

namespace Variation.Condition

/-- Where a text ends: outside of comments, in a block comment, or in a comment that runs to the end. -/
inductive Ending where
  | outside
  | within
  | behind
  deriving DecidableEq

mutual

/-- Where a text ends that is read from its front. -/
def ending : List Char → Ending
  | '/' :: '*' :: cs => endingWithin cs
  | '/' :: '/' :: _ => .behind
  | _ :: cs => ending cs
  | [] => .outside

/-- Where a text ends that begins in a block comment. -/
def endingWithin : List Char → Ending
  | '*' :: '/' :: cs => ending cs
  | _ :: cs => endingWithin cs
  | [] => .within

end

/-- What a text says behind an ending. -/
def Ending.follow : Ending → List Char → List Char
  | outside, cs => withoutComments cs
  | within, cs => afterComment cs
  | behind, _ => []

mutual

/-- Whether the last delimiter of a text is missed if the text is read from its front: it opens a comment
behind `//`, or it shares a character with the delimiter in front of it. -/
def hidesLast : List Char → Bool
  | '/' :: '*' :: cs =>
    (cs.head? == some '/' && lastDelimiterOpens? cs == none) || hidesLastWithin cs
  | '/' :: '/' :: cs => lastDelimiterOpens? ('/' :: cs) == some true
  | _ :: cs => hidesLast cs
  | [] => false

/-- Whether the last delimiter is missed in a text that begins in a block comment. -/
def hidesLastWithin : List Char → Bool
  | '*' :: '/' :: cs =>
    (cs.head? == some '*' && lastDelimiterOpens? cs == none) || hidesLast cs
  | _ :: cs => hidesLastWithin cs
  | [] => false

end

section Endings

variable {c x : Char} {cs more : List Char} {b : Bool}

/-- A comment begins with a character, if it goes on like this. -/
def Opens (c : Char) (cs : List Char) : Prop := c = '/' ∧ (cs.head? = some '*' ∨ cs.head? = some '/')

/-- A block comment ends with a character, if it goes on like this. -/
def Closes (c : Char) (cs : List Char) : Prop := c = '*' ∧ cs.head? = some '/'

theorem not_opens (block : ∀ cs', c = '/' → cs = '*' :: cs' → False)
    (line : ∀ cs', c = '/' → cs = '/' :: cs' → False) : ¬ Opens c cs := by
  rintro ⟨rfl, head | head⟩
  · obtain ⟨cs', rfl⟩ := List.head?_eq_some_iff.1 head
    exact block cs' rfl rfl
  · obtain ⟨cs', rfl⟩ := List.head?_eq_some_iff.1 head
    exact line cs' rfl rfl

theorem not_closes (closes : ∀ cs', c = '*' → cs = '/' :: cs' → False) : ¬ Closes c cs := by
  rintro ⟨rfl, head⟩
  obtain ⟨cs', rfl⟩ := List.head?_eq_some_iff.1 head
  exact closes cs' rfl rfl

theorem withoutComments_of_not_opens (h : ¬ Opens c cs) :
    withoutComments (c :: cs) = c :: withoutComments cs :=
  withoutComments_cons fun slash x hx => ⟨by rintro rfl; exact h ⟨slash, .inl hx⟩, by
    rintro rfl
    exact h ⟨slash, .inr hx⟩⟩

theorem afterComment_of_not_closes (h : ¬ Closes c cs) : afterComment (c :: cs) = afterComment cs := by
  rw [afterComment]
  rintro _ rfl rfl
  exact h ⟨rfl, rfl⟩

theorem ending_of_not_opens (h : ¬ Opens c cs) : ending (c :: cs) = ending cs := by
  rw [ending]
  · rintro _ rfl rfl
    exact h ⟨rfl, .inl rfl⟩
  · rintro _ rfl rfl
    exact h ⟨rfl, .inr rfl⟩

theorem endingWithin_of_not_closes (h : ¬ Closes c cs) : endingWithin (c :: cs) = endingWithin cs := by
  rw [endingWithin]
  rintro _ rfl rfl
  exact h ⟨rfl, rfl⟩

theorem hidesLast_of_not_opens (h : ¬ Opens c cs) : hidesLast (c :: cs) = hidesLast cs := by
  rw [hidesLast]
  · rintro _ rfl rfl
    exact h ⟨rfl, .inl rfl⟩
  · rintro _ rfl rfl
    exact h ⟨rfl, .inr rfl⟩

theorem hidesLastWithin_of_not_closes (h : ¬ Closes c cs) :
    hidesLastWithin (c :: cs) = hidesLastWithin cs := by
  rw [hidesLastWithin]
  rintro _ rfl rfl
  exact h ⟨rfl, rfl⟩

/-! ## What stands behind -/

/-- A character that is part of no delimiter takes none from the text in front of it. -/
theorem head?_append_cons (plain : x ∉ ['/', '*']) {y : Char} (hy : y ∈ ['/', '*']) :
    (cs ++ x :: more).head? = some y ↔ cs.head? = some y := by
  cases cs with
  | nil =>
    have other : x ≠ y := fun same => plain (same ▸ hy)
    simp [other]
  | cons c cs => rfl

theorem opens_append (plain : x ∉ ['/', '*']) : Opens c (cs ++ x :: more) ↔ Opens c cs := by
  rw [Opens, head?_append_cons plain (by decide), head?_append_cons plain (by decide), Opens]

theorem closes_append (plain : x ∉ ['/', '*']) : Closes c (cs ++ x :: more) ↔ Closes c cs := by
  rw [Closes, head?_append_cons plain (by decide), Closes]

/-- Behind a character that is part of no delimiter, the text is read as the ending in front of it says. -/
theorem withoutComments_append_cons (plain : x ∉ ['/', '*']) :
    (∀ cs, withoutComments (cs ++ x :: more) = withoutComments cs ++ (ending cs).follow (x :: more)) ∧
      ∀ cs, afterComment (cs ++ x :: more) =
        afterComment cs ++ (endingWithin cs).follow (x :: more) := by
  refine withoutComments.mutual_induct _ _ (fun cs ih => ?_) (fun cs => ?_)
    (fun c cs block line ih => ?_) ?_ (fun cs ih => ?_) (fun c cs closes ih => ?_) ?_
  · rw [List.cons_append, List.cons_append, withoutComments, ih, withoutComments, ending,
      List.cons_append]
  · rw [List.cons_append, List.cons_append, withoutComments, withoutComments, ending]
    rfl
  · have none := not_opens block line
    rw [List.cons_append, withoutComments_of_not_opens ((opens_append plain).not.2 none), ih,
      withoutComments_of_not_opens none, ending_of_not_opens none, List.cons_append]
  · rw [withoutComments]
    rfl
  · rw [List.cons_append, List.cons_append, afterComment, ih, afterComment, endingWithin]
  · have none := not_closes closes
    rw [List.cons_append, afterComment_of_not_closes ((closes_append plain).not.2 none), ih,
      afterComment_of_not_closes none, endingWithin_of_not_closes none]
  · rw [afterComment]
    rfl

/-! ## The last delimiter -/

theorem delimiter?_of_plain (plain : x ∉ ['/', '*']) : delimiter? x more = none := by
  unfold delimiter?
  split <;> simp_all

theorem delimiter?_append_cons (plain : x ∉ ['/', '*']) :
    delimiter? c (cs ++ x :: more) = delimiter? c cs := by
  simp only [List.mem_cons, List.not_mem_nil, or_false, not_or] at plain
  cases cs <;> unfold delimiter? <;> split <;> split <;> simp_all

theorem delimiter?_of_not_opens (h : ¬ Opens c cs) :
    delimiter? c cs = none ∨ delimiter? c cs = some false := by
  unfold delimiter?
  split
  · exact absurd ⟨rfl, .inl rfl⟩ h
  · exact .inr rfl
  · exact .inl rfl

theorem delimiter?_of_not_closes (h : ¬ Closes c cs) :
    delimiter? c cs = none ∨ delimiter? c cs = some true := by
  unfold delimiter?
  split
  · exact .inr rfl
  · exact absurd ⟨rfl, rfl⟩ h
  · exact .inl rfl

theorem lastDelimiterOpens?_append_cons (plain : x ∉ ['/', '*']) :
    lastDelimiterOpens? (cs ++ x :: more) = (lastDelimiterOpens? more).or (lastDelimiterOpens? cs) := by
  induction cs with
  | nil =>
    show (lastDelimiterOpens? more).or (delimiter? x more) = (lastDelimiterOpens? more).or none
    rw [delimiter?_of_plain plain]
  | cons c cs ih =>
    rw [List.cons_append, lastDelimiterOpens?, ih, delimiter?_append_cons plain, Option.or_assoc,
      lastDelimiterOpens?]

/-- A delimiter that changes nothing is only seen if there is no other behind it. -/
theorem getD_or_of_same {a d : Option Bool} (h : d = none ∨ d = some b) :
    (a.or d).getD b = a.getD b := by
  obtain rfl | rfl := h <;> cases a <;> rfl

/-- A text without delimiters stays in the comment in which it begins, and opens none. -/
theorem ending_of_no_delimiter (h : lastDelimiterOpens? cs = none) :
    ending cs ≠ .within ∧ endingWithin cs = .within := by
  induction cs with
  | nil => exact ⟨Ending.noConfusion, rfl⟩
  | cons c cs ih =>
    rw [lastDelimiterOpens?, Option.or_eq_none_iff] at h
    obtain ⟨rest, here⟩ := h
    have open_ : ¬ Closes c cs := by
      rintro ⟨rfl, head⟩
      obtain ⟨cs', rfl⟩ := List.head?_eq_some_iff.1 head
      cases here
    refine ⟨?_, by rw [endingWithin_of_not_closes open_]; exact (ih rest).2⟩
    by_cases opens : Opens c cs
    · obtain ⟨rfl, head | head⟩ := opens <;> obtain ⟨cs', rfl⟩ := List.head?_eq_some_iff.1 head
      · cases here
      · rw [ending]
        exact Ending.noConfusion
    · rw [ending_of_not_opens opens]
      exact (ih rest).1

theorem delimiter?_eq (c : Char) : delimiter? c cs =
    if c = '/' ∧ cs.head? = some '*' then some true
    else if c = '*' ∧ cs.head? = some '/' then some false else none := by
  unfold delimiter?
  split
  · rfl
  · rfl
  · next block close =>
    rw [if_neg, if_neg]
    · rintro ⟨rfl, head⟩
      obtain ⟨cs', rfl⟩ := List.head?_eq_some_iff.1 head
      exact close cs' rfl rfl
    · rintro ⟨rfl, head⟩
      obtain ⟨cs', rfl⟩ := List.head?_eq_some_iff.1 head
      exact block cs' rfl rfl

/-- A delimiter of two characters is the last one if there is no other, and if it shares no character
with the next one, which would begin with the second and end with the first. -/
theorem lastDelimiterOpens?_delimiter {a b : Char} {opens : Bool}
    (here : delimiter? a (b :: cs) = some opens)
    (next : delimiter? b cs = if cs.head? = some a then some !opens else none) :
    lastDelimiterOpens? (a :: b :: cs) =
      (lastDelimiterOpens? cs).or (some (opens != (cs.head? == some a))) := by
  rw [lastDelimiterOpens?, lastDelimiterOpens?, Option.or_assoc, here, next]
  by_cases touching : cs.head? = some a
  · simp [touching]
  · simp [touching, beq_eq_false_iff_ne.2 touching]

/-- The last delimiter of a text tells whether the text ends in a comment, unless a reader from the front
misses it. -/
theorem lastDelimiter_iff :
    (∀ cs, ((lastDelimiterOpens? cs).getD false = true ↔ ending cs = .within) ↔ hidesLast cs = false) ∧
      ∀ cs, ((lastDelimiterOpens? cs).getD true = true ↔ endingWithin cs = .within) ↔
        hidesLastWithin cs = false := by
  refine ending.mutual_induct _ _ (fun cs ih => ?_) (fun cs => ?_)
    (fun c cs block line ih => ?_) ?_ (fun cs ih => ?_) (fun c cs closes ih => ?_) ?_
  · rw [ending, hidesLast, lastDelimiterOpens?_delimiter rfl (by simp [delimiter?_eq])]
    cases last : lastDelimiterOpens? cs with
    | none =>
      have inner := (ending_of_no_delimiter last).2
      have found : hidesLastWithin cs = false := ih.1 (by rw [last, inner]; exact iff_of_true rfl rfl)
      simp [inner, found]
    | some opens =>
      rw [last] at ih
      simpa using ih
  · have none : delimiter? '/' ('/' :: cs) = none := rfl
    rw [ending, hidesLast, lastDelimiterOpens?, none, Option.or_none]
    cases lastDelimiterOpens? ('/' :: cs) with
    | none => simp
    | some opens => cases opens <;> simp
  · have none := not_opens block line
    rw [lastDelimiterOpens?, getD_or_of_same (delimiter?_of_not_opens none), ending_of_not_opens none,
      hidesLast_of_not_opens none]
    exact ih
  · decide
  · rw [endingWithin, hidesLastWithin, lastDelimiterOpens?_delimiter rfl (by simp [delimiter?_eq])]
    cases last : lastDelimiterOpens? cs with
    | none =>
      have outer := (ending_of_no_delimiter last).1
      have found : hidesLast cs = false := ih.1 (by rw [last]; exact iff_of_false Bool.false_ne_true outer)
      simp [outer, found]
    | some opens =>
      rw [last] at ih
      simpa using ih
  · have none := not_closes closes
    rw [lastDelimiterOpens?, getD_or_of_same (delimiter?_of_not_closes none),
      endingWithin_of_not_closes none, hidesLastWithin_of_not_closes none]
    exact ih
  · decide

end Endings

end Variation.Condition

namespace Variation.Reading.LogicalLine

open Condition

variable {l : LogicalLine} {line : String} {p : Position} {lines : List (String × Position)}

/-- The logical line that begins with the first of some lines, with their places. -/
def ofLines (lines : List (String × Position)) : LogicalLine :=
  lines.foldl (fun l x => l.consume x.1 x.2) {}

theorem ofLines_snoc : ofLines (lines ++ [(line, p)]) = (ofLines lines).consume line p :=
  List.foldl_append

theorem lines_ofLines : (ofLines lines).lines = lines.map (·.1) := by
  induction lines using List.reverseRecOn with
  | nil => rfl
  | append_singleton lines x ih => rw [ofLines_snoc, lines_consume, ih, List.map_append]; rfl

/-- A line is added behind a space. -/
theorem text_consume (full : l.lines ≠ []) :
    (l.consume line p).text = l.text ++ " " ++ withoutBackslash line := by
  have behind : l.lines.map withoutBackslash ≠ [] := by simpa using full
  rw [text, lines_consume, List.map_append, List.map_singleton,
    String.intercalate_append_of_ne_nil behind (List.cons_ne_nil _ _), String.intercalate_singleton, text]

theorem lastDelimiterOpens?_withoutBackslash :
    lastDelimiterOpens? (withoutBackslash line).toList = lastDelimiterOpens? line.toList := by
  unfold withoutBackslash
  split
  · next ends =>
    have whole : line.toList = line.toList.dropLast ++ '\\' :: [] :=
      (List.dropLast_append_getLast? _ (beq_iff_eq.1 ends)).symm
    rw [String.toList_ofList]
    conv => rhs; rw [whole, lastDelimiterOpens?_append_cons (by decide)]
    rfl
  · rfl

/-- A comment is open behind lines if the last delimiter of their text opens one. -/
theorem inComment_ofLines : (ofLines lines).inComment =
    (lastDelimiterOpens? (ofLines lines).text.toList).getD false := by
  induction lines using List.reverseRecOn with
  | nil => rfl
  | append_singleton lines x ih =>
    obtain ⟨line, p⟩ := x
    rw [ofLines_snoc]
    have here : ((ofLines lines).consume line p).inComment =
        (lastDelimiterOpens? line.toList).getD (ofLines lines).inComment := rfl
    rw [here, ih]
    by_cases full : (ofLines lines).lines = []
    · have none : lines = [] := by simpa [lines_ofLines] using full
      subst none
      have text : (consume {} line p).text = withoutBackslash line := String.intercalate_singleton
      rw [show ofLines [] = {} from rfl, text, lastDelimiterOpens?_withoutBackslash]
      rfl
    · rw [text_consume full, String.append_assoc, String.toList_append, String.toList_append,
        show " ".toList = [' '] by decide, List.singleton_append,
        lastDelimiterOpens?_append_cons (by decide), lastDelimiterOpens?_withoutBackslash]
      cases lastDelimiterOpens? line.toList <;> rfl

/-- Lines of which the last one does not end with a backslash are complete exactly if their text, read from
its front, does not end in a block comment, unless that reading misses the last delimiter: then exactly one
of the two is so. -/
theorem isComplete_iff_ending (full : lines ≠ [])
    (whole : ∀ x ∈ lines.getLast?, Text.endsWith '\\' x.1.toList = false) :
    ((ofLines lines).isComplete = true ↔ ending (ofLines lines).text.toList ≠ .within) ↔
      hidesLast (ofLines lines).text.toList = false := by
  obtain ⟨front, ⟨line, p⟩, rfl⟩ := (List.eq_nil_or_concat' lines).resolve_left full
  have ends : Text.endsWith '\\' line.toList = false := whole (line, p) (by simp)
  have complete : (ofLines (front ++ [(line, p)])).isComplete =
      !(ofLines (front ++ [(line, p)])).inComment := by
    rw [ofLines_snoc, isComplete, hasStarted_consume]
    show (true && !Text.endsWith '\\' line.toList && _) = _
    rw [ends]
    rfl
  rw [complete, inComment_ofLines, Bool.not_eq_true', ← Bool.not_eq_true, not_iff_not]
  exact lastDelimiter_iff.1 _

/-- A comment that seems to be opened behind `//` leaves its line open. -/
theorem isComplete_iff_ending_behind :
    [("#if A // /*", Position.start)] ≠ [] ∧
      (∀ x ∈ [("#if A // /*", Position.start)].getLast?, Text.endsWith '\\' x.1.toList = false) ∧
      (ofLines [("#if A // /*", .start)]).isComplete = false ∧
      ending (ofLines [("#if A // /*", .start)]).text.toList = .behind ∧
      ¬ ((ofLines [("#if A // /*", .start)]).isComplete = true ↔
        ending (ofLines [("#if A // /*", .start)]).text.toList ≠ .within) := by
  have full : [("#if A // /*", Position.start)] ≠ [] := List.cons_ne_nil _ _
  have whole : ∀ x ∈ [("#if A // /*", Position.start)].getLast?,
      Text.endsWith '\\' x.1.toList = false := by decide +kernel
  have hidden : hidesLast (ofLines [("#if A // /*", .start)]).text.toList = true := by decide +kernel
  refine ⟨full, whole, by decide +kernel, by decide +kernel, fun agree => ?_⟩
  rw [(isComplete_iff_ending full whole).1 agree] at hidden
  cases hidden

end Variation.Reading.LogicalLine
