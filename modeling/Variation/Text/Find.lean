/-!
# Searching in a text

Small questions about lists of characters.
-/

namespace Variation.Text

/-- What follows a word at the beginning of a text, if the text begins with it. -/
def after? : List Char → List Char → Option (List Char)
  | [], cs => some cs
  | _ :: _, [] => none
  | w :: ws, c :: cs => if w = c then after? ws cs else none

theorem after?_eq_some_iff {w cs rest : List Char} : after? w cs = some rest ↔ cs = w ++ rest := by
  induction w generalizing cs with
  | nil => simp [after?, eq_comm]
  | cons x w ih =>
    cases cs with
    | nil => simp [after?]
    | cons c cs =>
      by_cases h : x = c
      · simp [after?, h, ih]
      · simp [after?, h, Ne.symm h]

/-- Whether a text begins with a word. -/
def beginsWith (word cs : List Char) : Bool := (after? word cs).isSome

/-- Whether a text ends with a character. -/
def endsWith (c : Char) (cs : List Char) : Bool := cs.getLast? == some c

end Variation.Text
