import Variation.Condition.Comment
import Variation.Condition.Expression
import Variation.Text.Find

/-!
# Dialects

A dialect tells annotations from code and reads the conditions of annotations. It sees the text of
one logical line. `Dialect.preprocessor` is the dialect of the C preprocessor.
-/

namespace Variation

/-- How annotations are written. -/
structure Dialect where
  /-- The kind of annotation in a line; none for plain code. -/
  classify : String → Except ParseFault (Option Kind)
  /-- The condition in a line that has one. -/
  condition : String → Except ParseFault Formula

namespace Dialect

/-- What follows the `#` with which a directive begins, and the blanks around it. -/
def directive? (cs : List Char) : Option (List Char) :=
  match Text.trimStart cs with
  | '#' :: cs => some (Text.trimStart cs)
  | _ => none

/-- The keywords that make a directive an annotation. -/
def annotationWords : List (String × Kind) :=
  [("if", .ifBranch), ("elif", .elifBranch), ("else", .elseBranch), ("endif", .endMark)]

/-- The kind of annotation that a line is; what follows the keyword does not matter. -/
def annotationKind? (line : String) : Option Kind := do
  let body ← directive? line.toList
  (annotationWords.find? fun w => Text.beginsWith w.1.toList body).map (·.2)

/-- The keywords that come before a condition; the flag tells whether the condition is negated. -/
def conditionWords : List (String × Bool) :=
  [("ifdef", false), ("ifndef", true), ("elifdef", false), ("elifndef", true), ("if", false),
    ("elif", false)]

/-- The text of a condition, if what follows a keyword is one: nothing, or blanks and text on one
line, or text in brackets on one line. -/
def conditionText? : List Char → Option (List Char)
  | [] => some []
  | c :: cs =>
    if Text.isBlank c then
      let text := Text.trimStart cs
      if text.contains '\n' then none else some text
    else if c = '(' ∧ Text.endsWith ')' cs ∧ !cs.contains '\n' then some (c :: cs)
    else none

/-- The text of a condition behind the first keyword that fits, and whether it is negated. -/
def conditionBehind? (body : List Char) : Option (List Char × Bool) :=
  conditionWords.findSome? fun w => do
    let rest ← Text.after? w.1.toList body
    return (← conditionText? rest, w.2)

/-- The condition in a line. -/
def conditionOf (line : String) : Except ParseFault Formula :=
  let bare := Text.trimEnd (Condition.withoutComments line.toList)
  match (directive? bare).bind conditionBehind? with
  | none => .error (.malformedFormula ("not a conditional macro: " ++ Text.trimText line))
  | some (text, negated) => do
    let text := Text.trim text
    if text.isEmpty then
      .error .missingCondition
    else
      let f ← Condition.formula text
      return if negated then f.negate else f

/-- The annotations of the C preprocessor. -/
def preprocessor : Dialect where
  classify line := .ok (annotationKind? line)
  condition := conditionOf

end Dialect

end Variation
