import Variation.Condition.Comment
import Variation.Line
import Variation.Text.Find

/-!
# Logical lines

Physical lines belong together while the last one ends with a backslash or leaves a block comment
open. A logical line keeps them as they are and can say them as one text.
-/

namespace Variation.Reading

/-- Physical lines read so far that belong together. -/
structure LogicalLine where
  lines : List String := []
  start : Option Position := none
  continued : Bool := false
  inComment : Bool := false
  deriving DecidableEq, Inhabited

namespace LogicalLine

/-- Whether any line was read. -/
def hasStarted (l : LogicalLine) : Bool := l.start.isSome

/-- Whether lines were read and nothing is left open. -/
def isComplete (l : LogicalLine) : Bool := l.hasStarted && !l.continued && !l.inComment

/-- Reads a physical line. -/
def consume (l : LogicalLine) (line : String) (at_ : Position) : LogicalLine where
  lines := l.lines ++ [line]
  start := l.start.or (some at_)
  continued := Text.endsWith '\\' line.toList
  inComment := (Condition.lastDelimiterOpens? line.toList).getD l.inComment

/-- A line without the backslash at its end. -/
def withoutBackslash (line : String) : String :=
  if Text.endsWith '\\' line.toList then String.ofList line.toList.dropLast else line

/-- The lines as one text. -/
def text (l : LogicalLine) : String := String.intercalate " " (l.lines.map withoutBackslash)

@[simp] theorem lines_consume (l : LogicalLine) (line : String) (p : Position) :
    (l.consume line p).lines = l.lines ++ [line] := rfl

@[simp] theorem hasStarted_consume (l : LogicalLine) (line : String) (p : Position) :
    (l.consume line p).hasStarted = true := by
  cases h : l.start <;> simp [consume, hasStarted, h]

end LogicalLine

end Variation.Reading
