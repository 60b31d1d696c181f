/-!
# Lines of a text

A line ends at a line feed, and a carriage return directly in front of that line feed belongs to the
line's end. Text after the last line feed is a line of its own, kept as it stands; an empty rest is
none.
-/

namespace Variation.Text

/-- A line that ended at a line feed, without the carriage return that may precede it. The line is
given backwards. -/
def finishLine : List Char → String
  | '\r' :: acc => String.ofList acc.reverse
  | acc => String.ofList acc.reverse

/-- Splits what follows a partly read line, which is given backwards. -/
def linesFrom : List Char → List Char → List String
  | [], [] => []
  | acc, [] => [String.ofList acc.reverse]
  | acc, c :: cs => if c = '\n' then finishLine acc :: linesFrom [] cs else linesFrom (c :: acc) cs

/-- The lines of a text. -/
def lines (s : String) : List String := linesFrom [] s.toList

/-- The text in which each of the given lines ends with a line feed. -/
def unlines (ls : List String) : String := String.join (ls.map (· ++ "\n"))

@[simp] theorem lines_empty : lines "" = [] := by simp [lines, linesFrom]

end Variation.Text
