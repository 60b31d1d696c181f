import Variation.Change
import Variation.Text.Find
import Variation.Text.Lines

/-!
# Physical lines

A line diff is read line by line: the first character tells the change, the rest is content. A plain
source text is read as a diff in which every line is unchanged. `withoutHeaders` drops from a
unified diff all lines that belong to its frame and not to a file.
-/

namespace Variation.Reading

/-- A line of input; without a change it is no line of a diff. -/
structure PhysicalLine where
  change : Option Change
  content : String
  deriving DecidableEq, Inhabited

namespace PhysicalLine

/-- Reads a line of a diff. -/
def ofDiffLine (line : String) : PhysicalLine :=
  ⟨Change.ofDiffLine? line.toList, String.ofList (line.toList.drop 1)⟩

/-- Reads a line of plain source. -/
def ofSourceLine (line : String) : PhysicalLine := ⟨some .unchanged, line⟩

/-- The lines of a line diff. -/
def ofDiff (text : String) : List PhysicalLine := (Text.lines text).map ofDiffLine

/-- The lines of a plain source text. -/
def ofSource (text : String) : List PhysicalLine := (Text.lines text).map ofSourceLine

end PhysicalLine

/-- The words with which the lines of a diff's frame begin. -/
def frameWords : List String := ["diff ", "index ", "@@", "\\ No newline"]

/-- Whether a line belongs to the frame by itself. -/
def isFrameLine (line : String) : Bool :=
  frameWords.any fun w => Text.beginsWith w.toList line.toList

/-- Whether two lines in a row name the files that are compared. -/
def isFilePair (line next : String) : Bool :=
  Text.beginsWith "--- ".toList line.toList && Text.beginsWith "+++ ".toList next.toList

/-- The lines that do not belong to the frame of a unified diff. -/
def bodyLines : List String → List String
  | [] => []
  | [line] => if isFrameLine line then [] else [line]
  | line :: next :: rest =>
    if isFilePair line next then bodyLines rest
    else if isFrameLine line then bodyLines (next :: rest)
    else line :: bodyLines (next :: rest)

/-- A unified diff without its frame. -/
def withoutHeaders (text : String) : String := Text.unlines (bodyLines (Text.lines text))

end Variation.Reading
