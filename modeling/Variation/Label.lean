import Variation.Text.Lines

/-!
# Labels

A label holds the lines of source text that a node stands for.
-/

namespace Variation

/-- The source lines of a node. -/
structure Label where
  lines : List String := []
  deriving DecidableEq, Inhabited

namespace Label

/-- The label of one line. -/
def single (line : String) : Label := ⟨[line]⟩

/-- The lines of a text as a label. -/
def ofText (s : String) : Label := ⟨Text.lines s⟩

/-- Appends lines. -/
def append (l : Label) (more : List String) : Label := ⟨l.lines ++ more⟩

/-- Whether there is no line. -/
def isEmpty (l : Label) : Bool := l.lines.isEmpty

/-- The lines separated by line feeds. -/
def text (l : Label) : String := String.intercalate "\n" l.lines

@[simp] theorem lines_append (l : Label) (more : List String) :
    (l.append more).lines = l.lines ++ more := rfl

end Label

end Variation
