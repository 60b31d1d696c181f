/-!
# Readers

A reader takes a first part of a text and gives what it stands for together with the rest, or
nothing if the text does not begin that way. `p <|> q` tries `q` on the same text if `p` gives
nothing.
-/

namespace Variation.Toml

/-- Reads a first part of a text. -/
abbrev Reader := StateT (List Char) Option

namespace Reader

variable {α : Type}

/-- The first character of the rest, which stays there. -/
def peek : Reader (Option Char) := do return (← get).head?

/-- Takes one character of a class. -/
def one (p : Char → Bool) : Reader Char := fun
  | [] => none
  | c :: cs => if p c then some (c, cs) else none

/-- Takes the given character. -/
def char (c : Char) : Reader Unit := do let _ ← one (· == c)

/-- Takes a character several times. -/
def chars (cs : List Char) : Reader Unit := cs.forM char

/-- Takes all characters of a class that come first. -/
def run (p : Char → Bool) : Reader (List Char) := fun cs =>
  some (cs.takeWhile p, cs.dropWhile p)

/-- Reads as often as possible, up to a number of times. -/
def atMost (p : Reader α) : Nat → Reader (List α)
  | 0 => pure []
  | times + 1 => (do let x ← p; return x :: (← atMost p times)) <|> pure []

/-- Reads as often as possible; each time takes at least one character. -/
def many (p : Reader α) : Reader (List α) := do atMost p (← get).length

/-- Reads a given number of times. -/
def times (p : Reader α) : Nat → Reader (List α)
  | 0 => pure []
  | n + 1 => do let x ← p; return x :: (← times p n)

/-- Succeeds at the end of the text alone. -/
def atEnd : Reader Unit := fun cs => if cs.isEmpty then some ((), cs) else none

/-- A run and what remains are together the text that was there. -/
theorem run_append (p : Char → Bool) (cs : List Char) :
    ∃ first rest, run p cs = some (first, rest) ∧ first ++ rest = cs :=
  ⟨_, _, rfl, List.takeWhile_append_dropWhile⟩

end Reader

/-- Whether a character may stand in a line: a tab or no control character. -/
def isPrintable (c : Char) : Bool := c == '\t' || (32 ≤ c.toNat && c.toNat != 127)

/-- Whether a character is a space or a tab. -/
def isSpace (c : Char) : Bool := c == ' ' || c == '\t'

namespace Reader

/-- Reads over spaces and tabs. -/
def spaces : Reader Unit := do let _ ← run isSpace

/-- Reads the end of a line. -/
def lineBreak : Reader Unit := char '\n' <|> chars ['\r', '\n']

/-- Reads a comment up to the end of its line. -/
def comment : Reader Unit := do
  char '#'
  let _ ← run isPrintable

/-- Reads over spaces, comments and ends of lines. -/
def gap : Reader Unit := do
  spaces
  let _ ← many (do
    (do comment; lineBreak) <|> lineBreak
    spaces)

/-- Reads what may follow on a line whose content is complete. -/
def lineEnd : Reader Unit := do
  spaces
  comment <|> pure ()
  lineBreak <|> atEnd

end Reader

end Variation.Toml
