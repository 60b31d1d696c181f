import Variation.Text.Numeral
import Variation.Toml.Reader

/-!
# Quoted texts and keys

A text in double quotes may hold escapes, one in single quotes is taken as it stands. Three quotes
open a text that may run over several lines; it ends with the first three quotes in a row, and up to
two more quotes in front of them belong to it.
-/

namespace Variation.Toml.Reader

/-- Reads the number of a character, written with some hexadecimal digits. -/
def scalar (digits : Nat) : Reader Char := do
  let ds ← times (one (Text.isDigitOf 16)) digits
  let some n := Text.numeral? 16 ds | failure
  if h : n.isValidChar then return Char.ofNatAux n h else failure

/-- Reads what follows a backslash. -/
def escaped : Reader Char := do
  match ← one fun _ => true with
  | 'b' => return '\x08'
  | 't' => return '\t'
  | 'n' => return '\n'
  | 'f' => return '\x0c'
  | 'r' => return '\r'
  | '"' => return '"'
  | '\\' => return '\\'
  | 'u' => scalar 4
  | 'U' => scalar 8
  | _ => failure

/-- Whether a character stands for itself between double quotes. -/
def isPlain (c : Char) : Bool := isPrintable c && c != '"' && c != '\\'

/-- Whether a character stands for itself between single quotes. -/
def isLiteral (c : Char) : Bool := isPrintable c && c != '\''

/-- Reads a text in double quotes. -/
def basic : Reader (List Char) := do
  char '"'
  let cs ← many (one isPlain <|> (do char '\\'; escaped))
  char '"'
  return cs

/-- Reads a text in single quotes. -/
def literal : Reader (List Char) := do
  char '\''
  let cs ← run isLiteral
  char '\''
  return cs

/-- Reads one or two quotes that do not end a text of several lines. -/
def innerQuotes (quote : Char) : Reader (List Char) := do
  let qs ← run (· == quote)
  if 0 < qs.length ∧ qs.length < 3 then return qs else failure

/-- Reads the quotes that end a text of several lines; gives those that belong to the text. -/
def lastQuotes (quote : Char) : Reader (List Char) := do
  let qs ← run (· == quote)
  if 3 ≤ qs.length ∧ qs.length ≤ 5 then return qs.drop 3 else failure

/-- Reads a backslash at the end of a line, with all blank space behind it. -/
def joinedLines : Reader (List Char) := do
  char '\\'
  spaces
  lineBreak
  let _ ← many ((do let _ ← one isSpace) <|> lineBreak)
  return []

/-- Reads a text between threefold quotes, made of pieces. -/
def multiline (quote : Char) (piece : Reader (List Char)) : Reader (List Char) := do
  chars [quote, quote, quote]
  lineBreak <|> pure ()
  let pieces ← many (piece <|> (do lineBreak; return ['\n']) <|> innerQuotes quote)
  let last ← lastQuotes quote
  return pieces.flatten ++ last

/-- Reads a text of several lines with escapes. -/
def basicLines : Reader (List Char) :=
  multiline '"' ((List.singleton <$> one isPlain) <|> joinedLines <|>
    (do char '\\'; List.singleton <$> escaped))

/-- Reads a text of several lines that is taken as it stands. -/
def literalLines : Reader (List Char) := multiline '\'' (List.singleton <$> one isLiteral)

/-- Reads a text in quotes of any kind. -/
def quoted : Reader String := do
  let cs ← match ← get with
    | '"' :: '"' :: '"' :: _ => basicLines
    | '"' :: _ => basic
    | '\'' :: '\'' :: '\'' :: _ => literalLines
    | _ => literal
  return String.ofList cs

/-- Whether a character may stand in a key without quotes. -/
def isKeyChar (c : Char) : Bool := c.isAlphanum || c == '_' || c == '-'

/-- Reads one part of a key. -/
def keyPart : Reader String := do
  let cs ← match ← peek with
    | some '"' => basic
    | some '\'' => literal
    | _ => do
      let cs ← run isKeyChar
      if cs.isEmpty then failure else pure cs
  return String.ofList cs

/-- The number of levels that neither keys nor values may reach. -/
def maxLevels : Nat := 80

/-- Reads a key: the parts it goes through and the last one. -/
def key : Reader (List String × String) := do
  spaces
  let first ← keyPart
  spaces
  let more ← many (do char '.'; spaces; let part ← keyPart; spaces; return part)
  let parts := first :: more
  if parts.length < maxLevels then return (parts.dropLast, parts.getLastD first) else failure

end Variation.Toml.Reader
