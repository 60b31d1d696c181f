import Variation.Toml.Quoted
import Variation.Toml.Scalar

/-!
# Reading a document

A document is read line by line: a header opens a table, and every other line adds an item to the
table that was opened last. Only the content of a list and of a text between threefold quotes may
run over several lines.
-/

namespace Variation.Toml

namespace Reader

/-- Whether a character may stand in a value without quotes. -/
def isScalarChar (c : Char) : Bool := c.isAlphanum || "+-_.:".contains c

/-- Reads a value without quotes. A date and a time may be separated by a space. -/
def bare : Reader Item := do
  let cs ← run isScalarChar
  let more ← match ← get with
    | ' ' :: d :: _ =>
      if Scalar.isDate cs ∧ d.isDigit then do
        char ' '
        let time ← run isScalarChar
        pure (' ' :: time)
      else pure []
    | _ => pure []
  match Scalar.ofChars? (cs ++ more) with
  | some item => return item
  | none => failure

/-- Reads the items of a list, up to its bracket. -/
def listItems (item : Reader Item) : Nat → Reader (List Item)
  | 0 => failure
  | steps + 1 => do
    gap
    if (← peek) = some ']' then return []
    let x ← item
    gap
    if (← peek) = some ',' then
      char ','
      return x :: (← listItems item steps)
    else return [x]

/-- Reads a list. -/
def list (item : Reader Item) : Reader Item := do
  char '['
  let items ← listItems item (← get).length
  char ']'
  return .list items

/-- Reads a key with its value. -/
def assignment (item : Reader Item) : Reader ((List String × String) × Item) := do
  let path ← key
  char '='
  spaces
  return (path, ← item)

/-- Reads the fields of a table in braces, of which some come before. -/
def braceFields (item : Reader Item) : Nat → Fields → Reader Fields
  | 0, _ => failure
  | steps + 1, fields => do
    let ((path, last), x) ← assignment item
    spaces
    let some fields := fields.add path last x | failure
    if (← peek) = some ',' then
      char ','
      braceFields item steps fields
    else return fields

/-- Reads a table in braces. -/
def braces (item : Reader Item) : Reader Item := do
  char '{'
  spaces
  let fields ← if (← peek) = some '}' then pure [] else braceFields item (← get).length []
  char '}'
  return .table .braces fields

/-- Reads a value that holds no others. -/
def simple : Reader Item := do
  match ← peek with
  | some '"' | some '\'' => .text <$> quoted
  | _ => bare

/-- Reads a value that holds others only down to a number of levels. -/
def item : Nat → Reader Item
  | 0 => simple
  | levels + 1 => do
    match ← peek with
    | some '[' => list (item levels)
    | some '{' => braces (item levels)
    | _ => simple

end Reader

/-- The part of a document that has been read, and the path of the table that was opened last. -/
structure Document where
  fields : Fields := []
  opened : List String := []
  deriving Inhabited

namespace Document

/-- Reads a header. -/
def header (d : Document) : Reader Document := do
  let isRepeated := (← get).take 2 == ['[', '[']
  let brackets := if isRepeated then 2 else 1
  Reader.chars (List.replicate brackets '[')
  let (path, last) ← Reader.key
  Reader.chars (List.replicate brackets ']')
  Reader.lineEnd
  let openIt := if isRepeated then Fields.openRepeated else Fields.openTable
  match openIt path last d.fields with
  | some fields => return ⟨fields, path ++ [last]⟩
  | none => failure

/-- Reads a line with a key and a value. -/
def field (d : Document) : Reader Document := do
  let ((path, last), x) ← Reader.assignment (Reader.item (Reader.maxLevels - 1))
  Reader.lineEnd
  match d.fields.addBelow d.opened path last x with
  | some fields => return { d with fields }
  | none => failure

/-- Reads a line. -/
def line (d : Document) : Reader Document := do
  Reader.spaces
  match ← Reader.peek with
  | some '[' => d.header
  | none | some '\n' | some '\r' | some '#' => do Reader.lineEnd; return d
  | some _ => d.field

/-- Reads lines up to the end of the text. -/
def lines : Nat → Document → Reader Document
  | 0, d => do Reader.atEnd; return d
  | steps + 1, d => do
    if (← get).isEmpty then return d else lines steps (← d.line)

end Document

/-- The fields of a document; a byte order mark may come first. -/
def fields? (text : String) : Option Fields := do
  let cs := match text.toList with
    | '\ufeff' :: cs => cs
    | cs => cs
  let (d, _) ← StateT.run (Document.lines cs.length {}) cs
  return d.fields

end Variation.Toml
