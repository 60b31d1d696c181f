import Variation.Reading.Outline
import Variation.Toml.Document

/-!
# Settings in a file

The options of reading can be set in the table `parse` of a TOML document. What is not set keeps its
default, and keys that are no options are ignored.
-/

namespace Variation.Reading.Options

/-- The value of a switch that may be missing. -/
def switch? : Option Toml.Item → Option Bool
  | none => some false
  | some (.boolean b) => some b
  | some _ => none

/-- The options that an item sets: a table by name, a list by position. A date has no fields, so it
sets nothing. -/
def ofItem? : Toml.Item → Option Options
  | .table _ fields => do
    return ⟨← switch? (fields.lookup "collapse_multiple_code_lines"),
      ← switch? (fields.lookup "ignore_empty_lines")⟩
  | .list items => do return ⟨← switch? items[0]?, ← switch? items[1]?⟩
  | .moment _ => some {}
  | _ => none

/-- The options that a document sets, if it is well-formed. -/
def ofDocument? (text : String) : Option Options := do
  match (← Toml.fields? text).lookup "parse" with
  | none => return {}
  | some item => ofItem? item

/-- The options with some of them switched on. -/
def switchOn (o : Options) (collapse skipBlank : Bool) : Options :=
  ⟨o.collapse || collapse, o.skipBlank || skipBlank⟩

end Variation.Reading.Options
