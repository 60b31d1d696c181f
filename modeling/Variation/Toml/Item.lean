/-!
# TOML documents

A document is a table of items. A table remembers how it came to be, because that decides what may
still be added to it: a header never opens a table twice, a dotted key never enters a table that has
a header, and nothing enters a table in braces.
-/

namespace Variation.Toml

/-- How a table came to be. -/
inductive Origin where
  /-- It has a header of its own, or is the whole document. -/
  | header
  /-- It is an inner part of a dotted key. -/
  | dotted
  /-- It is an inner part of a header. -/
  | implied
  /-- It is written in braces. -/
  | braces
  deriving DecidableEq, Inhabited

/-- A part of a document. -/
inductive Item where
  | text (s : String)
  | boolean (b : Bool)
  | integer (n : Int)
  /-- A number with a fraction or an exponent, as it is written. -/
  | float (written : String)
  /-- A date, a time or both, as it is written. -/
  | moment (written : String)
  | list (items : List Item)
  | table (origin : Origin) (fields : List (String × Item))
  /-- Tables that repeat one header. -/
  | repeated (tables : List (List (String × Item)))
  deriving Inhabited

/-- The named items of a table. -/
abbrev Fields := List (String × Item)

namespace Fields

/-- Replaces an item, or adds it at the end. -/
def put (key : String) (item : Item) : Fields → Fields
  | [] => [(key, item)]
  | (k, x) :: fields => if k = key then (k, item) :: fields else (k, x) :: put key item fields

theorem lookup_put (key k : String) (item : Item) (fields : Fields) :
    (put key item fields).lookup k = if k = key then some item else fields.lookup k := by
  induction fields with
  | nil => grind [put]
  | cons field fields ih => grind [put]

/-- Follows a path of keys into nested tables and changes the fields of the last one. A table that
is missing is made, with the given origin; only a header's path may enter a table that has a header,
and in a row of repeated tables it is the last one that is entered. -/
def alter (missing : Origin) (act : Origin → Fields → Option Fields) :
    List String → Origin → Fields → Option Fields
  | [], origin, fields => act origin fields
  | key :: path, _, fields =>
    match fields.lookup key with
    | none => do
      let inner ← alter missing act path missing []
      return fields.put key (.table missing inner)
    | some (.table .braces _) => none
    | some (.table origin inner) =>
      if missing = .dotted ∧ origin = .header then none
      else do
        let inner ← alter missing act path origin inner
        return fields.put key (.table origin inner)
    | some (.repeated tables) => do
      let last ← tables.getLast?
      let inner ← alter missing act path .header last
      return fields.put key (.repeated (tables.dropLast ++ [inner]))
    | some _ => none

/-- Adds an item under a dotted key, which must be new. The tables that the key goes through must
not have come to be otherwise. -/
def add (path : List String) (key : String) (item : Item) (fields : Fields) : Option Fields :=
  alter .dotted
    (fun origin inner =>
      if (path.isEmpty ∨ origin = .dotted) ∧ (inner.lookup key).isNone then
        some (put key item inner)
      else none)
    path .header fields

/-- Opens the table of a header. -/
def openTable (path : List String) (key : String) (fields : Fields) : Option Fields :=
  alter .implied
    (fun _ inner =>
      match inner.lookup key with
      | none => some (inner.put key (.table .header []))
      | some (.table .implied fields) => some (inner.put key (.table .header fields))
      | some _ => none)
    path .header fields

/-- Opens one more table of a repeated header. -/
def openRepeated (path : List String) (key : String) (fields : Fields) : Option Fields :=
  alter .implied
    (fun _ inner =>
      match inner.lookup key with
      | none => some (inner.put key (.repeated [[]]))
      | some (.repeated tables) => some (inner.put key (.repeated (tables ++ [[]])))
      | some _ => none)
    path .header fields

/-- Adds an item under a dotted key to the table that was opened last, whose path is given. -/
def addBelow (opened : List String) (path : List String) (key : String) (item : Item)
    (fields : Fields) : Option Fields :=
  alter .implied (fun _ inner => add path key item inner) opened .header fields

end Fields

end Variation.Toml
