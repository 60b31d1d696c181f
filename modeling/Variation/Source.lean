import Variation.Time

/-!
# Where a diff comes from

A diff carries a description of its origin, which no operation looks at.
-/

namespace Variation

/-- The origin of a diff. -/
inductive Source where
  /-- Nothing is known. -/
  | unknown
  /-- A text with a name, for instance a file. -/
  | named (name : String)
  /-- The comparison of two trees. -/
  | compared (before after : Source)
  /-- Another diff, seen at one time. -/
  | projected (source : Source) (time : Time)
  deriving DecidableEq, Inhabited

/-- The written form of an origin. -/
def Source.text : Source → String
  | unknown => "unknown"
  | named name => name
  | compared before after => before.text ++ " -> " ++ after.text
  | projected source time => source.text ++ " (" ++ time.name ++ ")"

end Variation
