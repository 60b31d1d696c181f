/-!
# Comments

A comment runs from `/*` to the next `*/`, or from `//` to the end. Two questions are asked about
them: what a line says without its comments, and whether a line leaves a comment open.
-/

namespace Variation.Condition

mutual

/-- The text without comments; a space takes the place of each block comment, and one that never
ends takes the rest of the text with it. -/
def withoutComments : List Char → List Char
  | '/' :: '*' :: cs => ' ' :: afterComment cs
  | '/' :: '/' :: _ => []
  | c :: cs => c :: withoutComments cs
  | [] => []

/-- What follows the end of the block comment in which the text starts, without comments. -/
def afterComment : List Char → List Char
  | '*' :: '/' :: cs => withoutComments cs
  | _ :: cs => afterComment cs
  | [] => []

end

/-- Whether two characters in a row open a comment or end one. -/
def delimiter? : Char → List Char → Option Bool
  | '/', '*' :: _ => some true
  | '*', '/' :: _ => some false
  | _, _ => none

/-- Whether the last delimiter of a block comment in a line opens one; nothing if there is none. -/
def lastDelimiterOpens? : List Char → Option Bool
  | [] => none
  | c :: cs => (lastDelimiterOpens? cs).or (delimiter? c cs)

end Variation.Condition
