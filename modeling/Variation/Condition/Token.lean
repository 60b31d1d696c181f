import Variation.Text.Blank

/-!
# Tokens of a condition

A condition is cut into operators, brackets, names, numbers and other characters. Each token keeps
the blanks in front of it, so that the text of several tokens in a row can be written again.
-/

namespace Variation.Condition

/-- What a token is. -/
inductive TokenKind where
  | or
  | and
  | not
  | opening
  | closing
  | name
  | number
  | other
  deriving DecidableEq, Inhabited

/-- A token with the blanks in front of it. -/
structure Token where
  kind : TokenKind
  gap : List Char
  chars : List Char
  deriving DecidableEq, Inhabited

/-- The text of a token. -/
def Token.text (k : Token) : String := String.ofList k.chars

/-- The blanks that separate tokens: space, tab, line feed, form feed and carriage return. -/
def isGap (c : Char) : Bool :=
  c == ' ' || c == '\t' || c == '\n' || c == '\x0c' || c == '\r'

/-- Whether a name may begin with a character. -/
def beginsName (c : Char) : Bool := c.isAlpha || c == '_'

/-- Whether a name may go on with a character. -/
def continuesName (c : Char) : Bool := c.isAlphanum || c == '_'

/-- Whether a number may go on with a character. -/
def continuesNumber (c : Char) : Bool := c.isAlphanum || c == '.'

/-- The kind and the length of the token at the beginning of a text. -/
def nextToken : List Char → TokenKind × Nat
  | '|' :: '|' :: _ => (.or, 2)
  | '&' :: '&' :: _ => (.and, 2)
  | '!' :: '=' :: _ => (.other, 2)
  | '=' :: '=' :: _ => (.other, 2)
  | '<' :: '=' :: _ => (.other, 2)
  | '>' :: '=' :: _ => (.other, 2)
  | '<' :: '<' :: _ => (.other, 2)
  | '>' :: '>' :: _ => (.other, 2)
  | '!' :: _ => (.not, 1)
  | '(' :: _ => (.opening, 1)
  | ')' :: _ => (.closing, 1)
  | c :: cs =>
    if beginsName c then (.name, 1 + (cs.takeWhile continuesName).length)
    else if c.isDigit then (.number, 1 + (cs.takeWhile continuesNumber).length)
    else (.other, 1)
  | [] => (.other, 0)

/-- Cuts a text that follows some blanks; every step takes at least one character. -/
def tokensFrom : Nat → List Char → List Char → List Token
  | 0, _, _ => []
  | _ + 1, _, [] => []
  | steps + 1, gap, c :: cs =>
    if isGap c then
      tokensFrom steps (gap ++ [c]) cs
    else
      let (kind, length) := nextToken (c :: cs)
      ⟨kind, gap, (c :: cs).take length⟩ :: tokensFrom steps [] ((c :: cs).drop length)

/-- The tokens of a text. -/
def tokens (cs : List Char) : List Token := tokensFrom cs.length [] cs

/-- The text of several tokens in a row, without the blanks in front of the first one. -/
def span : List Token → List Char
  | [] => []
  | k :: ks => k.chars ++ ks.flatMap fun k => k.gap ++ k.chars

end Variation.Condition
