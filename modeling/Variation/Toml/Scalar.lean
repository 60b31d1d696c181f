import Variation.Text.Numeral
import Variation.Toml.Item

/-!
# Scalars

The values that are written without quotes: truth values, integers, numbers with a fraction or an
exponent, and dates and times. Single underscores may separate digits.
-/

namespace Variation.Toml.Scalar

/-- The digits of a base without the underscores between them. The flag tells whether a digit comes
before the text. -/
def ungroup? (base : Nat) : Bool → List Char → Option (List Char)
  | true, [] => some []
  | false, [] => none
  | afterDigit, c :: cs =>
    if Text.isDigitOf base c then (c :: ·) <$> ungroup? base true cs
    else if c = '_' ∧ afterDigit then ungroup? base false cs
    else none

/-- The digits of a number, without underscores. -/
def digits? (base : Nat) (cs : List Char) : Option (List Char) := ungroup? base false cs

/-- The decimal digits of a number that has no zero in front. -/
def leadingDigits? (cs : List Char) : Option (List Char) := do
  match ← digits? 10 cs with
  | '0' :: _ :: _ => none
  | ds => some ds

/-- Whether a text begins with a minus sign, and the text without its sign. -/
def unsigned : List Char → Bool × List Char
  | '-' :: cs => (true, cs)
  | '+' :: cs => (false, cs)
  | cs => (false, cs)

/-- An integer, if it fits into 64 bits with a sign. -/
def inRange? (n : Int) : Option Int :=
  if -9223372036854775808 ≤ n ∧ n ≤ 9223372036854775807 then some n else none

/-- Reads an integer. -/
def integer? (cs : List Char) : Option Int := do
  match cs with
  | '0' :: 'x' :: ds => inRange? (← Text.numeral? 16 (← digits? 16 ds))
  | '0' :: 'o' :: ds => inRange? (← Text.numeral? 8 (← digits? 8 ds))
  | '0' :: 'b' :: ds => inRange? (← Text.numeral? 2 (← digits? 2 ds))
  | _ =>
    let (isNegative, ds) := unsigned cs
    let n ← Text.numeral? 10 (← leadingDigits? ds)
    inRange? (if isNegative then -n else n)

/-- Whether a number is too large for a double: at least half a unit above the largest one. -/
def isTooLarge (mantissa : List Char) (exponent : Int) : Bool :=
  let ds := mantissa.dropWhile (· == '0')
  let size := ds.length + exponent
  if ds.isEmpty ∨ size < 300 then false
  else if 320 < size then true
  else
    let n := (Text.numeral? 10 ds).getD 0
    (Nat.pow 2 1024 - Nat.pow 2 970) * Nat.pow 10 (-exponent).toNat ≤ n * Nat.pow 10 exponent.toNat

/-- Whether a character opens an exponent. -/
def isExponentMark (c : Char) : Bool := c == 'e' || c == 'E'

/-- The digits behind the point, or none if there is no point, and the rest. -/
def fraction? : List Char → Option (List Char × List Char)
  | '.' :: cs => do
    let (ds, rest) := cs.span fun c => !isExponentMark c
    return (← digits? 10 ds, rest)
  | cs => some ([], cs)

/-- The exponent, or zero if there is none. -/
def exponent? : List Char → Option Int
  | [] => some 0
  | c :: cs => do
    if !isExponentMark c then none
    let (isNegative, ds) := unsigned cs
    let n ← Text.numeral? 10 (← digits? 10 ds)
    return if isNegative then -n else n

/-- Whether a text is a number with a fraction or an exponent, or the name of a number that is not
finite. -/
def isFloat (cs : List Char) : Bool :=
  let (isNegative, body) := unsigned cs
  body == ['i', 'n', 'f'] || body == ['n', 'a', 'n'] ||
    let (whole, rest) := body.span fun c => c != '.' && !isExponentMark c
    (!rest.isEmpty &&
      ((do
        let whole ← leadingDigits? whole
        let (fraction, rest) ← fraction? rest
        let exponent ← exponent? rest
        return isNegative || !isTooLarge (whole ++ fraction) (exponent - fraction.length)).getD
          false))

/-- The number that two digits write. -/
def pair? (c d : Char) : Option Nat := Text.numeral? 10 [c, d]

/-- The number of days of a month. -/
def daysIn (year month : Nat) : Nat :=
  if month = 2 then
    if year % 4 = 0 ∧ (year % 100 ≠ 0 ∨ year % 400 = 0) then 29 else 28
  else if month = 4 ∨ month = 6 ∨ month = 9 ∨ month = 11 then 30
  else 31

/-- Whether a text is a date. -/
def isDate : List Char → Bool
  | [a, b, c, d, '-', e, f, '-', g, h] =>
    match Text.numeral? 10 [a, b, c, d], pair? e f, pair? g h with
    | some year, some month, some day =>
      1 ≤ month && month ≤ 12 && 1 ≤ day && day ≤ daysIn year month
    | _, _, _ => false
  | _ => false

/-- Whether two digits write a number up to a limit. -/
def isPairUpTo (limit : Nat) (c d : Char) : Bool := (pair? c d).any (· ≤ limit)

/-- Whether a text is empty or the distance of a clock from universal time. -/
def isOffset : List Char → Bool
  | [] | ['Z'] | ['z'] => true
  | [sign, a, b, ':', c, d] =>
    (sign == '+' || sign == '-') && isPairUpTo 23 a b && isPairUpTo 59 c d
  | _ => false

/-- Whether a text is a time; the test decides on what may follow its seconds. -/
def isTime (follows : List Char → Bool) : List Char → Bool
  | a :: b :: ':' :: c :: d :: ':' :: e :: f :: rest =>
    isPairUpTo 23 a b && isPairUpTo 59 c d && isPairUpTo 60 e f &&
      match rest with
      | '.' :: cs => !(cs.takeWhile Char.isDigit).isEmpty && follows (cs.dropWhile Char.isDigit)
      | cs => follows cs
  | _ => false

/-- Whether a text is a date followed by a time, with the given separators allowed. -/
def isDateTime (separators : List Char) (cs : List Char) : Bool :=
  isDate (cs.take 10) &&
    match cs.drop 10 with
    | c :: rest => separators.contains c && isTime isOffset rest
    | [] => false

/-- Whether a text is a date, a time or both. -/
def isMoment (cs : List Char) : Bool :=
  isDate cs || isTime List.isEmpty cs || isDateTime ['T', 't', ' '] cs

/-- The value that a text without quotes stands for. -/
def ofChars? (cs : List Char) : Option Item :=
  if cs = ['t', 'r', 'u', 'e'] then some (.boolean true)
  else if cs = ['f', 'a', 'l', 's', 'e'] then some (.boolean false)
  else if isMoment cs then some (.moment (String.ofList cs))
  else if isFloat cs then some (.float (String.ofList cs))
  else .integer <$> integer? cs

end Variation.Toml.Scalar
