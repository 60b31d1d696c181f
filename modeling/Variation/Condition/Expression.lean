import Variation.Condition.Token
import Variation.Fault
import Variation.Text.Numeral

/-!
# Conditions as formulas

A condition joins operands by `||` and `&&`, of which the second binds tighter. An operand is
negated, bracketed, a test that a name is defined, or an atom: a run of tokens up to the next
operator or closing bracket outside of its own brackets. A single name is a literal and a single
integer a truth value; any other atom is a literal whose name is the text of the run.
-/

namespace Variation.Condition

/-- The number that digits write, if it fits into 64 bits. -/
def constant? (base : Nat) (cs : List Char) : Option Nat :=
  (Text.numeral? base cs).filter (· < 18446744073709551616)

/-- The text without the letters at its end that only tell the type of an integer. -/
def withoutTypeLetters (cs : List Char) : List Char :=
  (cs.reverse.dropWhile fun c => c == 'u' || c == 'U' || c == 'l' || c == 'L').reverse

/-- The value of an integer constant. -/
def integer? (cs : List Char) : Option Nat :=
  match withoutTypeLetters cs with
  | '0' :: 'x' :: ds => constant? 16 ds
  | '0' :: 'X' :: ds => constant? 16 ds
  | ds => constant? 10 ds

/-- The failure at a token that does not fit. -/
def unexpected (text : String) (k : Token) : ParseFault :=
  .malformedFormula ("unexpected '" ++ k.text ++ "' in '" ++ text ++ "'")

/-- The failure at the end of the condition. -/
def unexpectedEnd (text : String) : ParseFault :=
  .malformedFormula ("unexpected end of '" ++ text ++ "'")

/-- The failure of a bracket that is not closed. -/
def missingBracket (text : String) : ParseFault :=
  .malformedFormula ("missing ')' in '" ++ text ++ "'")

/-- Reads over a closing bracket. -/
def closeBracket (text : String) : List Token → Except ParseFault (List Token)
  | [] => .error (missingBracket text)
  | k :: ks => if k.kind = .closing then .ok ks else .error (unexpected text k)

/-- Splits off the run of tokens that ends in front of an operator or closing bracket outside of the
brackets in the run; gives also the number of brackets left open. -/
def atomRun : Nat → List Token → List Token × List Token × Nat
  | depth, [] => ([], [], depth)
  | depth, k :: ks =>
    let stop := ([], k :: ks, depth)
    let go (depth : Nat) :=
      let (run, rest, left) := atomRun depth ks
      (k :: run, rest, left)
    match k.kind, depth with
    | .or, 0 | .and, 0 | .closing, 0 => stop
    | .closing, depth + 1 => go depth
    | .opening, depth => go (depth + 1)
    | _, depth => go depth

/-- The formula that a run of tokens stands for. -/
def atomFormula (run : List Token) : Formula :=
  let whole := Formula.literal (Text.squeeze (span run))
  match run with
  | [k] =>
    if k.kind = .name then .literal k.text
    else if k.kind = .number then
      match integer? k.chars with
      | some value => .const (value != 0)
      | none => whole
    else whole
  | _ => whole

/-- Reads an atom. -/
def atom (text : String) (ks : List Token) : Except ParseFault (Formula × List Token) :=
  match atomRun 0 ks with
  | (run, rest, 0) => .ok (atomFormula run, rest)
  | (_, _, _ + 1) => .error (missingBracket text)

/-- Reads the name in a test that it is defined. -/
def definedName (text : String) : List Token → Except ParseFault (String × List Token)
  | [] => .error (unexpectedEnd text)
  | k :: ks => if k.kind = .name then .ok (k.text, ks) else .error (unexpected text k)

/-- Reads a test that a name is defined, with or without brackets. -/
def definedTest (text : String) (ks : List Token) : Except ParseFault (Formula × List Token) := do
  match ks with
  | k :: rest =>
    if k.kind = .opening then
      let (name, rest) ← definedName text rest
      return (.literal name, ← closeBracket text rest)
    else
      let (name, rest) ← definedName text ks
      return (.literal name, rest)
  | [] => .error (unexpectedEnd text)

mutual

/-- Reads operands joined by `||`. -/
def disjunction (text : String) : Nat → List Token → Except ParseFault (Formula × List Token)
  | 0, _ => .error (unexpectedEnd text)
  | steps + 1, ks => do
    let (first, ks) ← conjunction text steps ks
    let (others, ks) ← moreDisjuncts text steps ks
    return (Formula.disj (first :: others), ks)

/-- Reads the operands behind the first one of a disjunction. -/
def moreDisjuncts (text : String) :
    Nat → List Token → Except ParseFault (List Formula × List Token)
  | 0, _ => .error (unexpectedEnd text)
  | _ + 1, [] => return ([], [])
  | steps + 1, k :: ks =>
    if k.kind = .or then do
      let (next, ks) ← conjunction text steps ks
      let (others, ks) ← moreDisjuncts text steps ks
      return (next :: others, ks)
    else return ([], k :: ks)

/-- Reads operands joined by `&&`. -/
def conjunction (text : String) : Nat → List Token → Except ParseFault (Formula × List Token)
  | 0, _ => .error (unexpectedEnd text)
  | steps + 1, ks => do
    let (first, ks) ← operand text steps ks
    let (others, ks) ← moreConjuncts text steps ks
    return (Formula.conj (first :: others), ks)

/-- Reads the operands behind the first one of a conjunction. -/
def moreConjuncts (text : String) :
    Nat → List Token → Except ParseFault (List Formula × List Token)
  | 0, _ => .error (unexpectedEnd text)
  | _ + 1, [] => return ([], [])
  | steps + 1, k :: ks =>
    if k.kind = .and then do
      let (next, ks) ← operand text steps ks
      let (others, ks) ← moreConjuncts text steps ks
      return (next :: others, ks)
    else return ([], k :: ks)

/-- Reads one operand. -/
def operand (text : String) : Nat → List Token → Except ParseFault (Formula × List Token)
  | 0, _ => .error (unexpectedEnd text)
  | _ + 1, [] => .error (unexpectedEnd text)
  | steps + 1, k :: ks =>
    match k.kind with
    | .not => do
      let (body, ks) ← operand text steps ks
      return (body.negate, ks)
    | .opening => do
      let (body, ks) ← disjunction text steps ks
      return (body, ← closeBracket text ks)
    | .or | .and | .closing => .error (unexpected text k)
    | .name => if k.text = "defined" then definedTest text ks else atom text (k :: ks)
    | .number | .other => atom text (k :: ks)

end

/-- The formula of a condition. Between two tokens that are read, at most four readers call each
other. -/
def formula (cs : List Char) : Except ParseFault Formula := do
  let text := String.ofList cs
  let ks := tokens cs
  if ks.isEmpty then
    .error .missingCondition
  else
    match ← disjunction text (4 * ks.length + 4) ks with
    | (f, []) => return f
    | (_, k :: _) => .error (unexpected text k)

end Variation.Condition
