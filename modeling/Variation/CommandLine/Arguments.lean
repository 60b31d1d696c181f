/-!
# Arguments

The arguments of a command are words and options. An option is given by its long name, or by one
letter, and its value stands behind an equals sign, directly behind the letter, or in the next
argument. Two dashes alone end the options.
-/

namespace Variation.CommandLine

/-- The options. -/
inductive Switch where
  | logFormat
  | config
  | collapse
  | ignoreEmpty
  | output
  | json
  | time
  | moved
  | cut
  | collapseNested
  deriving DecidableEq, Inhabited

namespace Switch

/-- The long name of an option. -/
def long : Switch → String
  | logFormat => "log-format"
  | config => "config"
  | collapse => "collapse"
  | ignoreEmpty => "ignore-empty"
  | output => "output"
  | json => "json"
  | time => "time"
  | moved => "moved"
  | cut => "cut"
  | collapseNested => "collapse-nested"

/-- The letter of an option. -/
def letter? : Switch → Option Char
  | output => some 'o'
  | time => some 't'
  | _ => none

/-- Whether an option has a value. -/
def takesValue : Switch → Bool
  | logFormat | config | output | time => true
  | _ => false

/-- Every option with a letter has a value, so that letters never stand together. -/
theorem takesValue_of_letter? {s : Switch} {c : Char} (h : s.letter? = some c) :
    s.takesValue = true := by
  cases s <;> simp_all [letter?, takesValue]

end Switch

/-- An option with its value. -/
abbrev Given := Switch × Option String

/-- Whether an argument is read as an option: it begins with a dash and is more than that. -/
def looksLikeOption (argument : String) : Bool :=
  match argument.toList with
  | '-' :: _ :: _ => true
  | _ => false

/-- What stands behind an equals sign. -/
def behindEquals : List Char → Option String
  | '=' :: cs => some (String.ofList cs)
  | _ => none

/-- The option that an argument names, and its value if it is in the same argument. -/
def named? (allowed : List Switch) (argument : String) : Option Given := do
  match argument.toList with
  | '-' :: '-' :: cs =>
    let (name, rest) := cs.span (· != '=')
    let s ← allowed.find? (·.long.toList == name)
    return (s, behindEquals rest)
  | '-' :: c :: cs =>
    let s ← allowed.find? (·.letter? == some c)
    let value := (behindEquals cs).getD (String.ofList cs)
    return (s, if cs.isEmpty then none else some value)
  | _ => none

/-- Reads arguments, of which the first one may be the value of an option; gives the options and the
words, or, if only options are asked for, the options up to the first word and all that follows. -/
def scan (allowed : List Switch) (onlyOptions : Bool) :
    Option Switch → List String → Option (List Given × List String)
  | none, [] => some ([], [])
  | some _, [] => none
  | some s, value :: rest => do
    if looksLikeOption value then none
    let (given, words) ← scan allowed onlyOptions none rest
    return ((s, some value) :: given, words)
  | none, argument :: rest =>
    if argument = "--" then
      if onlyOptions then none else some ([], rest)
    else if looksLikeOption argument then do
      let (s, value) ← named? allowed argument
      match s.takesValue, value with
      | true, none => scan allowed onlyOptions (some s) rest
      | false, some _ => none
      | _, _ => do
        let (given, words) ← scan allowed onlyOptions none rest
        return ((s, value) :: given, words)
    else if onlyOptions then some ([], argument :: rest)
    else do
      let (given, words) ← scan allowed onlyOptions none rest
      return (given, argument :: words)

/-- Whether no option is given twice. -/
def areDistinct (given : List Given) : Bool := decide (given.map (·.1)).Nodup

/-- The value of an option. -/
def valueOf? (given : List Given) (s : Switch) : Option String := (given.lookup s).join

/-- Whether an option is given. -/
def isGiven (given : List Given) (s : Switch) : Bool := (given.lookup s).isSome

/-- Arguments without options are words. -/
theorem scan_words (allowed : List Switch) {words : List String}
    (h : ∀ w ∈ words, looksLikeOption w = false) :
    scan allowed false none words = some ([], words) := by
  induction words with
  | nil => rfl
  | cons w words ih =>
    have hw : looksLikeOption w = false := h w (by simp)
    have hd : w ≠ "--" := by
      rintro rfl
      exact absurd hw (by decide)
    simp [scan, hw, hd, ih fun v hv => h v (by simp [hv])]

end Variation.CommandLine
