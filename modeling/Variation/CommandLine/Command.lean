import Variation.CommandLine.Arguments
import Variation.Time

/-!
# Commands

A command either does something with one diff or compares two source files. Arguments that do not
make up a command are refused as a whole.
-/

namespace Variation.CommandLine

/-- What is done with a diff. -/
inductive Task where
  | list
  | document
  | check
  | print
  | source (t : Time)
  | refine
  | simplify (moved cut collapseNested : Bool)
  deriving DecidableEq, Inhabited

/-- What a command works on. -/
inductive Job where
  | diff (path : String) (task : Task)
  | compare (before after : String)
  deriving DecidableEq, Inhabited

/-- A command with the options that all commands have. -/
structure Command where
  job : Job
  config : Option String := none
  collapse : Bool := false
  skipBlank : Bool := false
  output : Option String := none
  deriving DecidableEq, Inhabited

/-- The first words of commands. -/
inductive Verb where
  | parse
  | check
  | unparse
  | project
  | construct
  | refine
  | transform
  deriving DecidableEq, Inhabited

namespace Verb

/-- All verbs. -/
def all : List Verb := [parse, check, unparse, project, construct, refine, transform]

/-- The written form of a verb. -/
def name : Verb → String
  | parse => "parse"
  | check => "check"
  | unparse => "unparse"
  | project => "project"
  | construct => "construct"
  | refine => "refine"
  | transform => "transform"

/-- The options that go with every verb. -/
def commonOptions : List Switch := [.logFormat, .config, .collapse, .ignoreEmpty, .output]

/-- The options that go with a verb. -/
def options (v : Verb) : List Switch :=
  commonOptions ++
    match v with
    | parse => [.json]
    | project => [.time]
    | transform => [.moved, .cut, .collapseNested]
    | _ => []

/-- The task of a verb with its options. -/
def task? (v : Verb) (given : List Given) : Option Task :=
  match v with
  | parse => some (if isGiven given .json then .document else .list)
  | check => some .check
  | unparse => some .print
  | project => do
    let name ← valueOf? given .time
    .source <$> Time.all.find? (·.name == name)
  | construct => none
  | refine => some .refine
  | transform =>
    some (.simplify (isGiven given .moved) (isGiven given .cut) (isGiven given .collapseNested))

/-- The job of a verb with its options and words. -/
def job? (v : Verb) (given : List Given) (words : List String) : Option Job :=
  match v, words with
  | construct, [before, after] => some (.compare before after)
  | construct, _ => none
  | v, [path] => .diff path <$> v.task? given
  | _, _ => none

end Verb

/-- The forms in which the log can be asked for; the choice has no effect on what a command does. -/
def logFormats : List String := ["human", "json"]

/-- Whether options make sense: none is given twice, and values that must be names or paths are. -/
def areSound (given : List Given) : Bool :=
  areDistinct given &&
    (valueOf? given .logFormat).all logFormats.contains &&
    (valueOf? given .config).all (!·.isEmpty) && (valueOf? given .output).all (!·.isEmpty)

/-- The command that arguments make up. -/
def Command.ofArguments? (arguments : List String) : Option Command := do
  let (before, rest) ← scan [.logFormat] true none arguments
  let word :: rest := rest | none
  let verb ← Verb.all.find? (·.name == word)
  let (given, words) ← scan verb.options false none rest
  let job ← verb.job? given words
  if areSound before && areSound given && words.all (!·.isEmpty) then
    return {
      job
      config := valueOf? given .config
      collapse := isGiven given .collapse
      skipBlank := isGiven given .ignoreEmpty
      output := valueOf? given .output }
  else none

end Variation.CommandLine
