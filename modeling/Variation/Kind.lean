/-!
# What a node stands for

A node is a conditional annotation, another branch, a closing annotation, a run of code or the root
of the whole file.
-/

namespace Variation

/-- The kind of a node. -/
inductive Kind where
  | ifBranch
  | elseBranch
  | elifBranch
  | endMark
  | artifact
  | root
  deriving DecidableEq, Inhabited

namespace Kind

/-- All kinds in the order of their ordinals. -/
def all : List Kind := [ifBranch, elseBranch, elifBranch, endMark, artifact, root]

/-- The number that stands for a kind in a packed identifier. -/
def ordinal : Kind → Nat
  | ifBranch => 0
  | elseBranch => 1
  | elifBranch => 2
  | endMark => 3
  | artifact => 4
  | root => 5

/-- The kind with a given ordinal. -/
def ofOrdinal? (n : Nat) : Option Kind := all.find? (·.ordinal == n)

@[simp] theorem ofOrdinal?_ordinal (k : Kind) : ofOrdinal? k.ordinal = some k := by
  cases k <;> rfl

theorem ordinal_lt (k : Kind) : k.ordinal < 6 := by cases k <;> decide

/-- The keyword of a kind. -/
def keyword : Kind → String
  | ifBranch => "if"
  | elseBranch => "else"
  | elifBranch => "elif"
  | endMark => "endif"
  | artifact => "artifact"
  | root => "root"

/-- The written form of a kind, in capitals. -/
def name (k : Kind) : String := k.keyword.toUpper

/-- Reads the name of a kind in any mixture of upper and lower case. -/
def ofName? (s : String) : Option Kind := all.find? (·.keyword == s.toLower)

/-- Whether nodes of this kind carry a condition. -/
def isConditional : Kind → Bool
  | ifBranch | elifBranch => true
  | _ => false

/-- Whether nodes of this kind are annotations. -/
def annotates : Kind → Bool
  | ifBranch | elifBranch | elseBranch | endMark => true
  | _ => false

/-- Whether nodes of this kind continue a chain that another node has opened. -/
def isContinuation : Kind → Bool
  | elifBranch | elseBranch => true
  | _ => false

theorem annotates_of_isConditional {k : Kind} (h : k.isConditional = true) :
    k.annotates = true := by
  cases k <;> simp_all [isConditional, annotates]

theorem annotates_eq_false_iff {k : Kind} : k.annotates = false ↔ k = artifact ∨ k = root := by
  cases k <;> simp [annotates]

end Kind

end Variation
