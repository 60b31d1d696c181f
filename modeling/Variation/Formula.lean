/-!
# Propositional formulas

Conditions are propositional formulas over literals named by text. `text` writes a formula and
`holds` gives its truth value under an assignment; the constructors `negate`, `conj` and `disj`
simplify as they build, and the statements at the end say that they keep the meaning.
-/

namespace Variation

/-- A propositional formula. -/
inductive Formula where
  | const (value : Bool)
  | literal (name : String)
  | neg (body : Formula)
  | all (clauses : List Formula)
  | any (clauses : List Formula)
  deriving Inhabited

namespace Formula

mutual

/-- Whether two formulas are the same tree. -/
def same : Formula → Formula → Bool
  | const a, const b => a == b
  | literal a, literal b => a == b
  | neg a, neg b => same a b
  | all as, all bs => sameAll as bs
  | any as, any bs => sameAll as bs
  | _, _ => false

/-- Whether two lists of formulas are the same trees in the same order. -/
def sameAll : List Formula → List Formula → Bool
  | [], [] => true
  | a :: as, b :: bs => same a b && sameAll as bs
  | _, _ => false

end

mutual

theorem same_iff : (f g : Formula) → (same f g = true ↔ f = g)
  | const a, g => by cases g <;> simp [same]
  | literal a, g => by cases g <;> simp [same]
  | neg a, g => by
      cases g with
      | neg b => simp [same, same_iff a b]
      | _ => simp [same]
  | all as, g => by
      cases g with
      | all bs => simp [same, sameAll_iff as bs]
      | _ => simp [same]
  | any as, g => by
      cases g with
      | any bs => simp [same, sameAll_iff as bs]
      | _ => simp [same]

theorem sameAll_iff : (fs gs : List Formula) → (sameAll fs gs = true ↔ fs = gs)
  | [], gs => by cases gs <;> simp [sameAll]
  | f :: fs, gs => by
      cases gs with
      | nil => simp [sameAll]
      | cons g gs => simp [sameAll, same_iff f g, sameAll_iff fs gs]

end

instance : DecidableEq Formula := fun f g => decidable_of_iff _ (same_iff f g)

/-- Whether a formula needs brackets below another operator. -/
def isCompound : Formula → Bool
  | all _ | any _ => true
  | _ => false

/-- Puts brackets around the text of a compound formula. -/
def bracket (f : Formula) (t : String) : String := if f.isCompound then "(" ++ t ++ ")" else t

mutual

/-- The written form of a formula. -/
def text : Formula → String
  | const true => "True"
  | const false => "False"
  | literal name => name
  | neg body => "!" ++ body.bracket body.text
  | all clauses => String.intercalate " & " (operands clauses)
  | any clauses => String.intercalate " | " (operands clauses)

/-- The written forms of the operands of a junction. -/
def operands : List Formula → List String
  | [] => []
  | f :: fs => f.bracket f.text :: operands fs

end

mutual

/-- The literals of a formula from left to right, repetitions included. -/
def occurrences : Formula → List String
  | const _ => []
  | literal name => [name]
  | neg body => body.occurrences
  | all clauses => occurrencesAll clauses
  | any clauses => occurrencesAll clauses

/-- The literals of several formulas from left to right. -/
def occurrencesAll : List Formula → List String
  | [] => []
  | f :: fs => f.occurrences ++ occurrencesAll fs

end

/-- The literals of a formula, each once, in the order of their first occurrence. -/
def literals (f : Formula) : List String := f.occurrences.eraseDups

/-- The opposite formula; constants flip and a double negation disappears. -/
def negate : Formula → Formula
  | const b => const !b
  | neg body => body
  | f => neg f

/-- The conjunction of a list: no clause gives truth and a single clause stands for itself. -/
def conj : List Formula → Formula
  | [] => const true
  | [f] => f
  | fs => all fs

/-- The disjunction of a list: no clause gives falsehood and a single clause stands for itself. -/
def disj : List Formula → Formula
  | [] => const false
  | [f] => f
  | fs => any fs

mutual

/-- The truth value of a formula under an assignment of its literals. -/
def holds (v : String → Bool) : Formula → Bool
  | const b => b
  | literal name => v name
  | neg body => !body.holds v
  | all clauses => holdsAll v clauses
  | any clauses => holdsAny v clauses

/-- Whether every formula of a list is true. -/
def holdsAll (v : String → Bool) : List Formula → Bool
  | [] => true
  | f :: fs => f.holds v && holdsAll v fs

/-- Whether some formula of a list is true. -/
def holdsAny (v : String → Bool) : List Formula → Bool
  | [] => false
  | f :: fs => f.holds v || holdsAny v fs

end

theorem holdsAll_eq (v : String → Bool) (fs : List Formula) :
    holdsAll v fs = fs.all (·.holds v) := by
  induction fs with
  | nil => simp [holdsAll]
  | cons f fs ih => simp [holdsAll, ih]

theorem holdsAny_eq (v : String → Bool) (fs : List Formula) :
    holdsAny v fs = fs.any (·.holds v) := by
  induction fs with
  | nil => simp [holdsAny]
  | cons f fs ih => simp [holdsAny, ih]

@[simp] theorem holds_negate (v : String → Bool) (f : Formula) :
    f.negate.holds v = !f.holds v := by
  cases f <;> simp [negate, holds]

@[simp] theorem holds_conj (v : String → Bool) (fs : List Formula) :
    (conj fs).holds v = fs.all (·.holds v) := by
  match fs with
  | [] => simp [conj, holds]
  | [f] => simp [conj]
  | f :: g :: fs => simp [conj, holds, holdsAll_eq]

@[simp] theorem holds_disj (v : String → Bool) (fs : List Formula) :
    (disj fs).holds v = fs.any (·.holds v) := by
  match fs with
  | [] => simp [disj, holds]
  | [f] => simp [disj]
  | f :: g :: fs => simp [disj, holds, holdsAny_eq]

end Formula

end Variation
