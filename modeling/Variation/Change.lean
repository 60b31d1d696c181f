import Variation.Time

/-!
# What an edit does to a line

A line is added, removed or left unchanged, and that alone decides at which times it exists. The
statements below tie the three kinds to their times: a change is determined by the set of times at
which it exists, and each non-empty set of times belongs to exactly one change.
-/

namespace Variation

/-- How the edit treats a line or a node. -/
inductive Change where
  | added
  | removed
  | unchanged
  deriving DecidableEq, Inhabited

namespace Change

/-- All changes in the order of their ordinals. -/
def all : List Change := [added, removed, unchanged]

/-- The number that stands for a change in a packed identifier. -/
def ordinal : Change → Nat
  | added => 0
  | removed => 1
  | unchanged => 2

/-- The change with a given ordinal. -/
def ofOrdinal? (n : Nat) : Option Change := all.find? (·.ordinal == n)

@[simp] theorem ofOrdinal?_ordinal (c : Change) : ofOrdinal? c.ordinal = some c := by
  cases c <;> rfl

theorem ordinal_lt (c : Change) : c.ordinal < 3 := by cases c <;> decide

/-- The character that opens a diff line of this change. -/
def symbol : Change → Char
  | added => '+'
  | removed => '-'
  | unchanged => ' '

/-- The written form of a change. -/
def name : Change → String
  | added => "ADD"
  | removed => "REM"
  | unchanged => "NON"

/-- Reads the name of a change in any mixture of upper and lower case. -/
def ofName? (s : String) : Option Change := all.find? (·.name.toLower == s.toLower)

/-- The change that a diff line announces with its first character; an empty line is an
unchanged empty line. -/
def ofDiffLine? : List Char → Option Change
  | [] => some unchanged
  | ' ' :: _ => some unchanged
  | '+' :: _ => some added
  | '-' :: _ => some removed
  | _ :: _ => none

/-- Whether something with this change is there at a time. -/
def existsAt : Change → Time → Bool
  | unchanged, _ => true
  | added, t => t == .after
  | removed, t => t == .before

/-- The change of what is there at one time only. -/
def onlyAt : Time → Change
  | .before => removed
  | .after => added

/-- The change of what is there at exactly the given times. -/
def ofTimes? (ts : List Time) : Option Change :=
  match ts.contains .before, ts.contains .after with
  | true, true => some unchanged
  | true, false => some removed
  | false, true => some added
  | false, false => none

/-- The change seen when the edit is undone. -/
def inverse : Change → Change
  | added => removed
  | removed => added
  | unchanged => unchanged

/-- The times at which something with this change is there, in order. -/
def times (c : Change) : List Time := Time.all.filter c.existsAt

/-- Runs an action for each time of existence, in order, up to the first failure. -/
def forTimes [Monad m] (c : Change) (act : Time → m Unit) : m Unit := c.times.forM act

@[simp] theorem mem_times {c : Change} {t : Time} : t ∈ c.times ↔ c.existsAt t = true := by
  simp [times]

@[simp] theorem inverse_inverse (c : Change) : c.inverse.inverse = c := by cases c <;> rfl

theorem existsAt_inverse (c : Change) (t : Time) : c.inverse.existsAt t = c.existsAt t.other := by
  cases c <;> cases t <;> rfl

@[simp] theorem existsAt_onlyAt (t u : Time) : (onlyAt t).existsAt u = (u == t) := by
  cases t <;> cases u <;> rfl

@[simp] theorem ofTimes?_times (c : Change) : ofTimes? c.times = some c := by cases c <;> rfl

theorem existsAt_or (c : Change) : c.existsAt .before = true ∨ c.existsAt .after = true := by
  cases c <;> simp [existsAt]

theorem eq_unchanged_iff (c : Change) : c = unchanged ↔ ∀ t, c.existsAt t = true := by
  constructor
  · rintro rfl t; rfl
  · intro h
    cases c with
    | added => exact absurd (h .before) (by decide)
    | removed => exact absurd (h .after) (by decide)
    | unchanged => rfl

end Change

end Variation
