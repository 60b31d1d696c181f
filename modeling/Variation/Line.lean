import Variation.Change

/-!
# Line positions

A `Position` is a place in a diff together with the places it corresponds to in the file before and
in the file after the edit. Line numbers are 32-bit signed integers: arithmetic that leaves their
range has no result, and `none` says so. A place that does not apply holds `invalidLine`.
-/

namespace Variation

/-- The number that stands for a line that does not apply. -/
def invalidLine : Int := -1

/-- Whether a number is a 32-bit signed integer. -/
def FitsLine (n : Int) : Prop := -2147483648 ≤ n ∧ n ≤ 2147483647

instance (n : Int) : Decidable (FitsLine n) := inferInstanceAs (Decidable (_ ∧ _))

/-- The line number itself, if it stays in range. -/
def lineNumber? (n : Int) : Option Int := if FitsLine n then some n else none

theorem lineNumber?_eq_some_iff {n m : Int} : lineNumber? n = some m ↔ n = m ∧ FitsLine m := by
  unfold lineNumber?
  split
  · constructor
    · intro h; cases h; exact ⟨rfl, by assumption⟩
    · rintro ⟨rfl, -⟩; rfl
  · constructor
    · intro h; cases h
    · rintro ⟨rfl, h⟩; contradiction

/-- A place in a diff and in the files before and after the edit. -/
structure Position where
  /-- The line of the diff. -/
  diff : Int
  /-- The line of the file before the edit. -/
  before : Int
  /-- The line of the file after the edit. -/
  after : Int
  deriving DecidableEq, Inhabited

namespace Position

/-- The place in front of the first line. -/
def start : Position := ⟨0, 0, 0⟩

/-- The place that applies nowhere. -/
def invalid : Position := ⟨invalidLine, invalidLine, invalidLine⟩

/-- Moves by a number of lines of the given change: the diff always moves, a file only if such
lines are in it. -/
def shift? (p : Position) (n : Int) (c : Change) : Option Position := do
  let diff ← lineNumber? (p.diff + n)
  let before ← lineNumber? (p.before + if c = .added then 0 else n)
  let after ← lineNumber? (p.after + if c = .removed then 0 else n)
  return ⟨diff, before, after⟩

/-- Moves all three places by a number of lines. -/
def add? (p : Position) (n : Int) : Option Position := p.shift? n .unchanged

/-- Forgets the place in the file in which something of this change is missing. -/
def restrict (p : Position) (c : Change) : Position where
  diff := p.diff
  before := if c = .added then invalidLine else p.before
  after := if c = .removed then invalidLine else p.after

/-- The line of the file at a time. -/
def get (p : Position) (t : Time) : Int := t.select p.before p.after

/-- Replaces the line of the diff. -/
def setDiff (p : Position) (n : Int) : Position := { p with diff := n }

/-- Replaces the line of the file at a time. -/
def set (p : Position) (n : Int) : Time → Position
  | .before => { p with before := n }
  | .after => { p with after := n }

/-- The place of the same line in the file at a time, seen as a diff that changes nothing. -/
def collapse (p : Position) (t : Time) : Position := ⟨p.get t, p.get t, p.get t⟩

/-- The written form of a place. -/
def text (p : Position) : String :=
  "(old: " ++ toString p.before ++ ", diff: " ++ toString p.diff ++ ", new: " ++ toString p.after ++
    ")"

@[simp] theorem restrict_unchanged (p : Position) : p.restrict .unchanged = p := rfl

@[simp] theorem get_set_self (p : Position) (n : Int) (t : Time) : (p.set n t).get t = n := by
  cases t <;> rfl

@[simp] theorem get_collapse (p : Position) (t u : Time) : (p.collapse t).get u = p.get t := by
  cases u <;> rfl

theorem get_restrict (p : Position) (c : Change) (t : Time) :
    (p.restrict c).get t = if c.existsAt t then p.get t else invalidLine := by
  cases c <;> cases t <;> rfl

end Position

/-- The lines from one line number up to, but not including, another. -/
structure LineRange where
  first : Int
  stop : Int
  deriving DecidableEq, Inhabited

namespace LineRange

/-- The lines of the diff between two places. -/
def inDiff (start stop : Position) : LineRange := ⟨start.diff, stop.diff⟩

/-- The lines of the file at a time between two places. -/
def atTime (start stop : Position) (t : Time) : LineRange := ⟨start.get t, stop.get t⟩

/-- One line alone. -/
def single? (n : Int) : Option LineRange := (lineNumber? (n + 1)).map (⟨n, ·⟩)

/-- The number of lines; a range that ends before it starts has none. -/
def length? (r : LineRange) : Option Nat := (lineNumber? (r.stop - r.first)).map Int.toNat

/-- Whether no line is in the range. -/
def isEmpty? (r : LineRange) : Option Bool := r.length?.map (· == 0)

/-- The written form of a range. -/
def text (r : LineRange) : String :=
  "[" ++ toString r.first ++ ", " ++ toString r.stop ++ ")"

end LineRange

end Variation
