/-!
# The two times of an edit

Every fact about an edited file is a fact about the file before the edit or about the file after
it. `Time` names the two moments, `Sides` holds one value for each of them, and the read-after-write
lemmas say that the two sides never interfere.
-/

namespace Variation

/-- The moment before the edit or the moment after it. -/
inductive Time where
  | before
  | after
  deriving DecidableEq, Inhabited

/-- A name that is no time, kept in lower case. -/
structure UnknownTime where
  name : String
  deriving DecidableEq

/-- What is told to the user about a name that is no time. -/
def UnknownTime.message (e : UnknownTime) : String := "unknown time: " ++ e.name

namespace Time

/-- Both times, the earlier one first. -/
def all : List Time := [before, after]

@[simp] theorem mem_all (t : Time) : t ∈ all := by cases t <;> simp [all]

/-- The opposite time. -/
def other : Time → Time
  | before => after
  | after => before

@[simp] theorem other_other (t : Time) : t.other.other = t := by cases t <;> rfl

theorem other_ne (t : Time) : t.other ≠ t := by cases t <;> decide

/-- The place of a time in `all`. -/
def index : Time → Nat
  | before => 0
  | after => 1

/-- The written form of a time. -/
def name : Time → String
  | before => "before"
  | after => "after"

/-- The choice that belongs to a time. -/
def select {α : Type u} (t : Time) (b a : α) : α :=
  match t with
  | before => b
  | after => a

/-- Reads the name of a time in any mixture of upper and lower case. -/
def ofName (s : String) : Except UnknownTime Time :=
  let lower := s.toLower
  if lower = "before" then .ok before
  else if lower = "after" then .ok after
  else .error ⟨lower⟩

end Time

/-- One value for each time. -/
structure Sides (α : Type u) where
  before : α
  after : α
  deriving DecidableEq, Inhabited

namespace Sides

variable {α : Type u} {β : Type v}

/-- The value at a time. -/
def get (s : Sides α) : Time → α
  | .before => s.before
  | .after => s.after

/-- The sides with the value at one time replaced. -/
def set (s : Sides α) (t : Time) (x : α) : Sides α :=
  match t with
  | .before => { s with before := x }
  | .after => { s with after := x }

/-- The same value at both times. -/
def both (x : α) : Sides α := ⟨x, x⟩

/-- Applies a function at both times. -/
def map (f : α → β) (s : Sides α) : Sides β := ⟨f s.before, f s.after⟩

@[simp] theorem get_both (x : α) (t : Time) : (both x).get t = x := by cases t <;> rfl

@[simp] theorem get_map (f : α → β) (s : Sides α) (t : Time) : (s.map f).get t = f (s.get t) := by
  cases t <;> rfl

@[simp] theorem get_set_self (s : Sides α) (t : Time) (x : α) : (s.set t x).get t = x := by
  cases t <;> rfl

@[simp] theorem get_set_other (s : Sides α) (t : Time) (x : α) :
    (s.set t x).get t.other = s.get t.other := by
  cases t <;> rfl

theorem get_set (s : Sides α) (t u : Time) (x : α) :
    (s.set t x).get u = if u = t then x else s.get u := by
  cases t <;> cases u <;> rfl

theorem ext_get {s r : Sides α} (h : ∀ t, s.get t = r.get t) : s = r := by
  cases s; cases r
  have hb := h .before
  have ha := h .after
  simp only [get] at hb ha
  subst hb ha
  rfl

end Sides

end Variation
