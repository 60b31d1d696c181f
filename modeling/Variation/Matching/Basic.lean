import Std.Data.TreeMap
import Variation.Matching.Snapshot

/-!
# Matchings

A matching pairs entries of a source snapshot with entries of a destination snapshot, each with at
most one. Both directions are kept, and a pair is only added if neither side is taken.
-/

namespace Variation

/-- A partial injective map between indices, in both directions. -/
structure Matching where
  toDst : Std.TreeMap Nat Nat := {}
  toSrc : Std.TreeMap Nat Nat := {}
  /-- Each direction is the inverse of the other. -/
  inverse : ∀ s d : Nat, toDst[s]? = some d ↔ toSrc[d]? = some s := by simp

namespace Matching

/-- The matching without pairs. -/
def empty : Matching := {}

/-- The destination of a source. -/
def dst? (m : Matching) (s : Nat) : Option Nat := m.toDst[s]?

/-- The source of a destination. -/
def src? (m : Matching) (d : Nat) : Option Nat := m.toSrc[d]?

/-- Whether a source is paired. -/
def hasSrc (m : Matching) (s : Nat) : Bool := m.toDst.contains s

/-- Whether a destination is paired. -/
def hasDst (m : Matching) (d : Nat) : Bool := m.toSrc.contains d

/-- Whether two indices are paired with each other. -/
def has (m : Matching) (s d : Nat) : Bool := m.dst? s == some d

/-- Whether a pair is there already or can be added. -/
def admits (m : Matching) (s d : Nat) : Bool :=
  match m.dst? s, m.src? d with
  | none, none => true
  | some d', some s' => d' == d && s' == s
  | _, _ => false

/-- Both sides know each other. -/
theorem dst?_iff (m : Matching) (s d : Nat) : m.dst? s = some d ↔ m.src? d = some s := m.inverse s d

/-- Two free sides can be paired. -/
theorem inverse_insert {m : Matching} {s d : Nat} (free : m.dst? s = none ∧ m.src? d = none)
    (x y : Nat) : (m.toDst.insert s d)[x]? = some y ↔ (m.toSrc.insert d s)[y]? = some x := by
  obtain ⟨hs, hd⟩ := free
  have left : m.toSrc[y]? ≠ some s := fun h => by
    rw [(m.dst?_iff s y).2 h] at hs
    cases hs
  have right : m.toDst[x]? ≠ some d := fun h => by
    rw [(m.dst?_iff x d).1 h] at hd
    cases hd
  simp only [Std.TreeMap.getElem?_insert, Nat.compare_eq_eq]
  by_cases hx : s = x <;> by_cases hy : d = y
  · simp [hx, hy]
  · simp [← hx, hy, left]
  · simp [hx, ← hy, right]
  · rw [if_neg hx, if_neg hy, m.inverse x y]

/-- Adds a pair unless one of its sides is taken. -/
def add (m : Matching) (s d : Nat) : Matching :=
  if free : m.dst? s = none ∧ m.src? d = none then
    ⟨m.toDst.insert s d, m.toSrc.insert d s, inverse_insert free⟩
  else m

/-- Adds pairs in order. -/
def addAll (m : Matching) (ps : List (Nat × Nat)) : Matching :=
  ps.foldl (fun m p => m.add p.1 p.2) m

/-- The number of pairs. -/
def size (m : Matching) : Nat := m.toDst.size

/-- Whether there is no pair. -/
def isEmpty (m : Matching) : Bool := m.toDst.isEmpty

/-- The pairs in order of their sources. -/
def pairs (m : Matching) : List (Nat × Nat) := m.toDst.toList

/-- Whether every pair of another matching is a pair of this one. -/
def keeps (m other : Matching) : Bool := other.pairs.all fun p => m.has p.1 p.2

/-- Whether two matchings have the same pairs. -/
def same (m other : Matching) : Bool :=
  m.pairs == other.pairs && m.toSrc.toList == other.toSrc.toList

theorem dst?_add (m : Matching) (s d x : Nat) :
    (m.add s d).dst? x =
      if s = x ∧ m.dst? s = none ∧ m.src? d = none then some d else m.dst? x := by
  unfold add
  split
  · next free =>
    simp only [and_iff_left free]
    simp only [dst?, Std.TreeMap.getElem?_insert, Nat.compare_eq_eq]
  · next taken => rw [if_neg fun h => taken h.2]

theorem src?_add (m : Matching) (s d x : Nat) :
    (m.add s d).src? x =
      if d = x ∧ m.dst? s = none ∧ m.src? d = none then some s else m.src? x := by
  unfold add
  split
  · next free =>
    simp only [and_iff_left free]
    simp only [src?, Std.TreeMap.getElem?_insert, Nat.compare_eq_eq]
  · next taken => rw [if_neg fun h => taken h.2]

end Matching

/-- A method that completes a matching between two snapshots. -/
abbrev Matcher := Matching.Snapshot → Matching.Snapshot → Matching → Outcome Matching

namespace Matching

/-- Fails because a matcher broke its contract. -/
def reject {α : Type} (reason : String) : Outcome α := .fail (.badMatching reason)

/-- A pair as it stands in messages. -/
def pairText (s d : Nat) : String := "pair (" ++ toString s ++ ", " ++ toString d ++ ")"

/-- Tests a pair: both sides are in their snapshots, have the same kind, and know each other. -/
def checkPair (src dst : Snapshot) (m : Matching) (p : Nat × Nat) : Outcome Unit := do
  let (s, d) := p
  match src.get? s, dst.get? d with
  | some a, some b =>
    if a.kind ≠ b.kind then
      reject (pairText s d ++ " matches " ++ a.kind.name ++ " with " ++ b.kind.name)
    else if m.src? d ≠ some s then
      reject (pairText s d ++ " is not injective")
  | _, _ =>
    reject (pairText s d ++ " is out of range for trees of size " ++ toString src.size ++ " and " ++
      toString dst.size)

/-- Tests that the roots are paired and every pair is in order. -/
def check (src dst : Snapshot) (m : Matching) : Outcome Unit := do
  if !m.has 0 0 then
    reject "roots are not matched"
  else
    m.pairs.forM (checkPair src dst m)
    if m.toDst.size ≠ m.toSrc.size then reject "matching is not injective"

end Matching

/-- Completes a matching and tests that the result keeps it and is in order. -/
def Matcher.run (matcher : Matcher) (src dst : Matching.Snapshot) (seed : Matching) :
    Outcome Matching := do
  let m ← matcher src dst seed
  if !m.keeps seed then
    Matching.reject "result does not extend the seed"
  else
    Matching.check src dst m
    return m

end Variation
