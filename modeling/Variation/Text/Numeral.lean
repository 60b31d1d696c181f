/-!
# Numerals

The value of a run of digits of a base up to sixteen, most significant digit first.
-/

namespace Variation.Text

/-- The value of a character as a hexadecimal digit. -/
def digitValue? (c : Char) : Option Nat :=
  if c.isDigit then some (c.toNat - '0'.toNat)
  else if 'a' ≤ c ∧ c ≤ 'f' then some (c.toNat - 'a'.toNat + 10)
  else if 'A' ≤ c ∧ c ≤ 'F' then some (c.toNat - 'A'.toNat + 10)
  else none

/-- The value of a character as a digit of a base. -/
def digit? (base : Nat) (c : Char) : Option Nat := (digitValue? c).filter (· < base)

/-- Whether a character is a digit of a base. -/
def isDigitOf (base : Nat) (c : Char) : Bool := (digit? base c).isSome

/-- The number that digits write, if there is at least one. -/
def numeral? (base : Nat) (cs : List Char) : Option Nat :=
  if cs.isEmpty then none
  else cs.foldlM (fun value c => return value * base + (← digit? base c)) 0

theorem digit?_lt {base n : Nat} {c : Char} (h : digit? base c = some n) : n < base := by
  simpa using (Option.filter_eq_some_iff.1 h).2

/-- One more digit shifts the number that stands in front of it. -/
theorem numeral?_append_digit {base n d : Nat} {cs : List Char} {c : Char}
    (hn : numeral? base cs = some n) (hd : digit? base c = some d) :
    numeral? base (cs ++ [c]) = some (n * base + d) := by
  unfold numeral? at hn ⊢
  split at hn
  · cases hn
  · rw [if_neg (by simp), List.foldlM_append, hn]
    simp [hd]

end Variation.Text
