import Variation.Kind
import Variation.Line

/-!
# Packed identifiers

A node is named across runs by the diff line it starts at, its change and its kind. `encode` packs
the three into one number, and `decode?` unpacks it; the line is stored one higher, so that the line
that does not apply becomes zero.
-/

namespace Variation.StableId

/-- Packs a diff line, a change and a kind into one number. -/
def encode (line : Int) (c : Change) (k : Kind) : Nat :=
  (line + 1).toNat * 64 + c.ordinal * 8 + k.ordinal

/-- Unpacks a number whose fields are all in range. -/
def decode? (id : Nat) : Option (Int × Change × Kind) := do
  let k ← Kind.ofOrdinal? (id % 8)
  let c ← Change.ofOrdinal? (id / 8 % 8)
  let line ← lineNumber? ((id / 64 : Nat) - 1)
  return (line, c, k)

/-- Every line number from the one that does not apply upwards survives packing. -/
theorem decode?_encode {line : Int} (c : Change) (k : Kind) (low : -1 ≤ line)
    (fits : FitsLine line) :
    decode? (encode line c k) = some (line, c, k) := by
  have hk := k.ordinal_lt
  have hc := c.ordinal_lt
  have h1 : encode line c k % 8 = k.ordinal := by unfold encode; omega
  have h2 : encode line c k / 8 % 8 = c.ordinal := by unfold encode; omega
  have h3 : ((encode line c k / 64 : Nat) : Int) - 1 = line := by unfold encode; omega
  simp only [decode?, h1, h2, h3]
  simp [lineNumber?, fits]

end Variation.StableId
