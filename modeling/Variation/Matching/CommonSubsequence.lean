/-!
# Longest common subsequences

Two lists are aligned from their ends: each place of the second list gets the best alignment of what
follows it with what follows the current element of the first list. A place without a pair takes
over the better of its two neighbours, and of two equally good ones the one that leaves out the
element of the first list.
-/

namespace Variation.Matching

/-- An alignment of two lists. -/
structure Alignment (α β : Type) where
  length : Nat
  pairs : List (α × β)
  deriving Inhabited

namespace Alignment

variable {α β : Type}

/-- The alignment without pairs. -/
def nil : Alignment α β := ⟨0, []⟩

/-- The alignment with one more pair in front. -/
def cons (p : α × β) (a : Alignment α β) : Alignment α β := ⟨a.length + 1, p :: a.pairs⟩

/-- The alignments of a list that begins with `x` with every rest of the second list, from those of
the list behind `x`. -/
def row (alike : α → β → Bool) (x : α) (ys : List β) (below : List (Alignment α β)) :
    List (Alignment α β) :=
  (ys.zip (below.zip below.tail)).foldr
    (fun (y, down, diagonal) rest =>
      let right := rest.headD nil
      let best :=
        if alike x y then cons (x, y) diagonal
        else if right.length ≤ down.length then down
        else right
      best :: rest)
    [nil]

/-- The best alignment of two lists in which only like elements are paired. -/
def longest (alike : α → β → Bool) (xs : List α) (ys : List β) : Alignment α β :=
  (xs.foldr (fun x below => row alike x ys below) (List.replicate (ys.length + 1) nil)).headD nil

end Alignment

end Variation.Matching
