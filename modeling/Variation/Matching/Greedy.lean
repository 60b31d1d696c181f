import Variation.Matching.Basic
import Variation.Matching.CommonSubsequence
import Variation.Text.Digest

/-!
# The greedy matcher

The greedy matcher keeps the pairs it is given, pairs the roots, and then works in three phases. It
pairs whole subtrees with equal digests; it aligns the unpaired children of paired entries; and it
pairs what is left of such children in order. Every phase visits the pairs in the order of their
sources, including those that it adds itself.
-/

namespace Variation.Matching.Greedy

/-- What is hashed for an entry: its kind, its label and the digests of its children. -/
def message (e : Entry) (digests : Array String) : String :=
  e.kind.keyword ++ "\x00" ++ e.label ++
    String.join (e.children.map fun c => "\x00" ++ digests.getD c "")

/-- Works out a value for every entry from the values of its children, the last entry first. -/
def bottomUp {α : Type} (s : Snapshot) (blank : α) (f : Entry → Array α → α) : Array α :=
  (List.range s.size).foldr
    (fun i values =>
      match s.get? i with
      | some e => values.setIfInBounds i (f e values)
      | none => values)
    (Array.replicate s.size blank)

/-- The digest of the subtree of every entry. -/
def digests (hash : String → String) (s : Snapshot) : Array String :=
  bottomUp s "" fun e values => hash (message e values)

/-- The number of entries in the subtree of every entry. -/
def sizes (s : Snapshot) : Array Nat :=
  bottomUp s 1 fun e values => e.children.foldr (fun c size => values.getD c 1 + size) 1

/-- The indices at which each digest stands, in order. -/
def places (digests : Array String) : Std.TreeMap String (List Nat) :=
  digests.toList.zipIdx.foldr (fun (digest, i) m => m.insert digest (i :: m.getD digest [])) {}

/-- The entry with which the subtree of an unpaired source is paired: one with the same digest whose
parent is paired with the parent of the source, or else the only one if the source is the only one
too. -/
def twin? (src dst : Snapshot) (srcPlaces dstPlaces : Std.TreeMap String (List Nat))
    (digest : String) (s : Nat) (m : Matching) : Option Nat :=
  let all := dstPlaces.getD digest []
  let free := all.filter fun d => !m.hasDst d
  let byParent := do
    let expected ← m.dst? (← (← src.get? s).parent)
    free.find? fun d => (dst.get? d).bind (·.parent) == some expected
  let unique :=
    if all.length == 1 && (srcPlaces.getD digest []).length == 1 then free.head? else none
  byParent.or unique

/-- The pairs of a subtree with another one of the same shape. -/
def shifted (s d size : Nat) : List (Nat × Nat) := (List.range size).map fun i => (s + i, d + i)

/-- Pairs whole subtrees with equal digests. -/
def pairTwins (hash : String → String) (src dst : Snapshot) (m : Matching) : Matching :=
  let srcDigests := digests hash src
  let srcPlaces := places srcDigests
  let dstPlaces := places (digests hash dst)
  let srcSizes := sizes src
  (List.range' 1 (src.size - 1)).foldl
    (fun m s =>
      if m.hasSrc s then m
      else
        match twin? src dst srcPlaces dstPlaces (srcDigests.getD s "") s m with
        | some d => m.addAll (shifted s d (srcSizes.getD s 0))
        | none => m)
    m

/-- Runs a step for every pair in the order of the sources. -/
def forPairs (src : Snapshot) (step : Entry → Nat → Matching → Outcome Matching) (m : Matching) :
    Outcome Matching :=
  src.entries.toList.zipIdx.foldlM
    (fun m (e, s) =>
      match m.dst? s with
      | some d => step e d m
      | none => return m)
    m

/-- Whether an index of the source and one of the destination have the same kind and label. -/
def alike (src dst : Snapshot) (l r : Nat) : Bool :=
  match src.get? l, dst.get? r with
  | some a, some b => a.key == b.key
  | _, _ => false

/-- The pairs at the beginning of two lists while they are alike, and what is left of both. -/
def commonStart (like : Nat → Nat → Bool) :
    List Nat → List Nat → List (Nat × Nat) × List Nat × List Nat
  | l :: ls, r :: rs =>
    if like l r then
      let (ps, ls, rs) := commonStart like ls rs
      ((l, r) :: ps, ls, rs)
    else ([], l :: ls, r :: rs)
  | ls, rs => ([], ls, rs)

/-- The largest table, in cells, that is built to align two lists of children. -/
def tableLimit : Nat := 4194304

/-- Aligns two lists: the common beginning as it is, and the rest along a longest common subsequence
unless the table would be too large. -/
def align (like : Nat → Nat → Bool) (ls rs : List Nat) : List (Nat × Nat) :=
  let (start, ls, rs) := commonStart like ls rs
  if ls.length * rs.length ≤ tableLimit then start ++ (Alignment.longest like ls rs).pairs
  else start

/-- Aligns the unpaired children of a pair. -/
def alignChildren (src dst : Snapshot) (a : Entry) (d : Nat) (m : Matching) : Outcome Matching := do
  let b ← dst.get d
  let ls := a.children.filter fun c => !m.hasSrc c
  let rs := b.children.filter fun c => !m.hasDst c
  return m.addAll (align (alike src dst) ls rs)

/-- Pairs every unpaired child of a pair with the first unpaired child that is alike. -/
def pairLeftovers (src dst : Snapshot) (a : Entry) (d : Nat) (m : Matching) : Outcome Matching := do
  let b ← dst.get d
  return (a.children.filter fun c => !m.hasSrc c).foldl
    (fun m l =>
      match b.children.find? fun r => !m.hasDst r && alike src dst l r with
      | some r => m.add l r
      | none => m)
    m

/-- The greedy matcher over a digest function. -/
def matcherWith (hash : String → String) : Matcher := fun src dst seed => do
  if src.size = 0 ∨ dst.size = 0 then
    reject "cannot match an empty tree"
  else if !seed.admits 0 0 then
    reject "seed pairs a root with another node"
  else
    let m := pairTwins hash src dst (seed.add 0 0)
    let m ← forPairs src (alignChildren src dst) m
    forPairs src (pairLeftovers src dst) m

end Variation.Matching.Greedy

namespace Variation.Matcher

/-- The greedy matcher. -/
def greedy : Matcher := Matching.Greedy.matcherWith Text.Digest.ofText

end Variation.Matcher
