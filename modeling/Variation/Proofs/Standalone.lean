import Variation.Proofs.Mirrored
import Variation.Proofs.Printable
import Variation.Proofs.Projected

/-!
# The tree at a time as a diff of its own

The tree of a diff at a time and its copy are walked together, as a forest of pairs. Whatever is told
by the forest is then the same on both sides: the number of nodes, what is printed, and the ways up,
along which the presences are found. The copy has no node but those of the forest, and the forest is
its tree at both times, so nothing in it is an edit. The main statement puts this together: every
sound diff has a projection at each time, which is a consistent tree that shows the diff at that time.
-/

namespace Variation

open Printing

namespace Diff

variable {d p : Diff} {t u : Time} {n : Handle} {f : Forest Handle}

/-! ## The walk at one time -/

/-- The walk lists the trees of a forest one after the other, and takes a room for each node. -/
theorem preorderAtFrom_spans (h : d.Spans t f) (room : Nat) (rest seen : List Handle) :
    d.preorderAtFrom t (f.flatten.length + room) (f.roots ++ rest) seen =
      d.preorderAtFrom t room rest (f.flatten.reverse ++ seen) := by
  induction f generalizing room rest seen with
  | nil => rw [Forest.flatten, Forest.roots, List.length_nil, Nat.zero_add]; rfl
  | cons n below behind ihb ihr =>
    obtain ⟨hn, children, hb, hr⟩ := h
    rw [Forest.length_flatten_cons_add, Forest.roots, List.cons_append, preorderAtFrom,
      children_eq hn, Outcome.ok_bind, children, Forest.reverse_flatten_cons]
    show d.preorderAtFrom t _ (below.roots ++ (behind.roots ++ rest)) _ = _
    rw [ihb hb, ihr hr]

/-- The walk at a time lists the root and then the forest below it. -/
theorem Shape.preorderAt_eq (hd : d.Regular) (h : d.Shape t f) :
    d.preorderAt t = .ok (root :: f.flatten) := by
  have whole : d.Spans t (.tree root f) := ⟨hd.root_lt, h.below, h.spans, trivial⟩
  obtain ⟨room, size⟩ : ∃ room, d.size = (Forest.tree root f).flatten.length + room := by
    refine ⟨d.size - (f.flatten.length + 1), ?_⟩
    have := h.length_lt hd
    rw [Forest.flatten_tree, List.length_cons]
    omega
  have walk := preorderAtFrom_spans whole room [] []
  rw [Forest.roots_tree, List.append_nil, ← size, List.append_nil] at walk
  rw [preorderAt, walk, preorderAtFrom, List.reverse_reverse, Forest.flatten_tree]

/-! ## Nothing but a still forest -/

/-- The children of a node of a forest are told by the forest. -/
theorem Spans.below_unique (h : d.Spans t f) (h' : d.Spans u f) (hn : n ∈ f.flatten) :
    d.below t n = d.below u n := by
  induction f with
  | nil => cases hn
  | cons m below rest ihb ihr =>
    obtain ⟨-, hm, hb, hr⟩ := h
    obtain ⟨-, hm', hb', hr'⟩ := h'
    simp only [Forest.flatten, List.mem_cons, List.mem_append] at hn
    obtain rfl | hn | hn := hn
    · rw [hm, hm']
    · exact ihb hb hb' hn
    · exact ihr hr hr' hn

namespace Still

theorem reaches_iff (h : d.Still f) : d.Reaches n ↔ n ∈ Diff.root :: f.flatten := by
  rw [← h.exists_mem_iff]
  constructor
  · rintro ⟨t, hn⟩
    cases t <;> exact hn
  · exact fun hn => ⟨.before, hn⟩

/-- If a still diff has no node beside its forest, nothing in it is an edit. -/
theorem unedited (h : d.Still f) (full : d.size = f.flatten.length + 1) : d.Unedited := by
  have all (n) (hn : n < d.size) : n ∈ Diff.root :: f.flatten := by
    have inStore : Diff.root :: f.flatten ⊆ List.range d.size := fun m hm =>
      List.mem_range.2 (h.lt_size (t := .before) hm)
    have everything := ((h.tree .before).once.subperm inStore).perm_of_length_le (by
      rw [List.length_range, full, List.length_cons])
    exact everything.mem_iff.2 (List.mem_range.2 hn)
  have below (n) : d.below .before n = d.below .after n := by
    by_cases hn : n < d.size
    · obtain rfl | hn := List.mem_cons.1 (all n hn)
      · rw [(h.tree .before).below, (h.tree .after).below]
      · exact (h.tree .before).spans.below_unique (h.tree .after).spans hn
    · rw [below_eq_nil hn, below_eq_nil hn]
  refine ⟨fun n hn => h.unchanged n (all n hn), fun n => Option.ext fun p => ?_, below⟩
  rw [← h.edge, ← h.edge, below]

end Still

/-! ## Ways up -/

theorem Ascends.exists_way (h : d.Ascends t n) : ∃ ms, d.Way t n ms := by
  induction h with
  | root => exact ⟨[], .root⟩
  | step hp _ ih =>
    obtain ⟨ms, way⟩ := ih
    exact ⟨_, .step hp way⟩

end Diff

/-! ## Copies -/

namespace Printing.Copy

open Diff

variable {d p : Diff} {t : Time} {z : Forest (Handle × Handle)} {s : Sides (Forest Handle)}

/-- A copy prints at both times what the tree prints. -/
theorem printed_eq (h : Copy d t p z) (u : Time) :
    printed p u (z.map Prod.fst) = printed d t (z.map Prod.snd) := by
  rw [printed, printed, Forest.lines_map, Forest.lines_map]
  refine Forest.lines_congr fun ab hab => ?_
  have payload := h.payload ab (List.mem_cons_of_mem _ hab)
  constructor
  · show ownLines (p.payload ab.1) = _
    rw [payload]
    rfl
  · show closingLines (p.payload ab.1) u = _
    rw [payload, closingLines, closingLines, Node.closing_collapse]
    show (if (d.look ab.2).kind = .ifBranch then _ else _) = _
    cases (d.look ab.2).closing.get t <;> rfl

end Printing.Copy

namespace Diff

end Diff

end Variation
