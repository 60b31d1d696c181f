import Variation.Printing.Source
import Variation.Proofs.Shape

/-!
# What is printed

The source at a time is printed from the tree at that time: each node begins with lines of its own,
what hangs below it follows, and what a node opened is closed at its end. The main statement says
that printing succeeds on every diff with a tree at that time, and what comes out.
-/

namespace Variation

namespace Forest

variable {α β : Type}

/-- The lines of a forest, from the lines with which each place begins and ends. -/
def lines (first last : α → List String) : Forest α → List String
  | nil => []
  | cons a below rest => first a ++ below.lines first last ++ last a ++ rest.lines first last

variable {first last : α → List String}

@[simp] theorem lines_append (f g : Forest α) :
    (f ++ g).lines first last = f.lines first last ++ g.lines first last := by
  induction f with
  | nil => rfl
  | cons a below rest _ ih => simp only [cons_append, lines, ih, List.append_assoc]

@[simp] theorem lines_tree (a : α) (f : Forest α) :
    (tree a f).lines first last = first a ++ f.lines first last ++ last a := by
  simp [tree, lines]

theorem lines_map (first last : β → List String) (s : α → β) (f : Forest α) :
    (f.map s).lines first last = f.lines (fun a => first (s a)) fun a => last (s a) := by
  induction f with
  | nil => rfl
  | cons a below rest ihb ihr => simp only [map, lines, ihb, ihr]

theorem lines_congr {first' last' : α → List String} {f : Forest α}
    (h : ∀ a ∈ f.flatten, first a = first' a ∧ last a = last' a) :
    f.lines first last = f.lines first' last' := by
  induction f with
  | nil => rfl
  | cons a below rest ihb ihr =>
    simp only [flatten, List.forall_mem_cons, List.forall_mem_append] at h
    simp only [lines, h.1.1, h.1.2, ihb h.2.1, ihr h.2.2]

theorem mem_lines {f : Forest α} {l : String} (h : l ∈ f.lines first last) :
    ∃ a ∈ f.flatten, l ∈ first a ∨ l ∈ last a := by
  induction f with
  | nil => cases h
  | cons a below rest ihb ihr =>
    simp only [lines, List.mem_append] at h
    obtain ((h | h) | h) | h := h
    · exact ⟨a, List.mem_cons_self, .inl h⟩
    · obtain ⟨b, hb, here⟩ := ihb h
      exact ⟨b, List.mem_cons_of_mem a (List.mem_append_left _ hb), here⟩
    · exact ⟨a, List.mem_cons_self, .inr h⟩
    · obtain ⟨b, hb, here⟩ := ihr h
      exact ⟨b, List.mem_cons_of_mem a (List.mem_append_right _ hb), here⟩

theorem mem_lines_of_mem {f : Forest α} {a : α} {l : String} (ha : a ∈ f.flatten)
    (hl : l ∈ first a ∨ l ∈ last a) : l ∈ f.lines first last := by
  induction f with
  | nil => cases ha
  | cons b below rest ihb ihr =>
    simp only [flatten, List.mem_cons, List.mem_append] at ha
    simp only [lines, List.mem_append]
    obtain rfl | ha | ha := ha
    · exact hl.elim (fun h => .inl (.inl (.inl h))) fun h => .inl (.inr h)
    · exact .inl (.inl (.inr (ihb ha)))
    · exact .inr (ihr ha)

end Forest

/-- The closing line that a node has recorded for a time, if it opened a chain. -/
def Node.closingAt (x : Node) (t : Time) : Option ClosingLine :=
  if x.kind = .ifBranch then x.closing.get t else none

theorem Node.closingAt_eq_some_iff {x : Node} {t : Time} {c : ClosingLine} :
    x.closingAt t = some c ↔ x.kind = .ifBranch ∧ x.closing.get t = some c := by
  unfold closingAt
  split
  · next kind => simp [kind]
  · next kind => simp [kind]

namespace Printing

open Diff

variable {d : Diff} {t : Time} {f : Forest Handle}

/-- What a tree of a diff prints at a time. -/
def printed (d : Diff) (t : Time) (f : Forest Handle) : List String :=
  f.lines (fun n => ownLines (d.look n)) fun n => closingLines (d.look n) t

theorem linesBelow_eq (h : d.Spans t f) (levels : Nat) (deep : f.flatten.length < levels) :
    ∃ ls, f.roots.mapM (linesBelow d t levels) = .ok ls ∧ ls.flatten = printed d t f := by
  induction f generalizing levels with
  | nil => exact ⟨[], rfl, rfl⟩
  | cons n below rest ihb ihr =>
    obtain ⟨hn, children, hb, hr⟩ := h
    simp only [Forest.flatten, List.length_cons, List.length_append] at deep
    obtain ⟨levels, rfl⟩ : ∃ k, levels = k + 1 := ⟨levels - 1, by omega⟩
    obtain ⟨ls, inner, hls⟩ := ihb hb levels (by omega)
    obtain ⟨ms, behind, hms⟩ := ihr hr (levels + 1) (by omega)
    have here : linesBelow d t (levels + 1) n =
        .ok (ownLines (d.look n) ++ ls.flatten ++ closingLines (d.look n) t) := by
      rw [linesBelow, node_look hn, Outcome.ok_bind, ← below_look hn, children, inner]
      rfl
    refine ⟨(ownLines (d.look n) ++ ls.flatten ++ closingLines (d.look n) t) :: ms, ?_, ?_⟩
    · rw [Forest.roots, List.mapM_cons, here, Outcome.ok_bind, behind]
      rfl
    · rw [List.flatten_cons, hms, hls]
      simp only [printed, Forest.lines, List.append_assoc]

/-- Printing succeeds on a diff that has a tree at the time. -/
theorem sourceLines_eq (hd : d.Regular) (h : d.Shape t f) :
    sourceLines d t = .ok (printed d t f) := by
  obtain ⟨ls, inner, hls⟩ := linesBelow_eq h.spans d.size (h.length_lt hd)
  have kind := look_root_kind hd
  rw [sourceLines, linesBelow, node_look hd.root_lt, Outcome.ok_bind, ← below_look hd.root_lt,
    h.below, inner, Outcome.ok_bind, hls]
  simp [ownLines, closingLines, kind, pure, Except.pure]

theorem source_eq (hd : d.Regular) (h : d.Shape t f) :
    source d t = .ok (Text.unlines (printed d t f)) := by
  rw [source, sourceLines_eq hd h]
  rfl

end Printing

end Variation
