import Variation.Proofs.Outcomes
import Variation.Text.Lines

/-!
# Lines that are written and read back

Lines that are written one below the other are read back as they are, unless they hold what ends a
line. The lines that are read from a text without carriage returns never do.
-/

namespace Variation.Text

/-- A line that holds nothing that ends a line. -/
def Plain (line : String) : Prop := ∀ c ∈ line.toList, c ≠ '\n' ∧ c ≠ '\r'

variable {line s : String} {ls : List String} {acc cs : List Char}

/-- What stands in front of the first mark can be told from what stands behind it. -/
theorem append_mark_inj {mark : Char} {xs ys as bs : List Char} (hx : mark ∉ xs) (hy : mark ∉ ys)
    (h : xs ++ mark :: as = ys ++ mark :: bs) : xs = ys ∧ as = bs := by
  have front {zs cs : List Char} (hz : mark ∉ zs) :
      (zs ++ mark :: cs).takeWhile (· != mark) = zs := by
    have other : ∀ c ∈ zs, (c != mark) = true := fun c hc =>
      bne_iff_ne.2 fun e => hz (e ▸ hc)
    rw [List.takeWhile_append_of_pos other, List.takeWhile_cons_of_neg (by simp), List.append_nil]
  have first : xs = ys := by rw [← @front xs as hx, h, front hy]
  subst first
  exact ⟨rfl, (List.cons.inj (List.append_cancel_left h)).2⟩

theorem finishLine_of_plain (h : '\r' ∉ acc) : finishLine acc = String.ofList acc.reverse := by
  unfold finishLine
  split
  · exact absurd List.mem_cons_self h
  · rfl

/-- A line is read up to its line feed. -/
theorem linesFrom_append (h : '\n' ∉ cs) (acc rest : List Char) :
    linesFrom acc (cs ++ '\n' :: rest) = finishLine (cs.reverse ++ acc) :: linesFrom [] rest := by
  induction cs generalizing acc with
  | nil =>
    rw [List.nil_append, linesFrom, if_pos rfl]
    rfl
  | cons c cs ih =>
    simp only [List.mem_cons, not_or] at h
    rw [List.cons_append, linesFrom, if_neg (Ne.symm h.1), ih h.2, List.reverse_cons,
      List.append_assoc]
    rfl

theorem unlines_cons (line : String) (ls : List String) :
    unlines (line :: ls) = line ++ "\n" ++ unlines ls := by
  rw [unlines, List.map_cons, String.join_cons, unlines]

/-- Lines that hold nothing that ends a line are read back as they were written. -/
theorem lines_unlines (h : ∀ l ∈ ls, Plain l) : lines (unlines ls) = ls := by
  induction ls with
  | nil => exact lines_empty
  | cons line ls ih =>
    obtain ⟨plain, h⟩ := List.forall_mem_cons.1 h
    have feed : '\n' ∉ line.toList := fun hc => (plain _ hc).1 rfl
    have carriage : '\r' ∉ line.toList.reverse ++ [] := by
      rw [List.append_nil, List.mem_reverse]
      exact fun hc => (plain _ hc).2 rfl
    have text : (unlines (line :: ls)).toList =
        line.toList ++ '\n' :: (unlines ls).toList := by
      rw [unlines_cons, String.toList_append, String.toList_append, List.append_assoc]
      rfl
    have rest : linesFrom [] (unlines ls).toList = ls := ih h
    rw [lines, text, linesFrom_append feed, finishLine_of_plain carriage, rest, List.append_nil,
      List.reverse_reverse, String.ofList_toList]

theorem mem_of_finishLine {c : Char} (hc : c ∈ (finishLine acc).toList) : c ∈ acc := by
  unfold finishLine at hc
  split at hc
  · rw [String.toList_ofList, List.mem_reverse] at hc
    exact List.mem_cons_of_mem _ hc
  · rw [String.toList_ofList, List.mem_reverse] at hc
    exact hc

/-- What is read holds no line feed and nothing that was not in the text. -/
theorem mem_linesFrom (hacc : '\n' ∉ acc) (hl : line ∈ linesFrom acc cs) {c : Char}
    (hc : c ∈ line.toList) : c ≠ '\n' ∧ (c ∈ acc ∨ c ∈ cs) := by
  induction cs generalizing acc with
  | nil =>
    cases acc with
    | nil => cases hl
    | cons a acc =>
      rw [linesFrom, List.mem_singleton] at hl
      · subst hl
        rw [String.toList_ofList, List.mem_reverse] at hc
        refine ⟨?_, .inl hc⟩
        rintro rfl
        exact hacc hc
      · simp
  | cons b cs ih =>
    rw [linesFrom] at hl
    split at hl
    · obtain rfl | hl := List.mem_cons.1 hl
      · have mem := mem_of_finishLine hc
        refine ⟨?_, .inl mem⟩
        rintro rfl
        exact hacc mem
      · obtain ⟨feed, mem⟩ := ih List.not_mem_nil hl
        refine ⟨feed, .inr (mem.elim (absurd · List.not_mem_nil) (List.mem_cons_of_mem b))⟩
    · next other =>
      have hacc' : '\n' ∉ b :: acc := by
        rw [List.mem_cons, not_or]
        exact ⟨Ne.symm other, hacc⟩
      obtain ⟨feed, mem⟩ := ih hacc' hl
      refine ⟨feed, ?_⟩
      obtain mem | mem := mem
      · obtain rfl | mem := List.mem_cons.1 mem
        · exact .inr List.mem_cons_self
        · exact .inl mem
      · exact .inr (List.mem_cons_of_mem b mem)

/-- The lines of a text without carriage returns hold nothing that ends a line. -/
theorem plain_of_mem_lines (h : '\r' ∉ s.toList) (hl : line ∈ lines s) : Plain line := by
  intro c hc
  obtain ⟨feed, mem⟩ := mem_linesFrom List.not_mem_nil hl hc
  refine ⟨feed, ?_⟩
  rintro rfl
  obtain mem | mem := mem
  · cases mem
  · exact h mem

end Variation.Text
