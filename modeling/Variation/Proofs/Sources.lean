import Variation.Proofs.Commutes

/-!
# Reading keeps the text of each time

The source that a diff prints at a time is the text of that time, if no line is skipped: what the
lines at that time were read into prints all of them, in order. How code was cut into nodes, and how
the lines of both times were mixed, does not show.
-/

namespace Variation

open Reading

/-- What a tree of a diff prints is told by what its nodes say at the time. -/
theorem Printing.printed_eq (d : Diff) (t : Time) (f : Forest Handle) :
    printed d t f = (f.map (d.facet t)).lines Nest.firstLines Nest.lastLines := by
  rw [Forest.lines_map]
  refine Forest.lines_congr fun n _ => ⟨rfl, ?_⟩
  show closingLines (d.look n) t = Nest.lastLines ((d.look n).facet t)
  unfold closingLines Nest.lastLines Node.facet
  cases (d.look n).closing.get t <;> rfl

namespace Reading

open Diff Outline

variable {options : Options} {dialect : Dialect} {source : Source} {d : Diff}

/-- A solo that has read to its end holds all lines that are not left out. -/
theorem Solo.printed_read {contents : List String} {s : Solo}
    (read : Solo.start.read options dialect contents = some s) (ended : s.pending = {}) :
    s.nest.printed = contents.filter options.reads := by
  have heard : s.nest.printed ++ s.pending.lines = contents.filter options.reads := heard_read read
  rw [ended] at heard
  rw [← heard]
  exact (List.append_nil _).symm

/-- A diff holds at each time the lines that are there and not left out. -/
theorem printed_ofLines {lines : List PhysicalLine} {t : Time} {f : Forest Handle}
    (h : ofLines options dialect source lines = .ok d) (shape : d.Shape t f) :
    Printing.printed d t f = (contentsAt t lines).filter options.reads := by
  obtain ⟨orderly, spec⟩ := ofLines_seems h
  obtain ⟨f', s, shape', read, ended, seen⟩ := spec t
  have same : f = f' := shape.unique shape'
  subst same
  have rootFirst : Nest.firstLines (d.facet t root) = [] :=
    if_pos (look_root_kind orderly.toRegular)
  rw [Printing.printed_eq, ← Solo.printed_read read ended, ← seen.akin.printed, Nest.printed,
    Nest.lines, rootFirst, List.nil_append]

/-- If no line is skipped, a diff prints at each time the lines that are there. -/
theorem sourceLines_ofLines {lines : List PhysicalLine} (all : options.skipBlank = false)
    (h : ofLines options dialect source lines = .ok d) (t : Time) :
    Printing.sourceLines d t = .ok (contentsAt t lines) := by
  obtain ⟨orderly, spec⟩ := ofLines_seems h
  obtain ⟨f, s, shape, -⟩ := spec t
  have reads : ∀ content ∈ contentsAt t lines, options.reads content = true := by
    intro content _
    rw [Options.reads, all]
    rfl
  rw [Printing.sourceLines_eq orderly.toRegular shape, printed_ofLines h shape,
    List.filter_eq_self.2 reads]

/-- If no line is skipped, a diff prints at each time the text of that time. -/
theorem source_diff {text : String} (all : options.skipBlank = false)
    (h : Reading.diff text options source dialect = .ok d) (t : Time) :
    Printing.source d t = .ok (sideText t text) := by
  rw [Printing.source, sourceLines_ofLines all h t]
  rfl

/-- A code line that goes on differently after the edit. -/
theorem source_diff_mixed :
    ∃ d, Reading.diff " a \\\n-b\n+c\n d\n" ⟨true, false⟩ .unknown .preprocessor = .ok d ∧
      Printing.source d .after = .ok (sideText .after " a \\\n-b\n+c\n d\n") := by
  have accepted :
      (Reading.diff " a \\\n-b\n+c\n d\n" ⟨true, false⟩ .unknown .preprocessor).isOk = true := by
    decide +kernel
  cases h : Reading.diff " a \\\n-b\n+c\n d\n" ⟨true, false⟩ .unknown .preprocessor with
  | error e =>
    rw [h] at accepted
    cases accepted
  | ok d => exact ⟨d, rfl, source_diff rfl h .after⟩

end Reading

end Variation
