import Variation.Proofs.Lined

/-!
# The line diff of what was read, read again

The line diff of a diff that was read may arrange its lines anew, and it writes one closing line for
each line of the diff. So it says the same as the text at each time unless two closing lines that are
not the same begin on one line of the diff, as they can if a comment that is open behind a closing
annotation ends in different ways; then lines of the text are lost.
-/

namespace Variation.Reading

open Diff Outline Printing

variable {options : Options} {dialect : Dialect} {source : Source} {d : Diff} {text : String}

/-- The line diff of what was read has at each time the lines of the text that are there, in order,
exactly if closing lines that begin on one line of the diff are the same line. -/
theorem lineDiff_keeps_iff (all : options.skipBlank = false) (clean : '\r' ∉ text.toList)
    (h : diff text options source dialect = .ok d) :
    ∃ out, lineDiff d = .ok out ∧
      ((∀ t, contentsAt t (PhysicalLine.ofDiff out) = contentsAt t (PhysicalLine.ofDiff text)) ↔
        Agree d) := by
  have orderly := (ofLines_seems h).1
  obtain ⟨s, twofold⟩ := orderly.sound.exists_twofold orderly.toRegular
  have shut := shut_ofLines h twofold
  obtain ⟨es, cs, writes⟩ := exists_writes shut
  have prints (t : Time) : printed d t (s.get t) = contentsAt t (PhysicalLine.ofDiff text) := by
    rw [printed_ofLines h (twofold.shape t), List.filter_eq_self]
    intro content _
    rw [Options.reads, all]
    rfl
  have contents := writes.contentsAt_eq shut fun t line hl =>
    plain_contentsAt clean line (prints t ▸ hl)
  refine ⟨_, writes.lineDiff_eq, fun same => ?_, fun agree t => ?_⟩
  · -- a closing line that is left out is missed at the time for which it was recorded
    have written (n) (t) (c) (hc : d.Records n t c) : c ∈ cs := by
      by_contra left
      have fewer := writes.length_lt (shut.mem_closingsAt_iff.2 ⟨n, hc⟩) left
        ((filled_ofLines h).closing n t c (Node.closingAt_eq_some_iff.1 hc.2).2)
      have lengths := congrArg List.length ((contents t).symm.trans (same t))
      rw [← prints t, ← shut.map_text_placed Position.diff t, List.length_map,
        List.length_map] at lengths
      omega
    intro n m t u c c' hc hc' place
    exact List.inj_on_of_nodup_map writes.places (written n t c hc) (written m u c' hc') place
  · rw [contents, writes.filter_eq shut agree
      (placed_ofLines (Position.counts_diff t) h (twofold.shape t)), shut.map_text_placed, prints]

/-- A comment is open behind a closing annotation and ends differently after the edit. The closing line
of the time after the edit is lost. -/
theorem lineDiff_keeps_iff_comment :
    ∃ d, diff " #if A\n x\n #endif /*\n-a */\n+b */\n" {} .unknown .preprocessor = .ok d ∧
      lineDiff d = .ok " #if A\n x\n-#endif /*\n-a */\n" ∧ ¬ Agree d := by
  have texts : (do
      let d ← diff " #if A\n x\n #endif /*\n-a */\n+b */\n" {} .unknown .preprocessor
      lineDiff d : Outcome _).toOption = some " #if A\n x\n-#endif /*\n-a */\n" := by
    decide +kernel
  obtain ⟨d, run, printed⟩ := Outcome.bind_eq_ok_iff.1 (Outcome.eq_ok_of_toOption texts)
  refine ⟨d, run, printed, fun agree => ?_⟩
  obtain ⟨out, printed', same⟩ := lineDiff_keeps_iff rfl (by decide +kernel) run
  rw [printed] at printed'
  obtain rfl := Except.ok.inj printed'
  exact absurd (same.2 agree .after) (by decide +kernel)

end Variation.Reading
