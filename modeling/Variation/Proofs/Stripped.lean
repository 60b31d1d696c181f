import Mathlib.Data.List.Chain
import Mathlib.Data.List.Flatten
import Variation.Proofs.Reprinted
import Variation.Proofs.Whole

/-!
# Unified diffs without their frame

A unified diff is a row of file sections: lines about the files, two lines that name them, and hunks.
The lines of the frame are told from the lines of a hunk by how they begin, and the two that name the
files only by standing in a row. So what is kept of a unified diff are lines of its hunks, in order, and
one thing can get lost: a removed line that begins with two dashes and a blank, directly followed by an
added line that begins with two plus signs and a blank, is taken for the names of two files.
-/

namespace Variation

open Text (beginsWith)

theorem Text.beginsWith_iff {word cs : List Char} : beginsWith word cs = true ↔ word <+: cs := by
  rw [beginsWith, Option.isSome_iff_exists]
  exact exists_congr fun rest => Text.after?_eq_some_iff.trans eq_comm

namespace Reading

/-! ## The syntax of a unified diff -/

/-- A line of a hunk: a line of the files and what the edit does to it, or the note that a file does not
end with a line feed. -/
inductive HunkLine where
  | line (change : Change) (content : String)
  | noNewline (rest : String)
  deriving DecidableEq

namespace HunkLine

/-- The line as it is written. -/
def written : HunkLine → String
  | line change content => PhysicalLine.written ⟨some change, content⟩
  | noNewline rest => "\\ No newline" ++ rest

/-- Whether it is a line of the files. -/
def isBody : HunkLine → Bool
  | line _ _ => true
  | noNewline _ => false

/-- Whether two lines in a row look like the names of the files that are compared. -/
def LooksLikeNames : HunkLine → HunkLine → Prop
  | line .removed old, line .added new => "-- ".toList <+: old.toList ∧ "++ ".toList <+: new.toList
  | _, _ => False

end HunkLine

/-- Some lines in a row, with a line in front that says where they stand in the files. -/
structure Hunk where
  /-- What the line in front says. -/
  range : String
  lines : List HunkLine

namespace Hunk

/-- The hunk as it is written. -/
def written (h : Hunk) : List String := ("@@" ++ h.range) :: h.lines.map HunkLine.written

/-- The lines of the files, as they are written. -/
def body (h : Hunk) : List String := (h.lines.filter HunkLine.isBody).map HunkLine.written

/-- Whether no two lines in a row look like the names of files. -/
def Clear (h : Hunk) : Prop := h.lines.IsChain fun a b => ¬ a.LooksLikeNames b

end Hunk

/-- A line about the files that are compared. -/
inductive AboutFiles where
  | diff (rest : String)
  | index (rest : String)

/-- A line about files as it is written. -/
def AboutFiles.written : AboutFiles → String
  | diff rest => "diff " ++ rest
  | index rest => "index " ++ rest

/-- What a unified diff says of one file. -/
structure FileSection where
  about : List AboutFiles
  old : String
  new : String
  hunks : List Hunk

/-- The section as it is written. -/
def FileSection.written (s : FileSection) : List String :=
  s.about.map AboutFiles.written ++ [("--- " ++ s.old), ("+++ " ++ s.new)] ++
    s.hunks.flatMap Hunk.written

/-- The lines of the files, as they are written. -/
def FileSection.body (s : FileSection) : List String := s.hunks.flatMap Hunk.body

/-! ## What the lines are taken for -/

theorem isFrameLine_iff {line : String} :
    isFrameLine line = true ↔ ∃ w ∈ frameWords, w.toList <+: line.toList := by
  simp only [isFrameLine, List.any_eq_true, Text.beginsWith_iff]

theorem isFilePair_iff {line next : String} : isFilePair line next = true ↔
    "--- ".toList <+: line.toList ∧ "+++ ".toList <+: next.toList := by
  rw [isFilePair, Bool.and_eq_true, Text.beginsWith_iff, Text.beginsWith_iff]

/-- The first characters of the words of the frame. -/
theorem head_of_mem_frameWords {w : String} (hw : w ∈ frameWords) :
    ∃ c rest, w.toList = c :: rest ∧ c ∈ ['d', 'i', '@', '\\'] := by
  simp only [frameWords, List.mem_cons, List.not_mem_nil, or_false] at hw
  rcases hw with rfl | rfl | rfl | rfl <;> exact ⟨_, _, rfl, by decide⟩

/-- A line does not belong to the frame if it begins with another character than the words of the
frame. -/
theorem isFrameLine_of_head {line : String} {c : Char} {rest : List Char}
    (h : line.toList = c :: rest) (other : c ∉ ['d', 'i', '@', '\\']) : isFrameLine line = false := by
  rw [← Bool.not_eq_true, isFrameLine_iff]
  rintro ⟨w, hw, pre⟩
  obtain ⟨x, tail, first, hx⟩ := head_of_mem_frameWords hw
  rw [first, h, List.cons_prefix_cons] at pre
  exact other (pre.1 ▸ hx)

theorem isFrameLine_of_mem {w rest : String} (hw : w ∈ frameWords) :
    isFrameLine (w ++ rest) = true := by
  rw [isFrameLine_iff]
  refine ⟨w, hw, ?_⟩
  rw [String.toList_append]
  exact List.prefix_append _ _

/-- The names of files are no lines of the frame by themselves. -/
theorem isFrameLine_of_isFilePair {line next : String} (h : isFilePair line next = true) :
    isFrameLine line = false ∧ isFrameLine next = false := by
  obtain ⟨⟨old, first⟩, ⟨new, second⟩⟩ := isFilePair_iff.1 h
  constructor
  · exact isFrameLine_of_head first.symm (by decide)
  · exact isFrameLine_of_head second.symm (by decide)

theorem HunkLine.toList_written_line (change : Change) (content : String) :
    (HunkLine.line change content).written.toList = change.symbol :: content.toList := by
  rw [HunkLine.written, PhysicalLine.written, String.toList_append]
  simp

theorem HunkLine.isFrameLine_written (l : HunkLine) : isFrameLine l.written = !l.isBody := by
  cases l with
  | line change content =>
    refine isFrameLine_of_head (toList_written_line change content) ?_
    cases change <;> decide
  | noNewline rest => exact isFrameLine_of_mem (by decide)

theorem HunkLine.isFilePair_written (a b : HunkLine) :
    isFilePair a.written b.written = true ↔ a.LooksLikeNames b := by
  have note {w rest : String} {c : Char} {cs : List Char} (hw : w.toList = c :: cs)
      (other : c ≠ '\\') : ¬ w.toList <+: (noNewline rest).written.toList := by
    rw [written, String.toList_append, hw]
    exact fun h => other (List.cons_prefix_cons.1 h).1
  rw [isFilePair_iff]
  cases a with
  | noNewline rest =>
    constructor
    · exact fun h => absurd h.1 (note rfl (by decide))
    · exact False.elim
  | line change content =>
    cases b with
    | noNewline rest =>
      constructor
      · exact fun h => absurd h.2 (note rfl (by decide))
      · exact fun h => by cases change <;> exact h.elim
    | line change' content' =>
      simp only [toList_written_line]
      cases change <;> cases change' <;> simp [LooksLikeNames, Change.symbol]

/-! ## What is kept -/

/-- What is kept are lines that do not belong to the frame by themselves. -/
theorem bodyLines_sublist (ls : List String) :
    (bodyLines ls).Sublist (ls.filter fun line => !isFrameLine line) := by
  fun_induction bodyLines ls with
  | case1 => exact List.Sublist.refl []
  | case2 line frame => simp [frame]
  | case3 line frame => simp [frame]
  | case4 line next rest pair ih =>
    obtain ⟨first, second⟩ := isFrameLine_of_isFilePair pair
    simp only [List.filter_cons, first, second]
    exact (ih.cons next).cons line
  | case5 line next rest pair frame ih =>
    rw [List.filter_cons, frame]
    exact ih
  | case6 line next rest pair frame ih =>
    rw [List.filter_cons, Bool.eq_false_iff.2 frame]
    exact ih.cons_cons line

/-- All of them are kept if and only if no two lines in a row are taken for the names of files. -/
theorem bodyLines_eq_filter_iff (ls : List String) :
    bodyLines ls = (ls.filter fun line => !isFrameLine line) ↔
      ls.IsChain fun a b => ¬ isFilePair a b = true := by
  fun_induction bodyLines ls with
  | case1 => simp
  | case2 line frame => simp [frame]
  | case3 line frame => simp [frame]
  | case4 line next rest pair ih =>
    obtain ⟨first, second⟩ := isFrameLine_of_isFilePair pair
    constructor
    · intro all
      -- two lines fewer are left than there are
      have few := (bodyLines_sublist rest).length_le
      have count := congrArg List.length all
      simp only [List.filter_cons, first, second, Bool.not_false, if_true, List.length_cons] at count
      omega
    · intro clear
      exact absurd pair (List.isChain_cons_cons.1 clear).1
  | case5 line next rest pair frame ih =>
    rw [List.isChain_cons_cons, ← ih, List.filter_cons, frame]
    simp [pair]
  | case6 line next rest pair frame ih =>
    rw [List.isChain_cons_cons, ← ih, List.filter_cons, Bool.eq_false_iff.2 frame]
    simp [pair]

/-- Whether lines do not begin with the second one of the names of files. -/
def Apart (ls : List String) : Prop :=
  ∀ next ∈ ls.head?, beginsWith "+++ ".toList next.toList = false

theorem Apart.not_isFilePair {line next : String} {ls : List String} (h : Apart (next :: ls)) :
    ¬ isFilePair line next = true := by
  rw [isFilePair, Bool.and_eq_true]
  rintro ⟨-, second⟩
  exact Bool.false_ne_true ((h next rfl).symm.trans second)

theorem apart_nil : Apart [] := by
  intro next hn
  cases hn

theorem apart_word (w : String) {rest : String} {ls : List String}
    (other : ∃ c cs, w.toList = c :: cs ∧ '+' ≠ c) : Apart ((w ++ rest) :: ls) := by
  obtain ⟨c, cs, first, other⟩ := other
  rintro next ⟨⟩
  rw [← Bool.not_eq_true, Text.beginsWith_iff, String.toList_append, first]
  exact fun pre => other (List.cons_prefix_cons.1 pre).1

theorem Apart.append {xs ys : List String} (hx : Apart xs) (hy : Apart ys) : Apart (xs ++ ys) := by
  cases xs with
  | nil => exact hy
  | cons x xs => exact hx

theorem apart_flatMap {α : Type} {f : α → List String} {as : List α} (h : ∀ a ∈ as, Apart (f a)) :
    Apart (as.flatMap f) := by
  induction as with
  | nil => exact apart_nil
  | cons a as ih =>
    obtain ⟨here, h⟩ := List.forall_mem_cons.1 h
    rw [List.flatMap_cons]
    exact here.append (ih h)

/-- What is kept of some lines and of others behind them, unless the names of files are cut. -/
theorem bodyLines_append {xs ys : List String} (apart : Apart ys) :
    bodyLines (xs ++ ys) = bodyLines xs ++ bodyLines ys := by
  fun_induction bodyLines xs with
  | case1 => rfl
  | case2 line frame =>
    cases ys with
    | nil => simp [bodyLines, frame]
    | cons next ys =>
      rw [List.singleton_append, bodyLines, if_neg apart.not_isFilePair, if_pos frame,
        List.nil_append]
  | case3 line frame =>
    cases ys with
    | nil => simp [bodyLines, frame]
    | cons next ys =>
      rw [List.singleton_append, bodyLines, if_neg apart.not_isFilePair, if_neg frame,
        List.singleton_append]
  | case4 line next rest pair ih =>
    rw [List.cons_append, List.cons_append, bodyLines, if_pos pair, ih]
  | case5 line next rest pair frame ih =>
    rw [List.cons_append, List.cons_append, bodyLines, if_neg pair, if_pos frame, ← ih]
    rfl
  | case6 line next rest pair frame ih =>
    rw [List.cons_append, List.cons_append, bodyLines, if_neg pair, if_neg frame, ← List.cons_append,
      ih]
    rfl

theorem bodyLines_flatMap {α : Type} {f : α → List String} {as : List α}
    (apart : ∀ a ∈ as, Apart (f a)) :
    bodyLines (as.flatMap f) = as.flatMap fun a => bodyLines (f a) := by
  induction as with
  | nil => rfl
  | cons a as ih =>
    obtain ⟨-, later⟩ := List.forall_mem_cons.1 apart
    rw [List.flatMap_cons, List.flatMap_cons, bodyLines_append (apart_flatMap later), ih later]

/-- A line of the frame is dropped, and nothing with it. -/
theorem bodyLines_cons_frame {line : String} (frame : isFrameLine line = true) (ls : List String) :
    bodyLines (line :: ls) = bodyLines ls := by
  cases ls with
  | nil => simp [bodyLines, frame]
  | cons next ls =>
    have single : ¬ isFilePair line next = true := by
      intro pair
      rw [(isFrameLine_of_isFilePair pair).1] at frame
      cases frame
    rw [bodyLines, if_neg single, if_pos frame]

theorem AboutFiles.isFrameLine_written (l : AboutFiles) : isFrameLine l.written = true := by
  cases l with
  | diff rest => exact isFrameLine_of_mem (by decide)
  | index rest => exact isFrameLine_of_mem (by decide)

namespace Hunk

variable (h : Hunk)

theorem bodyLines_written : bodyLines h.written = bodyLines (h.lines.map HunkLine.written) :=
  bodyLines_cons_frame (isFrameLine_of_mem (by decide)) _

theorem body_eq_filter :
    h.body = (h.lines.map HunkLine.written).filter fun line => !isFrameLine line := by
  rw [body, List.filter_map]
  congr 1
  refine List.filter_congr fun l _ => ?_
  rw [Function.comp_apply, HunkLine.isFrameLine_written, Bool.not_not]

/-- What is kept of a hunk are lines of the files. -/
theorem bodyLines_sublist : (bodyLines h.written).Sublist h.body := by
  rw [bodyLines_written, body_eq_filter]
  exact Reading.bodyLines_sublist _

/-- They are all kept if and only if no two of them in a row look like the names of files. -/
theorem bodyLines_eq_iff : bodyLines h.written = h.body ↔ h.Clear := by
  rw [bodyLines_written, body_eq_filter, bodyLines_eq_filter_iff, List.isChain_map]
  simp only [HunkLine.isFilePair_written]
  rfl

theorem apart_written : Apart h.written := apart_word "@@" ⟨_, _, rfl, by decide⟩

end Hunk

namespace FileSection

variable (s : FileSection)

theorem apart_names : Apart [("--- " ++ s.old), ("+++ " ++ s.new)] :=
  apart_word "--- " ⟨_, _, rfl, by decide⟩

theorem apart_written : Apart s.written := by
  have about : Apart (s.about.map AboutFiles.written) := by
    cases s.about with
    | nil => exact apart_nil
    | cons l ls =>
      cases l with
      | diff rest => exact apart_word "diff " ⟨_, _, rfl, by decide⟩
      | index rest => exact apart_word "index " ⟨_, _, rfl, by decide⟩
  exact (about.append s.apart_names).append (apart_flatMap fun h _ => h.apart_written)

theorem bodyLines_about (ls : List AboutFiles) : bodyLines (ls.map AboutFiles.written) = [] := by
  induction ls with
  | nil => rfl
  | cons l ls ih => rw [List.map_cons, bodyLines_cons_frame l.isFrameLine_written, ih]

theorem bodyLines_names : bodyLines [("--- " ++ s.old), ("+++ " ++ s.new)] = [] := by
  have pair : isFilePair ("--- " ++ s.old) ("+++ " ++ s.new) = true := by
    rw [isFilePair_iff, String.toList_append, String.toList_append]
    exact ⟨List.prefix_append _ _, List.prefix_append _ _⟩
  rw [bodyLines, if_pos pair, bodyLines]

/-- What is kept of a section is what is kept of its hunks. -/
theorem bodyLines_written : bodyLines s.written = s.hunks.flatMap fun h => bodyLines h.written := by
  rw [written, bodyLines_append (apart_flatMap fun h _ => h.apart_written),
    bodyLines_append s.apart_names, bodyLines_about, s.bodyLines_names, List.nil_append,
    List.nil_append, bodyLines_flatMap fun h _ => h.apart_written]

end FileSection

/-! ## Stripped texts -/

/-- Parts that are put together are all whole if what they make up is. -/
theorem flatMap_eq_iff {α β : Type} {f g : α → List β} {as : List α}
    (part : ∀ a ∈ as, (f a).Sublist (g a)) :
    as.flatMap f = as.flatMap g ↔ ∀ a ∈ as, f a = g a := by
  induction as with
  | nil => simp
  | cons a as ih =>
    obtain ⟨here, later⟩ := List.forall_mem_cons.1 part
    rw [List.forall_mem_cons, ← ih later, List.flatMap_cons, List.flatMap_cons]
    constructor
    · intro all
      have first := here.length_le
      have rest := (List.Sublist.flatMap_right as later).length_le
      have count := congrArg List.length all
      rw [List.length_append, List.length_append] at count
      exact List.append_inj all (by omega)
    · rintro ⟨first, rest⟩
      rw [first, rest]

variable {text : String} {sections : List FileSection}

/-- The hunks of all sections, with what is kept of them. -/
theorem bodyLines_lines (file : Text.lines text = sections.flatMap FileSection.written) :
    bodyLines (Text.lines text) =
      (sections.flatMap FileSection.hunks).flatMap fun h => bodyLines h.written := by
  rw [file, bodyLines_flatMap fun s _ => s.apart_written, List.flatMap_assoc]
  exact List.flatMap_congr fun s _ => s.bodyLines_written

theorem body_sections (sections : List FileSection) :
    sections.flatMap FileSection.body =
      (sections.flatMap FileSection.hunks).flatMap Hunk.body := by
  rw [List.flatMap_assoc]
  rfl

/-- The lines of a hunk are among those that are written. -/
theorem Hunk.body_subset (h : Hunk) : h.body ⊆ h.written := by
  intro line hl
  obtain ⟨l, mem, rfl⟩ := List.mem_map.1 hl
  exact List.mem_cons_of_mem _ (List.mem_map_of_mem (List.mem_of_mem_filter mem))

/-- The lines of all hunks are among those of the text. -/
theorem body_subset (file : Text.lines text = sections.flatMap FileSection.written) :
    sections.flatMap FileSection.body ⊆ Text.lines text := by
  intro line hl
  obtain ⟨s, hs, hl⟩ := List.mem_flatMap.1 hl
  obtain ⟨h, hh, hl⟩ := List.mem_flatMap.1 hl
  rw [file]
  refine List.mem_flatMap.2 ⟨s, hs, List.mem_append_right _ ?_⟩
  exact List.mem_flatMap.2 ⟨h, hh, h.body_subset hl⟩

/-- Of a unified diff, lines of its hunks are kept, in order. They are all kept if and only if there are
no two lines in a row in a hunk that look like the names of files. -/
theorem withoutHeaders_keeps (file : Text.lines text = sections.flatMap FileSection.written) :
    (∃ kept, withoutHeaders text = Text.unlines kept ∧
      kept.Sublist (sections.flatMap FileSection.body)) ∧
    (withoutHeaders text = Text.unlines (sections.flatMap FileSection.body) ↔
      ∀ s ∈ sections, ∀ h ∈ s.hunks, h.Clear) := by
  have part : ∀ h ∈ sections.flatMap FileSection.hunks,
      (bodyLines h.written).Sublist h.body := fun h _ => h.bodyLines_sublist
  have sub : (bodyLines (Text.lines text)).Sublist (sections.flatMap FileSection.body) := by
    rw [bodyLines_lines file, body_sections]
    exact List.Sublist.flatMap_right _ part
  have feed {line : String} (hl : line ∈ Text.lines text) : '\n' ∉ line.toList :=
    fun hc => (Text.mem_linesFrom List.not_mem_nil hl hc).1 rfl
  have same : withoutHeaders text = Text.unlines (sections.flatMap FileSection.body) ↔
      bodyLines (Text.lines text) = sections.flatMap FileSection.body := by
    constructor
    · intro texts
      exact Text.unlines_inj (fun line hl => feed (body_subset file (sub.subset hl)))
        (fun line hl => feed (body_subset file hl)) texts
    · exact fun kept => congrArg Text.unlines kept
  refine ⟨⟨_, rfl, sub⟩, ?_⟩
  rw [same, bodyLines_lines file, body_sections, flatMap_eq_iff part]
  simp only [Hunk.bodyLines_eq_iff, List.mem_flatMap]
  constructor
  · exact fun all s hs h hh => all h ⟨s, hs, hh⟩
  · rintro all h ⟨s, hs, hh⟩
    exact all s hs h hh

/-- A file in which counting down is replaced by counting up. -/
def turned : FileSection :=
  ⟨[.diff "--git a/x.c b/x.c"], "a/x.c", "b/x.c",
    [⟨" -1,2 +1,2 @@", [.line .removed "-- n;", .line .added "++ n;", .line .unchanged "done"]⟩]⟩

/-- The lines that are replaced in it are lost. -/
theorem turned_lost : ∃ text, Text.lines text = [turned].flatMap FileSection.written ∧
    withoutHeaders text ≠ Text.unlines ([turned].flatMap FileSection.body) ∧
    withoutHeaders text = " done\n" := by
  refine ⟨"diff --git a/x.c b/x.c\n--- a/x.c\n+++ b/x.c\n@@ -1,2 +1,2 @@\n--- n;\n+++ n;\n done\n",
    by decide, ?_, by decide⟩
  intro all
  have clear := (withoutHeaders_keeps (by decide)).2.1 all turned List.mem_cons_self _
    List.mem_cons_self
  have looks : (HunkLine.line .removed "-- n;").LooksLikeNames (.line .added "++ n;") :=
    ⟨by decide, by decide⟩
  exact (List.isChain_cons_cons.1 clear).1 looks

end Reading

end Variation
