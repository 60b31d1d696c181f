import Variation.Proofs.Lines
import Variation.Proofs.Projections
import Variation.Proofs.Same
import Variation.Proofs.Unedited

/-!
# Reading commutes with projecting

The lines of a diff that are there at a time are a text of their own. Reading the diff and taking its
tree at that time gives the same tree as reading that text: both trees are what a solo over these
lines ends with, and in a text that nothing changes a place is told by the line of either time.
-/

namespace Variation

open Reading

/-- The lines of a line diff that are there at a time, as a text. -/
def Reading.sideText (t : Time) (text : String) : String :=
  Text.unlines (contentsAt t (PhysicalLine.ofDiff text))

/-- The node of a text that nothing changes that says what a facet says. -/
def Facet.node (a : Facet) : Node where
  change := .unchanged
  kind := a.kind
  start := Solo.flat a.start
  stop := Solo.flat a.stop
  formula := a.formula
  label := a.label

theorem Node.face_collapse (x : Node) (t : Time) : (x.collapse t).face = (x.facet t).node := rfl

namespace Diff

variable {d : Diff} {t : Time} {n : Handle} {f g : Forest Handle}

/-- Only one forest hangs below given roots. -/
theorem Spans.unique (hf : d.Spans t f) (hg : d.Spans t g) (same : f.roots = g.roots) : f = g := by
  induction f generalizing g with
  | nil =>
    cases g with
    | nil => rfl
    | cons n below rest => cases same
  | cons n below rest ihb ihr =>
    cases g with
    | nil => cases same
    | cons m below' rest' =>
      obtain ⟨-, hn, hb, hr⟩ := hf
      obtain ⟨-, hm, hb', hr'⟩ := hg
      obtain ⟨rfl, sameRest⟩ := List.cons.inj same
      rw [ihb hb hb' (hn.symm.trans hm), ihr hr hr' sameRest]

/-- A diff has one tree at a time. -/
theorem Shape.unique (hf : d.Shape t f) (hg : d.Shape t g) : f = g :=
  hf.spans.unique hg.spans (hf.below.symm.trans hg.below)

namespace Unedited

theorem below_eq (h : d.Unedited) (t u : Time) : d.below t n = d.below u n := by
  have same := h.below n
  cases t <;> cases u
  · rfl
  · exact same
  · exact same.symm
  · rfl

theorem spans (h : d.Unedited) {t : Time} (spans : d.Spans t f) (u : Time) : d.Spans u f := by
  induction f with
  | nil => trivial
  | cons n below rest ihb ihr =>
    obtain ⟨size, hn, hb, hr⟩ := spans
    exact ⟨size, by rw [h.below_eq u t, hn], ihb hb, ihr hr⟩

/-- An unedited diff has one tree at both times, for it has the same children everywhere. -/
theorem same_tree (h : d.Unedited) (hf : d.Shape .before f) (hg : d.Shape .after g) : f = g := by
  apply (h.spans hf.spans .after).unique hg.spans
  rw [← hf.below, ← hg.below]
  exact h.below_eq .before .after

/-- Nothing in an unedited diff is an edit. -/
theorem editInTree? (h : d.Unedited) (hn : n < d.size) : (d.look n).editInTree? n = none := by
  have parent : (d.look n).parent.before = (d.look n).parent.after := by
    have same := h.above n
    rw [above_look hn, above_look hn] at same
    exact same
  have children : (d.look n).children.before = (d.look n).children.after := by
    have same := h.below n
    rw [below_look hn, below_look hn] at same
    exact same
  rw [Node.editInTree?, h.change n hn, parent, children]
  simp

theorem asTree (h : d.Unedited) (hd : d.Regular) (shape : d.Shape .before f) :
    ∃ tree, d.asTree = .ok tree ∧ tree.diff = d := by
  have passed : d.checkTree = .ok () := checkTree_of_spans hd.root_lt shape.below shape.spans
    (fun n hn => h.editInTree? hn) (shape.length_lt hd)
  refine ⟨⟨d, passed⟩, ?_, rfl⟩
  unfold Diff.asTree
  split
  · rfl
  · next e failed =>
    rw [passed] at failed
    cases failed

/-- What a place of a text that nothing changes says is told by either time. -/
theorem face_eq (h : d.Unedited) (flat : d.Flat) (hn : n < d.size)
    (same : d.facet .before n = d.facet .after n) : d.face n = (d.facet .before n).node := by
  have start : (d.look n).start = Solo.flat (d.facet .before n).start := by
    obtain ⟨i, hi⟩ := flat.start n hn
    show (d.look n).start = Solo.flat ((d.look n).start.get .before)
    rw [hi]
    rfl
  have stop : (d.look n).stop = Solo.flat (d.facet .before n).stop := by
    have ends : (d.look n).stop.before = (d.look n).stop.after := congrArg Facet.stop same
    have line := flat.stop n hn
    rw [← ends, Int.max_self] at line
    show (d.look n).stop = ⟨_, _, _⟩
    have before : (d.facet .before n).stop = (d.look n).stop.before := rfl
    rw [before]
    cases hs : (d.look n).stop
    rw [hs] at line ends
    simp only at line ends
    rw [line, ← ends]
  show (d.look n).face = _
  rw [Node.face, Facet.node, ← start, ← stop]
  simp only [Node.detached, h.change n hn]
  rfl

end Unedited

end Diff

namespace Reading

open Diff

variable {options : Options} {dialect : Dialect} {text : String} {d : Diff} {t : Time}

/-- The lines at a time hold nothing that ends a line. -/
theorem plain_contentsAt (clean : '\r' ∉ text.toList) :
    ∀ line ∈ contentsAt t (PhysicalLine.ofDiff text), Text.Plain line := by
  intro content hc
  simp only [contentsAt, PhysicalLine.ofDiff, List.mem_filterMap, List.mem_map] at hc
  obtain ⟨physical, ⟨line, hl, rfl⟩, kept⟩ := hc
  obtain ⟨change, -, kept⟩ := Option.bind_eq_some_iff.1 kept
  split at kept
  · obtain rfl := Option.some.inj kept
    have plain := Text.plain_of_mem_lines clean hl
    intro c hm
    apply plain c
    rw [PhysicalLine.ofDiffLine, String.toList_ofList] at hm
    exact List.mem_of_mem_drop hm
  · cases kept

theorem ofSource_sideText (clean : '\r' ∉ text.toList) : PhysicalLine.ofSource (sideText t text) =
    (contentsAt t (PhysicalLine.ofDiff text)).map PhysicalLine.ofSourceLine := by
  rw [PhysicalLine.ofSource, sideText, Text.lines_unlines (plain_contentsAt clean)]

theorem contentsAt_ofSourceLine (contents : List String) :
    contentsAt t (contents.map PhysicalLine.ofSourceLine) = contents := by
  induction contents with
  | nil => rfl
  | cons content contents ih =>
    rw [List.map_cons]
    show content :: contentsAt t (contents.map PhysicalLine.ofSourceLine) = _
    rw [ih]

/-- What a solo ends with is what the text alone is read as: one forest for both times, with places
that agree. -/
theorem tree_spec (single : options.collapse = false) (source : Source) {contents : List String}
    {s : Solo} {a : Facet} {trees : Forest Facet}
    (read : Solo.start.read options dialect contents = some s) (ended : s.pending = {})
    (closed : s.nest = .base a trees) :
    ∃ d g, ofLines options dialect source (contents.map PhysicalLine.ofSourceLine) = .ok d ∧
      d.Orderly ∧ d.Unedited ∧ d.Shape .before g ∧ d.face root = a.node ∧
      g.map d.face = trees.map Facet.node := by
  obtain ⟨d, run, unedited, flat⟩ := ofSource_spec source read ended (by rw [closed]; rfl)
  obtain ⟨orderly, spec⟩ := ofLines_spec single run
  have seen (u : Time) : ∃ f, d.Shape u f ∧ d.facet u root = a ∧ f.map (d.facet u) = trees := by
    obtain ⟨f, s', shape, read', -, nest⟩ := spec u
    rw [contentsAt_ofSourceLine, read] at read'
    obtain rfl := Option.some.inj read'
    rw [closed] at nest
    obtain ⟨rfl, rfl⟩ := (Nest.base.injEq ..).mp nest
    exact ⟨f, shape, rfl, rfl⟩
  obtain ⟨g, shape, rootBefore, imageBefore⟩ := seen .before
  obtain ⟨g', shape', rootAfter, imageAfter⟩ := seen .after
  obtain rfl := unedited.same_tree shape shape'
  have agree : ∀ n ∈ g.flatten, d.facet .before n = d.facet .after n := by
    have maps := congrArg Forest.flatten (imageBefore.trans imageAfter.symm)
    rw [Forest.flatten_map, Forest.flatten_map] at maps
    exact List.map_inj_left.1 maps
  refine ⟨d, g, run, orderly, unedited, shape, ?_, ?_⟩
  · rw [← rootBefore]
    exact unedited.face_eq flat orderly.root_lt (rootBefore.trans rootAfter.symm)
  · rw [← imageBefore, Forest.map_map]
    exact Forest.map_congr fun n hn =>
      unedited.face_eq flat (shape.spans.lt_size hn) (agree n hn)

/-- Reading commutes with projecting: the tree of a diff at a time says what is read from the lines
that are there at that time. -/
theorem project_diff (single : options.collapse = false) (clean : '\r' ∉ text.toList)
    {source : Source} (h : Reading.diff text options source dialect = .ok d) (source' : Source)
    (t : Time) : ∃ tree p, Reading.tree (sideText t text) options source' dialect = .ok tree ∧
      d.project t = .ok p ∧ p.saysSame tree.diff = .ok true := by
  obtain ⟨orderly, spec⟩ := ofLines_spec single h
  obtain ⟨f, s, shape, read, ended, closed⟩ := spec t
  obtain ⟨d', g, run, orderly', unedited, shape', rootFace, faces⟩ :=
    tree_spec single source' read ended closed
  obtain ⟨tree, asTree, treeDiff⟩ := unedited.asTree orderly'.toRegular shape'
  obtain ⟨p, gp, project, rooted, rootCopy, spans, copies, -⟩ :=
    project_spec orderly.toRegular shape
  refine ⟨tree, p, ?_, project, ?_⟩
  · rw [Reading.tree, ofSource_sideText clean, run]
    exact asTree
  · have tops (u : Time) : d'.below u root = g.roots ∧ d'.Spans u g := by
      rw [unedited.below_eq u .before]
      exact ⟨shape'.below, unedited.spans shape'.spans u⟩
    have copied := congrArg (Forest.map Node.face) copies
    rw [Forest.map_map, Forest.map_map] at copied
    rw [treeDiff]
    apply saysSame_of_face rooted.root_lt orderly'.root_lt spans tops
    · show (p.payload root).face = _
      rw [rootCopy, rootFace, Node.face_collapse]
      rfl
    · rw [faces, Forest.map_map]
      exact copied

/-- A line is guarded by the edit; after it, the file has the guard and the line below it. -/
theorem project_diff_guarded :
    ∃ d, Reading.diff "+#if A\n x\n+#endif\n" {} .unknown .preprocessor = .ok d ∧
      ∃ tree p, Reading.tree (sideText .after "+#if A\n x\n+#endif\n") {} .unknown .preprocessor =
        .ok tree ∧ d.project .after = .ok p ∧ p.saysSame tree.diff = .ok true := by
  have accepted : (Reading.diff "+#if A\n x\n+#endif\n" {} .unknown .preprocessor).isOk = true := by
    decide +kernel
  cases h : Reading.diff "+#if A\n x\n+#endif\n" {} .unknown .preprocessor with
  | error e =>
    rw [h] at accepted
    cases accepted
  | ok d =>
    have clean : '\r' ∉ "+#if A\n x\n+#endif\n".toList := by decide +kernel
    exact ⟨d, rfl, project_diff rfl clean h .unknown .after⟩

end Reading

end Variation
