import Variation.Proofs.KeptTexts
import Variation.Proofs.Lined
import Variation.Proofs.Projected

/-!
# Where the printers agree

Diffs are read, constructed between two trees that were read, and refined. What they tell before the
edit is in order: a construction and a refinement leave the tree before the edit as it was read, and
what is read stands in order. So the printers agree on it. After the edit a construction leaves the
closing lines of kept chains at the places of the first tree, and a refinement leaves joined nodes
without a place. There the printers agree if the places increase along the tree all the same.
-/

namespace Variation

open Diff Printing

variable {d d' : Diff} {t : Time} {n m : Handle} {f : Forest Handle} {s : Sides (Forest Handle)}

theorem Node.facet_collapse (x : Node) (t u : Time) : (x.collapse t).facet u = x.facet t := by
  simp only [Node.facet, Node.collapse, Node.detached, Position.get_collapse, Sides.get_both,
    Option.map_map, Function.comp_def, ClosingLine.collapse]

/-- Numbering the lines of a diff changes nothing that is seen at a time. -/
theorem Diff.Redates.facet (h : d.Redates d') (n : Handle) (t : Time) :
    d'.facet t n = d.facet t n := by
  have undated (x : Node) : x.undated.facet t = x.facet t := by
    cases t <;> simp only [Node.facet, Node.undated, Sides.get_map, Option.map_map] <;> rfl
  have same := congrArg (fun x : Node => x.facet t) (h.payload n)
  simp only [undated] at same
  exact same

/-- A refinement changes nothing that is seen before the edit. -/
theorem Diff.Merged.facet_before {name : Handle → Handle} (h : d.Merged d' s name) (n : Handle) :
    d'.facet .before n = d.facet .before n := by
  have closing : (d'.look n).closing.get .before = (d.look n).closing.get .before :=
    h.closingBefore n
  rw [facet, facet, Node.facet, Node.facet, h.kind, h.start, h.stop, h.formula, h.label, closing]

namespace Construction

variable {other d₁ d₂ : Diff} {g : Forest Handle} {src dst : Matching.Snapshot} {m : Matching}
  {z : Forest ((Handle × Nat) × Handle)}

/-- A construction changes nothing that is seen before the edit. -/
theorem Rehung.facet_before (r : Rehung other d d₁ d₂ f g src dst m z) (hn : n ∈ f.flatten) :
    d₂.facet .before n = d.facet .before n := by
  obtain ⟨y, payload⟩ | payload := r.payload_first hn
  · have same := congrArg (fun x : Node => x.facet .before) payload
    exact same
  · have same := congrArg (fun x : Node => x.facet .before) payload
    refine same.trans ?_
    show Facet.mk _ _ _ _ _ (((d.look n).closing.before.map _).map _) = Facet.mk _ _ _ _ _ _
    rw [Option.map_map]
    rfl

/-- The copy of a tree that was read shows before the edit what the tree shows. -/
theorem Base.facets {before after : Tree} {y : Forest (Handle × Handle)}
    (h : Base before after d y g src dst) : (y.map (·.1)).map (d.facet .before) =
      (y.map (·.2)).map (before.diff.facet .before) := by
  rw [Forest.map_map, Forest.map_map]
  refine Forest.map_congr fun a ha => ?_
  have same := congrArg (fun x : Node => x.facet .before) (h.payload a (List.mem_cons_of_mem _ ha))
  exact same.trans (Node.facet_collapse ..)

end Construction

/-- What is read stands in order at both times. -/
theorem Reading.increases_ofLines {options : Options} {dialect : Dialect} {source : Source}
    {lines : List PhysicalLine} (h : ofLines options dialect source lines = .ok d) (t : Time) :
    Increases d t := by
  have orderly := (ofLines_seems h).1
  obtain ⟨s, twofold⟩ := orderly.sound.exists_twofold orderly.toRegular
  exact ⟨s.get t, twofold.shape t, placed_ofLines (Position.counts_get t) h (twofold.shape t)⟩

/-- The diffs that are made of texts: one that was read, one that was constructed between two trees
that were read, and one to which such a diff was refined. -/
inductive Made : Diff → Prop where
  | read {text : String} {options : Reading.Options} {source : Source} {dialect : Dialect} {d : Diff}
    (single : options.collapse = false) (run : Reading.diff text options source dialect = .ok d) :
    Made d
  | compared {text text' : String} {options options' : Reading.Options} {source source' : Source}
    {dialect dialect' : Dialect} {before after : Tree} {matcher : Matcher} {d : Diff}
    (single : options.collapse = false) (single' : options'.collapse = false)
    (first : Reading.tree text options source dialect = .ok before)
    (second : Reading.tree text' options' source' dialect' = .ok after)
    (run : Construction.diff before after matcher = .ok d) : Made d
  | refined {matcher : Matcher} {d d' : Diff} (made : Made d)
    (run : Refinement.refine d matcher = .ok d') : Made d'

namespace Made

/-- What is made of texts is legible and stands in order before the edit. -/
theorem exists_legible (h : Made d) : ∃ s, d.Legible s ∧ Increases d .before := by
  induction h with
  | read single run =>
    obtain ⟨s, legible⟩ :=
      Reading.exists_legible single run fun _ hl => Reading.feed_not_mem_ofDiff hl
    exact ⟨s, legible, Reading.increases_ofLines run .before⟩
  | compared single single' first second run =>
    obtain ⟨d, y, g, src, dst, base⟩ := Construction.exists_base first second
    obtain ⟨m, d₁, d₂, z, r, numbered⟩ := base.exists_rehung run
    have redates := Construction.keeps_number.ok (.refl d₂) numbered
    have legible := r.legible redates (base.legible (Reading.legible_of_tree single first base.source))
      (Reading.legible_of_tree single' second base.target)
    obtain ⟨e, read, asTree⟩ := Outcome.bind_eq_ok_iff.1 first
    obtain rfl := Reading.diff_of_asTree asTree
    refine ⟨_, legible, (Reading.increases_ofLines read .before).of_facets
      (base.source.tree .before) (legible.shape .before) (Eq.trans ?_ base.facets)⟩
    refine Forest.map_congr fun n hn => ?_
    rw [redates.facet, r.facet_before hn]
  | refined made run ih =>
    obtain ⟨s, legible, increases⟩ := ih
    obtain ⟨name, merged, legible'⟩ := Refinement.exists_merged legible run
    refine ⟨_, legible', increases.of_facets (legible.shape .before) (legible'.shape .before) ?_⟩
    exact Forest.map_congr fun n _ => merged.facet_before n

/-- On what is made of texts the printers agree before the edit, on what was read also after it, and
on anything else after it if the places increase along the tree. -/
theorem lineDiff_project (h : Made d) (ordered : t = .before ∨
      (∃ text options source dialect, Reading.diff text options source dialect = .ok d) ∨
        Increases d t) : Agrees d t := by
  obtain ⟨s, legible, before⟩ := h.exists_legible
  obtain rfl | ⟨text, options, source, dialect, run⟩ | increases := ordered
  · exact agrees_of_increases legible before
  · exact agrees_of_increases legible (Reading.increases_ofLines run t)
  · exact agrees_of_increases legible increases

/-- A line moves behind another one. The refinement joins its two nodes, and the joined node has no
place after the edit. -/
theorem lineDiff_project_moved : ∃ d d',
    Reading.diff "-x\n a\n+x\n" {} .unknown .preprocessor = .ok d ∧
    Refinement.refine d .greedy = .ok d' ∧ Agrees d' .before ∧ ¬ Agrees d' .after := by
  have texts : (do
      let d ← Reading.diff "-x\n a\n+x\n" {} .unknown .preprocessor
      let d' ← Refinement.refine d .greedy
      let p ← d'.project .after
      return (← source d' .after, ← lineDiff p) : Outcome _).toOption =
        some ("a\nx\n", " x\n a\n") := by
    decide +kernel
  obtain ⟨d, run, rest⟩ := Outcome.bind_eq_ok_iff.1 (Outcome.eq_ok_of_toOption texts)
  obtain ⟨d', refined, rest⟩ := Outcome.bind_eq_ok_iff.1 rest
  obtain ⟨p, project, rest⟩ := Outcome.bind_eq_ok_iff.1 rest
  obtain ⟨after, printed, rest⟩ := Outcome.bind_eq_ok_iff.1 rest
  obtain ⟨out, written, rest⟩ := Outcome.bind_eq_ok_iff.1 rest
  obtain ⟨rfl, rfl⟩ := Prod.mk.inj (Except.ok.inj rest)
  refine ⟨d, d', run, refined, lineDiff_project ((Made.read rfl run).refined refined) (.inl rfl), ?_⟩
  rintro ⟨p', ls, project', feeds, printed', written'⟩
  obtain rfl := Except.ok.inj (project.symm.trans project')
  have texts : Text.unlines ["a", "x"] = Text.unlines ls :=
    Except.ok.inj (printed.symm.trans printed')
  obtain rfl := Text.unlines_inj (by decide) feeds texts
  rw [written] at written'
  exact absurd (Except.ok.inj written') (by decide)

end Made

end Variation
