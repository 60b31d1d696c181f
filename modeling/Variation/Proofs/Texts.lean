import Variation.Matching.Greedy
import Variation.Proofs.Refined
import Variation.Proofs.Whole

/-!
# When a refinement keeps both texts

A refinement always succeeds once its matcher does, and what it prints before the edit is what was
printed before. After the edit a joined node prints the label that it had before the edit, so the
text is kept exactly if the matcher pairs nodes of equal matching text only where the labels are
equal as well. Two conditions that differ in their white space have equal matching texts and unequal
labels.
-/

namespace Variation

open Matching (Snapshot)
open Reading (Told)

/-- A twofold diff whose root is there at both times and which prints whole logical lines. -/
structure Diff.Legible (d : Diff) (s : Sides (Forest Handle)) : Prop extends Twofold d s where
  top : ∀ t, d.lives t Diff.root = true
  label : ∀ t n, n ∈ (s.get t).flatten → Told (d.look n).label.lines
  closing : ∀ t n, n ∈ (s.get t).flatten → (d.look n).kind = .ifBranch →
    ∃ c, (d.look n).closing.get t = some c ∧ Told c.label.lines

namespace Diff.Legible

variable {d : Diff} {s : Sides (Forest Handle)} {t : Time} {n : Handle}

theorem ownLines_eq (h : d.Legible s) (hn : n ∈ (s.get t).flatten) :
    Printing.ownLines (d.look n) = (d.look n).label.lines :=
  if_neg (h.kind t n hn)

/-- What closes a node is nothing or a whole logical line. -/
theorem closingLines_cases (h : d.Legible s) (hn : n ∈ (s.get t).flatten) :
    ((d.look n).kind ≠ .ifBranch ∧ Printing.closingLines (d.look n) t = []) ∨
      ((d.look n).kind = .ifBranch ∧ Told (Printing.closingLines (d.look n) t)) := by
  unfold Printing.closingLines
  by_cases opens : (d.look n).kind = .ifBranch
  · obtain ⟨c, hc, told⟩ := h.closing t n hn opens
    rw [if_pos opens, hc]
    exact .inr ⟨opens, told⟩
  · rw [if_neg opens]
    exact .inl ⟨opens, rfl⟩

/-- No printed line holds a line feed. -/
theorem feed_not_mem (h : d.Legible s) {l : String}
    (hl : l ∈ Printing.printed d t (s.get t)) : '\n' ∉ l.toList := by
  obtain ⟨n, hn, here⟩ := Forest.mem_lines hl
  obtain here | here := here
  · rw [h.ownLines_eq hn] at here
    exact (h.label t n hn).2 l here
  · obtain ⟨-, none⟩ | ⟨-, told⟩ := h.closingLines_cases hn
    · rw [none] at here
      cases here
    · exact told.2 l here

end Diff.Legible

/-- What is read is legible. -/
theorem Reading.exists_legible {options : Options} {dialect : Dialect} {source : Source}
    {lines : List PhysicalLine} {d : Diff} (single : options.collapse = false)
    (h : ofLines options dialect source lines = .ok d)
    (feeds : ∀ line ∈ lines, '\n' ∉ line.content.toList) : ∃ s, d.Legible s := by
  obtain ⟨orderly, -⟩ := ofLines_spec single h
  obtain ⟨s, twofold⟩ := orderly.sound.exists_twofold orderly.toRegular
  have facets (t n) (hn : n ∈ (s.get t).flatten) : (d.facet t n).Legible ∧ (d.facet t n).Shut :=
    ofLines_legible single h feeds (twofold.shape t) hn
  refine ⟨s, twofold, orderly.top, fun t n hn => (facets t n hn).1.label (twofold.kind t n hn),
    fun t n hn opens => ?_⟩
  obtain ⟨legible, shut⟩ := facets t n hn
  cases hc : (d.look n).closing.get t with
  | none =>
    have none : (d.facet t n).closing = none := by
      show ((d.look n).closing.get t).map _ = none
      rw [hc]
      rfl
    have some := shut opens
    rw [none] at some
    cases some
  | some c =>
    refine ⟨c, rfl, ?_⟩
    have closing : (d.facet t n).closing = some (c.line.get t, c.label) := by
      show ((d.look n).closing.get t).map _ = _
      rw [hc]
      rfl
    exact legible.closing _ closing

namespace Refinement

variable {d d' : Diff} {s : Sides (Forest Handle)} {src dst : Snapshot} {m : Matching}
  {name : Handle → Handle}

/-- What is renamed gets the name of a node of the tree before the edit, which is told. -/
theorem told_name (h : d.Legible s) (merged : d.Merged d' s name)
    (named : ∀ n ∈ s.after.flatten, name n = n ∨ name n ∈ Diff.root :: s.before.flatten) {n : Handle}
    (hn : n ∈ s.after.flatten) : Told (d.look (name n)).label.lines := by
  obtain same | before := named n hn
  · rw [same]
    exact h.label .after n hn
  · refine h.label .before _ ((List.mem_cons.1 before).resolve_left fun top => ?_)
    have kind := merged.sameKind n hn
    rw [top, Diff.look_root_kind h.toRegular] at kind
    exact h.kind .after n hn kind.symm

/-- What is merged from a legible diff is legible. -/
theorem legible_merged (h : d.Legible s) (merged : d.Merged d' s name)
    (named : ∀ n ∈ s.after.flatten, name n = n ∨ name n ∈ Diff.root :: s.before.flatten) :
    d'.Legible ⟨s.before, s.after.map name⟩ := by
  refine ⟨merged.twofold, fun t => merged.lives t _ (h.top t), fun t n hn => ?_,
    fun t n hn kind => ?_⟩
  · rw [merged.label]
    cases t with
    | before => exact h.label .before n hn
    | after =>
      obtain ⟨m, hm, rfl⟩ := Forest.mem_flatten_map.1 hn
      exact told_name h merged named hm
  · rw [merged.kind] at kind
    cases t with
    | before =>
      show ∃ c, (d'.look n).closing.before = some c ∧ _
      rw [merged.closingBefore]
      exact h.closing .before n hn kind
    | after =>
      obtain ⟨m, hm, rfl⟩ := Forest.mem_flatten_map.1 hn
      show ∃ c, (d'.look (name m)).closing.after = some c ∧ _
      rw [merged.closingAfter m hm]
      rw [merged.sameKind m hm] at kind
      exact h.closing .after m hm kind

/-- A renaming keeps the text after the edit exactly if it keeps the labels. -/
theorem source_after_eq_iff (h : d.Legible s) (merged : d.Merged d' s name)
    (named : ∀ n ∈ s.after.flatten, name n = n ∨ name n ∈ Diff.root :: s.before.flatten) :
    Printing.source d' .after = Printing.source d .after ↔
      ∀ n ∈ s.after.flatten, (d.look (name n)).label = (d.look n).label := by
  rw [Printing.source_eq merged.twofold.toRegular (merged.twofold.shape .after),
    Printing.source_eq h.toRegular (h.shape .after)]
  show Except.ok (Text.unlines (Printing.printed d' .after (s.after.map name))) =
    Except.ok (Text.unlines (Printing.printed d .after s.after)) ↔ _
  have old (n) (hn : n ∈ s.after.flatten) :
      Printing.ownLines (d.look n) = (d.look n).label.lines :=
    h.ownLines_eq (t := .after) hn
  have kind (n) (hn : n ∈ s.after.flatten) : (d.look (name n)).kind ≠ .root := by
    rw [merged.sameKind n hn]
    exact h.kind .after n hn
  have new (n) (hn : n ∈ s.after.flatten) :
      Printing.ownLines (d.look (name n)) = (d.look (name n)).label.lines :=
    if_neg (kind n hn)
  have told (n) (hn : n ∈ s.after.flatten) := told_name h merged named hn
  rw [merged.printed_after]
  constructor
  · intro texts n hn
    have lines : s.after.lines (fun m => Printing.ownLines (d.look (name m)))
        (fun m => Printing.closingLines (d.look m) .after) =
        Printing.printed d .after s.after := by
      refine Text.unlines_inj (fun l hl => ?_) (fun l hl => h.feed_not_mem (t := .after) hl)
        (Except.ok.inj texts)
      obtain ⟨k, hk, here | here⟩ := Forest.mem_lines hl
      · rw [new k hk] at here
        exact (told k hk).2 l here
      · exact h.feed_not_mem (t := .after)
          (Forest.mem_lines_of_mem hk (.inr here))
    have places := Forest.eq_of_lines (fun k hk => ⟨?_, fun _ _ _ => rfl⟩)
      (congrArg (· ++ ([] : List String)) lines)
    · have labels := (places.1 n hn).1
      rw [new n hn, old n hn] at labels
      exact congrArg Label.mk labels
    · rw [new k hk, old k hk]
      exact (told k hk).separate (h.label .after k hk)
  · intro labels
    congr 2
    refine Forest.lines_congr fun n hn => ⟨?_, rfl⟩
    rw [new n hn, old n hn, labels n hn]

theorem source_before_eq (h : d.Legible s) (merged : d.Merged d' s name) :
    Printing.source d' .before = Printing.source d .before := by
  rw [Printing.source_eq merged.twofold.toRegular (merged.twofold.shape .before),
    Printing.source_eq h.toRegular (h.shape .before)]
  exact congrArg (fun ls => Except.ok (Text.unlines ls)) merged.printed_before

/-- A renaming of counterparts gives the names of sources only. -/
theorem name_cases (setting : Setting d s src dst m)
    (named : ∀ i e a, src.get? i = some e → counterpart? dst m e i = some a → name a = e.origin)
    (rest : ∀ a, (∀ i e, src.get? i = some e → counterpart? dst m e i ≠ some a) → name a = a)
    (n : Handle) : name n = n ∨ name n ∈ Diff.root :: s.before.flatten := by
  by_cases paired : ∃ i e, src.get? i = some e ∧ counterpart? dst m e i = some n
  · obtain ⟨i, e, he, hn⟩ := paired
    rw [named i e n he hn]
    exact .inr (List.mem_of_getElem? (setting.before.getElem? he))
  · exact .inl (rest n fun i e he hn => paired ⟨i, e, he, hn⟩)

/-- What a legible diff is refined to is merged from it and legible. -/
theorem exists_merged (h : d.Legible s) {matcher : Matcher} (run : refine d matcher = .ok d') :
    ∃ name, d.Merged d' s name ∧ d'.Legible ⟨s.before, s.after.map name⟩ := by
  obtain ⟨src, dst, seed, hsrc, hdst, own, whole⟩ := refine_eq h.toTwofold
  obtain ⟨m, matched, -⟩ := Outcome.bind_eq_ok_iff.1 ((whole matcher).symm.trans run)
  have setting := setting_of_run h.toTwofold h.top hsrc hdst own matched
  obtain ⟨d'', name, settled, merged, named, rest⟩ := settled_spec setting
  obtain rfl := Except.ok.inj
    (run.symm.trans (refine_of_run hsrc hdst own matched settled merged.twofold))
  exact ⟨name, merged, legible_merged h merged fun n _ => name_cases setting named rest n⟩

/-- Pairs of a matching with equal matching texts have equal labels. -/
def SameLabels (d : Diff) (src dst : Snapshot) (m : Matching) : Prop :=
  ∀ i j a b, m.dst? i = some j → src.get? i = some a → dst.get? j = some b →
    a.label = b.label → (d.look a.origin).label = (d.look b.origin).label

/-- Two diffs print the same at both times. -/
def SameTexts (d d' : Diff) : Prop :=
  ∀ t, ∃ text, Printing.source d t = .ok text ∧ Printing.source d' t = .ok text

/-- A matcher that succeeds leads to a refined diff, which prints the same exactly if pairs of equal
matching text have equal labels. -/
theorem exists_refined {matcher : Matcher} {seed : Matching} (h : d.Legible s)
    (hsrc : Snapshot.ofDiff d .before = .ok src) (hdst : Snapshot.ofDiff d .after = .ok dst)
    (own : ownPairs d src dst = .ok seed) (run : matcher.run src dst seed = .ok m) :
    ∃ d', refine d matcher = .ok d' ∧ (SameTexts d d' ↔ SameLabels d src dst m) := by
  have setting := setting_of_run h.toTwofold h.top hsrc hdst own run
  obtain ⟨d', name, settled, merged, named, rest⟩ := settled_spec setting
  have after := source_after_eq_iff h merged fun n _ => name_cases setting named rest n
  refine ⟨d', refine_of_run hsrc hdst own run settled merged.twofold,
    ⟨fun keeps i j a b hj ha hb same => ?_, fun labels t => ?_⟩⟩
  · obtain ⟨text, old, new⟩ := keeps .after
    have counterpart : counterpart? dst m a i = some b.origin :=
      counterpart?_eq_some_iff.2 ⟨j, b, hj, hb, same.symm, rfl⟩
    have target : b.origin ∈ Diff.root :: s.after.flatten :=
      List.mem_of_getElem? (setting.after.getElem? hb)
    obtain top | below := List.mem_cons.1 target
    · rw [setting.eq_root ha hj hb top, top]
    · rw [← named i a b.origin ha counterpart]
      exact after.1 (new.trans old.symm) _ below
  · cases t with
    | before =>
      rw [source_before_eq h merged, Printing.source_eq h.toRegular (h.shape .before)]
      exact ⟨_, rfl, rfl⟩
    | after =>
      have kept : Printing.source d' .after = Printing.source d .after := by
        refine after.2 fun n hn => ?_
        by_cases paired : ∃ i e, src.get? i = some e ∧ counterpart? dst m e i = some n
        · obtain ⟨i, e, he, counterpart⟩ := paired
          rw [named i e n he counterpart]
          obtain ⟨j, b, hj, hb, same, rfl⟩ := counterpart?_eq_some_iff.1 counterpart
          exact labels i j e b hj he hb same.symm
        · rw [rest n fun i e he hn => paired ⟨i, e, he, hn⟩]
      rw [kept, Printing.source_eq h.toRegular (h.shape .after)]
      exact ⟨_, rfl, rfl⟩

/-- A matcher succeeds on a diff and pairs nodes of equal matching text only where the labels are
equal. -/
def PairsSameLabels (d : Diff) (matcher : Matcher) : Prop :=
  ∃ src dst seed m, Snapshot.ofDiff d .before = .ok src ∧ Snapshot.ofDiff d .after = .ok dst ∧
    ownPairs d src dst = .ok seed ∧ matcher.run src dst seed = .ok m ∧ SameLabels d src dst m

/-- A legible diff is refined with both texts kept exactly if the matcher succeeds and pairs nodes of
equal matching text only where the labels are equal. -/
theorem refine_sameTexts_iff (h : d.Legible s) (matcher : Matcher) :
    (∃ d', refine d matcher = .ok d' ∧ SameTexts d d') ↔ PairsSameLabels d matcher := by
  constructor
  · rintro ⟨d', refined, keeps⟩
    obtain ⟨src, dst, seed, hsrc, hdst, own, whole⟩ := refine_eq h.toTwofold
    obtain ⟨m, run, -⟩ := Outcome.bind_eq_ok_iff.1 ((whole matcher).symm.trans refined)
    obtain ⟨d'', refined', iff⟩ := exists_refined h hsrc hdst own run
    obtain rfl := Except.ok.inj (refined.symm.trans refined')
    exact ⟨src, dst, seed, m, hsrc, hdst, own, run, iff.1 keeps⟩
  · rintro ⟨src, dst, seed, m, hsrc, hdst, own, run, labels⟩
    obtain ⟨d', refined, iff⟩ := exists_refined h hsrc hdst own run
    exact ⟨d', refined, iff.2 labels⟩

section Reading

variable {text : String} {options : Reading.Options} {dialect : Dialect} {source : Source}

/-- A diff that was read is refined with both texts kept exactly if the matcher succeeds and pairs
nodes of equal matching text only where the labels are equal. -/
theorem refine_diff_iff (single : options.collapse = false)
    (h : Reading.diff text options source dialect = .ok d) (matcher : Matcher) :
    (∃ d', refine d matcher = .ok d' ∧ SameTexts d d') ↔ PairsSameLabels d matcher := by
  obtain ⟨s, legible⟩ :=
    Reading.exists_legible single h fun _ hl => Reading.feed_not_mem_ofDiff hl
  exact refine_sameTexts_iff legible matcher

/-- A condition gets a second space. The greedy matcher pairs the two lines, whose labels differ, and
the file after the edit loses the space. -/
theorem refine_diff_spaced : ∃ d d',
    Reading.diff "-#if A\n+#if  A\n #endif\n" {} .unknown .preprocessor = .ok d ∧
    refine d .greedy = .ok d' ∧ Printing.source d .after = .ok "#if  A\n#endif\n" ∧
    Printing.source d' .after = .ok "#if A\n#endif\n" ∧ ¬ PairsSameLabels d .greedy := by
  have texts : (do
      let d ← Reading.diff "-#if A\n+#if  A\n #endif\n" {} .unknown .preprocessor
      let d' ← refine d .greedy
      return (← Printing.source d .after, ← Printing.source d' .after) : Outcome _).toOption =
        some ("#if  A\n#endif\n", "#if A\n#endif\n") := by
    decide +kernel
  obtain ⟨d, read, texts⟩ := Outcome.bind_eq_ok_iff.1 (Outcome.eq_ok_of_toOption texts)
  obtain ⟨d', refined, texts⟩ := Outcome.bind_eq_ok_iff.1 texts
  obtain ⟨old, before, texts⟩ := Outcome.bind_eq_ok_iff.1 texts
  obtain ⟨new, after, texts⟩ := Outcome.bind_eq_ok_iff.1 texts
  obtain ⟨rfl, rfl⟩ := Prod.mk.inj (Outcome.pure_eq_ok_iff.1 texts)
  refine ⟨d, d', read, refined, before, after, fun pairs => ?_⟩
  obtain ⟨d'', refined', same⟩ := (refine_diff_iff rfl read .greedy).2 pairs
  rw [refined] at refined'
  obtain rfl := Except.ok.inj refined'
  obtain ⟨text, old, new⟩ := same .after
  rw [before] at old
  rw [after] at new
  rw [← Except.ok.inj old] at new
  exact absurd (Except.ok.inj new) (by decide)

end Reading

end Refinement

end Variation
