import Variation.Proofs.Constructed
import Variation.Proofs.Texts

/-!
# When a construction keeps both texts

A construction keeps the text before the edit. After the edit a kept node prints the label and the
closing line that it had in the first tree, so the text of the second tree is kept exactly if pairs of
equal matching text have equal labels and closing lines. What is constructed is legible, so the same is
known of a refinement that follows. Two conditions that differ in their white space have equal matching
texts and unequal labels.
-/

namespace Variation

open Matching (Snapshot)
open Reading (Told)

namespace Diff

variable {d d' : Diff} {t : Time} {n : Handle} {f : Forest Handle} {x : Node}

/-- A node of a diff writes at a time what another node writes. -/
structure Writes (d : Diff) (t : Time) (x : Node) (n : Handle) : Prop where
  kind : (d.look n).kind = x.kind
  label : (d.look n).label = x.label
  closing : ((d.look n).closing.get t).map (·.label) = (x.closing.get t).map (·.label)

theorem writes_of_payload {y : Node} (payload : d.payload n = y) (kind : y.kind = x.kind)
    (label : y.label = x.label)
    (closing : (y.closing.get t).map (·.label) = (x.closing.get t).map (·.label)) :
    d.Writes t x n := by
  have hereKind := congrArg Node.kind payload
  have hereLabel := congrArg Node.label payload
  have hereClosing := congrArg (fun y : Node => (y.closing.get t).map (·.label)) payload
  exact ⟨hereKind.trans kind, hereLabel.trans label, hereClosing.trans closing⟩

theorem Redates.closing (h : d.Redates d') (n : Handle) (t : Time) :
    ((d'.look n).closing.get t).map (·.label) = ((d.look n).closing.get t).map (·.label) := by
  have same := congrArg (fun y : Node => (y.closing.get t).map (·.label)) (h.payload n)
  simp only [Node.undated, Sides.get_map, Option.map_map] at same
  exact same

theorem Redates.writes (h : d.Redates d') (writes : d.Writes t x n) : d'.Writes t x n :=
  ⟨(h.kind n).trans writes.kind, (h.label n).trans writes.label,
    (h.closing n t).trans writes.closing⟩

namespace Writes

theorem ownLines (h : d.Writes t x n) : Printing.ownLines (d.look n) = Printing.ownLines x := by
  rw [Printing.ownLines, Printing.ownLines, h.kind, h.label]

theorem closingLines (h : d.Writes t x n) :
    Printing.closingLines (d.look n) t = Printing.closingLines x t := by
  have same := h.closing
  unfold Printing.closingLines
  rw [h.kind]
  split
  · cases hc : (d.look n).closing.get t <;> cases hx : x.closing.get t <;>
      simp_all
  · rfl

/-- What a node writes is told if what the other node writes is. -/
theorem closing_told (h : d.Writes t x n)
    (told : ∃ c, x.closing.get t = some c ∧ Told c.label.lines) :
    ∃ c, (d.look n).closing.get t = some c ∧ Told c.label.lines := by
  obtain ⟨c, hc, told⟩ := told
  have same := h.closing
  rw [hc, Option.map_some] at same
  obtain ⟨c', hc', label⟩ := Option.map_eq_some_iff.1 same
  exact ⟨c', hc', label ▸ told⟩

end Writes

/-- A twofold diff is legible if its nodes write what is told. -/
theorem legible_of_writes {s : Sides (Forest Handle)} (twofold : d.Twofold s)
    (top : ∀ t, d.lives t root = true)
    (writes : ∀ t n, n ∈ (s.get t).flatten → ∃ x, d.Writes t x n ∧ Told x.label.lines ∧
      (x.kind = .ifBranch → ∃ c, x.closing.get t = some c ∧ Told c.label.lines)) :
    d.Legible s := by
  refine ⟨twofold, top, fun t n hn => ?_, fun t n hn opens => ?_⟩
  · obtain ⟨x, writes, told, -⟩ := writes t n hn
    rw [writes.label]
    exact told
  · obtain ⟨x, writes, -, closing⟩ := writes t n hn
    exact writes.closing_told (closing (writes.kind.symm.trans opens))

end Diff

namespace Reading

variable {text : String} {options : Options} {source : Source} {dialect : Dialect} {tree : Tree}
  {f : Forest Handle}

theorem legible_of_tree (single : options.collapse = false)
    (h : Reading.tree text options source dialect = .ok tree) (still : tree.diff.Still f) :
    tree.diff.Legible ⟨f, f⟩ := by
  obtain ⟨d, run, asTree⟩ := Outcome.bind_eq_ok_iff.1 h
  rw [diff_of_asTree asTree] at still ⊢
  obtain ⟨⟨b, a⟩, legible⟩ := exists_legible single run fun _ hl => feed_not_mem_ofSource hl
  have same (t) : (⟨b, a⟩ : Sides (Forest Handle)).get t = f :=
    (legible.shape t).spans.unique (still.tree t).spans
      ((legible.shape t).below.symm.trans (still.tree t).below)
  have before : b = f := same .before
  have after : a = f := same .after
  rw [before, after] at legible
  exact legible

theorem printed_of_tree (h : Reading.tree text options source dialect = .ok tree)
    (still : tree.diff.Still f) (t : Time) :
    Printing.printed tree.diff t f = (Text.lines text).filter options.reads := by
  obtain ⟨g, still', -, printed⟩ := exists_still h
  rw [still.unique still']
  exact printed t

end Reading

/-- A copy closes at all times as the node does at the time of the copy. -/
theorem Printing.closingLines_collapse (x : Node) (t u : Time) :
    closingLines (x.collapse t) u = closingLines x t := by
  have kind : (x.collapse t).kind = x.kind := rfl
  unfold closingLines
  rw [x.closing_collapse, kind]
  cases x.closing.get t <;> rfl

namespace Construction

open Diff

variable {d other : Diff} {src dst : Snapshot} {m : Matching} {f g : Forest Handle}

/-- Pairs of a matching with equal texts have equal labels and close with equal lines. -/
def SameLines (d other : Diff) (src dst : Snapshot) (m : Matching) : Prop :=
  ∀ i j a b, m.dst? i = some j → src.get? i = some a → dst.get? j = some b → a.label = b.label →
    (d.look a.origin).label = (other.look b.origin).label ∧
      Printing.closingLines (d.look a.origin) .after =
        Printing.closingLines (other.look b.origin) .after

namespace Rehung

variable {d₁ d₂ d' : Diff} {z : Forest ((Handle × Nat) × Handle)} {q : (Handle × Nat) × Handle}
  {n : Handle}

/-- A node of the first tree writes before the edit what it wrote at first. -/
theorem writes_first (r : Rehung other d d₁ d₂ f g src dst m z) (hn : n ∈ f.flatten) :
    d₂.Writes .before (d.look n) n := by
  obtain ⟨y, payload⟩ | payload := r.payload_first hn
  · exact writes_of_payload payload rfl rfl rfl
  · refine writes_of_payload payload rfl rfl ?_
    exact Option.map_map ..

/-- What is kept for a place writes after the edit what it wrote at first. -/
theorem writes_kept (r : Rehung other d d₁ d₂ f g src dst m z) (hq : q ∈ z.flatten)
    (keeps : keeper src dst m q.1.2 = some q.2) : d₂.Writes .after (d.look q.2) q.2 := by
  cases r.stands hq with
  | kept _ payload => exact writes_of_payload payload rfl rfl rfl
  | added free _ _ _ =>
    rw [keeps] at free
    cases free

/-- What is added for a place writes what the node there writes. -/
theorem writes_added (r : Rehung other d d₁ d₂ f g src dst m z) (hq : q ∈ z.flatten)
    (free : keeper src dst m q.1.2 = none) : d₂.Writes .after (other.look q.1.1) q.2 := by
  cases r.stands hq with
  | kept keeps _ =>
    rw [keeps] at free
    cases free
  | added _ _ _ payload =>
    refine writes_of_payload payload rfl rfl ?_
    exact Option.map_map ..

theorem kept_or_added (r : Rehung other d d₁ d₂ f g src dst m z) (hq : q ∈ z.flatten) :
    keeper src dst m q.1.2 = some q.2 ∨ keeper src dst m q.1.2 = none := by
  cases r.stands hq with
  | kept keeps _ => exact .inl keeps
  | added free _ _ _ => exact .inr free

/-- A diff between legible trees is legible. -/
theorem legible (r : Rehung other d d₁ d₂ f g src dst m z) (redates : d₂.Redates d')
    (first : d.Legible ⟨f, f⟩) (second : other.Legible ⟨g, g⟩) : d'.Legible ⟨f, seats z⟩ := by
  refine legible_of_writes (redates.twofold r.twofold)
    (fun t => (redates.lives t root).trans (r.lives_root t)) fun t n hn => ?_
  cases t with
  | before =>
    exact ⟨_, redates.writes (r.writes_first hn), first.label .before n hn,
      first.closing .before n hn⟩
  | after =>
    obtain ⟨q, hq, rfl⟩ := mem_seats.1 hn
    have place := r.place_mem hq
    obtain keeps | free := r.kept_or_added hq
    · have old := (r.setting.keeper_spec place keeps).1
      exact ⟨_, redates.writes (r.writes_kept hq keeps), first.label .after q.2 old,
        first.closing .after q.2 old⟩
    · have there : q.1.1 ∈ g.flatten := mem_of_numbered place
      exact ⟨_, redates.writes (r.writes_added hq free), second.label .after q.1.1 there,
        second.closing .after q.1.1 there⟩

/-- What stands for a place writes after the edit what the node there writes. -/
def Repeats (d other : Diff) (q : (Handle × Nat) × Handle) : Prop :=
  Printing.ownLines (d.look q.2) = Printing.ownLines (other.look q.1.1) ∧
    Printing.closingLines (d.look q.2) .after = Printing.closingLines (other.look q.1.1) .after

/-- The second tree is repeated place by place exactly if pairs of equal texts have equal lines. -/
theorem repeats_iff (r : Rehung other d d₁ d₂ f g src dst m z) (redates : d₂.Redates d')
    (top : (d.look root).label = (other.look root).label) :
    (∀ q ∈ z.flatten, Repeats d' other q) ↔ SameLines d other src dst m := by
  constructor
  · intro repeats i j a b pair ha hb same
    have first := r.setting.before.getElem? ha
    have second := r.setting.after.getElem? hb
    cases j with
    | zero =>
      -- the roots are a pair, and close nothing
      obtain rfl := Matching.source_inj pair r.setting.roots
      have here : a.origin = root := (Option.some.inj first).symm
      have there : b.origin = root := (Option.some.inj second).symm
      rw [here, there]
      refine ⟨top, ?_⟩
      rw [Printing.closingLines, Printing.closingLines,
        look_root_kind r.setting.still.toRegular, look_root_kind r.setting.target.toRegular]
      rfl
    | succ j =>
      have keeps : keeper src dst m (j + 1) = some a.origin :=
        keeper_eq_some_iff.2 ⟨i, a, b, pair, ha, hb, same, rfl⟩
      have place : (b.origin, j + 1) ∈ (g.numbered 1).flatten :=
        mem_numbered.2 ⟨Nat.succ_ne_zero j, second⟩
      obtain ⟨-, kind, -⟩ := r.setting.keeper_spec place keeps
      have hq := r.mem_of_keeps place keeps
      have writes := redates.writes (r.writes_kept hq keeps)
      obtain ⟨own, closing⟩ := repeats _ hq
      rw [writes.ownLines] at own
      rw [writes.closingLines] at closing
      have below : (other.look b.origin).kind ≠ .root :=
        r.setting.target.kind .before _ (mem_of_numbered place)
      rw [Printing.ownLines, Printing.ownLines, kind, if_neg below, if_neg below] at own
      exact ⟨congrArg Label.mk own, closing⟩
  · intro lines q hq
    obtain keeps | free := r.kept_or_added hq
    · have writes := redates.writes (r.writes_kept hq keeps)
      obtain ⟨i, a, b, pair, ha, hb, same, origin⟩ := keeper_eq_some_iff.1 keeps
      have place : some b.origin = some q.1.1 :=
        (r.setting.after.getElem? hb).symm.trans (mem_numbered.1 (r.place_mem hq)).2
      obtain ⟨label, closing⟩ := lines i q.1.2 a b pair ha hb same
      rw [origin, Option.some.inj place] at label closing
      refine ⟨?_, writes.closingLines.trans closing⟩
      have kind := (r.setting.keeper_spec (r.place_mem hq) keeps).2.1
      rw [writes.ownLines, Printing.ownLines, Printing.ownLines, kind, label]
    · have writes := redates.writes (r.writes_added hq free)
      exact ⟨writes.ownLines, writes.closingLines⟩

/-- Before the edit the first tree is printed. -/
theorem printed_before (r : Rehung other d d₁ d₂ f g src dst m z) (redates : d₂.Redates d') :
    Printing.printed d' .before f = Printing.printed d .before f := by
  refine Forest.lines_congr fun n hn => ?_
  have writes := redates.writes (r.writes_first hn)
  exact ⟨writes.ownLines, writes.closingLines⟩

/-- After the edit the second tree is printed exactly if pairs of equal texts have equal lines. -/
theorem printed_after_eq_iff (r : Rehung other d d₁ d₂ f g src dst m z) (redates : d₂.Redates d')
    (top : (d.look root).label = (other.look root).label) (first : d.Legible ⟨f, f⟩)
    (second : other.Legible ⟨g, g⟩) :
    Printing.printed d' .after (seats z) = Printing.printed other .after g ↔
      SameLines d other src dst m := by
  rw [← r.repeats_iff redates top]
  have legible := r.legible redates first second
  have places : g = z.map fun q => q.1.1 := by
    rw [← Forest.map_fst_numbered g 1, ← r.places, Forest.map_map]
    rfl
  have here : Printing.printed d' .after (seats z) =
      z.lines (fun q => Printing.ownLines (d'.look q.2))
        fun q => Printing.closingLines (d'.look q.2) .after := Forest.lines_map ..
  have there : Printing.printed other .after g =
      z.lines (fun q => Printing.ownLines (other.look q.1.1))
        fun q => Printing.closingLines (other.look q.1.1) .after := by
    rw [places]
    exact Forest.lines_map ..
  rw [here, there]
  constructor
  · intro same
    refine (Forest.eq_of_lines (fun q hq => ?_) (congrArg (· ++ ([] : List String)) same)).1
    have seat : q.2 ∈ ((⟨f, seats z⟩ : Sides (Forest Handle)).get .after).flatten :=
      mem_seats.2 ⟨q, hq, rfl⟩
    have place : q.1.1 ∈ ((⟨g, g⟩ : Sides (Forest Handle)).get .after).flatten :=
      mem_of_numbered (r.place_mem hq)
    refine ⟨?_, ?_⟩
    · rw [legible.ownLines_eq seat, second.ownLines_eq place]
      exact (legible.label .after q.2 seat).separate (second.label .after q.1.1 place)
    · have kind := (redates.kind q.2).trans (r.kind_seat hq)
      obtain ⟨plain, none⟩ | ⟨opens, told⟩ := legible.closingLines_cases seat
      · obtain ⟨-, none'⟩ | ⟨opens', -⟩ := second.closingLines_cases place
        · rw [none, none']
          exact Separate.nil
        · exact absurd (kind.trans opens') plain
      · obtain ⟨plain', -⟩ | ⟨-, told'⟩ := second.closingLines_cases place
        · exact absurd (kind.symm.trans opens) plain'
        · exact told.separate told'
  · exact fun repeats => Forest.lines_congr repeats

end Rehung

/-! ## Both texts -/

variable {before after : Tree} {y : Forest (Handle × Handle)}

namespace Base

variable {t : Time} {a : Handle × Handle}

/-- The copy of a node writes what the node writes before the edit. -/
theorem writes (h : Base before after d y g src dst) (ha : a ∈ y.flatten) (t : Time) :
    d.Writes t ((before.diff.look a.2).collapse .before) a.1 :=
  writes_of_payload (h.payload a (List.mem_cons_of_mem _ ha)) rfl rfl rfl

theorem legible (h : Base before after d y g src dst)
    (first : before.diff.Legible ⟨y.map (·.2), y.map (·.2)⟩) :
    d.Legible ⟨y.map (·.1), y.map (·.1)⟩ := by
  refine legible_of_writes h.still.toTwofold (fun t => h.still.present List.mem_cons_self t)
    fun t n hn => ?_
  have mem : n ∈ (y.map (·.1)).flatten := by cases t <;> exact hn
  obtain ⟨a, ha, rfl⟩ := Forest.mem_flatten_map.1 mem
  have source : a.2 ∈ ((⟨y.map (·.2), y.map (·.2)⟩ : Sides (Forest Handle)).get .before).flatten :=
    Forest.mem_flatten_map_of_mem (·.2) ha
  refine ⟨_, h.writes ha t, first.label .before a.2 source, fun opens => ?_⟩
  obtain ⟨c, hc, told⟩ := first.closing .before a.2 source opens
  refine ⟨c.collapse .before, ?_, told⟩
  rw [Node.collapse, hc]
  cases t <;> rfl

/-- The copy prints at all times what the tree prints before the edit. -/
theorem printed (h : Base before after d y g src dst) (t : Time) :
    Printing.printed d t (y.map (·.1)) = Printing.printed before.diff .before (y.map (·.2)) := by
  rw [Printing.printed, Printing.printed, Forest.lines_map, Forest.lines_map]
  refine Forest.lines_congr fun a ha => ?_
  have writes := h.writes ha t
  exact ⟨writes.ownLines, writes.closingLines.trans (Printing.closingLines_collapse ..)⟩

theorem label_root (h : Base before after d y g src dst) :
    (d.look root).label = (after.diff.look root).label := by
  have copied := congrArg Node.label (h.payload (root, root) List.mem_cons_self)
  have first := congrArg Node.label h.top
  have second := congrArg Node.label h.top'
  exact (copied.trans first).trans second.symm

end Base

/-- A diff prints one text before the edit and one after it. -/
def Prints (d : Diff) (text text' : String) : Prop :=
  Printing.source d .before = .ok text ∧ Printing.source d .after = .ok text'

/-- A matcher succeeds on two trees and pairs equal texts only where the labels and the closing lines
are equal. -/
def PairsSameLines (before after : Tree) (matcher : Matcher) : Prop :=
  ∃ p src dst m, before.diff.unchanged = .ok p ∧
    Snapshot.ofDiff { p with source := .compared before.diff.source after.diff.source } .before =
      .ok src ∧
    Snapshot.ofTree after = .ok dst ∧ matcher.run src dst .empty = .ok m ∧
    SameLines p after.diff src dst m

theorem Prints.iff_sameTexts {d d' : Diff} {text text' : String} (h : Prints d text text') :
    Prints d' text text' ↔ Refinement.SameTexts d d' := by
  constructor
  · rintro ⟨before, after⟩ t
    cases t with
    | before => exact ⟨text, h.1, before⟩
    | after => exact ⟨text', h.2, after⟩
  · intro same
    obtain ⟨b, old, before⟩ := same .before
    obtain ⟨a, old', after⟩ := same .after
    rw [h.1] at old
    rw [h.2] at old'
    obtain rfl := Except.ok.inj old
    obtain rfl := Except.ok.inj old'
    exact ⟨before, after⟩

namespace Base

theorem pairsSameLines_iff (h : Base before after d y g src dst) {matcher : Matcher} :
    PairsSameLines before after matcher ↔
      ∃ m, matcher.run src dst .empty = .ok m ∧ SameLines d after.diff src dst m := by
  obtain ⟨p, copied, rfl⟩ := h.copy
  constructor
  · rintro ⟨p', src', dst', m, copied', hsrc, hdst, matched, same⟩
    obtain rfl := Except.ok.inj (copied'.symm.trans copied)
    obtain rfl := Except.ok.inj (hsrc.symm.trans h.src)
    obtain rfl := Except.ok.inj (hdst.symm.trans h.dst)
    exact ⟨m, matched, same⟩
  · rintro ⟨m, matched, same⟩
    exact ⟨p, src, dst, m, copied, h.src, h.dst, matched, same⟩

end Base

section Reading

variable {ls ls' : List String} {source source' : Source} {dialect dialect' : Dialect}

/-- What is constructed from two plain texts is legible and prints the first text before the edit. It
prints the second one after it exactly if pairs of equal texts have equal lines. -/
theorem diff_prints (plain : ∀ l ∈ ls, Text.Plain l) (plain' : ∀ l ∈ ls', Text.Plain l)
    (hb : Reading.tree (Text.unlines ls) {} source dialect = .ok before)
    (ha : Reading.tree (Text.unlines ls') {} source' dialect' = .ok after)
    (start : Start before after d y g src dst) {matcher : Matcher}
    (matched : matcher.run src dst .empty = .ok m) :
    ∃ d' s, diff before after matcher = .ok d' ∧ d'.Legible s ∧
      Printing.source d' .before = .ok (Text.unlines ls) ∧
      (Printing.source d' .after = .ok (Text.unlines ls') ↔ SameLines d after.diff src dst m) := by
  obtain ⟨d₁, d₂, d', z, r, redates, run, -⟩ := start.exists_diff matched
  have first := start.legible (Reading.legible_of_tree rfl hb start.source)
  have second := Reading.legible_of_tree rfl ha start.target
  have legible := r.legible redates first second
  have lines {ls : List String} (plain : ∀ l ∈ ls, Text.Plain l) :
      (Text.lines (Text.unlines ls)).filter (({} : Reading.Options).reads) = ls := by
    rw [Text.lines_unlines plain]
    exact List.filter_eq_self.2 fun _ _ => rfl
  have before : Printing.printed d' .before (y.map (·.1)) = ls := by
    rw [r.printed_before redates, start.printed .before, Reading.printed_of_tree hb start.source, lines plain]
  have after : Printing.printed after.diff .after g = ls' := by
    rw [Reading.printed_of_tree ha start.target, lines plain']
  refine ⟨d', _, run, legible, ?_, ?_⟩
  · rw [Printing.source_eq legible.toRegular (legible.shape .before)]
    exact congrArg (fun ls => Except.ok (Text.unlines ls)) before
  · rw [← r.printed_after_eq_iff redates start.label_root first second, after,
      Printing.source_eq legible.toRegular (legible.shape .after)]
    constructor
    · intro texts
      exact Text.unlines_inj (fun l hl => legible.feed_not_mem (t := .after) hl)
        (fun l hl feed => (plain' l hl _ feed).1 rfl) (Except.ok.inj texts)
    · exact congrArg fun ls => Except.ok (Text.unlines ls)

/-- Two plain texts are kept by a construction and a refinement that follows exactly if both matchers
succeed, the first one pairs equal texts only where the labels and the closing lines are equal, and the
second one pairs equal texts only where the labels are equal. -/
theorem diff_keeps_iff (plain : ∀ l ∈ ls, Text.Plain l) (plain' : ∀ l ∈ ls', Text.Plain l)
    (hb : Reading.tree (Text.unlines ls) {} source dialect = .ok before)
    (ha : Reading.tree (Text.unlines ls') {} source' dialect' = .ok after)
    (few : ls.length + ls'.length < 2147483647) (matcher matcher' : Matcher) :
    (∃ d d', diff before after matcher = .ok d ∧ Prints d (Text.unlines ls) (Text.unlines ls') ∧
      Refinement.refine d matcher' = .ok d' ∧ Prints d' (Text.unlines ls) (Text.unlines ls')) ↔
    PairsSameLines before after matcher ∧
      ∃ d, diff before after matcher = .ok d ∧ Refinement.PairsSameLabels d matcher' := by
  obtain ⟨d₀, y, g, src, dst, start⟩ := exists_start hb ha (by
    rw [Text.lines_unlines plain, Text.lines_unlines plain']
    exact few)
  have keeps {d s} (legible : d.Legible s) (prints : Prints d (Text.unlines ls) (Text.unlines ls')) :
      (∃ d', Refinement.refine d matcher' = .ok d' ∧
        Prints d' (Text.unlines ls) (Text.unlines ls')) ↔ Refinement.PairsSameLabels d matcher' := by
    rw [← Refinement.refine_sameTexts_iff legible]
    exact exists_congr fun d' => and_congr_right fun _ => prints.iff_sameTexts
  constructor
  · rintro ⟨d, d', run, prints, refined⟩
    obtain ⟨m, matched⟩ := start.exists_matching run
    obtain ⟨d, s, run', legible, -, second⟩ := diff_prints plain plain' hb ha start matched
    rw [run] at run'
    obtain rfl := Except.ok.inj run'
    exact ⟨start.pairsSameLines_iff.2 ⟨m, matched, second.1 prints.2⟩, d, run,
      (keeps legible prints).1 ⟨d', refined⟩⟩
  · rintro ⟨pairs, d, run, labels⟩
    obtain ⟨m, matched, same⟩ := start.pairsSameLines_iff.1 pairs
    obtain ⟨d, s, run', legible, first, second⟩ := diff_prints plain plain' hb ha start matched
    rw [run] at run'
    obtain rfl := Except.ok.inj run'
    have prints : Prints d (Text.unlines ls) (Text.unlines ls') := ⟨first, second.2 same⟩
    obtain ⟨d', refined⟩ := (keeps legible prints).2 labels
    exact ⟨d, d', run, prints, refined⟩

/-- A condition gets a second space. The greedy matcher pairs the two annotations, whose labels differ,
and the text after the edit loses the space. -/
theorem diff_keeps_iff_spaced : ∃ before after d,
    Reading.tree (Text.unlines ["#if A", "#endif"]) {} .unknown .preprocessor = .ok before ∧
    Reading.tree (Text.unlines ["#if  A", "#endif"]) {} .unknown .preprocessor = .ok after ∧
    diff before after .greedy = .ok d ∧
    Printing.source d .after = .ok (Text.unlines ["#if A", "#endif"]) ∧
    ¬ (PairsSameLines before after .greedy ∧
      ∃ d, diff before after .greedy = .ok d ∧ Refinement.PairsSameLabels d .greedy) := by
  have texts : (do
      let before ← Reading.tree (Text.unlines ["#if A", "#endif"]) {} .unknown .preprocessor
      let after ← Reading.tree (Text.unlines ["#if  A", "#endif"]) {} .unknown .preprocessor
      let d ← diff before after .greedy
      Printing.source d .after : Outcome _).toOption = some (Text.unlines ["#if A", "#endif"]) := by
    decide +kernel
  obtain ⟨before, hb, texts⟩ := Outcome.bind_eq_ok_iff.1 (Outcome.eq_ok_of_toOption texts)
  obtain ⟨after, ha, texts⟩ := Outcome.bind_eq_ok_iff.1 texts
  obtain ⟨d, run, printed⟩ := Outcome.bind_eq_ok_iff.1 texts
  refine ⟨before, after, d, hb, ha, run, printed, fun pairs => ?_⟩
  obtain ⟨d', -, run', ⟨-, kept⟩, -⟩ := (diff_keeps_iff (by simp [Text.Plain])
    (by simp [Text.Plain]) hb ha (by decide) .greedy .greedy).2 pairs
  rw [run] at run'
  obtain rfl := Except.ok.inj run'
  rw [printed] at kept
  exact absurd (Except.ok.inj kept) (by decide)

end Reading

end Construction

end Variation
