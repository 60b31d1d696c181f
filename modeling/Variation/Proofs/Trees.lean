import Mathlib.Algebra.Order.BigOperators.Group.List
import Variation.Proofs.Acceptance
import Variation.Proofs.Blocks
import Variation.Proofs.Sources
import Variation.Proofs.Still

/-!
# Trees that were read

What is read from a plain text is a still diff: nothing in it changed. Every node below the root has a
line of its own, and so has every closing line, so the lines of the text pay for the lines that the
nodes take in any diff that is built from them. The copy of a still diff is still.
-/

namespace Variation

namespace Diff

/-- The root says nothing, and every label and every closing line has a line. -/
structure Filled (d : Diff) : Prop where
  top : d.payload root = Node.rootNode
  label : ∀ n, n ≠ root → n < d.size → (d.look n).label.lines ≠ []
  closing : ∀ n t c, (d.look n).closing.get t = some c → c.label.lines ≠ []

/-- The lines that a node takes in a diff: those of its label, one at least, and one to close it. -/
def room (d : Diff) (n : Handle) : Nat :=
  max (d.look n).label.lines.length 1 + if (d.look n).kind = .ifBranch then 1 else 0

end Diff

namespace Reading

open Diff Outline

/-! ## No label is empty -/

namespace Outline

variable {o o' : Outline} {n : Handle}

theorem filled_start (s : Source) : (Outline.start s).diff.Filled := by
  have only (n : Handle) (hn : n < (Outline.start s).diff.size) : n = root := Nat.lt_one_iff.1 hn
  refine ⟨rfl, fun n below hn => absurd (only n hn) below, fun n t c recorded => ?_⟩
  by_cases hn : n < (Outline.start s).diff.size
  · rw [only n hn] at recorded
    cases t <;> cases recorded
  · rw [Diff.look, Array.getElem?_eq_none (Nat.le_of_not_lt hn)] at recorded
    cases t <;> cases recorded

theorem Shuts.filled {closing : ClosingLine} (h : Shuts closing o o') (filled : o.diff.Filled)
    (full : closing.label.lines ≠ []) : o'.diff.Filled := by
  refine ⟨?_, fun n below hn => ?_, fun n t c recorded => ?_⟩
  · rw [payload, h.top]
    exact filled.top
  · rw [h.label]
    exact filled.label n below (h.alike.size ▸ hn)
  · rw [h.closing] at recorded
    split at recorded
    · obtain rfl := Option.some.inj recorded
      exact full
    · exact filled.closing n t c recorded

theorem Grows.filled {kind : Kind} {start stop : Position} {formula : Option Formula}
    {change : Change} {lines : List String} {tops : Time → Handle}
    (h : o.Grows (newNode change kind start stop formula ⟨lines⟩) o' tops) (neat : o.Neat)
    (filled : o.diff.Filled) (full : lines ≠ []) : o'.diff.Filled := by
  obtain rfl := h.result
  refine ⟨?_, fun n below hn => ?_, fun n t c recorded => ?_⟩
  · rw [payload_pushed, if_neg (Nat.ne_of_lt neat.orderly.root_lt)]
    exact filled.top
  · rw [label_pushed]
    rw [size_pushed] at hn
    split
    · exact full
    · next old =>
      exact filled.label n below (Nat.lt_of_le_of_ne (Nat.le_of_lt_succ hn) old)
  · rw [closing_pushed] at recorded
    split at recorded
    · cases t <;> cases recorded
    · exact filled.closing n t c recorded

theorem Joins.filled {c : Handle} {change : Change} {start stop : Position} {lines : List String}
    (h : o.Joins c change start stop lines o') (inStore : c < o.diff.size) (below : c ≠ root)
    (filled : o.diff.Filled) : o'.diff.Filled := by
  obtain rfl := h.result
  have look (n : Handle) : (o.joined c lines stop).diff.look n =
      if c = n then { o.diff.look n with label := (o.diff.look n).label.append lines, stop }
      else o.diff.look n := look_update inStore
  refine ⟨?_, fun n notTop hn => ?_, fun n t e recorded => ?_⟩
  · rw [payload, look, if_neg below]
    exact filled.top
  · have size : (o.joined c lines stop).diff.size = o.diff.size := size_update ..
    have own := filled.label n notTop (size ▸ hn)
    rw [look]
    split
    · exact fun none => own (List.append_eq_nil_iff.1 none).1
    · exact own
  · rw [look] at recorded
    split at recorded <;> exact filled.closing n t e recorded

theorem filled_put {options : Options} {dialect : Dialect} {line : LogicalLine} {change : Change}
    {last : Position} {m : Time → Nest Facet} (neat : o.Neat) (ho : ∀ t, o.Shows t (m t))
    (filled : o.diff.Filled) (full : line.lines ≠ [])
    (h : o.put options dialect line change last = .ok o') : o'.diff.Filled := by
  obtain ⟨stop, range⟩ := Run.place_of_put h
  obtain ⟨-, -, -, closed | ⟨kind, formula, tops, -, grows⟩⟩ | ⟨-, -, c, joins⟩ := put_cases range ho h
  · rw [closeChains_eq] at closed
    have shuts := (closeAll_shuts (o := { o with lastCode := none })
      (fun t => (ho t).nodup_opened) closed).1
    exact shuts.filled filled full
  · exact grows.filled neat filled full
  · obtain ⟨n, -, -, -, recalls⟩ := ho .before
    -- what is joined is code, and the root is none
    have below := ne_root_of_kind neat.orderly.toRegular (recalls c joins.last).2.1 (by decide)
    exact joins.filled (Shows.lastCode_lt ho c joins.last) below filled

end Outline

variable {options : Options} {dialect : Dialect} {source : Source} {text : String} {d : Diff}
  {tree : Tree}

/-- An outline is in order, shows a nest at each time, and no label in it is empty. -/
def Outline.Sturdy (o : Outline) : Prop :=
  (o.Neat ∧ ∃ m : Time → Nest Facet, ∀ t, o.Shows t (m t)) ∧ o.diff.Filled

theorem sturdy_start (source : Source) : (Outline.start source).Sturdy :=
  ⟨⟨neat_start source, fun _ => _, Run.shows_start source⟩, filled_start source⟩

theorem kept_sturdy : Run.Kept options dialect Outline.Sturdy := by
  intro o o' line change last ⟨⟨neat, m, shown⟩, filled⟩ full put
  exact ⟨Run.kept_neat o o' line change last ⟨neat, m, shown⟩ full put,
    filled_put neat shown filled full put⟩

/-- What is kept by all lines that are put holds of the outline that a text ends with. -/
theorem kept_ofLines {lines : List PhysicalLine} {P : Outline → Prop}
    (start : P (.start source)) (kept : Run.Kept options dialect P)
    (h : ofLines options dialect source lines = .ok d) :
    ∃ o, P o ∧ (∀ t, (o.opened.get t).length ≤ 1) ∧ o.diff = d := by
  obtain ⟨r, run, finish⟩ := Outcome.bind_eq_ok_iff.1 h
  obtain ⟨-, unopened, same⟩ := Run.of_finish finish
  exact ⟨r.outline, ((Run.bears_start start).run kept run).outline, unopened, same⟩

theorem filled_ofLines {lines : List PhysicalLine}
    (h : ofLines options dialect source lines = .ok d) : d.Filled := by
  obtain ⟨o, sturdy, -, rfl⟩ := kept_ofLines (sturdy_start source) kept_sturdy h
  exact sturdy.2

/-! ## What is read from a plain text -/

theorem exists_still_of_unedited (orderly : d.Orderly) (unedited : d.Unedited) : ∃ f, d.Still f := by
  obtain ⟨⟨f, g⟩, twofold⟩ := orderly.sound.exists_twofold orderly.toRegular
  obtain rfl : f = g := unedited.same_tree (twofold.shape .before) (twofold.shape .after)
  exact ⟨f, twofold, fun n hn => unedited.change n (twofold.lt_size (t := .before) hn)⟩

theorem diff_of_asTree (h : d.asTree = .ok tree) : tree.diff = d := by
  unfold Diff.asTree at h
  split at h
  · cases h
    rfl
  · cases h

/-- What is read from a plain text is still, and holds all lines that are not left out. -/
theorem exists_still (h : Reading.tree text options source dialect = .ok tree) :
    ∃ f, tree.diff.Still f ∧ tree.diff.Filled ∧
      ∀ t, Printing.printed tree.diff t f = (Text.lines text).filter options.reads := by
  obtain ⟨d, run, asTree⟩ := Outcome.bind_eq_ok_iff.1 h
  rw [diff_of_asTree asTree]
  obtain ⟨s, read, ended, few⟩ := accepts_of_ofLines run .before
  rw [PhysicalLine.ofSource, contentsAt_ofSourceLine] at read
  obtain ⟨d', run', unedited, -⟩ := ofSource_spec source read ended few
  have same : d = d' := by
    rw [PhysicalLine.ofSource, run'] at run
    exact (Except.ok.inj run).symm
  subst same
  obtain ⟨f, still⟩ := exists_still_of_unedited (ofLines_seems run).1 unedited
  refine ⟨f, still, filled_ofLines run, fun t => ?_⟩
  rw [printed_ofLines run (still.tree t), PhysicalLine.ofSource, contentsAt_ofSourceLine]

end Reading

namespace Diff

variable {d : Diff} {t : Time} {n : Handle} {f : Forest Handle}

theorem length_lines {α : Type} (first last : α → List String) (f : Forest α) :
    (f.lines first last).length =
      (f.flatten.map fun a => (first a).length + (last a).length).sum := by
  induction f with
  | nil => rfl
  | cons a below rest ihb ihr =>
    simp only [Forest.lines, Forest.flatten, List.length_append, List.map_cons, List.map_append,
      List.sum_cons, List.sum_append, ihb, ihr]
    omega

/-- What is printed pays for the lines that the nodes take. -/
theorem Filled.sum_room_le (filled : d.Filled) (spans : d.Spans t f) (below : root ∉ f.flatten)
    (kind : ∀ n ∈ f.flatten, (d.look n).kind ≠ .root) :
    (f.flatten.map d.room).sum ≤ (Printing.printed d t f).length := by
  rw [Printing.printed, length_lines]
  refine List.sum_le_sum fun n hn => ?_
  have notTop : n ≠ root := fun e => below (e ▸ hn)
  have own := List.length_pos_iff.2 (filled.label n notTop (spans.lt_size hn))
  have first : Printing.ownLines (d.look n) = (d.look n).label.lines := if_neg (kind n hn)
  have last : (if (d.look n).kind = .ifBranch then 1 else 0) ≤
      (Printing.closingLines (d.look n) t).length := by
    unfold Printing.closingLines
    split
    · split
      · next c recorded => exact List.length_pos_iff.2 (filled.closing n t c recorded)
      · exact Nat.le_refl 1
    · exact Nat.zero_le _
  rw [first, room]
  omega

/-! ## Copies -/

/-- Forests that look alike can be told as one forest of pairs. -/
theorem exists_pairs {α β γ : Type} {p : α → γ} {q : β → γ} {f : Forest α} {g : Forest β}
    (h : f.map p = g.map q) : ∃ z : Forest (α × β), z.map Prod.fst = f ∧ z.map Prod.snd = g ∧
      ∀ ab ∈ z.flatten, p ab.1 = q ab.2 := by
  induction f generalizing g with
  | nil =>
    cases g with
    | nil => exact ⟨.nil, rfl, rfl, fun ab hab => absurd hab List.not_mem_nil⟩
    | cons b below rest => cases h
  | cons a below rest ihb ihr =>
    cases g with
    | nil => cases h
    | cons b below' rest' =>
      obtain ⟨here, inner, behind⟩ := (Forest.cons.injEq ..).mp h
      obtain ⟨y, fst, snd, same⟩ := ihb inner
      obtain ⟨z, fst', snd', same'⟩ := ihr behind
      refine ⟨.cons (a, b) y z, by rw [Forest.map, fst, fst'], by rw [Forest.map, snd, snd'], ?_⟩
      intro ab hab
      simp only [Forest.flatten, List.mem_cons, List.mem_append] at hab
      obtain rfl | hab | hab := hab
      · exact here
      · exact same ab hab
      · exact same' ab hab

/-- A diff whose trees are copies of the tree of a twofold one at some time is still. -/
theorem Twofold.still_of_pairs {e : Diff} {s : Sides (Forest Handle)} {z : Forest (Handle × Handle)}
    (twofold : d.Twofold s) (image : z.map Prod.snd = s.get t) (regular : e.Regular)
    (free : ∀ u, e.above u root = none)
    (trees : ∀ u, e.below u root = (z.map Prod.fst).roots ∧ e.Spans u (z.map Prod.fst))
    (payload : ∀ ab ∈ (root, root) :: z.flatten, e.payload ab.1 = (d.look ab.2).collapse t) :
    e.Still (z.map Prod.fst) := by
  have fst : root :: (z.map Prod.fst).flatten = ((root, root) :: z.flatten).map Prod.fst :=
    Forest.cons_flatten_map Prod.fst (root, root) z
  have snd : root :: (z.map Prod.snd).flatten = ((root, root) :: z.flatten).map Prod.snd :=
    Forest.cons_flatten_map Prod.snd (root, root) z
  have kind (ab) (hab : ab ∈ (root, root) :: z.flatten) :
      (e.look ab.1).kind = (d.look ab.2).kind := by
    have copy := congrArg Node.kind (payload ab hab)
    exact copy
  have formula (ab) (hab : ab ∈ (root, root) :: z.flatten) :
      (e.look ab.1).formula = (d.look ab.2).formula := by
    have copy := congrArg Node.formula (payload ab hab)
    exact copy
  have kinds : (z.map Prod.fst).map (fun n => (e.look n).kind) =
      (z.map Prod.snd).map fun n => (d.look n).kind := by
    rw [Forest.map_map, Forest.map_map]
    exact Forest.map_congr fun ab hab => kind ab (List.mem_cons_of_mem _ hab)
  refine .of_spans regular free (fun u => (trees u).1) (fun u => (trees u).2) (fun n hn => ?_)
    (fun n hn => ?_) ?_ fun n hn => ?_
  · obtain ⟨ab, hab, rfl⟩ := List.mem_map.1 (fst ▸ hn)
    have change := congrArg Node.change (payload ab hab)
    exact change
  · obtain ⟨ab, hab, rfl⟩ := Forest.mem_flatten_map.1 hn
    rw [kind ab (List.mem_cons_of_mem _ hab)]
    exact twofold.kind t ab.2 (image ▸ Forest.mem_flatten_map_of_mem Prod.snd hab)
  · rw [kinds, image]
    exact twofold.ranked t
  · obtain ⟨ab, hab, rfl⟩ := List.mem_map.1 (fst ▸ hn)
    rw [formula ab hab, kind ab hab]
    exact twofold.formula t ab.2 (image ▸ snd ▸ List.mem_map_of_mem hab)

/-- The tree of a twofold diff at a time can be copied into a diff of its own, which is still. -/
theorem Twofold.exists_projection {s : Sides (Forest Handle)} (h : d.Twofold s) (t : Time) :
    ∃ (p : Diff) (z : Forest (Handle × Handle)), d.project t = .ok p ∧ p.Still (z.map Prod.fst) ∧
      z.map Prod.snd = s.get t ∧
      (∀ ab ∈ (root, root) :: z.flatten, p.payload ab.1 = (d.look ab.2).collapse t) ∧
      p.size = (s.get t).flatten.length + 1 := by
  obtain ⟨p, g, project, rooted, top, spans, image, size⟩ := project_spec h.toRegular (h.shape t)
  obtain ⟨z, rfl, snd, same⟩ := exists_pairs image
  have payload : ∀ ab ∈ (root, root) :: z.flatten, p.payload ab.1 = (d.look ab.2).collapse t :=
    List.forall_mem_cons.2 ⟨top, same⟩
  exact ⟨p, z, project, h.still_of_pairs snd ⟨⟨rooted.edge, rooted.once, rooted.lives⟩, rooted.root⟩
    rooted.free spans payload, snd, payload, size⟩

/-- The copy of a still diff, from whatever source, is still and says the same. -/
theorem Still.exists_copy (still : d.Still f) (source : Source) :
    ∃ (p : Diff) (z : Forest (Handle × Handle)), d.unchanged = .ok p ∧
      ({ p with source } : Diff).Still (z.map Prod.fst) ∧ z.map Prod.snd = f ∧
      ∀ ab ∈ (root, root) :: z.flatten,
        ({ p with source } : Diff).payload ab.1 = (d.look ab.2).collapse .before := by
  obtain ⟨p, z, project, copy, image, payload, -⟩ := still.toTwofold.exists_projection .before
  refine ⟨{ p with source := d.source }, z, ?_, ?_, image, payload⟩
  · rw [Diff.unchanged, project]
    rfl
  · refine still.toTwofold.still_of_pairs image ⟨⟨copy.edge, copy.once, copy.lives⟩, copy.root⟩
      copy.free (fun t => ⟨(copy.tree t).below, ?_⟩) payload
    exact (copy.tree t).spans.congr fun n hn => ⟨(copy.tree t).spans.lt_size hn, rfl⟩

end Diff

end Variation
