import Variation.Printing.LineDiff
import Variation.Proofs.Unedited

/-!
# The blocks of a diff

Every line that was read is in one block: the label of one node, or one closing line. What is put
into an outline adds a block at the end of the text, or lengthens the last one, so the blocks follow
each other without a gap and spell what was read.
-/

namespace Variation

open Reading

/-- Lines of a text that stand together and have one change. -/
structure Block where
  /-- The diff line of the first one. -/
  line : Int
  change : Change
  lines : List String

namespace Block

/-- The lines of a block as lines of a diff. -/
def physical (b : Block) : List PhysicalLine := b.lines.map fun content => ⟨some b.change, content⟩

/-- The lines of blocks, one block after the other. -/
def spell (bs : List Block) : List PhysicalLine := bs.flatMap physical

/-- Blocks that follow each other from a line on without a gap; none is empty. -/
def Follow : Int → List Block → Prop
  | _, [] => True
  | line, b :: bs => b.line = line ∧ b.lines ≠ [] ∧ Follow (line + b.lines.length) bs

variable {bs bs' : List Block} {b : Block} {line : Int}

@[simp] theorem length_physical (b : Block) : b.physical.length = b.lines.length :=
  List.length_map _

theorem spell_append : spell (bs ++ bs') = spell bs ++ spell bs' := List.flatMap_append

theorem spell_cons : spell (b :: bs) = b.physical ++ spell bs := List.flatMap_cons

theorem follow_append :
    Follow line (bs ++ bs') ↔ Follow line bs ∧ Follow (line + (spell bs).length) bs' := by
  induction bs generalizing line with
  | nil => simp [Follow, spell]
  | cons b bs ih =>
    simp only [List.cons_append, Follow, ih, spell_cons, List.length_append, length_physical,
      and_assoc, Int.natCast_add, Int.add_assoc]

theorem follow_snoc : Follow line (bs ++ [b]) ↔
    Follow line bs ∧ b.line = line + (spell bs).length ∧ b.lines ≠ [] := by
  simp [follow_append, Follow]

/-- Blocks that follow each other lie apart, in order. -/
theorem Follow.pairwise (h : Follow line bs) :
    (∀ b ∈ bs, line ≤ b.line) ∧ bs.Pairwise fun b c => b.line < c.line := by
  induction bs generalizing line with
  | nil => exact ⟨fun b hb => absurd hb List.not_mem_nil, .nil⟩
  | cons b bs ih =>
    obtain ⟨rfl, some, rest⟩ := h
    obtain ⟨behind, order⟩ := ih rest
    have long := List.length_pos_iff.2 some
    refine ⟨List.forall_mem_cons.2 ⟨Int.le_refl _, fun c hc => ?_⟩,
      List.pairwise_cons.2 ⟨fun c hc => ?_, order⟩⟩
    · have := behind c hc
      omega
    · have := behind c hc
      omega

end Block

/-- What takes a block of a diff: a node, or a closing line. -/
inductive Piece where
  | node (n : Handle)
  | closing (c : ClosingLine)

/-- The block that a piece takes. -/
def Diff.block (d : Diff) : Piece → Block
  | .node n => ⟨(d.look n).start.diff, (d.look n).change, (d.look n).label.lines⟩
  | .closing c => ⟨c.line.diff, c.change, c.label.lines⟩

namespace Reading.Outline

open Diff

variable {o o' o'' : Outline} {t : Time} {closing : ClosingLine} {ns rest : List Handle}

/-! ## What closing a chain records -/

theorem Shows.nodup_opened {k : Nest Facet} (ho : o.Shows t k) : (o.opened.get t).Nodup := by
  obtain ⟨n, opened, holds, -, -⟩ := ho
  rw [opened]
  exact Nest.nodup_opened holds.once

/-- Nothing but ends and closing lines is changed; what was opened a chain and is no longer open has
recorded the closing line. -/
structure Shuts (closing : ClosingLine) (o o' : Outline) : Prop where
  alike : Alike o.diff o'.diff
  label : ∀ n, (o'.diff.look n).label = (o.diff.look n).label
  suffix : ∀ t, o'.opened.get t <:+ o.opened.get t
  closing : ∀ t n, (o'.diff.look n).closing.get t =
    if n ∈ o.opened.get t ∧ n ∉ o'.opened.get t ∧ (o.diff.look n).kind = .ifBranch then some closing
    else (o.diff.look n).closing.get t
  top : o'.diff.look Diff.root = o.diff.look Diff.root
  lastCode : o'.lastCode = o.lastCode

theorem Shuts.refl (closing : ClosingLine) (o : Outline) : Shuts closing o o :=
  ⟨.refl _, fun _ => rfl, fun _ => List.suffix_refl _,
    fun _ _ => (if_neg fun h => h.2.1 h.1).symm, rfl, rfl⟩

theorem Shuts.trans (h : Shuts closing o o') (h' : Shuts closing o' o'') : Shuts closing o o'' := by
  refine ⟨h.alike.trans h'.alike, fun n => (h'.label n).trans (h.label n),
    fun t => (h'.suffix t).trans (h.suffix t), fun t n => ?_, h'.top.trans h.top,
    h'.lastCode.trans h.lastCode⟩
  rw [h'.closing, h.closing, h.alike.kind]
  have first := (h.suffix t).subset (a := n)
  have second := (h'.suffix t).subset (a := n)
  by_cases inner : n ∈ o'.opened.get t
  · simp [inner, first inner]
  · have left : n ∉ o''.opened.get t := fun hn => inner (second hn)
    simp [inner, left]

theorem closeChain_shuts {next : Position} {d d' : Diff} (once : ns.Nodup)
    (h : closeChain t closing next d ns = .ok (d', rest)) :
    (∀ n, (d'.look n).label = (d.look n).label) ∧ d'.look root = d.look root ∧
    (∀ u n, (d'.look n).closing.get u =
      if u = t ∧ n ∈ ns ∧ n ∉ rest ∧ (d.look n).kind = .ifBranch then some closing
      else (d.look n).closing.get u) ∧
    ∃ n ∈ ns, n ∉ rest ∧ (d.look n).kind = .ifBranch := by
  have closes := closesChain_of_run h
  clear h
  induction closes with
  | @opening next d a ns below inStore opens =>
    have new : a ∉ ns := (List.nodup_cons.1 once).1
    refine ⟨fun n => ?_, ?_, fun u n => ?_, a, List.mem_cons_self, new, opens⟩
    · rw [look_update inStore]
      split <;> rfl
    · rw [look_update inStore, if_neg below]
    · rw [look_update inStore]
      split
      · next same =>
        subst same
        simp only [endAt, if_true, Sides.get_set]
        split
        · next here => simp [here, new, opens]
        · next other => simp [other]
      · next other =>
        refine (if_neg fun h => ?_).symm
        obtain hn | hn := List.mem_cons.1 h.2.1
        · exact other hn.symm
        · exact h.2.2.1 hn
  | @branch next d d' a ns rest below inStore other outer ih =>
    obtain ⟨label, top, shut, n, hn, left, kind⟩ := ih (List.nodup_cons.1 once).2
    have same (m : Handle) : ((d.update a (endAt t closing next false)).look m).kind =
          (d.look m).kind ∧
        ((d.update a (endAt t closing next false)).look m).label = (d.look m).label ∧
        ((d.update a (endAt t closing next false)).look m).closing = (d.look m).closing := by
      rw [look_update inStore]
      split <;> exact ⟨rfl, rfl, rfl⟩
    refine ⟨fun m => (label m).trans (same m).2.1, ?_, fun u m => ?_, n, List.mem_cons_of_mem a hn,
      left, (same n).1.symm.trans kind⟩
    · rw [top, look_update inStore, if_neg below]
    · rw [shut, (same m).1, (same m).2.2]
      by_cases hm : m = a
      · subst hm
        simp [other]
      · simp [hm]

theorem closeAt_shuts (once : (o.opened.get t).Nodup) (h : closeAt closing o t = .ok o') :
    Shuts closing o o' ∧
      ∃ n ∈ o.opened.get t, n ∉ o'.opened.get t ∧ (o.diff.look n).kind = .ifBranch := by
  rw [closeAt] at h
  obtain ⟨⟨d, rest⟩, chain, run⟩ := Outcome.bind_eq_ok_iff.1 h
  obtain rfl : { o with diff := d, opened := o.opened.set t rest } = o' := Except.ok.inj run
  obtain ⟨alike, suffix⟩ := closeChain_alike chain
  obtain ⟨label, top, shut, n, hn, left, kind⟩ := closeChain_shuts once chain
  have here : (o.opened.set t rest).get t = rest := Sides.get_set_self ..
  refine ⟨⟨alike, label, fun u => ?_, fun u m => ?_, top, rfl⟩, n, hn, by rw [here]; exact left, kind⟩
  · show (o.opened.set t rest).get u <:+ o.opened.get u
    rw [Sides.get_set]
    split
    · next e =>
      rw [e]
      exact suffix
    · exact List.suffix_refl _
  · show (d.look m).closing.get u = if m ∈ o.opened.get u ∧ m ∉ (o.opened.set t rest).get u ∧ _ then _
      else _
    rw [shut, Sides.get_set]
    by_cases hu : u = t
    · subst hu
      simp
    · simp only [hu, false_and, if_false]
      exact (if_neg fun h => h.2.1 h.1).symm

theorem closeAll_shuts {ts : List Time} (once : ∀ t, (o.opened.get t).Nodup)
    (h : ts.foldlM (closeAt closing) o = .ok o') :
    Shuts closing o o' ∧ ∀ t ∈ ts,
      ∃ n ∈ o.opened.get t, n ∉ o'.opened.get t ∧ (o.diff.look n).kind = .ifBranch := by
  induction ts generalizing o with
  | nil =>
    cases h
    exact ⟨.refl _ _, fun t ht => absurd ht List.not_mem_nil⟩
  | cons s ts ih =>
    rw [List.foldlM_cons] at h
    obtain ⟨o₁, run, h⟩ := Outcome.bind_eq_ok_iff.1 h
    obtain ⟨first, n, hn, left, kind⟩ := closeAt_shuts (once s) run
    obtain ⟨rest, found⟩ := ih (fun t => (once t).sublist (first.suffix t).sublist) h
    refine ⟨first.trans rest, List.forall_mem_cons.2 ⟨?_, fun t ht => ?_⟩⟩
    · exact ⟨n, hn, fun h => left ((rest.suffix s).subset h), kind⟩
    · obtain ⟨m, hm, left, kind⟩ := found t ht
      exact ⟨m, (first.suffix t).subset hm, left, by rw [← first.alike.kind]; exact kind⟩

/-! ## What is not closed -/

/-- The chains that have recorded no closing line for a time at which they are there are those that are
open at that time. -/
def Unclosed (o : Outline) : Prop :=
  ∀ n t, (o.diff.look n).kind = .ifBranch → o.diff.lives t n = true →
    ((o.diff.look n).closing.get t = none ↔ n ∈ o.opened.get t)

theorem Shuts.unclosed (h : Shuts closing o o') (unclosed : o.Unclosed) : o'.Unclosed := by
  intro n t kind there
  rw [h.alike.kind] at kind
  rw [h.alike.lives] at there
  have before := unclosed n t kind there
  have stay := (h.suffix t).subset (a := n)
  rw [h.closing]
  split
  · next closed => simp [closed.2.1]
  · next other =>
    rw [before]
    refine ⟨fun hn => ?_, stay⟩
    by_contra left
    exact other ⟨hn, left, kind⟩

theorem label_pushed {x : Node} {tops : Time → Handle} {a : Handle} :
    ((o.pushed tops x).diff.look a).label =
      if a = o.diff.size then x.label else (o.diff.look a).label := by
  show ((o.pushed tops x).diff.payload a).label = _
  rw [payload_pushed]
  split <;> rfl

theorem closing_pushed {x : Node} {tops : Time → Handle} {a : Handle} :
    ((o.pushed tops x).diff.look a).closing =
      if a = o.diff.size then x.closing else (o.diff.look a).closing := by
  show ((o.pushed tops x).diff.payload a).closing = _
  rw [payload_pushed]
  split <;> rfl

theorem Unclosed.pushed {x : Node} {tops : Time → Handle} (unclosed : o.Unclosed)
    (bare : ∀ t, x.closing.get t = none) : (o.pushed tops x).Unclosed := by
  intro n t opens there
  rw [kind_pushed] at opens
  rw [lives_pushed] at there
  rw [closing_pushed, opened_pushed]
  by_cases new : n = o.diff.size
  · rw [if_pos new] at opens there ⊢
    have annotates : x.kind.annotates = true := by
      rw [opens]
      rfl
    rw [if_pos ⟨annotates, there⟩, new, bare]
    simp
  · rw [if_neg new] at opens there ⊢
    rw [unclosed n t opens there]
    split
    · simp [new]
    · rfl

theorem closing_joined {c n : Handle} {lines : List String} {stop : Position}
    (inStore : c < o.diff.size) :
    ((o.joined c lines stop).diff.look n).closing = (o.diff.look n).closing := by
  show ((o.diff.update c _).look n).closing = _
  rw [look_update inStore]
  split <;> rfl

theorem Unclosed.joined {c : Handle} {lines : List String} {stop : Position} (unclosed : o.Unclosed)
    (inStore : c < o.diff.size) : (o.joined c lines stop).Unclosed := by
  intro n t kind there
  have alike : Alike o.diff (o.joined c lines stop).diff := alike_joined inStore
  rw [alike.kind] at kind
  rw [alike.lives] at there
  rw [closing_joined inStore]
  exact unclosed n t kind there

/-! ## The blocks of an outline -/

/-- The pieces of an outline are its nodes and its closing lines. Their blocks follow each other and
spell what was read. -/
structure Written (o : Outline) (ps : List Piece) (read : List PhysicalLine) : Prop where
  follow : Block.Follow 1 (ps.map o.diff.block)
  spell : Block.spell (ps.map o.diff.block) = read
  nodes : ∀ n, .node n ∈ ps ↔ n ≠ root ∧ n < o.diff.size
  recorded : ∀ n t c, (o.diff.look n).closing.get t = some c → .closing c ∈ ps
  records : ∀ c, .closing c ∈ ps → ∃ n t, n < o.diff.size ∧ (o.diff.look n).kind = .ifBranch ∧
    o.diff.lives t n = true ∧ (o.diff.look n).closing.get t = some c
  unclosed : ∀ n t, (o.diff.look n).kind = .ifBranch → o.diff.lives t n = true →
    ((o.diff.look n).closing.get t = none ↔ n ∈ o.opened.get t)
  last : ∀ c, o.lastCode = some c → ∃ qs, ps = qs ++ [.node c]

variable {ps : List Piece} {read : List PhysicalLine}

theorem written_start (s : Source) : (Outline.start s).Written [] [] := by
  have only (n : Handle) (hn : n < (Outline.start s).diff.size) : n = root := Nat.lt_one_iff.1 hn
  have bare (n : Handle) (t : Time) : ((Outline.start s).diff.look n).closing.get t = none := by
    by_cases hn : n < (Outline.start s).diff.size
    · rw [only n hn]
      cases t <;> rfl
    · rw [Diff.look, Array.getElem?_eq_none (Nat.le_of_not_lt hn)]
      cases t <;> rfl
  refine ⟨trivial, rfl, fun n => ⟨fun h => absurd h List.not_mem_nil, fun h => ?_⟩, fun n t c h => ?_,
    fun c h => absurd h List.not_mem_nil, fun n t kind there => ?_, fun c h => by cases h⟩
  · exact absurd (only n h.2) h.1
  · rw [bare] at h
    cases h
  · rw [only n (lt_size_of_lives there)] at kind
    cases kind

/-- The blocks are told by where the nodes start, their changes and their labels. -/
theorem map_block_congr {d d' : Diff} (same : ∀ n, .node n ∈ ps →
    (d'.look n).start = (d.look n).start ∧ (d'.look n).change = (d.look n).change ∧
      (d'.look n).label = (d.look n).label) : ps.map d'.block = ps.map d.block := by
  refine List.map_congr_left fun p hp => ?_
  cases p with
  | node n =>
    obtain ⟨start, change, label⟩ := same n hp
    simp only [Diff.block, start, change, label]
  | closing c => rfl

/-- A block that is read next comes behind the blocks that were read. -/
theorem Written.snoc {d : Diff} {p : Piece} (w : o.Written ps read)
    (same : ps.map d.block = ps.map o.diff.block) (line : (d.block p).line = read.length + 1)
    (full : (d.block p).lines ≠ []) :
    Block.Follow 1 ((ps ++ [p]).map d.block) ∧
      Block.spell ((ps ++ [p]).map d.block) = read ++ (d.block p).physical := by
  rw [List.map_append, List.map_singleton, same]
  refine ⟨Block.follow_snoc.2 ⟨w.follow, ?_, full⟩, ?_⟩
  · rw [w.spell, line, Int.add_comm]
  · rw [Block.spell_append, w.spell, Block.spell_cons]
    simp [Block.spell]

theorem Written.closeChains {closing : ClosingLine} (w : o.Written ps read) (neat : o.Neat)
    (once : ∀ t, (o.opened.get t).Nodup) (h : closeChains closing o = .ok o')
    (line : closing.line.diff = read.length + 1) (full : closing.label.lines ≠ []) :
    o'.Written (ps ++ [.closing closing])
      (read ++ closing.label.lines.map fun content => ⟨some closing.change, content⟩) := by
  rw [closeChains_eq] at h
  obtain ⟨shuts, found⟩ := closeAll_shuts (o := { o with lastCode := none }) once h
  have recorded (n) (t) := shuts.closing t n
  have blocks : ps.map o'.diff.block = ps.map o.diff.block :=
    map_block_congr fun n _ => ⟨shuts.alike.start, shuts.alike.change, shuts.label n⟩
  obtain ⟨follow, spell⟩ := w.snoc (p := .closing closing) blocks line full
  refine ⟨follow, spell, fun n => ?_, fun n t c hc => ?_, fun c hc => ?_, shuts.unclosed w.unclosed,
    fun c hc => ?_⟩
  · rw [List.mem_append, List.mem_singleton, shuts.alike.size, ← w.nodes]
    simp
  · rw [recorded] at hc
    split at hc
    · cases hc
      exact List.mem_append_right _ (List.mem_singleton.2 rfl)
    · exact List.mem_append_left _ (w.recorded n t c hc)
  · obtain hc | hc := List.mem_append.1 hc
    · obtain ⟨n, t, size, kind, there, record⟩ := w.records c hc
      refine ⟨n, t, by rw [shuts.alike.size]; exact size, by rw [shuts.alike.kind]; exact kind,
        by rw [shuts.alike.lives]; exact there, ?_⟩
      -- what has recorded a closing line is not open any more
      have shut : n ∉ o.opened.get t := by
        rw [← w.unclosed n t kind there, record]
        exact Option.some_ne_none c
      rw [recorded, if_neg fun h => shut h.1]
      exact record
    · obtain rfl : c = closing := by
        cases List.mem_singleton.1 hc
        rfl
      obtain ⟨t, there⟩ : ∃ t, t ∈ c.change.times := by
        obtain there | there := c.change.existsAt_or
        · exact ⟨_, Change.mem_times.2 there⟩
        · exact ⟨_, Change.mem_times.2 there⟩
      obtain ⟨n, hn, left, kind⟩ := found t there
      have lives := neat.lives t n hn
      refine ⟨n, t, by rw [shuts.alike.size]; exact lt_size_of_lives lives,
        by rw [shuts.alike.kind]; exact kind, by rw [shuts.alike.lives]; exact lives, ?_⟩
      rw [recorded, if_pos ⟨hn, left, kind⟩]
  · rw [shuts.lastCode] at hc
    cases hc

theorem Written.grows {kind : Kind} {start stop : Position} {formula : Option Formula}
    {change : Change} {lines : List String} {tops : Time → Handle} (w : o.Written ps read)
    (neat : o.Neat) (h : o.Grows (newNode change kind start stop formula ⟨lines⟩) o' tops)
    (line : start.diff = read.length + 1) (full : lines ≠ []) :
    o'.Written (ps ++ [.node o.diff.size])
      (read ++ lines.map fun content => ⟨some change, content⟩) := by
  obtain rfl := h.result
  have blocks : ps.map (o.pushed tops (newNode change kind start stop formula ⟨lines⟩)).diff.block =
      ps.map o.diff.block := by
    refine map_block_congr fun n hn => ?_
    have old := Nat.ne_of_lt ((w.nodes n).1 hn).2
    rw [start_pushed, change_pushed, label_pushed, if_neg old, if_neg old, if_neg old]
    exact ⟨rfl, rfl, rfl⟩
  have block : (o.pushed tops (newNode change kind start stop formula ⟨lines⟩)).diff.block
      (.node o.diff.size) = ⟨start.diff, change, lines⟩ := by
    rw [Diff.block, start_pushed, change_pushed, label_pushed, if_pos rfl, if_pos rfl, if_pos rfl]
    rfl
  obtain ⟨follow, spell⟩ := w.snoc (p := .node o.diff.size) blocks (by rw [block]; exact line)
    (by rw [block]; exact full)
  rw [block] at spell
  refine ⟨follow, spell, fun n => ?_, fun n t c hc => ?_, fun c hc => ?_,
    Unclosed.pushed w.unclosed (Sides.get_both none), fun c hc => ?_⟩
  · rw [List.mem_append, List.mem_singleton, w.nodes, size_pushed, Piece.node.injEq,
      Nat.lt_succ_iff_lt_or_eq]
    have other : n = o.diff.size → n ≠ root := by
      rintro rfl
      exact Nat.ne_of_gt neat.orderly.root_lt
    tauto
  · rw [closing_pushed] at hc
    split at hc
    · cases t <;> cases hc
    · exact List.mem_append_left _ (w.recorded n t c hc)
  · obtain hc | hc := List.mem_append.1 hc
    · obtain ⟨n, t, size, kind, there, record⟩ := w.records c hc
      refine ⟨n, t, by rw [size_pushed]; exact Nat.lt_succ_of_lt size, ?_, ?_, ?_⟩
      · rw [kind_pushed, if_neg (Nat.ne_of_lt size)]
        exact kind
      · rw [lives_pushed, if_neg (Nat.ne_of_lt size)]
        exact there
      · rw [closing_pushed, if_neg (Nat.ne_of_lt size)]
        exact record
    · cases List.mem_singleton.1 hc
  · have last : (o.pushed tops (newNode change kind start stop formula ⟨lines⟩)).lastCode =
        if kind = .artifact then some o.diff.size else none := rfl
    rw [last] at hc
    split at hc
    · obtain rfl := Option.some.inj hc
      exact ⟨ps, rfl⟩
    · cases hc

theorem Written.joins {c : Handle} {change : Change} {start stop : Position} {lines : List String}
    (w : o.Written ps read) (inStore : c < o.diff.size)
    (h : o.Joins c change start stop lines o') :
    o'.Written ps (read ++ lines.map fun content => ⟨some change, content⟩) := by
  obtain ⟨last, same, -, rfl⟩ := h
  obtain ⟨qs, rfl⟩ := w.last c last
  have alike : Alike o.diff (o.joined c lines stop).diff := alike_joined inStore
  have look (n : Handle) : (o.joined c lines stop).diff.look n =
      if c = n then { o.diff.look n with label := (o.diff.look n).label.append lines, stop }
      else o.diff.look n := look_update inStore
  have follow := w.follow
  have spell := w.spell
  rw [List.map_append, List.map_singleton] at follow spell
  -- the node that is joined takes the last block only
  have blocks : qs.map (o.joined c lines stop).diff.block = qs.map o.diff.block := by
    refine map_block_congr fun n hn => ?_
    have other : c ≠ n := by
      rintro rfl
      have order := follow.pairwise.2
      rw [List.pairwise_append] at order
      exact absurd (order.2.2 _ (List.mem_map_of_mem hn) _ (List.mem_singleton.2 rfl))
        (Int.lt_irrefl _)
    rw [look, if_neg other]
    exact ⟨rfl, rfl, rfl⟩
  have block : (o.joined c lines stop).diff.block (.node c) =
      ⟨(o.diff.look c).start.diff, (o.diff.look c).change, (o.diff.look c).label.lines ++ lines⟩ := by
    simp only [Diff.block, look, if_true]
    rfl
  obtain ⟨before, line, full⟩ := Block.follow_snoc.1 follow
  refine ⟨?_, ?_, fun n => ?_, fun n t e he => ?_, fun e he => ?_, Unclosed.joined w.unclosed inStore,
    fun e he => w.last e he⟩
  · rw [List.map_append, List.map_singleton, blocks, block]
    exact Block.follow_snoc.2 ⟨before, line, fun none => full (List.append_eq_nil_iff.1 none).1⟩
  · rw [List.map_append, List.map_singleton, blocks, block, ← spell, Block.spell_append,
      Block.spell_append, List.append_assoc]
    simp [Block.spell, Block.physical, Diff.block, same]
  · rw [w.nodes, alike.size]
  · rw [closing_joined inStore] at he
    exact w.recorded n t e he
  · obtain ⟨n, t, size, kind, there, record⟩ := w.records e he
    exact ⟨n, t, by rw [alike.size]; exact size, by rw [alike.kind]; exact kind,
      by rw [alike.lives]; exact there, by rw [closing_joined inStore]; exact record⟩

/-- A line that is put behind what was read is read. -/
theorem Written.put {options : Options} {dialect : Dialect} {line : LogicalLine} {change : Change}
    {last : Position} {m : Time → Nest Facet} (w : o.Written ps read) (neat : o.Neat)
    (ho : ∀ t, o.Shows t (m t)) (h : o.put options dialect line change last = .ok o')
    (start : (startOf line last).diff = read.length + 1) (full : line.lines ≠ []) :
    ∃ ps', o'.Written ps' (read ++ line.lines.map fun content => ⟨some change, content⟩) := by
  obtain ⟨stop, range⟩ := Run.place_of_put h
  obtain ⟨-, -, -, closed | ⟨kind, formula, tops, -, grows⟩⟩ | ⟨-, -, c, joins⟩ := put_cases range ho h
  · exact ⟨_, w.closeChains neat (fun t => (ho t).nodup_opened) closed start full⟩
  · exact ⟨_, w.grows neat grows start full⟩
  · exact ⟨_, w.joins (Shows.lastCode_lt ho c joins.last) joins⟩

end Reading.Outline

end Variation
