import Variation.Proofs.KeptTexts
import Variation.Proofs.Placed

/-!
# What a constructed diff writes

A construction numbers the lines of its diff as a walk from the root meets the nodes, which lists the
children before the edit first and then those that are only there after it. A node is closed by one line
at all times at which it is there, and what it takes no other node takes. So the line diff of what was
constructed has at each time the lines of the source, none lost and none twice, but in the order of the
walk. It says the same as the source exactly where that is the order of the tree.
-/

namespace Variation

open Diff Printing
open Matching (Snapshot)

/-- One line closes a node at the times at which it is there, and has the change of the node. -/
def Node.ClosedOnce (x : Node) : Prop :=
  ∃ closing : Option ClosingLine, (∀ c ∈ closing, c.change = x.change) ∧
    ∀ t, x.closing.get t = if x.existsAt t then closing else none

variable {d d' other : Diff} {src dst : Snapshot} {m : Matching} {f g : Forest Handle} {t u : Time}
  {n : Handle} {x : Node}

/-- A node is closed once if all that it has recorded comes from one closing line. -/
theorem Node.closedOnce_of_map {o : Option ClosingLine} {k : ClosingLine → ClosingLine}
    (change : ∀ c, (k c).change = x.change)
    (closing : ∀ t, x.closing.get t = if x.existsAt t then o.map k else none) : x.ClosedOnce := by
  refine ⟨o.map k, fun c hc => ?_, closing⟩
  obtain ⟨c', -, rfl⟩ := Option.mem_map.1 hc
  exact change c'

/-- The copy of a node is closed by one line. -/
theorem Node.closedOnce_collapse (x : Node) (t : Time) : (x.collapse t).ClosedOnce :=
  closedOnce_of_map (k := (·.collapse t)) (fun _ => rfl) fun u => by
    rw [closing_collapse]
    cases u <;> rfl

namespace Construction

theorem closedOnce_addition (y : Node) : (addition y).ClosedOnce :=
  Node.closedOnce_of_map (o := y.closing.after)
    (k := fun c => ⟨.added, c.line.restrict .added, c.label⟩) (fun _ => rfl) fun t => by
      cases t <;> rfl

theorem closedOnce_asRemoved (x : Node) : (asRemoved x).ClosedOnce :=
  Node.closedOnce_of_map (o := x.closing.before) (k := fun c => { c with change := .removed })
    (fun _ => rfl) fun t => by cases t <;> rfl

namespace Rehung

variable {d₁ d₂ : Diff} {z : Forest ((Handle × Nat) × Handle)} {q : (Handle × Nat) × Handle}

/-- In a rebuilt diff a node is closed by one line. -/
theorem closedOnce (r : Rehung other d d₁ d₂ f g src dst m z)
    (first : ∀ n ∈ f.flatten, (d.look n).ClosedOnce)
    (hn : n ∈ ((⟨f, seats z⟩ : Sides (Forest Handle)).get t).flatten) : (d₂.look n).ClosedOnce := by
  have old (hn : n ∈ f.flatten) : (d₂.payload n).ClosedOnce := by
    obtain ⟨y, payload⟩ | payload := r.payload_first hn
    · rw [payload]
      exact first n hn
    · rw [payload]
      exact closedOnce_asRemoved _
  cases t with
  | before => exact old hn
  | after =>
    obtain ⟨q, hq, rfl⟩ := mem_seats.1 hn
    cases r.stands hq with
    | kept keeps _ => exact old (r.setting.keeper_spec (r.place_mem hq) keeps).1
    | added _ _ _ payload =>
      show (d₂.payload _).ClosedOnce
      rw [payload]
      exact closedOnce_addition _

end Rehung

end Construction

/-- If only lines of the diff changed and the closing lines of a node are at one of them now, it is closed
by one line if it was. -/
theorem Diff.Redates.closedOnce (h : d.Redates d') (once : (d.look n).ClosedOnce) {i : Int}
    (line : ∀ t c, (d'.look n).closing.get t = some c → c.line.diff = i) :
    (d'.look n).ClosedOnce := by
  obtain ⟨closing, change, closings⟩ := once
  have moved (t : Time) : (d'.look n).closing.get t =
      ((d.look n).closing.get t).map fun c => { c with line := c.line.setDiff i } := by
    have same := congrArg (fun x : Node => x.closing.get t) (h.payload n)
    simp only [Node.undated, Sides.get_map] at same
    have same : ((d'.look n).closing.get t).map _ = ((d.look n).closing.get t).map _ := same
    cases new : (d'.look n).closing.get t with
    | none =>
      rw [new, Option.map_none, eq_comm, Option.map_eq_none_iff] at same
      rw [same, Option.map_none]
    | some c =>
      rw [new, Option.map_some, eq_comm, Option.map_eq_some_iff] at same
      obtain ⟨c₀, old, same⟩ := same
      rw [old, Option.map_some]
      obtain ⟨ch, ⟨dl, b, a⟩, lb⟩ := c
      obtain rfl : dl = i := line t _ new
      obtain ⟨rfl, here, rfl⟩ := (ClosingLine.mk.injEq ..).mp same
      obtain ⟨-, rfl, rfl⟩ := (Position.mk.injEq ..).mp here
      rfl
  refine ⟨closing.map fun c => { c with line := c.line.setDiff i }, fun c hc => ?_, fun t => ?_⟩
  · obtain ⟨c₀, hc₀, rfl⟩ := Option.mem_map.1 hc
    exact (change c₀ hc₀).trans (h.change n).symm
  · rw [moved, closings, Node.existsAt, Node.existsAt, h.change]
    split <;> rfl

/-! ## A diff whose lines were numbered -/

/-- What a diff says at a time, in the order of a walk through both of its trees. -/
def Printing.walked (d : Diff) (t : Time) (f : Forest Handle) : List String :=
  f.lines (fun n => if d.lives t n then ownLines (d.look n) else []) fun n =>
    if d.lives t n then closingLines (d.look n) t else []

/-- The lines of the nodes stand in order if the places of the nodes rise. -/
theorem Diff.Numbered.pairwise_placed {f : Forest Handle} (h : d.Numbered f) (t : Time) :
    (placed Position.diff d t f).Pairwise Entry.Precedes := by
  refine Forest.pairwise_spell_of (P := fun e i => e.added = false ∧ e.line = i) h.order
    (fun a b i j ha hb less => ⟨ha.1.trans hb.1.symm, .inl (by rw [ha.2, hb.2]; exact less)⟩)
    (fun n _ => ?_) fun n hn => ?_
  · rw [firstPlaced]
    split
    · exact ⟨.nil, fun e he => absurd he List.not_mem_nil⟩
    · refine ⟨pairwise_labelEntries, fun e he => ?_⟩
      obtain ⟨recorded, line, -⟩ := mem_labelEntries he
      exact ⟨_, List.mem_cons_self, recorded, line⟩
  · rw [lastPlaced]
    cases closes : (d.look n).closingAt t with
    | none => exact ⟨.nil, fun e he => absurd he List.not_mem_nil⟩
    | some c =>
      rw [Option.toList_some, List.flatMap_singleton]
      refine ⟨pairwise_labelEntries, fun e he => ?_⟩
      obtain ⟨recorded, line, -⟩ := mem_labelEntries he
      exact ⟨_, Option.mem_toList.2 (h.closed n hn t c closes), recorded, line⟩

/-- What is legible has recorded what closes its chains. -/
theorem Diff.Legible.closes {s : Sides (Forest Handle)} (legible : d.Legible s) : Sheet.Closes d := by
  intro n t reaches kind there
  have mem := (List.mem_cons.1 ((legible.lives_iff legible.top reaches).1 there)).resolve_left
    (ne_root_of_kind legible.toRegular kind (by decide))
  obtain ⟨c, recorded, -⟩ := legible.closing t n mem kind
  rw [recorded]
  rfl

/-- A diff whose chains are closed and whose lines were numbered along a walk: they rise along it, and a
chain is closed by one line. -/
structure Diff.Spread (d : Diff) (s : Sides (Forest Handle)) (h : Forest Handle) : Prop
    extends d.Twofold s where
  top : ∀ t, d.lives t Diff.root = true
  closes : Sheet.Closes d
  tour : d.Tour h
  numbered : d.Numbered h
  closedOnce : ∀ n, d.Reaches n → (d.look n).kind = .ifBranch → (d.look n).ClosedOnce

namespace Diff.Spread

variable {s : Sides (Forest Handle)} {h : Forest Handle} {c c' : ClosingLine} {k : Handle}

theorem below_root (w : d.Spread s h) (hc : d.Records n t c) : n ≠ root :=
  ne_root_of_kind w.toRegular (Node.closingAt_eq_some_iff.1 hc.2).1 (by decide)

theorem mem_tour (w : d.Spread s h) (hc : d.Records n t c) : n ∈ h.flatten :=
  (List.mem_cons.1 (w.tour.mem_iff.2 hc.1)).resolve_left (w.below_root hc)

/-- What closes a node closes it at all times at which it is there. -/
theorem records_iff (w : d.Spread s h) (hc : d.Records n t c) :
    c.change = (d.look n).change ∧
      ∀ u e, d.Records n u e ↔ (d.look n).existsAt u = true ∧ e = c := by
  obtain ⟨reaches, recorded⟩ := hc
  obtain ⟨kind, recorded⟩ := Node.closingAt_eq_some_iff.1 recorded
  obtain ⟨closing, change, closings⟩ := w.closedOnce n reaches kind
  rw [closings] at recorded
  obtain ⟨-, rfl⟩ := (Option.ite_none_right_eq_some).1 recorded
  refine ⟨change c rfl, fun u e => ?_⟩
  rw [Records, and_iff_right reaches, Node.closingAt_eq_some_iff, and_iff_right kind, closings,
    Option.ite_none_right_eq_some, Option.some_inj, eq_comm (a := e)]

/-- Closing lines at one place of the diff close one node. -/
theorem eq_of_line (w : d.Spread s h) (hc : d.Records n t c) (hc' : d.Records k u c')
    (same : c.line.diff = c'.line.diff) : n = k := by
  have ends {n t c} (hc : d.Records n t c) :
      c.line.diff ∈ [(d.look n).start.diff] ++ (d.look n).closingPlace.toList :=
    List.mem_append_right _ (Option.mem_toList.2 (w.numbered.closed n (w.mem_tour hc) t c hc.2))
  exact Forest.eq_of_mem_spell (w.numbered.order.imp Int.ne_of_lt) (w.mem_tour hc) (w.mem_tour hc')
    (ends hc) (same ▸ ends hc')

theorem shut (w : d.Spread s h) : Shut d s := by
  refine ⟨w.toTwofold, w.top, w.closes, fun n t c hc => ?_,
    fun n t u c hc there => ⟨n, ?_⟩, fun t n k c c' hc hc' => w.eq_of_line hc hc'⟩
  · obtain ⟨change, records⟩ := w.records_iff hc
    have there := ((records t c).1 hc).1
    have inStore := hc.1.lt_size w.toRegular
    have mem := (w.lives_iff w.top hc.1).1 ((lives_look inStore).trans there)
    refine ⟨(List.mem_cons.1 mem).resolve_left (w.below_root hc), ?_⟩
    rw [change]
    exact there
  · obtain ⟨change, records⟩ := w.records_iff hc
    rw [change] at there
    exact (records u c).2 ⟨there, rfl⟩

theorem agree (w : d.Spread s h) : Agree d := by
  intro n k t u c c' hc hc' same
  obtain rfl := w.eq_of_line hc hc' same
  exact (((w.records_iff hc).2 u c').1 hc').2.symm

/-- What nodes write that are there at a time is in the order of the walk what those of the tree write. -/
theorem spell_perm (w : d.Spread s h) (t : Time) {β : Type} (first last : Handle → List β) :
    (h.spell (fun n => if d.lives t n then first n else [])
      fun n => if d.lives t n then last n else []).Perm ((s.get t).spell first last) := by
  have nodes : (h.flatten.filter (d.lives t ·)).Perm (s.get t).flatten := by
    have nodes := w.shut.tour_perm w.tour t
    rw [List.filter_cons_of_pos (w.top t)] at nodes
    exact nodes.cons_inv
  refine Forest.spell_perm.trans (List.Perm.trans ?_ Forest.spell_perm.symm)
  rw [flatMap_filter, flatMap_filter]
  exact (nodes.flatMap_right _).append (nodes.flatMap_right _)

/-- At each time the lines are written in the order of the walk. -/
theorem map_text_filter (w : d.Spread s h) {es : List Entry} {cs : List ClosingLine}
    (written : Printing.Writes d s es cs) (t : Time) :
    (es.filter (·.change.existsAt t)).map (·.text) = walked d t h := by
  have order : (h.spell (fun n => if d.lives t n then firstPlaced Position.diff (d.look n) else [])
      fun n => if d.lives t n then lastPlaced Position.diff t (d.look n) else []).Pairwise
        Entry.Precedes := by
    refine (w.numbered.pairwise_placed t).sublist (Forest.spell_sublist fun n _ => ?_)
    split
    · exact ⟨.refl _, .refl _⟩
    · exact ⟨List.nil_sublist _, List.nil_sublist _⟩
  have perm := (written.perm_placed w.shut w.agree t).trans (w.spell_perm t _ _).symm
  have same := Entry.inOrder_eq order perm
  rw [inOrder_eq_self (written.order.filter _)] at same
  rw [same, Forest.map_spell, walked, Forest.lines_eq_spell]
  refine Forest.spell_congr fun n hn => ?_
  have reaches := w.tour.mem_iff.1 (List.mem_cons_of_mem _ hn)
  split
  · next there =>
    exact ⟨map_text_firstPlaced _,
      map_text_lastPlaced fun kind => w.shut.closes n t reaches kind there⟩
  · exact ⟨rfl, rfl⟩

/-- A walk and a tree have the same lines at a time. -/
theorem walked_perm (w : d.Spread s h) (t : Time) :
    (walked d t h).Perm (printed d t (s.get t)) := by
  rw [walked, printed, Forest.lines_eq_spell, Forest.lines_eq_spell]
  exact w.spell_perm t _ _

end Diff.Spread

namespace Construction

namespace Rehung

variable {d₁ d₂ : Diff} {z : Forest ((Handle × Nat) × Handle)} {l : String}

/-- When the lines of a rebuilt diff were numbered, they rise along its tour. -/
theorem spread (r : Rehung other d d₁ d₂ f g src dst m z) (numbered : number.run d₂ = .ok () d')
    (closes : Sheet.Closes d') (once : ∀ n ∈ f.flatten, (d.look n).ClosedOnce) {h : Forest Handle}
    (tour : d₂.Tour h) : d'.Spread ⟨f, seats z⟩ h := by
  have regular := r.twofold.toRegular
  have redates : d₂.Redates d' := keeps_number.ok (.refl d₂) numbered
  obtain ⟨last, numbers⟩ := exists_numbers regular tour numbered
  have tour' := tour.congr redates.belowBoth
  refine ⟨redates.twofold r.twofold, fun t => (redates.lives t root).trans (r.lives_root t), closes,
    tour', numbers.numbered, fun n reaches kind => ?_⟩
  have below : n ≠ root := ne_root_of_kind (redates.regular regular) kind (by decide)
  have met := tour'.mem_iff.2 reaches
  obtain ⟨t, there⟩ := r.twofold.exists_mem_iff.2 (tour.mem_iff.1 met)
  have there := (List.mem_cons.1 there).resolve_left below
  obtain ⟨i, line⟩ : ∃ i, ∀ t c, (d'.look n).closingAt t = some c → c.line.diff = i := by
    refine ⟨(d'.look n).closingPlace.getD 0, fun t c hc => ?_⟩
    rw [numbers.closed n ((List.mem_cons.1 met).resolve_left below) t c hc, Option.getD_some]
  exact redates.closedOnce (r.closedOnce once there) fun t c hc =>
    line t c (Node.closingAt_eq_some_iff.2 ⟨kind, hc⟩)

/-- What is printed after the edit is printed by one of the trees. -/
theorem mem_printed_after (r : Rehung other d d₁ d₂ f g src dst m z) (redates : d₂.Redates d')
    (hl : l ∈ printed d' .after (seats z)) : l ∈ printed d .after f ∨ l ∈ printed other .after g := by
  obtain ⟨n, hn, here⟩ := Forest.mem_lines hl
  obtain ⟨q, hq, rfl⟩ := mem_seats.1 hn
  have place := r.place_mem hq
  obtain keeps | free := r.kept_or_added hq
  · have writes := redates.writes (r.writes_kept hq keeps)
    rw [writes.ownLines, writes.closingLines] at here
    exact .inl (Forest.mem_lines_of_mem (r.setting.keeper_spec place keeps).1 here)
  · have writes := redates.writes (r.writes_added hq free)
    rw [writes.ownLines, writes.closingLines] at here
    exact .inr (Forest.mem_lines_of_mem (mem_of_numbered place) here)

end Rehung

/-- The nodes of the copy from which a construction starts are closed by one line. -/
theorem Base.closedOnce {before after : Tree} {y : Forest (Handle × Handle)}
    (h : Base before after d y g src dst) (hn : n ∈ (y.map (·.1)).flatten) :
    (d.look n).ClosedOnce := by
  obtain ⟨a, ha, rfl⟩ := Forest.mem_flatten_map.1 hn
  show (d.payload a.1).ClosedOnce
  rw [h.payload a (List.mem_cons_of_mem _ ha)]
  exact Node.closedOnce_collapse ..

/-- The line diff of what was constructed from two plain texts can be read back. It has at each time the
lines of the source, no more and no less, but in the order in which a walk through both trees meets
them. -/
theorem contentsAt_lineDiff {text text' : String} {options options' : Reading.Options}
    {source source' : Source} {dialect dialect' : Dialect} {before after : Tree} {matcher : Matcher}
    (single : options.collapse = false) (single' : options'.collapse = false)
    (plain : ∀ l ∈ Text.lines text, Text.Plain l) (plain' : ∀ l ∈ Text.lines text', Text.Plain l)
    (first : Reading.tree text options source dialect = .ok before)
    (second : Reading.tree text' options' source' dialect' = .ok after)
    (run : diff before after matcher = .ok d) :
    ∃ h out, d.Tour h ∧ lineDiff d = .ok out ∧ ∀ t, ∃ f, d.Shape t f ∧
      sourceLines d t = .ok (printed d t f) ∧ (walked d t h).Perm (printed d t f) ∧
      Reading.contentsAt t (Reading.PhysicalLine.ofDiff out) = walked d t h := by
  obtain ⟨e, y, g, src, dst, base⟩ := exists_base first second
  obtain ⟨m, d₁, d₂, z, r, numbered⟩ := base.exists_rehung run
  have redates : d₂.Redates d := keeps_number.ok (.refl d₂) numbered
  have legible := r.legible redates
    (base.legible (Reading.legible_of_tree single first base.source))
    (Reading.legible_of_tree single' second base.target)
  obtain ⟨h, tour⟩ := Tour.exists_tour r.twofold.toRegular
  have spread := r.spread numbered legible.closes (fun n hn => base.closedOnce hn) tour
  have copied (t : Time) : ∀ l ∈ printed e t (y.map (·.1)), Text.Plain l := fun l hl => by
    rw [base.printed, Reading.printed_of_tree first base.source] at hl
    exact plain l (List.mem_of_mem_filter hl)
  have lines (t : Time) : ∀ l ∈ printed d t ((⟨y.map (·.1), seats z⟩ : Sides _).get t),
      Text.Plain l := fun l hl => by
    cases t with
    | before =>
      have hl : l ∈ printed d .before (y.map (·.1)) := hl
      rw [r.printed_before redates] at hl
      exact copied .before l hl
    | after =>
      obtain hl | hl := r.mem_printed_after redates hl
      · exact copied .after l hl
      · rw [Reading.printed_of_tree second base.target] at hl
        exact plain' l (List.mem_of_mem_filter hl)
  obtain ⟨es, cs, writes⟩ := exists_writes spread.shut
  refine ⟨h, _, spread.tour, writes.lineDiff_eq, fun t => ⟨_, spread.shape t,
    sourceLines_eq spread.toRegular (spread.shape t), spread.walked_perm t, ?_⟩⟩
  rw [writes.contentsAt_eq spread.shut lines, spread.map_text_filter writes]

/-- A line is added between two others. The walk meets it behind both of them. -/
theorem contentsAt_lineDiff_inserted : ∃ before after d h,
    Reading.tree "a\nb\n" {} .unknown .preprocessor = .ok before ∧
    Reading.tree "a\nx\nb\n" {} .unknown .preprocessor = .ok after ∧
    diff before after .greedy = .ok d ∧ lineDiff d = .ok " a\n b\n+x\n" ∧
    sourceLines d .after = .ok ["a", "x", "b"] ∧ d.Tour h ∧ walked d .after h = ["a", "b", "x"] := by
  have texts : (do
      let before ← Reading.tree "a\nb\n" {} .unknown .preprocessor
      let after ← Reading.tree "a\nx\nb\n" {} .unknown .preprocessor
      let d ← diff before after .greedy
      return (← lineDiff d, ← sourceLines d .after) : Outcome _).toOption =
        some (" a\n b\n+x\n", ["a", "x", "b"]) := by
    decide +kernel
  obtain ⟨before, first, rest⟩ := Outcome.bind_eq_ok_iff.1 (Outcome.eq_ok_of_toOption texts)
  obtain ⟨after, second, rest⟩ := Outcome.bind_eq_ok_iff.1 rest
  obtain ⟨d, run, rest⟩ := Outcome.bind_eq_ok_iff.1 rest
  obtain ⟨out, written, rest⟩ := Outcome.bind_eq_ok_iff.1 rest
  obtain ⟨ls, printed, rest⟩ := Outcome.bind_eq_ok_iff.1 rest
  obtain ⟨rfl, rfl⟩ := Prod.mk.inj (Except.ok.inj rest)
  have plain : (∀ l ∈ Text.lines "a\nb\n", Text.Plain l) ∧
      ∀ l ∈ Text.lines "a\nx\nb\n", Text.Plain l := by
    rw [show Text.lines "a\nb\n" = ["a", "b"] by decide +kernel,
      show Text.lines "a\nx\nb\n" = ["a", "x", "b"] by decide +kernel]
    simp [Text.Plain]
  obtain ⟨h, out, tour, written', spec⟩ :=
    contentsAt_lineDiff rfl rfl plain.1 plain.2 first second run
  obtain rfl := Except.ok.inj (written.symm.trans written')
  obtain ⟨f, -, -, -, contents⟩ := spec .after
  refine ⟨before, after, d, h, first, second, run, written, printed, tour, ?_⟩
  rw [← contents]
  decide +kernel

end Construction

end Variation
