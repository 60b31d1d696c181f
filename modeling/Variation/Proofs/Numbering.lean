import Variation.Construction
import Variation.Proofs.Joining
import Variation.Proofs.Spelled
import Variation.Proofs.Tour
import Variation.Proofs.Trees

/-!
# Numbering the lines of a diff

A construction ends by numbering the lines of the diff in the order in which a walk from the root meets
the nodes. Nothing else changes by that. Each node takes the lines of its label and one for its closing
lines, so the numbers stay in range as long as there is room for all nodes of the tour, and they rise
along the tour.
-/

namespace Variation

/-- The line of the diff at which a node is closed. -/
def Node.closingPlace (x : Node) : Option Int :=
  (x.closingAt .before <|> x.closingAt .after).map (·.line.diff)

theorem Node.exists_of_mem_closingPlace {x : Node} {i : Int} (h : i ∈ x.closingPlace) :
    ∃ t c, x.closingAt t = some c ∧ c.line.diff = i := by
  obtain ⟨c, hc, line⟩ := Option.map_eq_some_iff.1 h
  obtain hc | ⟨-, hc⟩ := (Option.orElse_eq_some ..).1 hc
  · exact ⟨.before, c, hc, line⟩
  · exact ⟨.after, c, hc, line⟩

theorem Node.exists_closingPlace {x : Node} {t : Time} {c : ClosingLine} (h : x.closingAt t = some c) :
    ∃ i, x.closingPlace = some i := by
  unfold closingPlace
  cases first : x.closingAt .before with
  | some c => exact ⟨_, rfl⟩
  | none =>
    cases t with
    | before =>
      rw [first] at h
      cases h
    | after => exact ⟨_, by rw [h]; rfl⟩

/-- The node without its lines of the diff. -/
def Node.undated (x : Node) : Node :=
  { x with
    start := x.start.setDiff 0
    stop := x.stop.setDiff 0
    closing := x.closing.map (·.map fun c => { c with line := c.line.setDiff 0 }) }

namespace Diff

variable {d d' d'' : Diff} {n m : Handle} {t : Time} {f : Forest Handle}

/-- Nothing but lines of the diff is changed. -/
structure Redates (d d' : Diff) : Prop where
  size : d'.size = d.size
  below : ∀ t n, d'.below t n = d.below t n
  above : ∀ t n, d'.above t n = d.above t n
  payload : ∀ n, (d'.payload n).undated = (d.payload n).undated

namespace Redates

theorem refl (d : Diff) : d.Redates d := ⟨rfl, fun _ _ => rfl, fun _ _ => rfl, fun _ => rfl⟩

theorem trans (h : d.Redates d') (h' : d'.Redates d'') : d.Redates d'' :=
  ⟨h'.size.trans h.size, fun t n => (h'.below t n).trans (h.below t n),
    fun t n => (h'.above t n).trans (h.above t n), fun n => (h'.payload n).trans (h.payload n)⟩

theorem change (h : d.Redates d') (n : Handle) : (d'.look n).change = (d.look n).change := by
  have change := congrArg Node.change (h.payload n)
  exact change

theorem kind (h : d.Redates d') (n : Handle) : (d'.look n).kind = (d.look n).kind := by
  have kind := congrArg Node.kind (h.payload n)
  exact kind

theorem formula (h : d.Redates d') (n : Handle) : (d'.look n).formula = (d.look n).formula := by
  have formula := congrArg Node.formula (h.payload n)
  exact formula

theorem label (h : d.Redates d') (n : Handle) : (d'.look n).label = (d.look n).label := by
  have label := congrArg Node.label (h.payload n)
  exact label

theorem start (h : d.Redates d') (n : Handle) (t : Time) :
    (d'.look n).start.get t = (d.look n).start.get t := by
  have start := congrArg (fun x : Node => x.start.get t) (h.payload n)
  cases t <;> exact start

theorem stop (h : d.Redates d') (n : Handle) (t : Time) :
    (d'.look n).stop.get t = (d.look n).stop.get t := by
  have stop := congrArg (fun x : Node => x.stop.get t) (h.payload n)
  cases t <;> exact stop

theorem lives (h : d.Redates d') (t : Time) (n : Handle) : d'.lives t n = d.lives t n := by
  by_cases hn : n < d.size
  · rw [lives_look hn, lives_look (h.size ▸ hn), Node.existsAt, Node.existsAt, h.change]
  · rw [lives_eq_false hn, lives_eq_false (h.size ▸ hn)]

theorem belowBoth (h : d.Redates d') (n : Handle) : d'.belowBoth n = d.belowBoth n := by
  rw [Diff.belowBoth, Diff.belowBoth, h.below, h.below]

theorem regular (h : d.Redates d') (hd : d.Regular) : d'.Regular := by
  refine ⟨hd.toSymmetric.of_same h.below h.above fun t n p _ there => ?_, ?_⟩
  · rw [h.lives]
    exact there
  · have top := look_root_kind hd
    rw [← h.kind] at top
    rw [kindOf, getElem?_look (h.size ▸ hd.root_lt), Option.map_some, top]

/-- The trees of a diff do not depend on the lines of the diff. -/
theorem twofold {s : Sides (Forest Handle)} (h : d.Redates d') (hd : d.Twofold s) :
    d'.Twofold s := by
  have kinds (t) : (s.get t).map (fun n => (d'.look n).kind) =
      (s.get t).map fun n => (d.look n).kind := Forest.map_congr fun n _ => h.kind n
  refine .of_spans (h.regular hd.toRegular) (fun t => (h.above t root).trans (hd.free t))
    (fun t => (h.below t root).trans (hd.shape t).below)
    (fun t => (hd.shape t).spans.congr fun n hn =>
      ⟨by rw [h.size]; exact (hd.shape t).spans.lt_size hn, h.below t n⟩)
    (fun u t n hn there => hd.here u t n hn (h.lives t n ▸ there))
    (fun u t n c hn hc => ?_) (fun t n hn => ?_) (fun t => ?_) fun t n hn => ?_
  · rw [h.lives]
    exact hd.there u t n c hn (h.below t n ▸ hc)
  · rw [h.kind]
    exact hd.kind t n hn
  · rw [kinds]
    exact hd.ranked t
  · rw [h.formula, h.kind]
    exact hd.formula t n hn

end Redates

/-- A node gets other lines of the diff. -/
theorem redates_update {g : Node → Node} (edges : ∀ x : Node, (g x).children = x.children ∧
    (g x).parent = x.parent) (same : ∀ x : Node, (g x).undated = x.undated) (hn : n < d.size) :
    d.Redates (d.update n g) := by
  refine ⟨size_update .., fun t m => below_update_of fun x => by rw [(edges x).1],
    fun t m => above_update_of fun x => by rw [(edges x).2], fun m => ?_⟩
  rw [payload_update hn]
  split
  · next self =>
    subst self
    have detached := congrArg Node.detached (same (d.look n))
    exact detached
  · rfl

/-- The lines of the diff that the nodes of a forest take, each where it starts and where it is
closed. -/
def places (d : Diff) (f : Forest Handle) : List Int :=
  f.spell (fun n => [(d.look n).start.diff]) fun n => (d.look n).closingPlace.toList

theorem places_congr {d d' : Diff} (same : ∀ n ∈ f.flatten, d'.look n = d.look n) :
    d'.places f = d.places f :=
  Forest.spell_congr fun n hn => by simp only [same n hn, and_self]

/-- The lines of the diff rise along a forest, and a chain of it is closed at one of them. -/
structure Numbered (d : Diff) (f : Forest Handle) : Prop where
  order : (d.places f).Pairwise (· < ·)
  closed : ∀ n ∈ f.flatten, ∀ t c, (d.look n).closingAt t = some c →
    (d.look n).closingPlace = some c.line.diff

theorem start_mem_places (hn : n ∈ f.flatten) : (d.look n).start.diff ∈ d.places f :=
  Forest.mem_spell.2 ⟨n, hn, .inl List.mem_cons_self⟩

theorem Numbered.starts (h : d.Numbered f) :
    f.flatten.Pairwise fun n m => (d.look n).start.diff < (d.look m).start.diff := by
  have order := h.order.sublist Forest.flatMap_sublist_spell
  rwa [← List.map_eq_flatMap, List.pairwise_map] at order

/-- Lines that rise from one on up to, but not including, another one. -/
structure Climbs (lines : List Int) (free last : Int) : Prop where
  order : lines.Pairwise (· < ·)
  within : ∀ i ∈ lines, free ≤ i ∧ i < last
  le : free ≤ last

theorem Climbs.nil (i : Int) : Climbs [] i i :=
  ⟨.nil, fun _ h => absurd h List.not_mem_nil, Int.le_refl i⟩

/-- At most one line is taken, and it is the free one. -/
theorem Climbs.option {o : Option Int} {free last : Int} (le : free ≤ last)
    (only : ∀ i ∈ o, i = free ∧ free < last) : Climbs o.toList free last := by
  cases o with
  | none => exact ⟨.nil, fun _ h => absurd h List.not_mem_nil, le⟩
  | some i =>
    obtain ⟨rfl, less⟩ := only i rfl
    exact ⟨List.pairwise_singleton .., by simpa using less, le⟩

theorem Climbs.append {is js : List Int} {free next last : Int} (h : Climbs is free next)
    (h' : Climbs js next last) : Climbs (is ++ js) free last := by
  have low := h.le
  have high := h'.le
  refine ⟨List.pairwise_append.2 ⟨h.order, h'.order, fun i hi j hj => ?_⟩, fun i hi => ?_, by omega⟩
  · have := h.within i hi
    have := h'.within j hj
    omega
  · obtain hi | hi := List.mem_append.1 hi
    · have := h.within i hi
      omega
    · have := h'.within i hi
      omega

/-- The nodes of a forest take lines of the diff from one on up to, but not including, another one, and
they rise along the forest. No other node changes. -/
structure Numbers (d d' : Diff) (f : Forest Handle) (free last : Int) : Prop where
  rest : ∀ n, n ∉ f.flatten → d'.look n = d.look n
  climbs : Climbs (d'.places f) free last
  closed : ∀ n ∈ f.flatten, ∀ t c, (d'.look n).closingAt t = some c →
    (d'.look n).closingPlace = some c.line.diff

theorem Numbers.numbered {free last : Int} (h : Numbers d d' f free last) : d'.Numbered f :=
  ⟨h.climbs.order, h.closed⟩

/-- A node is numbered, then what hangs below it, and then what comes behind. -/
theorem Numbers.cons {e e₁ e₂ e₃ e' : Diff} {below rest : Forest Handle}
    {free next last₁ last₂ last : Int} (once : (n :: (below.flatten ++ rest.flatten)).Nodup)
    (first : ∀ m, m ≠ n → e₁.look m = e.look m) (inner : Numbers e₁ e₂ below next last₁)
    (same : ∀ m, m ≠ n → e₃.look m = e₂.look m) (outer : Numbers e₃ e' rest last₂ last)
    (start : (e₃.look n).start.diff = free) (own : free < next)
    (closed : ∀ t c, (e₃.look n).closingAt t = some c → c.line.diff = last₁ ∧ last₁ < last₂)
    (ended : last₁ ≤ last₂) : Numbers e e' (.cons n below rest) free last := by
  obtain ⟨new, once⟩ := List.nodup_cons.1 once
  rw [List.mem_append, not_or] at new
  obtain ⟨-, -, different⟩ := List.nodup_append.1 once
  have here : e'.look n = e₃.look n := outer.rest n new.2
  have stays (m) (hm : m ∈ below.flatten) : e'.look m = e₂.look m := by
    rw [outer.rest m fun hr => different m hm m hr rfl, same m fun e => new.1 (e ▸ hm)]
  -- the node takes the line in front of all others, and the one behind what hangs below it
  have final (i) (hi : i ∈ (e₃.look n).closingPlace) : i = last₁ ∧ last₁ < last₂ := by
    obtain ⟨t, c, hc, rfl⟩ := Node.exists_of_mem_closingPlace hi
    exact closed t c hc
  refine ⟨fun m hm => ?_, ?_, fun m hm => ?_⟩
  · simp only [Forest.flatten, List.mem_cons, List.mem_append, not_or] at hm
    obtain ⟨other, notBelow, notRest⟩ := hm
    rw [outer.rest m notRest, same m other, inner.rest m notBelow, first m other]
  · have places : e'.places (.cons n below rest) =
        [free] ++ e₂.places below ++ (e₃.look n).closingPlace.toList ++ e'.places rest := by
      rw [← places_congr stays, ← start, ← here]
      rfl
    have begins : Climbs [free] free next :=
      .option (o := some free) own.le fun i hi => ⟨(Option.some.inj hi).symm, own⟩
    rw [places]
    exact ((begins.append inner.climbs).append (.option ended final)).append outer.climbs
  · simp only [Forest.flatten, List.mem_cons, List.mem_append] at hm
    obtain rfl | hm | hm := hm
    · rw [here]
      intro t c hc
      obtain ⟨i, hi⟩ := Node.exists_closingPlace hc
      rw [hi, (final i hi).1, (closed t c hc).1]
    · rw [stays m hm]
      exact inner.closed m hm
    · exact outer.closed m hm

end Diff

namespace Construction

open Diff

variable {d e : Diff} {n : Handle} {free : Int} {seen ns : List Handle} {f : Forest Handle}
  {marks : Marks}

theorem inRange_of_fits {k : Int} (low : 0 ≤ k) (high : k ≤ 2147483647) :
    (inRange (lineNumber? k)).run d = .ok k d := by
  have fits : lineNumber? k = some k := if_pos ⟨by omega, high⟩
  rw [inRange, fits]
  rfl

theorem inRange_eq_ok {x : Option Int} {k : Int} {d' : Diff}
    (h : (inRange x).run d = .ok k d') : x = some k ∧ d' = d := by
  cases x with
  | none => cases h
  | some m =>
    obtain ⟨rfl, rfl⟩ := (EStateM.Result.ok.injEq ..).mp h
    exact ⟨rfl, rfl⟩

/-- The node with the line of the diff at which it ends, which its closing lines take if it has any. -/
def endedAt (stop : Int) (closes : Bool) (x : Node) : Node :=
  { x with
    stop := x.stop.setDiff stop
    closing :=
      if closes then x.closing.map (·.map fun c => { c with line := c.line.setDiff stop })
      else x.closing }

theorem undated_endedAt {stop : Int} {closes : Bool} {x : Node} :
    (endedAt stop closes x).undated = x.undated := by
  cases closes with
  | false => rfl
  | true =>
    have again : (x.closing.map (·.map fun c => { c with line := c.line.setDiff stop })).map
        (·.map fun c => { c with line := c.line.setDiff 0 }) =
        x.closing.map (·.map fun c => { c with line := c.line.setDiff 0 }) := by
      simp only [Sides.map, Option.map_map]
      rfl
    simp only [Node.undated, endedAt, if_true, again]
    rfl

theorem closingAt_endedAt {stop : Int} {x : Node} {t : Time} {c : ClosingLine}
    (h : (endedAt stop true x).closingAt t = some c) : c.line.diff = stop := by
  obtain ⟨-, closing⟩ := Node.closingAt_eq_some_iff.1 h
  have closing : (x.closing.map (·.map fun c => { c with line := c.line.setDiff stop })).get t =
      some c := closing
  rw [Sides.get_map] at closing
  obtain ⟨c', -, rfl⟩ := Option.map_eq_some_iff.1 closing
  rfl

/-- A node ends behind its last line, or at the next free line if it opens an annotation; if it opens
a chain, it may take that line. -/
theorem run_numberEnd (past free : Int) {k : Nat} (hn : n < d.size)
    (space : (d.look n).kind = .ifBranch → 1 ≤ k)
    (low : 0 ≤ free) (high : free + k ≤ 2147483647) :
    ∃ stop closes last, (numberEnd n past free).run d =
        .ok last (d.update n (endedAt stop closes)) ∧ free ≤ last ∧ last ≤ free + k := by
  have asked := Edit.run_ask_node (getElem?_look hn)
  have updated (g : Node → Node) := Edit.run_update (getElem?_look hn) g
  by_cases annotates : (d.look n).kind.annotates = true
  · by_cases closes : (d.look n).kind = .ifBranch ∧
      ((d.look n).closing.before.isSome ∨ (d.look n).closing.after.isSome)
    · have one := space closes.1
      refine ⟨free, true, free + 1, ?_, by omega, by omega⟩
      simp only [numberEnd, EStateM.run_bind, asked, if_pos annotates, if_pos closes, updated,
        inRange_of_fits (by omega : 0 ≤ free + 1) (by omega)]
      rfl
    · refine ⟨free, false, free, ?_, by omega, by omega⟩
      simp only [numberEnd, EStateM.run_bind, asked, if_pos annotates, if_neg closes, updated]
      rfl
  · refine ⟨past, false, free, ?_, by omega, by omega⟩
    simp only [numberEnd, EStateM.run_bind, asked, if_neg annotates, updated]
    rfl

/-- A chain that is closed takes the free line. -/
theorem numberEnd_eq_ok {past last : Int} {d' : Diff} (hn : n < d.size)
    (run : (numberEnd n past free).run d = .ok last d') :
    ∃ stop closes, d' = d.update n (endedAt stop closes) ∧ free ≤ last ∧
      ∀ t c, (d'.look n).closingAt t = some c → c.line.diff = free ∧ free < last := by
  have asked := Edit.run_ask_node (getElem?_look hn)
  have updated (g : Node → Node) := Edit.run_update (getElem?_look hn) g
  have look (g : Node → Node) : (d.update n g).look n = g (d.look n) := by
    rw [look_update hn, if_pos rfl]
  -- what has a closing line is a chain
  have chain {t c} (hc : (d.look n).closingAt t = some c) : (d.look n).kind.annotates = true ∧
      (d.look n).kind = .ifBranch ∧
      ((d.look n).closing.before.isSome ∨ (d.look n).closing.after.isSome) := by
    obtain ⟨kind, closing⟩ := Node.closingAt_eq_some_iff.1 hc
    refine ⟨by rw [kind]; rfl, kind, ?_⟩
    cases t with
    | before => exact .inl (Option.isSome_of_eq_some closing)
    | after => exact .inr (Option.isSome_of_eq_some closing)
  by_cases annotates : (d.look n).kind.annotates = true
  · by_cases closes : (d.look n).kind = .ifBranch ∧
      ((d.look n).closing.before.isSome ∨ (d.look n).closing.after.isSome)
    · simp only [numberEnd, EStateM.run_bind, asked, if_pos annotates, if_pos closes, updated] at run
      obtain ⟨next, rfl⟩ := inRange_eq_ok run
      obtain ⟨rfl, -⟩ := lineNumber?_eq_some_iff.1 next
      refine ⟨free, true, rfl, by omega, fun t c hc => ⟨?_, by omega⟩⟩
      rw [look] at hc
      exact closingAt_endedAt hc
    · simp only [numberEnd, EStateM.run_bind, asked, if_pos annotates, if_neg closes, updated] at run
      obtain ⟨rfl, rfl⟩ := (EStateM.Result.ok.injEq ..).mp run
      refine ⟨free, false, rfl, Int.le_refl _, fun t c hc => ?_⟩
      rw [look] at hc
      exact absurd (chain hc).2 closes
  · simp only [numberEnd, EStateM.run_bind, asked, if_neg annotates, updated] at run
    obtain ⟨rfl, rfl⟩ := (EStateM.Result.ok.injEq ..).mp run
    refine ⟨past, false, rfl, Int.le_refl _, fun t c hc => ?_⟩
    rw [look] at hc
    exact absurd (chain hc).1 annotates

theorem keeps_update {g : Node → Node} (edges : ∀ x : Node, (g x).children = x.children ∧
    (g x).parent = x.parent) (same : ∀ x : Node, (g x).undated = x.undated) :
    Edit.Keeps d.Redates (Edit.update n g) := fun _ redates =>
  Edit.perform_update redates fun _ hx =>
    redates.trans (redates_update edges same (Array.getElem?_eq_some_iff.1 hx).1)

section Numbering

variable {P : Diff → Prop} (dates : ∀ {n : Handle} {g : Node → Node},
  (∀ x : Node, (g x).children = x.children ∧ (g x).parent = x.parent) →
    (∀ x : Node, (g x).undated = x.undated) → Edit.Keeps P (Edit.update n g))

include dates

theorem keeps_numberEnd (past free : Int) : Edit.Keeps P (numberEnd n past free) := by
  refine (Edit.Keeps.ask _).bind fun x => .ite (.bind ?_ fun _ => .ite (.ask _) (.pure _))
    (.bind ?_ fun _ => .pure _)
  · refine dates (fun _ => ⟨rfl, rfl⟩) fun y => ?_
    by_cases closes : x.kind = .ifBranch ∧ (x.closing.before.isSome ∨ x.closing.after.isSome)
    · simp only [if_pos closes]
      exact @undated_endedAt free true y
    · simp only [if_neg closes]
      exact @undated_endedAt free false y
  · exact dates (fun _ => ⟨rfl, rfl⟩) fun _ => rfl

theorem keeps_numberBelow (levels : Nat) (state : Int × Marks) (n : Handle) :
    Edit.Keeps P (numberBelow levels state n) := by
  induction levels generalizing state n with
  | zero => exact .pure _
  | succ levels ih =>
    refine .ite (.pure _) ((Edit.Keeps.ask _).bind fun x => .bind ?_ fun _ =>
      (Edit.Keeps.ask _).bind fun next => (Edit.Keeps.ask _).bind fun children =>
        (Edit.Keeps.foldlM ih _ _).bind fun _ => .bind (keeps_numberEnd dates _ _) fun _ => .pure _)
    exact dates (fun _ => ⟨rfl, rfl⟩) fun _ => rfl

/-- Numbering keeps what is kept whenever a node gets other lines of the diff. -/
theorem keeps_numbering : Edit.Keeps P number :=
  Edit.Keeps.get.bind fun _ => (Edit.Keeps.ask _).bind fun _ =>
    (Edit.Keeps.foldlM (keeps_numberBelow dates _) _ _).bind fun _ => .pure ()

end Numbering

/-- Numbering changes lines of the diff only, whether there is room for all nodes or not. -/
theorem keeps_number : Edit.Keeps d.Redates number := keeps_numbering keeps_update

/-- The node with the line of the diff at which it starts. -/
def begunAt (free : Int) (x : Node) : Node := { x with start := x.start.setDiff free }

/-- A node that was not met takes the next free line, and what hangs below it the lines behind its
own. -/
theorem run_numberBelow (levels : Nat) (hn : n < e.size) (new : ¬ marks.has n = true) :
    (numberBelow (levels + 1) (free, marks) n).run e =
      (do
        let next ← inRange (lineNumber? (free + (max (e.look n).label.lines.length 1 : Nat)))
        let p ← (e.belowBoth n).foldlM (numberBelow levels) (next, marks.mark n)
        return (← numberEnd n next p.1, p.2) : Edit _).run (e.update n (begunAt free)) := by
  have asked := Edit.run_ask_node (getElem?_look hn)
  have begun : (Edit.update n fun x => { x with start := x.start.setDiff free }).run e =
      .ok () (e.update n (begunAt free)) := Edit.run_update (getElem?_look hn) (begunAt free)
  have children : (Edit.ask (·.allChildren n)).run (e.update n (begunAt free)) =
      .ok (e.belowBoth n) (e.update n (begunAt free)) := by
    apply Edit.run_ask_ok
    rw [allChildren_eq (by rw [size_update]; exact hn), Diff.belowBoth, Diff.belowBoth,
      below_update_of (f := begunAt free) fun _ => rfl,
      below_update_of (f := begunAt free) fun _ => rfl]
  rw [numberBelow, if_neg new]
  simp only [EStateM.run_bind, asked, begun]
  cases next : lineNumber? (free + (max (e.look n).label.lines.length 1 : Nat)) with
  | none => rfl
  | some k =>
    have fits : (inRange (some k)).run (e.update n (begunAt free)) =
        .ok k (e.update n (begunAt free)) := rfl
    simp only [fits, children]

theorem child_lt_size (hd : d.Regular) : ∀ c ∈ d.belowBoth n, c < d.size := fun _ hc =>
  hd.lt_size_of_mem_belowBoth hc

/-- A walk that succeeds numbers the tour of what it meets. -/
theorem numbers_of_run (hd : d.Regular) (h : d.Tours seen ns f) (levels : Nat)
    (inStore : ∀ n ∈ ns, n < d.size) (deep : f.flatten.length < levels) (redates : d.Redates e)
    (marked : d.Marked marks seen) {e' : Diff} {last : Int} {marks' : Marks}
    (run : (ns.foldlM (numberBelow levels) (free, marks)).run e = .ok (last, marks') e') :
    d.Marked marks' (f.flatten.reverse ++ seen) ∧ Numbers e e' f free last := by
  induction h generalizing levels e free marks e' last marks' with
  | nil seen =>
    obtain ⟨same, rfl⟩ := (EStateM.Result.ok.injEq ..).mp run
    obtain ⟨rfl, rfl⟩ := Prod.mk.inj same
    exact ⟨marked, fun _ _ => rfl, .nil _, fun _ h => absurd h List.not_mem_nil⟩
  | @skip seen ns n f old rest ih =>
    obtain ⟨levels, rfl⟩ : ∃ k, levels = k + 1 := ⟨levels - 1, by omega⟩
    rw [List.foldlM_cons] at run
    obtain ⟨p, e₁, skipped, run⟩ := Edit.run_bind_eq_ok run
    rw [numberBelow, if_pos ((marked.has n).2 old)] at skipped
    obtain ⟨rfl, rfl⟩ := (EStateM.Result.ok.injEq ..).mp skipped
    exact ih (levels + 1) (List.forall_mem_cons.1 inStore).2 deep redates marked run
  | @visit seen ns n below rest new inner outer ihb ihr =>
    obtain ⟨hn, hns⟩ := List.forall_mem_cons.1 inStore
    simp only [Forest.flatten, List.length_cons, List.length_append] at deep
    obtain ⟨levels, rfl⟩ : ∃ k, levels = k + 1 := ⟨levels - 1, by omega⟩
    have size : n < e.size := redates.size.symm ▸ hn
    have unmarked : ¬ marks.has n = true := fun h => new ((marked.has n).1 h)
    rw [List.foldlM_cons] at run
    obtain ⟨⟨last₂, marks₁⟩, e₃, step, run'⟩ := Edit.run_bind_eq_ok run
    rw [run_numberBelow levels size unmarked, redates.belowBoth] at step
    -- the node begins
    obtain ⟨next, e₁, fits, step⟩ := Edit.run_bind_eq_ok step
    obtain ⟨own, rfl⟩ := inRange_eq_ok fits
    obtain ⟨own, -⟩ := lineNumber?_eq_some_iff.1 own
    have redates₁ : d.Redates (e.update n (begunAt free)) :=
      redates.trans (redates_update (fun _ => ⟨rfl, rfl⟩) (fun _ => rfl) size)
    -- what hangs below it is numbered
    obtain ⟨⟨last₁, marks₂⟩, e₂, run₁, step⟩ := Edit.run_bind_eq_ok step
    obtain ⟨marked₁, numbers₁⟩ := ihb levels (child_lt_size hd) (by omega) redates₁ (marked.mark hn) run₁
    have redates₂ : d.Redates e₂ :=
      (Edit.Keeps.foldlM (keeps_numberBelow keeps_update _) _ _).ok redates₁ run₁
    have le₁ := numbers₁.climbs.le
    -- the node ends
    obtain ⟨last₂', e₃', run₂, step⟩ := Edit.run_bind_eq_ok step
    obtain ⟨same, rfl⟩ := (EStateM.Result.ok.injEq ..).mp step
    obtain ⟨rfl, rfl⟩ := Prod.mk.inj same
    have inStore₂ : n < e₂.size := redates₂.size.symm ▸ hn
    obtain ⟨stop, closes, rfl, le₂, closed⟩ := numberEnd_eq_ok inStore₂ run₂
    have redates₃ : d.Redates (e₂.update n (endedAt stop closes)) :=
      redates₂.trans (redates_update (fun _ => ⟨rfl, rfl⟩) (fun _ => undated_endedAt) inStore₂)
    obtain ⟨marked', numbers'⟩ := ihr (levels + 1) hns (by omega) redates₃ marked₁ run'
    have once := (Tours.visit new inner outer).nodup.1
    have notBelow : n ∉ below.flatten := fun mem =>
      (List.nodup_cons.1 once).1 (List.mem_append_left _ mem)
    refine ⟨?_, numbers₁.cons once (fun m other => ?_) (fun m other => ?_) numbers' ?_ (by omega)
      closed le₂⟩
    · rw [Forest.reverse_flatten_cons]
      exact marked'
    · rw [look_update size, if_neg (Ne.symm other)]
    · rw [look_update inStore₂, if_neg (Ne.symm other)]
    · rw [look_update inStore₂, if_pos rfl]
      show (e₂.look n).start.diff = free
      rw [numbers₁.rest n notBelow, look_update size, if_pos rfl]
      rfl

/-- The walk succeeds if there is room for the nodes that it meets. -/
theorem run_numberAll (hd : d.Regular) (h : d.Tours seen ns f) (levels : Nat)
    (inStore : ∀ n ∈ ns, n < d.size) (deep : f.flatten.length < levels) (redates : d.Redates e)
    (marked : d.Marked marks seen) (low : 0 ≤ free)
    (high : free + ((f.flatten.map d.room).sum : Nat) ≤ 2147483647) :
    ∃ e' last marks', (ns.foldlM (numberBelow levels) (free, marks)).run e = .ok (last, marks') e' ∧
      last ≤ free + ((f.flatten.map d.room).sum : Nat) := by
  induction h generalizing levels e free marks with
  | nil seen => exact ⟨e, free, marks, rfl, by simp [Forest.flatten]⟩
  | @skip seen ns n f old rest ih =>
    obtain ⟨levels, rfl⟩ : ∃ k, levels = k + 1 := ⟨levels - 1, by omega⟩
    obtain ⟨e', last, marks', run, few⟩ :=
      ih (levels + 1) (List.forall_mem_cons.1 inStore).2 deep redates marked low high
    refine ⟨e', last, marks', ?_, few⟩
    have skipped : (numberBelow (levels + 1) (free, marks) n).run e = .ok (free, marks) e := by
      rw [numberBelow, if_pos ((marked.has n).2 old)]
      rfl
    rw [List.foldlM_cons, EStateM.run_bind, skipped]
    exact run
  | @visit seen ns n below rest new inner outer ihb ihr =>
    obtain ⟨hn, hns⟩ := List.forall_mem_cons.1 inStore
    simp only [Forest.flatten, List.length_cons, List.length_append] at deep
    simp only [Forest.flatten, List.map_cons, List.map_append, List.sum_cons, List.sum_append]
      at high ⊢
    obtain ⟨levels, rfl⟩ : ∃ k, levels = k + 1 := ⟨levels - 1, by omega⟩
    obtain ⟨k, room, space⟩ : ∃ k, d.room n = max (d.look n).label.lines.length 1 + k ∧
        ((d.look n).kind = .ifBranch → 1 ≤ k) :=
      ⟨_, rfl, fun opens => by rw [if_pos opens]⟩
    have size : n < e.size := redates.size.symm ▸ hn
    have unmarked : ¬ marks.has n = true := fun h => new ((marked.has n).1 h)
    obtain ⟨next, own⟩ : ∃ next, next = free + (max (d.look n).label.lines.length 1 : Nat) :=
      ⟨_, rfl⟩
    -- the node begins
    have redates₁ : d.Redates (e.update n (begunAt free)) :=
      redates.trans (redates_update (fun _ => ⟨rfl, rfl⟩) (fun _ => rfl) size)
    have fits := inRange_of_fits (d := e.update n (begunAt free)) (by omega : 0 ≤ next) (by omega)
    have step : (numberBelow (levels + 1) (free, marks) n).run e = _ :=
      run_numberBelow levels size unmarked
    rw [redates.belowBoth, redates.label, ← own] at step
    -- what hangs below it is numbered
    obtain ⟨e₂, last₁, marks₁, run₁, few₁⟩ :=
      ihb levels (child_lt_size hd) (by omega) redates₁ (marked.mark hn) (by omega : 0 ≤ next) (by omega)
    obtain ⟨marked₁, numbers₁⟩ :=
      numbers_of_run hd inner levels (child_lt_size hd) (by omega) redates₁ (marked.mark hn) run₁
    have redates₂ : d.Redates e₂ :=
      (Edit.Keeps.foldlM (keeps_numberBelow keeps_update _) _ _).ok redates₁ run₁
    have le₁ := numbers₁.climbs.le
    -- the node ends
    obtain ⟨stop, closes, last₂, run₂, le₂, few₂⟩ := run_numberEnd next last₁
      (redates₂.size.symm ▸ hn) (redates₂.kind n ▸ space) (by omega) (by omega)
    have redates₃ : d.Redates (e₂.update n (endedAt stop closes)) :=
      redates₂.trans (redates_update (fun _ => ⟨rfl, rfl⟩) (fun _ => undated_endedAt)
        (redates₂.size.symm ▸ hn))
    obtain ⟨e', last, marks', run', few'⟩ :=
      ihr (levels + 1) hns (by omega) redates₃ marked₁ (by omega : 0 ≤ last₂) (by omega)
    refine ⟨e', last, marks', ?_, by omega⟩
    rw [List.foldlM_cons, EStateM.run_bind, step]
    simp only [EStateM.run_bind, fits, run₁, run₂, EStateM.run_pure]
    exact run'

/-- Numbering is a walk below the root. -/
theorem run_number_eq (hd : d.Regular) : number.run d =
    ((d.belowBoth root).foldlM (numberBelow d.size) (1, (Marks.none d.size).mark root) >>=
      fun _ => pure () : Edit Unit).run d := by
  have asked : (Edit.ask (·.allChildren root)).run d = .ok (d.belowBoth root) d :=
    Edit.run_ask_ok (allChildren_eq hd.root_lt)
  have size : (get : Edit Diff).run d = .ok d d := rfl
  rw [number, EStateM.run_bind, size]
  simp only [EStateM.run_bind, asked]

/-- When the lines were numbered the nodes of the tour take the lines from one on. -/
theorem exists_numbers (hd : d.Regular) (tour : d.Tour f) {d' : Diff}
    (run : number.run d = .ok () d') : ∃ last, Numbers d d' f 1 last := by
  rw [run_number_eq hd] at run
  obtain ⟨⟨last, marks⟩, e, walk, done⟩ := Edit.run_bind_eq_ok run
  obtain rfl : e = d' := ((EStateM.Result.ok.injEq ..).mp done).2
  exact ⟨last, (numbers_of_run hd tour d.size (child_lt_size hd)
    (tour.length_lt hd) (.refl d) ((Diff.Marked.none d).mark hd.root_lt) walk).2⟩

/-- Numbering succeeds if there is room for all nodes. The walk from the root then meets the nodes in
the order of their lines, so no two of them have the same identifier. -/
theorem run_number (hd : d.Regular) (tour : d.Tour f) (top : (d.look root).start.diff = 0)
    (few : (f.flatten.map d.room).sum < 2147483647) :
    ∃ d', number.run d = .ok () d' ∧ d.Redates d' ∧ d'.preorder = .ok (root :: f.flatten) ∧
      (root :: f.flatten).Pairwise (fun n m => (d'.look n).start.diff < (d'.look m).start.diff) ∧
      ((root :: f.flatten).map fun n => (d'.look n).stableId).Nodup := by
  have marked := (Diff.Marked.none d).mark hd.root_lt
  obtain ⟨d', last, marks, run, few'⟩ := run_numberAll hd tour d.size (child_lt_size hd)
    (tour.length_lt hd) (.refl d) marked (by decide : (0 : Int) ≤ 1) (by omega)
  have numbers := (numbers_of_run hd tour d.size (child_lt_size hd)
    (tour.length_lt hd) (.refl d) marked run).2
  have numbered : number.run d = .ok () d' := by
    rw [run_number_eq hd, EStateM.run_bind, run]
    rfl
  have redates : d.Redates d' := keeps_number.ok (.refl d) numbered
  have rises : (root :: f.flatten).Pairwise
      fun n m => (d'.look n).start.diff < (d'.look m).start.diff := by
    refine List.pairwise_cons.2 ⟨fun n hn => ?_, numbers.numbered.starts⟩
    have low := (numbers.climbs.within _ (start_mem_places hn)).1
    rw [numbers.rest root (List.nodup_cons.1 tour.nodup).1, top]
    omega
  have fits (n) (hn : n ∈ root :: f.flatten) :
      -1 ≤ (d'.look n).start.diff ∧ FitsLine (d'.look n).start.diff := by
    obtain rfl | hn := List.mem_cons.1 hn
    · rw [numbers.rest root (List.nodup_cons.1 tour.nodup).1, top]
      decide
    · obtain ⟨low, high⟩ := numbers.climbs.within _ (start_mem_places hn)
      exact ⟨by omega, by omega, by omega⟩
  refine ⟨d', numbered, redates, ?_, rises, ?_⟩
  · exact preorder_eq (redates.regular hd) (tour.congr redates.belowBoth)
  · rw [List.Nodup, List.pairwise_map]
    refine rises.imp_of_mem fun {n m} hn hm less same => ?_
    have decoded := StableId.decode?_encode (d'.look n).change (d'.look n).kind (fits n hn).1
      (fits n hn).2
    rw [show StableId.encode _ _ _ = StableId.encode _ _ _ from same,
      StableId.decode?_encode _ _ (fits m hm).1 (fits m hm).2] at decoded
    rw [(Prod.mk.inj (Option.some.inj decoded)).1] at less
    exact Int.lt_irrefl _ less

end Construction

end Variation
