import Variation.Proofs.Regrouped
import Variation.Proofs.Skipping

/-!
# Reading with collapsed code

A text is read with collapsed code exactly if it is read without, and then the first diff regroups the
code of the second one into the longest pieces of lines that go on with each other. Both runs go through
the same lines at the same places, and every line that is put keeps their outlines together (`Gathers`):
the open annotations have the same names, and what the run with collapsed code remembers is the line that
was completed last, if that is code (`Remembers`). So a line joins the code that is remembered exactly if
it goes on with the line before it.
-/

namespace Variation.Reading

open Diff Outline

/-! ## Outlines -/

namespace Outline

/-- The second outline has the nodes of the first one with the code regrouped, and the same annotations
are open. -/
structure Collapses (dialect : Dialect) (gs : List (List FullLine)) (name : Handle → Handle)
    (o o' : Outline) : Prop where
  diff : Regroups dialect gs o.diff o'.diff name
  opened : ∀ t, o'.opened.get t = (o.opened.get t).map name

/-- An outline remembers the line that was put last if it is code: it is the end of the last node. -/
structure Remembers (dialect : Dialect) (ws : List FullLine) (o : Outline) : Prop where
  code : ∀ c, o.lastCode = some c → c + 1 = o.diff.size ∧
    ∃ a, ws.getLast? = some a ∧ dialect.givesCode a.line.text = true ∧
      (o.diff.look c).change = a.change ∧ (o.diff.look c).stop.diff = a.stop.diff
  plain : o.lastCode = none → ∀ a, ws.getLast? = some a → dialect.givesCode a.line.text = false

/-- Two outlines in which the same lines were put, the second one with collapsed code. -/
structure Gathers (dialect : Dialect) (ws : List FullLine) (o o' : Outline) : Prop where
  remembers : o'.Remembers dialect ws
  collapses : ∃ name, Collapses dialect (segments dialect ws) name o o'

variable {dialect : Dialect} {gs : List (List FullLine)} {ws : List FullLine} {w : FullLine}
  {name : Handle → Handle} {o o' : Outline} {t : Time} {closing : ClosingLine} {skip : Bool}
  {c : Handle} {x : Node} {tops : Time → Handle} {stop : Position} {kind : Kind}
  {formula : Option Formula}

theorem gathers_start (source : Source) :
    Gathers dialect [] (Outline.start source) (Outline.start source) := by
  have only (n : Handle) (hn : n < (Diff.empty source).size) : n = root := Nat.lt_one_iff.1 hn
  have same : Regroups dialect [] (Diff.empty source) (Diff.empty source) id := by
    refine ⟨rfl, rfl, fun i w => nofun, fun i g => nofun, fun n _ => rfl, fun n m less hm => ?_,
      fun n _ _ => rfl, fun t n _ => Option.map_id_apply.symm, fun t n hn => ?_⟩
    · rw [only m hm] at less
      exact absurd less (Nat.not_lt_zero n)
    · rw [only n hn]
      cases t <;> rfl
  exact ⟨⟨nofun, fun _ _ => nofun⟩, id, same, fun t => (List.map_id _).symm⟩

/-! ### Closing lines -/

/-- What is open is an annotation in the store. -/
theorem Neat.known (neat : o.Neat) : ∀ n ∈ o.opened.get t,
    n < o.diff.size ∧ (o.diff.look n).kind ≠ .artifact :=
  fun n hn => ⟨lt_size_of_lives (neat.lives t n hn), neat.kind_ne_artifact hn⟩

theorem Collapses.closeAt (h : Collapses dialect gs name o o') (neat : o.Neat) (t : Time) :
    (closeAt closing o t).Agrees
      (fun o₁ o₁' => Collapses dialect gs name o₁ o₁' ∧ o₁.Neat ∧ o₁'.lastCode = o'.lastCode)
      (closeAt closing o' t) := by
  rw [Outline.closeAt, Outline.closeAt, h.opened]
  refine (h.diff.closeChain neat.known).bind fun p q run _ closed => ?_
  obtain ⟨regroups, image⟩ := closed
  obtain ⟨alike, suffix⟩ := closeChain_alike run
  refine ⟨⟨regroups, fun u => ?_⟩, neat.alike alike fun u => ?_, rfl⟩
  · simp only [Sides.get_set]
    split
    · exact image
    · exact h.opened u
  · simp only [Sides.get_set]
    split
    · next same => exact same ▸ suffix
    · exact List.suffix_refl _

theorem Collapses.closeAll (h : Collapses dialect gs name o o') (neat : o.Neat) (ts : List Time) :
    (ts.foldlM (Outline.closeAt closing) o).Agrees
      (fun o₁ o₁' => Collapses dialect gs name o₁ o₁' ∧ o₁'.lastCode = o'.lastCode)
      (ts.foldlM (Outline.closeAt closing) o') := by
  induction ts generalizing o o' with
  | nil => exact ⟨h, rfl⟩
  | cons t ts ih =>
    rw [List.foldlM_cons, List.foldlM_cons]
    refine (h.closeAt neat t).bind fun o₁ o₁' _ _ ⟨h₁, neat₁, last⟩ => ?_
    rw [← last]
    exact ih h₁ neat₁

/-- A chain is closed in both outlines or in none, and no code is remembered behind it. -/
theorem Collapses.closeChains (h : Collapses dialect gs name o o') (neat : o.Neat)
    (closing : ClosingLine) : (closeChains closing o).Agrees
      (fun o₁ o₁' => Collapses dialect gs name o₁ o₁' ∧ o₁'.lastCode = none)
      (closeChains closing o') := by
  have forgot : Collapses dialect gs name { o with lastCode := none } { o' with lastCode := none } :=
    ⟨h.diff, h.opened⟩
  have order : ({ o with lastCode := none } : Outline).Neat := ⟨neat.orderly, neat.lives, neat.branch⟩
  rw [closeChains_eq, closeChains_eq]
  exact forgot.closeAll order _

/-! ### Lines that become nodes -/

/-- The end of a line is the place behind its last physical line. -/
theorem restrict_eq_stop (range : w.last.add? 1 = some stop) : stop.restrict w.change = w.stop := by
  have diff := diff_shift range
  have before : w.last.before + 1 = stop.before := (lineNumber?_eq_some_iff.1 (get_add range .before)).1
  have after : w.last.after + 1 = stop.after := (lineNumber?_eq_some_iff.1 (get_add range .after)).1
  rw [FullLine.stop, before, after, ← diff]

theorem givesCode_eq (item : dialect.item? w.line.text = some (.node kind formula)) :
    dialect.givesCode w.line.text = true ↔ kind = .artifact := by
  rw [Dialect.givesCode, item]
  cases kind <;> simp

/-- The node of a line holds it alone. -/
theorem codeOf?_newNode (item : dialect.item? w.line.text = some (.node kind formula)) :
    if dialect.givesCode w.line.text then codeOf? [w] =
      some (newNode w.change kind w.start w.stop formula ⟨w.line.lines⟩).detached
    else (newNode w.change kind w.start w.stop formula ⟨w.line.lines⟩).kind ≠ .artifact := by
  split
  · next gives =>
    obtain rfl := (givesCode_eq item).1 gives
    have bare : formula = none := Option.not_isSome_iff_eq_none.1 fun some => by
      rw [(item?_node item).2] at some
      cases some
    rw [codeOf?_single, bare]
    rfl
  · next plain => exact fun code => plain ((givesCode_eq item).2 code)

/-- What hosts a line is the code of the line before it, with which it goes on. -/
theorem Remembers.joins_of_host (h : o.Remembers dialect ws)
    (hosted : o.host? ⟨true, skip⟩ dialect w.line w.change w.start = some c) :
    o.lastCode = some c ∧ c + 1 = o.diff.size ∧ (o.diff.look c).change = w.change ∧
      dialect.isCode w.line.text = true ∧
      ∃ front a, ws = front ++ [a] ∧ FullLine.joins dialect a w = true := by
  unfold host? at hosted
  split at hosted
  · next both =>
    obtain ⟨-, code⟩ := Bool.and_eq_true_iff.1 both
    obtain ⟨recent, fits⟩ := Option.filter_eq_some_iff.1 hosted
    obtain ⟨same, ends⟩ := decide_eq_true_iff.1 fits
    obtain ⟨last, a, final, gives, change, stop⟩ := h.code c recent
    obtain ⟨front, rfl⟩ := List.getLast?_eq_some_iff.1 final
    exact ⟨recent, last, same, code, front, a, rfl,
      joins_iff.2 ⟨gives, code, change.symm.trans same, stop.symm.trans ends⟩⟩
  · cases hosted

/-- A line without a host goes on with no line. -/
theorem Remembers.apart_of_host (h : o.Remembers dialect ws)
    (hosted : o.host? ⟨true, skip⟩ dialect w.line w.change w.start = none) (a : FullLine)
    (final : ws.getLast? = some a) : FullLine.joins dialect a w = false := by
  rw [Bool.eq_false_iff]
  intro joins
  obtain ⟨gives, code, change, stop⟩ := joins_iff.1 joins
  cases recent : o.lastCode with
  | none =>
    rw [h.plain recent a final] at gives
    cases gives
  | some c =>
    obtain ⟨-, b, final', -, change', stop'⟩ := h.code c recent
    obtain rfl : a = b := Option.some.inj (final.symm.trans final')
    have both : ((⟨true, skip⟩ : Options).collapse && dialect.isCode w.line.text) = true := by
      rw [code]
      rfl
    rw [host?, if_pos both, recent] at hosted
    simp [change', change, stop', stop] at hosted

/-- The names of the open annotations stay the same if only what is put gets a new one. -/
theorem Neat.map_opened (neat : o.Neat) (k : Handle) : (o.opened.get t).map
    (Function.update name o.diff.size k) = (o.opened.get t).map name :=
  List.map_congr_left fun n hn => Function.update_of_ne (Nat.ne_of_lt (neat.known n hn).1) _ _

/-- What is open innermost has the same name. -/
theorem Collapses.head (h : Collapses dialect gs name o o')
    (head : ∀ t, (o.opened.get t).head? = some (tops t) ∧ tops t < o.diff.size) (t : Time) :
    (o'.opened.get t).head? = some (name (tops t)) := by
  rw [h.opened, List.head?_map, (head t).1]
  rfl

/-- A line that is added to both outlines begins a piece. -/
theorem Collapses.push (h : Collapses dialect gs name o o') (neat : o.Neat) (neat' : o'.Neat)
    (hc : ∀ t, x.children.get t = []) (hp : ∀ t, x.parent.get t = none)
    (head : ∀ t, (o.opened.get t).head? = some (tops t) ∧ tops t < o.diff.size)
    (line : if dialect.givesCode w.line.text then codeOf? [w] = some x.detached
      else x.kind ≠ .artifact) :
    Collapses dialect (gs ++ [[w]]) (Function.update name o.diff.size o'.diff.size)
      (o.pushed tops x) (o'.pushed (fun t => name (tops t)) x) := by
  refine ⟨h.diff.push neat neat' hc hp head line, fun t => ?_⟩
  rw [opened_pushed, opened_pushed]
  split
  · rw [List.map_cons, Function.update_self, neat.map_opened, h.opened]
  · rw [neat.map_opened, h.opened]

/-- A line that is added to one outline and put to the code that was read last in the other one makes the
last piece longer. -/
theorem Collapses.join {front : List (List FullLine)} {g : List FullLine} {a : FullLine}
    (h : Collapses dialect (front ++ [g ++ [a]]) name o o') (neat : o.Neat) (ready : o'.Ready)
    (hc : ∀ t, x.children.get t = []) (hp : ∀ t, x.parent.get t = none)
    (head : ∀ t, (o.opened.get t).head? = some (tops t) ∧ tops t < o.diff.size)
    (recent : o'.lastCode = some c) (last : c + 1 = o'.diff.size)
    (same : (o'.diff.look c).change = x.change)
    (codes : ∀ b ∈ g ++ [a], dialect.givesCode b.line.text = true)
    (gives : dialect.givesCode w.line.text = true) (line : codeOf? [w] = some x.detached) :
    Collapses dialect (front ++ [g ++ [a] ++ [w]]) (Function.update name o.diff.size c)
      (o.pushed tops x) (o'.joined c w.line.lines w.stop) := by
  have code : x.detached.kind = .artifact := kind_of_codeOf? line
  have leaf : x.kind.annotates = false := Kind.annotates_eq_false_iff.2 (.inl code)
  refine ⟨h.diff.join neat ready hc hp head (h.head head) recent last same codes gives line,
    fun t => ?_⟩
  rw [opened_pushed, leaf, if_neg fun all => Bool.false_ne_true all.1, neat.map_opened, ← h.opened]
  rfl

/-- What was added last is remembered if it is code. -/
theorem remembers_pushed (code : dialect.givesCode w.line.text = true ↔ x.kind = .artifact)
    (change : x.change = w.change) (ends : x.stop.diff = w.stop.diff) :
    (o.pushed tops x).Remembers dialect (ws ++ [w]) := by
  have last : (o.pushed tops x).lastCode = if x.kind = .artifact then some o.diff.size else none := rfl
  refine ⟨fun c hc => ?_, fun forgot a final => ?_⟩
  · rw [last] at hc
    split at hc
    · next artifact =>
      obtain rfl := Option.some.inj hc
      have stop : ((o.pushed tops x).diff.payload o.diff.size).stop.diff = w.stop.diff := by
        rw [payload_pushed, if_pos rfl]
        exact ends
      refine ⟨size_pushed.symm, w, List.getLast?_concat, code.2 artifact, ?_, stop⟩
      rw [change_pushed, if_pos rfl, change]
    · cases hc
  · rw [List.getLast?_concat] at final
    obtain rfl := Option.some.inj final
    rw [last] at forgot
    split at forgot
    · cases forgot
    · next other => exact Bool.eq_false_iff.2 fun gives => other (code.1 gives)

theorem Remembers.joined (h : o.Remembers dialect ws) (recent : o.lastCode = some c)
    (gives : dialect.givesCode w.line.text = true) (same : (o.diff.look c).change = w.change) :
    (o.joined c w.line.lines w.stop).Remembers dialect (ws ++ [w]) := by
  obtain ⟨last, -⟩ := h.code c recent
  have inStore : c < o.diff.size := last ▸ Nat.lt_succ_self c
  have alike : Alike o.diff (o.joined c w.line.lines w.stop).diff := alike_joined inStore
  refine ⟨fun c' hc => ?_, fun (forgot : o.lastCode = none) => ?_⟩
  · obtain rfl : c = c' := Option.some.inj (recent.symm.trans hc)
    refine ⟨by rw [alike.size, last], w, List.getLast?_concat, gives, alike.change.trans same, ?_⟩
    rw [Outline.joined, look_update inStore, if_pos rfl]
  · rw [recent] at forgot
    cases forgot

/-- A line that becomes a node is put into both outlines or into none. -/
theorem Gathers.put_node (h : Gathers dialect ws o o') (ready : o.Ready) (ready' : o'.Ready)
    (item : dialect.item? w.line.text = some (.node kind formula)) (range : w.last.add? 1 = some stop)
    (skip : Bool) : (o.put ⟨false, skip⟩ dialect w.line w.change w.last).Agrees
      (Gathers dialect (ws ++ [w])) (o'.put ⟨true, skip⟩ dialect w.line w.change w.last) := by
  obtain ⟨remembers, name, h⟩ := h
  obtain ⟨m, shown⟩ := ready.shown
  obtain ⟨m', shown'⟩ := ready'.shown
  obtain ⟨tops, head⟩ := Shows.exists_top shown
  have known (t : Time) (n : Handle) (hn : n ∈ o.opened.get t) := (ready.neat.known n hn).1
  have known' (t : Time) (n : Handle) (hn : n ∈ o'.opened.get t) := (ready'.neat.known n hn).1
  have law := (item?_node item).2
  have line := codeOf?_newNode item
  rw [put_node_eq _ _ (Shows.lastCode_lt shown) item range,
    put_node_eq _ _ (Shows.lastCode_lt shown') item range, restrict_eq_stop range]
  have alone : o.host? ⟨false, skip⟩ dialect w.line w.change ((startOf w.line w.last).restrict w.change) =
      none := rfl
  rw [alone]
  have start : (startOf w.line w.last).restrict w.change = w.start := rfl
  rw [start]
  -- without collapsed code the line is always added, so only the host in the other outline matters
  cases hosted : o'.host? ⟨true, skip⟩ dialect w.line w.change w.start with
  | some c =>
    obtain ⟨recent, last, same, code, front, a, rfl, joins⟩ := remembers.joins_of_host hosted
    obtain ⟨pieces, g, before, behind, codes⟩ := segments_joined front joins
    obtain rfl : kind = .artifact := by
      rw [Dialect.item?_of_isCode code] at item
      cases item
      rfl
    have gives := (givesCode_eq item).2 rfl
    rw [if_pos gives] at line
    rw [push_of_allows law head known ⟨Kind.noConfusion, Bool.noConfusion⟩]
    refine ⟨remembers.joined recent gives same, Function.update name o.diff.size c, ?_⟩
    rw [before] at h
    rw [behind]
    exact h.join ready.neat ready' (fun _ => children_newNode) (fun _ => parent_newNode) head recent
      last same codes gives line
  | none =>
    have alike : o'.Allows w.change kind ↔ o.Allows w.change kind :=
      allows_congr h.opened fun t n hn => h.diff.kind n (known t n hn)
    by_cases allows : o.Allows w.change kind
    · have remains : dialect.closes w.line.text = false := by rw [Dialect.closes, item]
      rw [push_of_allows law head known allows,
        push_of_allows law (fun t => ⟨h.head head t, h.diff.name_lt (head t).2⟩) known' (alike.2 allows)]
      refine ⟨remembers_pushed (givesCode_eq item) rfl rfl,
        Function.update name o.diff.size o'.diff.size, ?_⟩
      rw [segments_alone remains (remembers.apart_of_host hosted)]
      exact h.push ready.neat ready'.neat (fun _ => children_newNode) (fun _ => parent_newNode) head
        line
    · obtain ⟨e, failed⟩ := push_of_not_allows law known allows
      obtain ⟨e', failed'⟩ := push_of_not_allows law known' (alike.not.2 allows)
      rw [failed, failed']
      trivial

/-- A complete line is put into both outlines or into none. -/
theorem Gathers.put (h : Gathers dialect ws o o') (ready : o.Ready) (ready' : o'.Ready) (w : FullLine)
    (skip : Bool) : (o.put ⟨false, skip⟩ dialect w.line w.change w.last).Agrees
      (Gathers dialect (ws ++ [w])) (o'.put ⟨true, skip⟩ dialect w.line w.change w.last) := by
  cases range : w.last.add? 1 with
  | none =>
    rw [Outline.put, Outline.put, range]
    trivial
  | some stop =>
    cases item : dialect.item? w.line.text with
    | none =>
      obtain ⟨cause, failed⟩ : ∃ cause, o.put ⟨false, skip⟩ dialect w.line w.change w.last =
        fail cause ((startOf w.line w.last).restrict w.change) := put_unreadable item range
      obtain ⟨cause', failed'⟩ : ∃ cause, o'.put ⟨true, skip⟩ dialect w.line w.change w.last =
        fail cause ((startOf w.line w.last).restrict w.change) := put_unreadable item range
      rw [failed, failed']
      trivial
    | some i =>
      cases i with
      | closing =>
        obtain ⟨-, name, h⟩ := h
        have closes : dialect.closes w.line.text = true := by rw [Dialect.closes, item]
        have plain : dialect.givesCode w.line.text = false := by rw [Dialect.givesCode, item]
        rw [put_closing item range, put_closing item range]
        refine (h.closeChains ready.neat _).mono fun o₁ o₁' closed => ?_
        obtain ⟨h₁, forgot⟩ := closed
        refine ⟨⟨fun c hc => ?_, fun _ a final => ?_⟩, name, by rwa [segments_closing closes]⟩
        · rw [forgot] at hc
          cases hc
        · rw [List.getLast?_concat] at final
          obtain rfl := Option.some.inj final
          exact plain
      | node kind formula => exact h.put_node ready ready' item range skip

end Outline

/-! ## Runs -/

namespace Run

/-- Two runs over the same lines, the second one with collapsed code. -/
structure Gathers (dialect : Dialect) (ws : List FullLine) (r r' : Run) : Prop where
  place : r'.place = r.place
  pending : r'.pending = r.pending
  shared : r'.shared = r.shared
  outline : Outline.Gathers dialect ws r.outline r'.outline

variable {dialect : Dialect} {ws : List FullLine} {r r' : Run} {skip : Bool} {t : Time}
  {line : PhysicalLine} {lines : List PhysicalLine}

theorem Gathers.flush (h : Gathers dialect ws r r') (bears : r.Bears Outline.Ready)
    (bears' : r'.Bears Outline.Ready) (t : Time) (skip : Bool) :
    (r.flush ⟨false, skip⟩ dialect t).Agrees
      (Gathers dialect (ws ++ if (r.pending.get t).isComplete then
        [⟨r.pending.get t, .onlyAt t, r.place⟩] else []))
      (r'.flush ⟨true, skip⟩ dialect t) := by
  rw [Run.flush, Run.flush]
  simp only [h.place, h.pending]
  split
  · refine (h.outline.put bears.outline bears'.outline ⟨r.pending.get t, .onlyAt t, r.place⟩
      skip).bind fun o o' _ _ outline => ?_
    exact ⟨rfl, rfl, h.shared, outline⟩
  · rw [List.append_nil]
    exact h

/-- Both runs put the lines that are complete. -/
theorem Gathers.flushAll (h : Gathers dialect ws r r') (bears : r.Bears Outline.Ready)
    (bears' : r'.Bears Outline.Ready) (skip : Bool) : (r.flushAll ⟨false, skip⟩ dialect).Agrees
      (Gathers dialect (ws ++ r.complete)) (r'.flushAll ⟨true, skip⟩ dialect) := by
  rw [Run.flushAll, Run.flushAll, complete, h.shared, h.pending, h.place]
  split
  · refine (h.outline.put bears.outline bears'.outline ⟨r.pending.before, .unchanged, r.place⟩
      skip).bind fun o o' _ _ outline => ?_
    exact ⟨rfl, rfl, rfl, outline⟩
  · refine (h.flush bears bears' .before skip).bind fun r₁ r₁' run run' h₁ => ?_
    have agree := h₁.flush (bears.flush kept_ready run) (bears'.flush kept_ready run') .after skip
    have rest : r₁.pending.get .after = r.pending.get .after := by
      obtain ⟨-, rfl⟩ | ⟨-, outline, -, rfl⟩ := flush_cases run
      · rfl
      · rfl
    rw [rest, place_flush run, List.append_assoc] at agree
    have both : (Time.all.filter fun t => (r.pending.get t).isComplete).map
        (fun t => (⟨r.pending.get t, .onlyAt t, r.place⟩ : FullLine)) =
        (if (r.pending.get .before).isComplete then
          [⟨r.pending.get .before, .onlyAt .before, r.place⟩] else []) ++
        if (r.pending.get .after).isComplete then
          [⟨r.pending.get .after, .onlyAt .after, r.place⟩] else [] := by
      rw [Time.all, List.filter_cons, List.filter_cons, List.filter_nil]
      cases (r.pending.get .before).isComplete <;> cases (r.pending.get .after).isComplete <;> rfl
    rw [both]
    exact agree

/-- A physical line is read by both runs or by none, and completes the same lines. -/
theorem Gathers.step (h : Gathers dialect ws r r') (bears : r.Bears Outline.Ready)
    (bears' : r'.Bears Outline.Ready) : (r.step ⟨false, skip⟩ dialect line).Agrees
      (Gathers dialect (ws ++ r.completes ⟨false, skip⟩ line))
      (r'.step ⟨true, skip⟩ dialect line) := by
  cases hc : line.change with
  | none =>
    obtain ⟨e, failed⟩ := step_refuses hc ⟨false, skip⟩ dialect r
    obtain ⟨e', failed'⟩ := step_refuses hc ⟨true, skip⟩ dialect r'
    rw [failed, failed']
    trivial
  | some change =>
    cases shifted : r.place.shift? 1 change with
    | none =>
      have shifted' : r'.place.shift? 1 change = none := h.place ▸ shifted
      simp only [Run.step, hc, shifted, shifted']
      trivial
    | some place =>
      have shifted' : r'.place.shift? 1 change = some place := h.place ▸ shifted
      have moved : Gathers dialect ws ({ r with place } : Run) { r' with place } :=
        ⟨rfl, h.pending, h.shared, h.outline⟩
      rw [step_eq hc shifted, step_eq hc shifted']
      simp only [completes, hc, shifted]
      split
      · rw [List.append_nil]
        exact moved
      · have taken : Gathers dialect ws (({ r with place } : Run).take change line.content)
            (({ r' with place } : Run).take change line.content) := by
          refine ⟨rfl, ?_, ?_, h.outline⟩
          · simp only [take, h.pending]
          · simp only [take, h.pending, h.shared]
        have ready : ({ r with place } : Run).Bears Outline.Ready := ⟨bears.outline, bears.pending⟩
        have ready' : ({ r' with place } : Run).Bears Outline.Ready := ⟨bears'.outline, bears'.pending⟩
        exact taken.flushAll (ready.take change line.content) (ready'.take change line.content) skip

/-- Lines are read by both runs or by none, and what they complete is gathered. -/
theorem Gathers.run (h : Gathers dialect ws r r') (bears : r.Bears Outline.Ready)
    (bears' : r'.Bears Outline.Ready) : (lines.foldlM (Run.step ⟨false, skip⟩ dialect) r).Agrees
      (fun r₁ r₁' => Gathers dialect (ws ++ r.fullLines ⟨false, skip⟩ dialect lines) r₁ r₁' ∧
        r₁.Bears Outline.Ready ∧ r₁'.Bears Outline.Ready)
      (lines.foldlM (Run.step ⟨true, skip⟩ dialect) r') := by
  induction lines generalizing r r' ws with
  | nil =>
    rw [fullLines, List.append_nil]
    exact ⟨h, bears, bears'⟩
  | cons line lines ih =>
    rw [List.foldlM_cons, List.foldlM_cons]
    refine (h.step bears bears').bind fun r₁ r₁' run run' h₁ => ?_
    rw [fullLines, run, ← List.append_assoc]
    exact ih h₁ (bears.step kept_ready run) (bears'.step kept_ready run')

/-- At the end both runs are accepted or none is, and the second diff regroups the first one. -/
theorem Gathers.finish (h : Gathers dialect ws r r') (bears : r.Bears Outline.Ready)
    (bears' : r'.Bears Outline.Ready) : r.finish.Agrees
      (fun d e => ∃ name, Regroups dialect (segments dialect ws) d e name) r'.finish := by
  rw [Run.finish, Run.finish, h.pending]
  split
  · trivial
  · obtain ⟨name, collapses⟩ := h.outline.collapses
    refine finish_agrees bears.outline.neat bears'.outline.neat (fun t => ?_) ⟨name, collapses.diff⟩
    rw [collapses.opened, List.length_map]

end Run

/-- Lines are accepted with collapsed code exactly if they are accepted without, and the diff with
collapsed code regroups the other one. -/
theorem ofLines_collapse (dialect : Dialect) (skip : Bool) (source : Source)
    (lines : List PhysicalLine) : (ofLines ⟨false, skip⟩ dialect source lines).Agrees
      (fun d e => ∃ name, Regroups dialect
        (segments dialect ((Run.start source).fullLines ⟨false, skip⟩ dialect lines)) d e name)
      (ofLines ⟨true, skip⟩ dialect source lines) := by
  have start : Run.Gathers dialect [] (Run.start source) (Run.start source) :=
    ⟨rfl, rfl, rfl, gathers_start source⟩
  have bears : (Run.start source).Bears Outline.Ready :=
    Run.bears_start ⟨neat_start source, fun _ => _, Run.shows_start source⟩
  exact (start.run bears bears).bind fun r r' _ _ ⟨h, bears₁, bears₁'⟩ => h.finish bears₁ bears₁'

/-- A text is read with collapsed code exactly if it is read without. The diff with collapsed code has the
same annotations, and its code is the code of the other one in the longest pieces of lines that are
completed one after the other, have the same change, and start where the one before ends. -/
theorem diff_collapse (dialect : Dialect) (skip : Bool) (source : Source) (text : String) :
    ((∃ e, diff text ⟨true, skip⟩ source dialect = .ok e) ↔
      ∃ d, diff text ⟨false, skip⟩ source dialect = .ok d) ∧
    ∀ d e, diff text ⟨false, skip⟩ source dialect = .ok d →
      diff text ⟨true, skip⟩ source dialect = .ok e →
      ∃ name, Regroups dialect (segments dialect
          ((Run.start source).fullLines ⟨false, skip⟩ dialect (PhysicalLine.ofDiff text))) d e name ∧
        ∀ k < e.size, ∃ n < d.size, name n = k := by
  have agree := ofLines_collapse dialect skip source (PhysicalLine.ofDiff text)
  refine ⟨agree.isOk_iff.symm, fun d e read read' => ?_⟩
  obtain ⟨name, regroups⟩ := agree.related read read'
  exact ⟨name, regroups, fun k hk => regroups.exists_name (fun _ => ne_nil_of_mem_segments) hk⟩

/-- A text with code of two changes, and with code below an annotation. -/
def adjacentText : String := " a\n b\n+c\n+d\n #if A\n e\n #endif\n"

theorem diff_collapse_adjacentText : ∃ d e name,
    diff adjacentText ⟨false, false⟩ .unknown .preprocessor = .ok d ∧ d.size = 7 ∧
    diff adjacentText ⟨true, false⟩ .unknown .preprocessor = .ok e ∧ e.size = 5 ∧
    Regroups .preprocessor (segments .preprocessor ((Run.start .unknown).fullLines ⟨false, false⟩
      .preprocessor (PhysicalLine.ofDiff adjacentText))) d e name := by
  have size : (diff adjacentText ⟨false, false⟩ .unknown .preprocessor).toOption.map Diff.size =
      some 7 := by
    decide +kernel
  have size' : (diff adjacentText ⟨true, false⟩ .unknown .preprocessor).toOption.map Diff.size =
      some 5 := by
    decide +kernel
  obtain ⟨d, read, seven⟩ := Option.map_eq_some_iff.1 size
  obtain ⟨e, read', five⟩ := Option.map_eq_some_iff.1 size'
  have accepted := Outcome.eq_ok_of_toOption read
  have accepted' := Outcome.eq_ok_of_toOption read'
  obtain ⟨name, regroups, -⟩ :=
    (diff_collapse .preprocessor false .unknown adjacentText).2 d e accepted accepted'
  exact ⟨d, e, name, accepted, seven, accepted', five, regroups⟩

end Variation.Reading
