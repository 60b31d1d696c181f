import Variation.Proofs.Corresponding
import Variation.Proofs.Segmented

/-!
# Diffs with regrouped code

In a diff whose code is collapsed there is a node for each piece of lines that go on with each other,
where there is otherwise a node for each line. `Regroups` says that two diffs differ in nothing but that,
with the function that names the node of the piece to which a line belongs: annotations stay what they
are, and what hangs below a node are the pieces of the lines that hang below it. Two things keep diffs
regrouped. A line that becomes a node of one diff becomes a node of the other one, or is put to the code
that was read last there, where that hangs where the node hangs; both are told by `Takes`. And the same
annotations end in both.
-/

namespace Variation

open Diff Reading

/-- A diff regroups the code of another one in which every line is a node of its own: its nodes are the
given pieces, and `name` gives the node of the piece of a line. -/
structure Diff.Regroups (dialect : Dialect) (gs : List (List FullLine)) (d e : Diff)
    (name : Handle → Handle) : Prop where
  /-- Behind the root stand the lines in order, each with the name of its piece. -/
  names : (List.range d.size).map name = root :: owners gs
  size : e.size = gs.length + 1
  /-- A line of code is a node that holds this line alone, and any other line is no code. -/
  line : ∀ i w, gs.flatten[i]? = some w →
    if dialect.givesCode w.line.text then codeOf? [w] = some (d.payload (i + 1))
    else (d.look (i + 1)).kind ≠ .artifact
  /-- A piece of code is a node that holds its lines. -/
  piece : ∀ i g, gs[i]? = some g → (∀ w ∈ g, dialect.givesCode w.line.text = true) →
    codeOf? g = some (e.payload (i + 1))
  kind : ∀ n < d.size, (e.look (name n)).kind = (d.look n).kind
  /-- Only code has a name in common. -/
  apart : ∀ n m, n < m → m < d.size → name n = name m → (d.look n).kind = .artifact
  kept : ∀ n < d.size, (d.look n).kind ≠ .artifact → e.payload (name n) = d.payload n
  above : ∀ t, ∀ n < d.size, e.above t (name n) = (d.above t n).map name
  below : ∀ t, ∀ n < d.size, e.below t (name n) = ((d.below t n).map name).eraseDups

/-- A list without repetition gets a further element if it is not in it. -/
theorem eraseDups_concat {α : Type} [BEq α] [LawfulBEq α] (l : List α) (a : α) :
    (l ++ [a]).eraseDups = if a ∈ l then l.eraseDups else l.eraseDups ++ [a] := by
  rw [List.eraseDups_append]
  split
  · next mem => simp [List.removeAll, mem]
  · next new => simp [List.removeAll, new, List.eraseDups_cons]

/-- What a piece of code becomes is code. -/
theorem Reading.kind_of_codeOf? {g : List FullLine} {x : Node} (h : codeOf? g = some x) :
    x.kind = .artifact := by
  obtain ⟨first, -, h⟩ := Option.bind_eq_some_iff.1 h
  obtain ⟨last, -, h⟩ := Option.bind_eq_some_iff.1 h
  obtain rfl := Option.some.inj h
  rfl

/-- In the second diff the node `k`, which may be new, hangs where `x` hangs; all else is as it was. -/
structure Diff.Takes (d d' : Diff) (k : Handle) (x : Node) (tops : Time → Handle) : Prop where
  payload : ∀ n, n ≠ k → d'.payload n = d.payload n
  kind : ∀ n < d.size, (d'.look n).kind = (d.look n).kind
  own : (d'.look k).kind = x.kind
  above : ∀ t, ∀ n < d.size, d'.above t n = d.above t n
  hangs : ∀ t, d'.above t k = if x.change.existsAt t then some (tops t) else none
  below : ∀ t n, d'.below t n =
    if x.change.existsAt t = true ∧ n = tops t ∧ k ∉ d.below t n then d.below t n ++ [k]
    else d.below t n
  leaf : ∀ t, d.below t k = []
  outer : ∀ t, k ≠ tops t

namespace Diff.Regroups

variable {dialect : Dialect} {gs gs' : List (List FullLine)} {d e e' : Diff} {name : Handle → Handle}
  {n m k : Handle} {t : Time}

theorem count (h : Regroups dialect gs d e name) : d.size = gs.flatten.length + 1 := by
  have lengths := congrArg List.length h.names
  rwa [List.length_map, List.length_range, List.length_cons, length_owners] at lengths

theorem name_lt (h : Regroups dialect gs d e name) (hn : n < d.size) : name n < e.size := by
  have mem : name n ∈ root :: owners gs := h.names ▸ List.mem_map_of_mem (List.mem_range.2 hn)
  rw [h.size]
  obtain same | later := List.mem_cons.1 mem
  · rw [same]
    exact Nat.succ_pos _
  · exact Nat.lt_succ_of_le (le_of_mem_owners later)

theorem name_root (h : Regroups dialect gs d e name) : name root = root := by
  have names := h.names
  rw [h.count, List.range_succ_eq_map, List.map_cons] at names
  exact (List.cons.inj names).1

/-- Every node is named, if no piece is empty. -/
theorem exists_name (h : Regroups dialect gs d e name) (full : ∀ g ∈ gs, g ≠ []) (hk : k < e.size) :
    ∃ n < d.size, name n = k := by
  rw [h.size] at hk
  have mem : k ∈ root :: owners gs := by
    cases k with
    | zero => exact List.mem_cons_self
    | succ i => exact List.mem_cons_of_mem _ (succ_mem_owners full (Nat.lt_of_succ_lt_succ hk))
  rw [← h.names] at mem
  obtain ⟨n, hn, named⟩ := List.mem_map.1 mem
  exact ⟨n, List.mem_range.1 hn, named⟩

/-- An annotation has its name alone. -/
theorem name_inj (h : Regroups dialect gs d e name) (hn : n < d.size) (hm : m < d.size)
    (other : (d.look m).kind ≠ .artifact) (same : name n = name m) : n = m := by
  have kinds : (d.look n).kind = (d.look m).kind := by rw [← h.kind n hn, ← h.kind m hm, same]
  obtain less | rfl | more := Nat.lt_trichotomy n m
  · exact absurd (kinds ▸ h.apart n m less hm same) other
  · rfl
  · exact absurd (h.apart m n more hn same.symm) other

end Diff.Regroups

/-! ## A further line -/

namespace Reading.Outline

variable {o : Outline} {x : Node} {tops : Time → Handle} {c : Handle} {t : Time}
  {lines : List String} {stop : Position}

/-- What is open is no code. -/
theorem Neat.kind_ne_artifact (neat : o.Neat) {n : Handle} (hn : n ∈ o.opened.get t) :
    (o.diff.look n).kind ≠ .artifact := by
  intro code
  by_cases bottom : n = root
  · rw [bottom, look_root_kind neat.orderly.toRegular] at code
    cases code
  · have conditional := neat.branch t n hn bottom (by rw [code]; exact Kind.noConfusion)
    rw [code] at conditional
    cases conditional

/-- A node that is added hangs below the innermost open places. -/
theorem takes_pushed (order : o.diff.Orderly) (hc : ∀ t, x.children.get t = [])
    (hp : ∀ t, x.parent.get t = none) (inStore : ∀ t, tops t < o.diff.size) :
    Takes o.diff (o.pushed tops x).diff o.diff.size x tops where
  payload n hn := by rw [payload_pushed, if_neg hn]
  kind n hn := by rw [kind_pushed, if_neg (Nat.ne_of_lt hn)]
  own := by rw [kind_pushed, if_pos rfl]
  above t n hn := by rw [above_pushed hp, if_neg fun h => Nat.ne_of_lt hn h.2]
  hangs t := by
    rw [above_pushed hp, above_eq_none (Nat.lt_irrefl _)]
    simp only [and_true]
  below t n := by
    have new : o.diff.size ∉ o.diff.below t n := fun h =>
      Nat.lt_irrefl _ (lt_size_of_above (order.above_of_mem h))
    rw [below_pushed hc inStore]
    simp only [new, not_false_eq_true, and_true]
  leaf t := below_eq_nil (Nat.lt_irrefl _)
  outer t := Nat.ne_of_gt (inStore t)

/-- The code that was read last is a leaf below the innermost open places of its times. -/
theorem Ready.hangs_last (ready : o.Ready) (recent : o.lastCode = some c)
    (head : (o.opened.get t).head? = some (tops t)) :
    (o.diff.above t c = if (o.diff.look c).change.existsAt t then some (tops t) else none) ∧
      o.diff.below t c = [] := by
  obtain ⟨m, shown⟩ := ready.shown
  obtain ⟨n, opened, holds, -, recalls⟩ := shown t
  obtain ⟨size, -, place⟩ := recalls c recent
  have order := ready.neat.orderly
  split
  · next there =>
    rw [if_pos there] at place
    obtain ⟨k, rfl⟩ := place
    rw [opened, Nest.opened_hang, Nest.head?_opened] at head
    obtain ⟨hung, leaf⟩ : c ∈ o.diff.below t k.top ∧ o.diff.below t c = [] := by
      cases k with
      | base a done =>
        obtain ⟨-, below, spans⟩ := holds.linked
        refine ⟨?_, (spans_append.1 spans).2.2.1⟩
        rw [Nest.top, below, Forest.roots_append]
        simp [Forest.roots_tree]
      | under a done rest =>
        obtain ⟨-, below, spans, -⟩ := holds.linked
        refine ⟨?_, (spans_append.1 spans).2.2.1⟩
        rw [Nest.top, below, Forest.roots_append]
        simp [Forest.roots_tree]
    exact ⟨by rw [order.above_of_mem hung, Option.some.inj head], leaf⟩
  · next absent =>
    have gone : ¬ o.diff.lives t c = true := by rwa [lives_look size]
    refine ⟨Option.eq_none_iff_forall_ne_some.2 fun p hp => gone (order.lives t c p hp),
      List.eq_nil_iff_forall_not_mem.2 fun p hp => gone ?_⟩
    exact (order.older t p c (order.above_of_mem hp)).2

/-- Lines that join the code that was read last hang where it hangs. -/
theorem takes_joined (ready : o.Ready) (recent : o.lastCode = some c)
    (head : ∀ t, (o.opened.get t).head? = some (tops t)) (same : (o.diff.look c).change = x.change)
    (code : x.kind = .artifact) : Takes o.diff (o.joined c lines stop).diff c x tops := by
  obtain ⟨m, shown⟩ := ready.shown
  have size := Shows.lastCode_lt shown c recent
  have alike : Alike o.diff (o.joined c lines stop).diff := alike_joined size
  have place (t : Time) := ready.hangs_last recent (head t)
  refine ⟨fun n hn => ?_, fun n _ => alike.kind, ?_, fun t n _ => alike.above, fun t => ?_,
    fun t n => ?_, fun t => (place t).2, fun t => ?_⟩
  · rw [joined, payload_update size, if_neg hn.symm]
  · obtain ⟨n, -, -, -, recalls⟩ := shown .before
    rw [alike.kind, code]
    exact (recalls c recent).2.1
  · rw [alike.above, (place t).1, same]
  · rw [alike.below, if_neg]
    rintro ⟨there, rfl, new⟩
    have hung := (place t).1
    rw [same, if_pos there] at hung
    exact new (ready.neat.orderly.mem_of_above hung)
  · rintro rfl
    obtain ⟨n, -, -, -, recalls⟩ := shown t
    exact ready.neat.kind_ne_artifact (List.mem_of_mem_head? (head t)) (recalls _ recent).2.1

end Reading.Outline

namespace Diff.Regroups

open Outline

variable {dialect : Dialect} {gs gs' front : List (List FullLine)} {g : List FullLine}
  {a w : FullLine} {d d' e e' : Diff} {name : Handle → Handle} {n k : Handle} {o o' : Outline}
  {x : Node} {tops : Time → Handle}

/-- What was named before a node is added keeps its name. -/
theorem update_name (hn : n < d.size) : Function.update name d.size k n = name n :=
  Function.update_of_ne (Nat.ne_of_lt hn) _ _

theorem map_update_name {ns : List Handle} (old : ∀ n ∈ ns, n < d.size) :
    ns.map (Function.update name d.size k) = ns.map name :=
  List.map_congr_left fun n hn => update_name (old n hn)

/-- A node that shares its name with the one that is added is code like it. -/
theorem take_shared (h : Regroups dialect gs d e name)
    (takes : Takes e e' k x fun t => name (tops t)) (fresh : x.kind ≠ .artifact → k = e.size)
    (hn : n < d.size) (same : name n = k) : (d.look n).kind = .artifact := by
  have inStore : k < e.size := same ▸ h.name_lt hn
  have code : x.kind = .artifact := by
    by_contra other
    exact Nat.ne_of_lt inStore (fresh other)
  rw [← h.kind n hn, same, ← takes.kind k inStore, takes.own, code]

theorem take_names (h : Regroups dialect gs d e name) (pieces : owners gs' = owners gs ++ [k]) :
    (List.range (d.size + 1)).map (Function.update name d.size k) = root :: owners gs' := by
  rw [List.range_succ, List.map_append, map_update_name fun n hn => List.mem_range.1 hn, h.names,
    List.map_singleton, Function.update_self, pieces, List.cons_append]

theorem take_line (h : Regroups dialect gs d e name) (taken : Takes d d' d.size x tops)
    (payload : d'.payload d.size = x.detached)
    (line : if dialect.givesCode w.line.text then codeOf? [w] = some x.detached
      else x.kind ≠ .artifact) (i : Nat) (v : FullLine)
    (hv : (gs.flatten ++ [w])[i]? = some v) :
    if dialect.givesCode v.line.text then codeOf? [v] = some (d'.payload (i + 1))
    else (d'.look (i + 1)).kind ≠ .artifact := by
  obtain ⟨inList, -⟩ := List.getElem?_eq_some_iff.1 hv
  rw [List.length_append, List.length_singleton] at inList
  obtain here | rfl := Nat.lt_succ_iff_lt_or_eq.1 inList
  · rw [List.getElem?_append_left here] at hv
    have inStore : i + 1 < d.size := h.count ▸ Nat.succ_lt_succ here
    rw [taken.payload _ (Nat.ne_of_lt inStore), taken.kind _ inStore]
    exact h.line i v hv
  · rw [List.getElem?_concat_length] at hv
    obtain rfl := Option.some.inj hv
    rw [← h.count, taken.own, payload]
    exact line

theorem take_above (h : Regroups dialect gs d e name) (order : d.Orderly)
    (taken : Takes d d' d.size x tops) (takes : Takes e e' k x fun t => name (tops t)) (t : Time)
    (inStore : tops t < d.size) : ∀ n < d.size + 1,
      e'.above t (Function.update name d.size k n) =
        (d'.above t n).map (Function.update name d.size k) := by
  rw [Nat.forall_lt_succ_right]
  refine ⟨fun n hn => ?_, ?_⟩
  · rw [update_name hn, takes.above t _ (h.name_lt hn), taken.above t n hn, h.above t n hn]
    exact Option.map_congr fun p hp => (update_name (order.parent_lt hp)).symm
  · rw [Function.update_self, takes.hangs, taken.hangs]
    split
    · rw [Option.map_some, update_name inStore]
    · rfl

/-- The names below a node: the one of the node that is added stands there once, at the end if the node
hangs there and its name did not. -/
theorem take_below (h : Regroups dialect gs d e name) (order : d.Orderly)
    (taken : Takes d d' d.size x tops) (takes : Takes e e' k x fun t => name (tops t)) (t : Time)
    (inStore : tops t < d.size) (other : (d.look (tops t)).kind ≠ .artifact) : ∀ n < d.size + 1,
      e'.below t (Function.update name d.size k n) =
        ((d'.below t n).map (Function.update name d.size k)).eraseDups := by
  rw [Nat.forall_lt_succ_right]
  refine ⟨fun n hn => ?_, ?_⟩
  · have hung (c : Handle) (hc : c ∈ d.below t n) : c < d.size :=
      lt_size_of_above (order.above_of_mem hc)
    have tied : name n = name (tops t) ↔ n = tops t :=
      ⟨h.name_inj hn inStore other, congrArg name⟩
    have new : d.size ∉ d.below t n := fun hc => Nat.lt_irrefl _ (hung _ hc)
    rw [update_name hn, takes.below, taken.below, h.below t n hn]
    simp only [tied, new, not_false_eq_true, and_true, List.mem_eraseDups]
    by_cases here : x.change.existsAt t = true ∧ n = tops t
    · rw [if_pos here, List.map_append, map_update_name hung, List.map_singleton,
        Function.update_self, eraseDups_concat]
      by_cases mem : k ∈ (d.below t n).map name
      · rw [if_pos mem, if_neg fun all => all.2.2 mem]
      · rw [if_neg mem, if_pos ⟨here.1, here.2, mem⟩]
    · rw [if_neg here, if_neg fun all => here ⟨all.1, all.2.1⟩, map_update_name hung]
  · have outer := takes.outer t
    rw [Function.update_self, takes.below, if_neg fun all => outer all.2.1, takes.leaf, taken.below,
      if_neg fun all => taken.outer t all.2.1, taken.leaf]
    rfl

/-- A node that is added stays in a piece if the other diff takes it there. -/
theorem take (h : Regroups dialect gs o.diff e name) (neat : o.Neat)
    (hc : ∀ t, x.children.get t = []) (hp : ∀ t, x.parent.get t = none)
    (head : ∀ t, (o.opened.get t).head? = some (tops t) ∧ tops t < o.diff.size)
    (takes : Takes e e' k x fun t => name (tops t))
    (fresh : x.kind ≠ .artifact → k = e.size ∧ e'.payload k = x.detached)
    (pieces : owners gs' = owners gs ++ [k]) (lines : gs'.flatten = gs.flatten ++ [w])
    (line : if dialect.givesCode w.line.text then codeOf? [w] = some x.detached
      else x.kind ≠ .artifact)
    (size : e'.size = gs'.length + 1)
    (piece : ∀ i g, gs'[i]? = some g → (∀ w ∈ g, dialect.givesCode w.line.text = true) →
      codeOf? g = some (e'.payload (i + 1))) :
    Regroups dialect gs' (o.pushed tops x).diff e' (Function.update name o.diff.size k) := by
  have order := neat.orderly
  have taken := takes_pushed order hc hp fun t => (head t).2
  have payload : (o.pushed tops x).diff.payload o.diff.size = x.detached := by
    rw [payload_pushed, if_pos rfl]
  have shared {n : Handle} := h.take_shared (n := n) takes fun other => (fresh other).1
  exact {
    names := by
      rw [size_pushed]
      exact h.take_names pieces
    size := size
    line := by
      rw [lines]
      exact h.take_line taken payload line
    piece := piece
    kind := by
      rw [size_pushed, Nat.forall_lt_succ_right]
      refine ⟨fun n hn => ?_, by rw [Function.update_self, takes.own, taken.own]⟩
      rw [update_name hn, takes.kind _ (h.name_lt hn), taken.kind n hn, h.kind n hn]
    apart := fun n m less hm => by
      rw [size_pushed] at hm
      have inStore : n < o.diff.size := Nat.lt_of_lt_of_le less (Nat.le_of_lt_succ hm)
      rw [update_name inStore, taken.kind n inStore]
      obtain hm | rfl := Nat.lt_succ_iff_lt_or_eq.1 hm
      · rw [update_name hm]
        exact h.apart n m less hm
      · rw [Function.update_self]
        exact shared inStore
    kept := by
      rw [size_pushed, Nat.forall_lt_succ_right]
      refine ⟨fun n hn other => ?_, fun other => ?_⟩
      · rw [taken.kind n hn] at other
        rw [update_name hn, takes.payload _ fun same => other (shared hn same),
          taken.payload n (Nat.ne_of_lt hn), h.kept n hn other]
      · rw [taken.own] at other
        rw [Function.update_self, (fresh other).2, payload]
    above := fun t => by
      rw [size_pushed]
      exact h.take_above order taken takes t (head t).2
    below := fun t => by
      rw [size_pushed]
      exact h.take_below order taken takes t (head t).2
        (neat.kind_ne_artifact (List.mem_of_mem_head? (head t).1)) }

/-- A line that is added to both diffs begins a piece. -/
theorem push (h : Regroups dialect gs o.diff o'.diff name) (neat : o.Neat) (neat' : o'.Neat)
    (hc : ∀ t, x.children.get t = []) (hp : ∀ t, x.parent.get t = none)
    (head : ∀ t, (o.opened.get t).head? = some (tops t) ∧ tops t < o.diff.size)
    (line : if dialect.givesCode w.line.text then codeOf? [w] = some x.detached
      else x.kind ≠ .artifact) :
    Regroups dialect (gs ++ [[w]]) (o.pushed tops x).diff
      (o'.pushed (fun t => name (tops t)) x).diff
      (Function.update name o.diff.size o'.diff.size) := by
  have own : (o'.pushed (fun t => name (tops t)) x).diff.payload o'.diff.size = x.detached := by
    rw [payload_pushed, if_pos rfl]
  refine h.take neat hc hp head (takes_pushed neat'.orderly hc hp fun t => h.name_lt (head t).2)
    (fun _ => ⟨rfl, own⟩) ?_ ?_ line ?_ fun i v hv code => ?_
  · rw [owners_concat, h.size]
    rfl
  · rw [List.flatten_append, List.flatten_singleton]
  · rw [size_pushed, h.size, List.length_append, List.length_singleton]
  · obtain ⟨inList, -⟩ := List.getElem?_eq_some_iff.1 hv
    rw [List.length_append, List.length_singleton] at inList
    obtain here | rfl := Nat.lt_succ_iff_lt_or_eq.1 inList
    · rw [List.getElem?_append_left here] at hv
      have old : i + 1 ≠ o'.diff.size := h.size ▸ Nat.ne_of_lt (Nat.succ_lt_succ here)
      rw [payload_pushed, if_neg old]
      exact h.piece i v hv code
    · rw [List.getElem?_concat_length] at hv
      obtain rfl := Option.some.inj hv
      rw [if_pos (code w List.mem_cons_self)] at line
      rw [← h.size, own, line]

/-- A line of code that is added to one diff and put to the code that was read last in the other one makes
the last piece longer. -/
theorem join {c : Handle} (h : Regroups dialect (front ++ [g ++ [a]]) o.diff o'.diff name)
    (neat : o.Neat) (ready : o'.Ready) (hc : ∀ t, x.children.get t = [])
    (hp : ∀ t, x.parent.get t = none)
    (head : ∀ t, (o.opened.get t).head? = some (tops t) ∧ tops t < o.diff.size)
    (head' : ∀ t, (o'.opened.get t).head? = some (name (tops t)))
    (recent : o'.lastCode = some c) (last : c + 1 = o'.diff.size)
    (same : (o'.diff.look c).change = x.change)
    (codes : ∀ b ∈ g ++ [a], dialect.givesCode b.line.text = true)
    (gives : dialect.givesCode w.line.text = true) (line : codeOf? [w] = some x.detached) :
    Regroups dialect (front ++ [g ++ [a] ++ [w]]) (o.pushed tops x).diff
      (o'.joined c w.line.lines w.stop).diff (Function.update name o.diff.size c) := by
  have code : x.detached.kind = .artifact := kind_of_codeOf? line
  have inStore : c < o'.diff.size := last ▸ Nat.lt_succ_self c
  obtain rfl : c = front.length + 1 := by
    rw [h.size, List.length_append, List.length_singleton] at last
    exact Nat.succ.inj last
  refine h.take neat hc hp head (takes_joined ready recent head' same code)
    (fun other => absurd code other) ?_ ?_ (by rw [if_pos gives]; exact line) ?_ fun i v hv all => ?_
  · have longer : (g ++ [a] ++ [w]).length = (g ++ [a]).length + 1 := by
      rw [List.length_append, List.length_singleton]
    rw [owners_concat, owners_concat, longer, List.replicate_succ', List.append_assoc]
  · simp only [List.flatten_append, List.flatten_singleton, List.append_assoc]
  · rw [Outline.joined, size_update, h.size]
    simp only [List.length_append, List.length_singleton]
  · obtain ⟨inList, -⟩ := List.getElem?_eq_some_iff.1 hv
    rw [List.length_append, List.length_singleton] at inList
    rw [Outline.joined, payload_update inStore]
    obtain here | rfl := Nat.lt_succ_iff_lt_or_eq.1 inList
    · rw [List.getElem?_append_left here] at hv
      rw [if_neg fun e => Nat.ne_of_lt here (Nat.succ.inj e).symm]
      exact h.piece i v (by rw [List.getElem?_append_left here, hv]) all
    · rw [List.getElem?_concat_length] at hv
      obtain rfl := Option.some.inj hv
      rw [if_pos rfl, codeOf?_concat (h.piece _ _ List.getElem?_concat_length codes)]
      rfl

/-! ## A closing line -/

section Closing

variable {n : Handle} {t : Time} {closing : ClosingLine} {next : Position} {ns : List Handle}

/-- An annotation and its counterpart end at the same place. -/
theorem endAt (h : Regroups dialect gs d e name) (hn : n < d.size) (other : (d.look n).kind ≠ .artifact)
    (t : Time) (closing : ClosingLine) (next : Position) (opens : Bool) :
    Regroups dialect gs (d.update n (endAt t closing next opens))
      (e.update (name n) (endAt t closing next opens)) name := by
  have hn' := h.name_lt hn
  have alike : Alike d (d.update n (Outline.endAt t closing next opens)) :=
    (retouched_endAt hn).toAlike
  have alike' : Alike e (e.update (name n) (Outline.endAt t closing next opens)) :=
    (retouched_endAt hn').toAlike
  refine ⟨?_, ?_, fun i w hw => ?_, fun i g hg codes => ?_, ?_, ?_, ?_, ?_, ?_⟩
  · rw [alike.size, h.names]
  · rw [alike'.size, h.size]
  · have line := h.line i w hw
    rw [alike.kind]
    split at line
    · next gives =>
      have apart : n ≠ i + 1 := by
        rintro rfl
        have code : (d.payload (i + 1)).kind = .artifact := kind_of_codeOf? line
        exact other code
      rw [if_pos gives, payload_update hn, if_neg apart]
      exact line
    · next plain =>
      rw [if_neg plain]
      exact line
  · have piece := h.piece i g hg codes
    have apart : name n ≠ i + 1 := by
      intro same
      rw [← same] at piece
      have code : (e.payload (name n)).kind = .artifact := kind_of_codeOf? piece
      exact other ((h.kind n hn).symm.trans code)
    rw [payload_update hn', if_neg apart]
    exact piece
  · simp only [alike.size, alike.kind, alike'.kind]
    exact h.kind
  · simp only [alike.size, alike.kind]
    exact h.apart
  · simp only [alike.size, alike.kind]
    intro m hm annotates
    rw [payload_update hn, payload_update hn']
    by_cases here : n = m
    · subst here
      rw [if_pos rfl, if_pos rfl]
      exact congrArg (Outline.endAt t closing next opens) (h.kept n hn annotates)
    · rw [if_neg here, if_neg fun same => here (h.name_inj hn hm annotates same)]
      exact h.kept m hm annotates
  · simp only [alike.size, alike.above, alike'.above]
    exact h.above
  · simp only [alike.size, alike.below, alike'.below]
    exact h.below

/-- A chain is closed in both diffs or in none. -/
theorem closeChain (h : Regroups dialect gs d e name)
    (known : ∀ n ∈ ns, n < d.size ∧ (d.look n).kind ≠ .artifact) :
    (closeChain t closing next d ns).Agrees
      (fun p q => Regroups dialect gs p.1 q.1 name ∧ q.2 = p.2.map name)
      (closeChain t closing next e (ns.map name)) := by
  induction ns generalizing d e next with
  | nil => exact trivial
  | cons n ns ih =>
    obtain ⟨⟨hn, other⟩, known⟩ := List.forall_mem_cons.1 known
    rw [List.map_cons]
    by_cases bottom : n = root
    · rw [Outline.closeChain, if_pos bottom, Outline.closeChain, if_pos (bottom ▸ h.name_root)]
      exact trivial
    · have inner : name n ≠ root := fun same =>
        bottom (h.name_inj (Nat.zero_lt_of_lt hn) hn other (h.name_root.trans same.symm)).symm
      have start : (e.look (name n)).start = (d.look n).start := by
        have same := congrArg Node.start (h.kept n hn other)
        exact same
      have ended := h.endAt hn other t closing next
        ((d.look n).kind == .ifBranch)
      rw [closeChain_cons bottom hn, closeChain_cons inner (h.name_lt hn), h.kind n hn, start]
      split
      · exact ⟨ended, rfl⟩
      · have alike : Alike d (d.update n
            (Outline.endAt t closing next ((d.look n).kind == .ifBranch))) :=
          (retouched_endAt hn).toAlike
        refine ih ended fun m hm => ?_
        rw [alike.size, alike.kind]
        exact known m hm

end Closing

end Diff.Regroups

end Variation
