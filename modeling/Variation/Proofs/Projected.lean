import Variation.Proofs.Placed
import Variation.Proofs.Texts
import Variation.Proofs.Trees

/-!
# What a projected diff prints

A projection copies the tree of a diff at a time. A copy keeps no place but that at the time, so its
line diff puts the lines of the tree in the order of these places, whereas the source goes along the
tree. The main statement says that the line diff of a projection is the source with a space in front of
every line, if the places at the time increase along the tree.
-/

namespace Variation

open Printing

/-! ## Lines of one time -/

namespace Facet

/-- The lines with which a facet begins. -/
def opening (a : Facet) : List Entry :=
  if a.kind = .root then [] else labelEntries a.start .unchanged a.label

/-- The lines with which a facet ends. -/
def ending (a : Facet) : List Entry :=
  if a.kind = .ifBranch then
    a.closing.toList.flatMap fun c => labelEntries c.1 .unchanged c.2
  else []

end Facet

namespace Printing

open Diff

variable {d e p : Diff} {t u : Time} {f g : Forest Handle} {s : Sides (Forest Handle)}
  {n : Handle} {c : ClosingLine} {z : Forest (Handle × Handle)}

/-- The line in a diff in which nothing changed. -/
def Entry.bare (e : Entry) : Entry := { e with change := .unchanged }

theorem map_bare_labelEntries (line : Int) (change : Change) (l : Label) :
    (labelEntries line change l).map Entry.bare = labelEntries line .unchanged l := by
  rw [labelEntries, List.map_map]
  rfl

theorem firstPlaced_collapse (x : Node) (t : Time) :
    firstPlaced Position.diff (x.collapse t) = (x.facet t).opening := rfl

theorem lastPlaced_collapse (x : Node) (t u : Time) :
    lastPlaced Position.diff u (x.collapse t) = (x.facet t).ending := by
  rw [lastPlaced, Node.closingAt, Facet.ending, x.closing_collapse]
  show (if x.kind = .ifBranch then _ else _ : Option _).toList.flatMap _ =
    if x.kind = .ifBranch then ((x.closing.get t).map _).toList.flatMap _ else _
  split
  · cases x.closing.get t <;> rfl
  · rfl

/-- But for the changes, the lines of a tree with their places at its time are told by its facets. -/
theorem map_bare_placed : (placed (·.get t) d t f).map Entry.bare =
    (f.map (d.facet t)).spell Facet.opening Facet.ending := by
  rw [placed, Forest.map_spell, Forest.spell_map]
  refine Forest.spell_congr fun n _ => ⟨?_, ?_⟩
  · rw [firstPlaced, Facet.opening]
    show _ = if (d.look n).kind = .root then _ else _
    split
    · rfl
    · exact map_bare_labelEntries ..
  · rw [lastPlaced, Node.closingAt, Facet.ending]
    show _ = if (d.look n).kind = .ifBranch then
      (((d.look n).closing.get t).map _).toList.flatMap _ else _
    split
    · cases (d.look n).closing.get t with
      | none => rfl
      | some c => simp [closingPlaced, map_bare_labelEntries]
    · rfl

theorem pairwise_bare {es : List Entry} :
    (es.map Entry.bare).Pairwise Entry.Precedes ↔ es.Pairwise Entry.Precedes :=
  List.pairwise_map

/-- The places at a time increase along the tree at that time. -/
def Increases (d : Diff) (t : Time) : Prop :=
  ∃ f, d.Shape t f ∧ (placed (·.get t) d t f).Pairwise Entry.Precedes

/-- Whether places increase is seen from the facets of a tree. -/
theorem Increases.of_facets (h : Increases d t) (shape : d.Shape t f) (shape' : e.Shape u g)
    (same : g.map (e.facet u) = f.map (d.facet t)) : Increases e u := by
  obtain ⟨f', shape'', rises⟩ := h
  obtain rfl := shape''.unique shape
  exact ⟨g, shape', by rwa [← pairwise_bare, map_bare_placed, same, ← map_bare_placed,
    pairwise_bare]⟩

/-! ## Copies -/

/-- A diff whose tree is a copy of the one of another diff at a time. -/
structure Copy (d : Diff) (t : Time) (p : Diff) (z : Forest (Handle × Handle)) : Prop where
  still : p.Still (z.map Prod.fst)
  payload : ∀ ab ∈ (root, root) :: z.flatten, p.payload ab.1 = (d.look ab.2).collapse t

namespace Copy

theorem exists_pair (h : Copy d t p z) (hn : p.Reaches n) :
    ∃ ab ∈ (root, root) :: z.flatten, ab.1 = n := by
  obtain ⟨u, mem⟩ := h.still.exists_mem_iff.2 hn
  have fst : root :: (z.map Prod.fst).flatten = ((root, root) :: z.flatten).map Prod.fst :=
    Forest.cons_flatten_map Prod.fst (root, root) z
  have mem : n ∈ root :: (z.map Prod.fst).flatten := by cases u <;> exact mem
  exact List.mem_map.1 (fst ▸ mem)

/-- The copy of a chain has recorded at all times what the chain has recorded at its time. -/
theorem closing (h : Copy d t p z) {ab : Handle × Handle} (hab : ab ∈ (root, root) :: z.flatten)
    (u : Time) : (p.look ab.1).closing.get u = ((d.look ab.2).closing.get t).map (·.collapse t) := by
  have copy := congrArg (fun x : Node => x.closing.get u) (h.payload ab hab)
  exact copy.trans (Node.closing_collapse ..)

/-- The lines of a copy are those of the tree. -/
theorem placed_eq (h : Copy d t p z) (u : Time) : placed Position.diff p u (z.map Prod.fst) =
    (placed (·.get t) d t (z.map Prod.snd)).map Entry.bare := by
  rw [map_bare_placed, Forest.map_map, placed, Forest.spell_map, Forest.spell_map]
  refine Forest.spell_congr fun ab hab => ?_
  have payload := h.payload ab (List.mem_cons_of_mem _ hab)
  refine ⟨?_, ?_⟩
  · show firstPlaced Position.diff (p.payload ab.1) = _
    rw [payload, firstPlaced_collapse]
    rfl
  · show lastPlaced Position.diff u (p.payload ab.1) = _
    rw [payload, lastPlaced_collapse]
    rfl

theorem kind (h : Copy d t p z) {ab : Handle × Handle} (hab : ab ∈ (root, root) :: z.flatten) :
    (p.look ab.1).kind = (d.look ab.2).kind := by
  have copy := congrArg Node.kind (h.payload ab hab)
  exact copy

/-- The copy of a chain is not the root. -/
theorem mem_of_kind (h : Copy d t p z) {ab : Handle × Handle} (hab : ab ∈ (root, root) :: z.flatten)
    (kind : (p.look ab.1).kind = .ifBranch) : ab ∈ z.flatten :=
  (List.mem_cons.1 hab).resolve_left fun e =>
    ne_root_of_kind h.still.toRegular kind (by decide) (congrArg Prod.fst e)

/-- What a copy has recorded is the copy of what was recorded. -/
theorem exists_recorded (h : Copy d t p z) (hc : p.Records n u c) : ∃ ab ∈ z.flatten, ab.1 = n ∧
    (d.look ab.2).kind = .ifBranch ∧
    ∃ c₀, (d.look ab.2).closing.get t = some c₀ ∧ c₀.collapse t = c := by
  obtain ⟨reaches, recorded⟩ := hc
  obtain ⟨kind, recorded⟩ := Node.closingAt_eq_some_iff.1 recorded
  obtain ⟨ab, hab, rfl⟩ := h.exists_pair reaches
  rw [h.closing hab] at recorded
  refine ⟨ab, h.mem_of_kind hab kind, rfl, h.kind hab ▸ kind, Option.map_eq_some_iff.1 recorded⟩

/-- A copy has recorded the same at both times. -/
theorem records_iff (h : Copy d t p z) : p.Records n u c ↔ p.Records n .before c := by
  refine and_congr_right fun reaches => ?_
  obtain ⟨ab, hab, rfl⟩ := h.exists_pair reaches
  rw [Node.closingAt_eq_some_iff, Node.closingAt_eq_some_iff, h.closing hab, h.closing hab]

/-- If every chain of a tree is closed and the places increase along the tree, the closing lines of
its copy are those of its chains, each at a place of its own. -/
theorem shut (h : Copy d t p z) (closed : ∀ n ∈ (z.map Prod.snd).flatten,
      (d.look n).kind = .ifBranch →
        ∃ c, (d.look n).closing.get t = some c ∧ c.label.lines ≠ [])
    (rises : (placed (·.get t) d t (z.map Prod.snd)).Pairwise Entry.Precedes) :
    Shut p ⟨z.map Prod.fst, z.map Prod.fst⟩ ∧ Agree p := by
  have tree (u : Time) : (⟨z.map Prod.fst, z.map Prod.fst⟩ : Sides (Forest Handle)).get u =
      z.map Prod.fst := by cases u <;> rfl
  have full {n u c} (hc : p.Records n u c) :
      n ∈ (z.map Prod.fst).flatten ∧ c.change = .unchanged ∧ c.label.lines ≠ [] := by
    obtain ⟨ab, hab, rfl, kind, c₀, recorded, rfl⟩ := h.exists_recorded hc
    obtain ⟨c₁, recorded', full⟩ := closed ab.2 (Forest.mem_flatten_map_of_mem Prod.snd hab) kind
    obtain rfl := Option.some.inj (recorded.symm.trans recorded')
    exact ⟨Forest.mem_flatten_map_of_mem Prod.fst hab, rfl, full⟩
  have apart {n m u v c c'} (hc : p.Records n u c) (hc' : p.Records m v c')
      (same : c.line.diff = c'.line.diff) : n = m := by
    have rises : (placed Position.diff p .before (z.map Prod.fst)).Pairwise Entry.Precedes :=
      h.placed_eq .before ▸ pairwise_bare.2 rises
    exact eq_of_rises rises (full hc).1 (full hc').1 (h.records_iff.1 hc).2 (h.records_iff.1 hc').2
      (full hc).2.2 (full hc').2.2 same
  refine ⟨⟨h.still.toTwofold, fun t => h.still.present List.mem_cons_self t, fun n u reaches kind _ => ?_,
    fun n u c hc => ?_, fun n u v c hc _ => ⟨n, h.records_iff.2 (h.records_iff.1 hc)⟩,
    fun u n m c c' hc hc' same => apart hc hc' same⟩, fun n m u v c c' hc hc' same => ?_⟩
  · obtain ⟨ab, hab, rfl⟩ := h.exists_pair reaches
    have below := h.mem_of_kind hab kind
    rw [h.kind hab] at kind
    obtain ⟨c, recorded, -⟩ := closed ab.2 (Forest.mem_flatten_map_of_mem Prod.snd below) kind
    rw [h.closing hab, recorded]
    rfl
  · obtain ⟨mem, change, -⟩ := full hc
    rw [tree, change]
    exact ⟨mem, by cases u <;> rfl⟩
  · obtain rfl := apart hc hc' same
    have recorded := (h.records_iff.1 hc).2
    rw [(h.records_iff.1 hc').2] at recorded
    exact (Option.some.inj recorded).symm

/-- The line diff of a copy is its tree, with a space in front of every line. -/
theorem lineDiff_eq (h : Copy d t p z) (closed : ∀ n ∈ (z.map Prod.snd).flatten,
      (d.look n).kind = .ifBranch →
        ∃ c, (d.look n).closing.get t = some c ∧ c.label.lines ≠ [])
    (rises : (placed (·.get t) d t (z.map Prod.snd)).Pairwise Entry.Precedes) :
    lineDiff p = .ok (Text.unlines ((printed d t (z.map Prod.snd)).map (" " ++ ·))) := by
  obtain ⟨shut, agree⟩ := h.shut closed rises
  obtain ⟨es, cs, writes⟩ := exists_writes shut
  have lines := writes.filter_eq shut agree (t := .before)
    (h.placed_eq .before ▸ pairwise_bare.2 rises)
  -- all lines are unchanged, so none is left out at either time
  have unchanged (e) (he : e ∈ es) : e.change = .unchanged := by
    obtain ⟨u, mem⟩ := writes.mem_placed he
    have mem : e ∈ placed Position.diff p u (z.map Prod.fst) := by cases u <;> exact mem
    rw [h.placed_eq] at mem
    obtain ⟨e', -, rfl⟩ := List.mem_map.1 mem
    rfl
  have all : es.filter (·.change.existsAt .before) = es :=
    List.filter_eq_self.2 fun e he => by rw [unchanged e he]; rfl
  rw [writes.lineDiff_eq, ← all, lines]
  show Except.ok (Text.unlines ((placed Position.diff p .before (z.map Prod.fst)).map _)) = _
  rw [h.placed_eq, ← map_text_placed fun n hn kind => ?_, List.map_map, List.map_map]
  · rfl
  · obtain ⟨c, recorded, -⟩ := closed n hn kind
    rw [recorded]
    rfl

end Copy

/-- The printers agree on a time: the line diff of the projection has the lines of the source, with a
space in front of each. -/
def Agrees (d : Diff) (t : Time) : Prop :=
  ∃ p ls, d.project t = .ok p ∧ (∀ l ∈ ls, '\n' ∉ l.toList) ∧
    source d t = .ok (Text.unlines ls) ∧ lineDiff p = .ok (Text.unlines (ls.map (" " ++ ·)))

/-- The printers agree on a time if the places at that time increase along the tree. -/
theorem agrees_of_increases (legible : d.Legible s) (rises : Increases d t) : Agrees d t := by
  obtain ⟨f, shape, rises⟩ := rises
  obtain rfl := shape.unique (legible.shape t)
  obtain ⟨p, z, project, still, image, payload, -⟩ := legible.toTwofold.exists_projection t
  have copy : Copy d t p z := ⟨still, payload⟩
  refine ⟨p, printed d t (s.get t), project, fun l hl => legible.feed_not_mem hl,
    source_eq legible.toRegular (legible.shape t), ?_⟩
  rw [← image] at rises ⊢
  refine copy.lineDiff_eq (fun n hn kind => ?_) rises
  obtain ⟨c, recorded, told⟩ := legible.closing t n (image ▸ hn) kind
  exact ⟨c, recorded, told.1.ne_nil⟩

end Printing

end Variation
