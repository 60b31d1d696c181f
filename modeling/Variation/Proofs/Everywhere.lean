import Variation.Proofs.Handled
import Variation.Proofs.Trees

/-!
# Properties of all nodes

A property of single nodes that depends on no more than the kind, the formula and the label of a node
is kept by all that is done to a diff, as long as it holds of what is read and written. So it is
enough to look at the line of which a node was made.
-/

namespace Variation

open Edit Diff

/-- Every node of the store has a property. -/
def Diff.Everywhere (Q : Node → Prop) (d : Diff) : Prop :=
  ∀ (n : Handle) (x : Node), d.nodes[n]? = some x → Q x

/-- A property that depends on no more than the kind, the formula and the label of a node, and that
every node has that is no annotation. -/
structure Node.Verbal (Q : Node → Prop) : Prop where
  same {x y : Node} : Q x → y.kind = x.kind → y.formula = x.formula → y.label = x.label → Q y
  plain {x : Node} : x.kind.annotates = false → Q x

namespace Diff.Everywhere

variable {Q R : Node → Prop} {d d' : Diff} {n : Handle} {f : Node → Node} {x : Node}

theorem mono (h : d.Everywhere Q) (all : ∀ x, Q x → R x) : d.Everywhere R :=
  fun n x hx => all x (h n x hx)

theorem update (h : d.Everywhere Q) (hf : ∀ x, Q x → Q (f x)) : (d.update n f).Everywhere Q := by
  intro m y hy
  rw [getElem?_update] at hy
  split at hy
  · obtain ⟨x, hx, rfl⟩ := Option.map_eq_some_iff.1 hy
    exact hf x (h m x hx)
  · exact h m y hy

theorem append (h : d.Everywhere Q) (hx : Q x) : (d.append x).Everywhere Q := by
  intro m y hy
  rw [getElem?_append] at hy
  split at hy
  · obtain rfl := Option.some.inj hy
    exact hx
  · exact h m y hy

theorem iff_look : d.Everywhere Q ↔ ∀ n, n < d.size → Q (d.look n) := by
  refine ⟨fun h n hn => h n _ (getElem?_look hn), fun h n x hx => ?_⟩
  rw [← look_of_node hx]
  exact h n (lt_size_of_getElem? hx)

end Diff.Everywhere

namespace Edit

variable {Q : Node → Prop} {n : Handle} {f : Node → Node} {x : Node}

theorem keeps_modify_everywhere (hf : ∀ x, Q x → Q (f x)) :
    Keeps (Everywhere Q) (modify (·.update n f) : Edit PUnit) :=
  Keeps.modify fun _ hd => hd.update hf

theorem keeps_update_everywhere (hf : ∀ x, Q x → Q (f x)) :
    Keeps (Everywhere Q) (Edit.update n f) :=
  (Keeps.ask _).bind fun _ => keeps_modify_everywhere hf

theorem keeps_append_everywhere (hx : Q x) : Keeps (Everywhere Q) (Edit.append x) :=
  Keeps.get.bind fun _ => (Keeps.modify fun _ hd => hd.append hx).bind fun _ => .pure _

theorem keeps_addNode_everywhere {change : Change} {kind : Kind} {start stop : Position}
    {formula : Option Formula} {label : Label}
    (hx : Q { change, kind, start, stop, formula, label }) :
    Keeps (Everywhere Q) (addNode change kind start stop formula label) := by
  unfold addNode
  exact .ite (Keeps.get.bind fun _ => .fail _) (keeps_append_everywhere hx)

end Edit

namespace Node.Verbal

variable {Q : Node → Prop} {p c n : Handle} {i : Nat} {t : Time} {cs : List Handle} {f : Node → Node}

/-- Nothing that a node says is changed. -/
theorem keeps (h : Verbal Q) (kind : ∀ x, (f x).kind = x.kind)
    (formula : ∀ x, (f x).formula = x.formula) (label : ∀ x, (f x).label = x.label) :
    Keeps (Everywhere Q) (Edit.update n f) :=
  keeps_update_everywhere fun x hx => h.same hx (kind x) (formula x) (label x)

theorem keeps_modify (h : Verbal Q) (kind : ∀ x, (f x).kind = x.kind)
    (formula : ∀ x, (f x).formula = x.formula) (label : ∀ x, (f x).label = x.label) :
    Keeps (Everywhere Q) (modify (·.update n f) : Edit PUnit) :=
  keeps_modify_everywhere fun x hx => h.same hx (kind x) (formula x) (label x)

theorem keeps_attach (h : Verbal Q) : Keeps (Everywhere Q) (attach p c i t) :=
  (Keeps.ask _).bind fun _ => Keeps.bind
    (h.keeps_modify (fun _ => rfl) (fun _ => rfl) fun _ => rfl) fun _ =>
      h.keeps_modify (fun _ => rfl) (fun _ => rfl) fun _ => rfl

theorem keeps_detach (h : Verbal Q) : Keeps (Everywhere Q) (detach p c t) :=
  (Keeps.ask _).bind fun _ => (Keeps.ask _).bind fun _ => .ite (.fail _) <| Keeps.bind
    (h.keeps_modify (fun _ => rfl) (fun _ => rfl) fun _ => rfl) fun _ =>
      h.keeps_modify (fun _ => rfl) (fun _ => rfl) fun _ => rfl

theorem keeps_detachChildren (h : Verbal Q) : Keeps (Everywhere Q) (detachChildren n t) := by
  refine (Keeps.ask _).bind fun children => ?_
  refine Keeps.bind (h.keeps_modify (fun _ => rfl) (fun _ => rfl) fun _ => rfl) fun _ => ?_
  refine Keeps.bind (Keeps.forM (fun c => ?_) _) fun _ => .pure _
  exact h.keeps (fun _ => rfl) (fun _ => rfl) fun _ => rfl

theorem keeps_attachAll (h : Verbal Q) : Keeps (Everywhere Q) (attachAll p cs t) :=
  .forM (fun _ => (Keeps.ask _).bind fun _ => h.keeps_attach) cs

theorem keeps_dropAt (h : Verbal Q) : Keeps (Everywhere Q) (dropAt n t) := by
  refine (Keeps.ask _).bind fun p => ?_
  cases p with
  | none => exact .pure ()
  | some p => exact h.keeps_detach

theorem keeps_split (h : Verbal Q) : Keeps (Everywhere Q) (Refinement.split n) := by
  refine Refinement.keeps_expect.bind fun _ => Refinement.keeps_slotAfter.bind fun ⟨p, i⟩ => ?_
  refine Keeps.bind (Keeps.bind_of (.ask _) fun d x d' hd run => ?_) fun copy => ?_
  · -- the copy says what the node says
    cases hx : d.node n with
    | error cause =>
      rw [run_ask_error hx] at run
      cases run
    | ok y =>
      rw [run_ask_ok hx] at run
      cases run
      have copied : Q x.detached := h.same (hd n _ (node_eq_ok_iff.1 hx)) rfl rfl rfl
      exact keeps_append_everywhere copied d hd
  refine Keeps.bind (h.keeps (fun _ => rfl) (fun _ => rfl) fun _ => rfl) fun _ => ?_
  refine h.keeps_detachChildren.bind fun children => h.keeps_attachAll.bind fun _ => ?_
  refine h.keeps_dropAt.bind fun _ => ?_
  refine Keeps.bind (h.keeps (fun _ => rfl) (fun _ => rfl) fun _ => rfl) fun _ => ?_
  exact h.keeps_attach.bind fun _ => (Keeps.ask _).bind fun _ => (Keeps.ask _).bind fun _ => .pure _

theorem keeps_join (h : Verbal Q) : Keeps (Everywhere Q) (Refinement.join p c) := by
  refine Refinement.keeps_expect.bind fun _ => Refinement.keeps_expect.bind fun _ => ?_
  refine Refinement.keeps_slotAfter.bind fun ⟨q, i⟩ => h.keeps_detachChildren.bind fun children => ?_
  refine h.keeps_dropAt.bind fun _ => (Keeps.ask _).bind fun x => ?_
  refine Keeps.bind (h.keeps (fun _ => rfl) (fun _ => rfl) fun _ => rfl) fun _ => ?_
  refine Keeps.bind (h.keeps (fun _ => rfl) (fun _ => rfl) fun _ => rfl) fun _ => ?_
  exact h.keeps_attachAll.bind fun _ => h.keeps_attach

/-- What all nodes say is durable. -/
theorem durable (h : Verbal Q) : Durable (Everywhere Q) where
  attach := h.keeps_attach
  detach := h.keeps_detach
  detachChildren := h.keeps_detachChildren
  reline relines := h.keeps relines.kind relines.formula relines.label
  addArtifact := keeps_append_everywhere (h.plain rfl)
  remove := h.keeps_dropAt.bind fun _ => h.keeps (fun _ => rfl) (fun _ => rfl) fun _ => rfl
  split := h.keeps_split
  join := h.keeps_join

theorem admits (h : Verbal Q) {after : Diff} (all : after.Everywhere Q) :
    Construction.Admits (Everywhere Q) after where
  toDurable := h.durable
  copy hy := keeps_addNode_everywhere (h.same (all _ _ (node_eq_ok_iff.1 hy)) rfl rfl rfl)

theorem pictures (h : Verbal Q) {d : Diff} (all : d.Everywhere Q) (t : Time) :
    Pictures (Everywhere Q) d t where
  toDurable := h.durable
  copy hx := keeps_append_everywhere (h.same (all _ _ (node_eq_ok_iff.1 hx)) rfl rfl rfl)

theorem project (h : Verbal Q) {d p : Diff} (all : d.Everywhere Q) (run : d.project t = .ok p) :
    p.Everywhere Q := by
  refine of_project (h.pictures all t) (fun x hx m y hy => ?_) run
  cases m with
  | zero =>
    obtain rfl : x.collapse t = y := Option.some.inj hy
    exact h.same (all _ _ (node_eq_ok_iff.1 hx)) rfl rfl rfl
  | succ m => cases hy

theorem construction (h : Verbal Q) {before after : Tree} {matcher : Matcher} {d : Diff}
    (hb : before.diff.Everywhere Q) (ha : after.diff.Everywhere Q)
    (run : Construction.diff before after matcher = .ok d) : d.Everywhere Q :=
  Construction.of_diff (h.admits ha) (fun _ project n x hx => h.project hb project n x hx) run

end Node.Verbal

/-! ## Reading -/

namespace Reading

variable {Q : Node → Prop} {options : Options} {dialect : Dialect} {source : Source} {text : String}
  {lines : List PhysicalLine} {d : Diff} {tree : Tree}

namespace Outline

variable {o o' : Outline} {c : Handle} {change : Change} {start stop : Position}
  {label : List String} {closing : ClosingLine}

theorem Shuts.everywhere (verbal : Node.Verbal Q) (h : Shuts closing o o')
    (all : o.diff.Everywhere Q) : o'.diff.Everywhere Q := by
  rw [Everywhere.iff_look] at all ⊢
  intro n hn
  rw [h.alike.size] at hn
  exact verbal.same (all n hn) h.alike.kind h.alike.formula (h.label n)

theorem Grows.everywhere (verbal : Node.Verbal Q) {x : Node} {tops : Time → Handle}
    (h : o.Grows x o' tops) (hx : Q x) (all : o.diff.Everywhere Q) : o'.diff.Everywhere Q := by
  obtain rfl := h.result
  rw [Everywhere.iff_look] at all ⊢
  intro n hn
  rw [size_pushed] at hn
  by_cases new : n = o.diff.size
  · refine verbal.same hx ?_ ?_ ?_
    · rw [kind_pushed, if_pos new]
    · rw [formula_pushed, if_pos new]
    · rw [label_pushed, if_pos new]
  · refine verbal.same (all n (Nat.lt_of_le_of_ne (Nat.le_of_lt_succ hn) new)) ?_ ?_ ?_
    · rw [kind_pushed, if_neg new]
    · rw [formula_pushed, if_neg new]
    · rw [label_pushed, if_neg new]

theorem Joins.everywhere (verbal : Node.Verbal Q) (h : o.Joins c change start stop label o')
    (code : (o.diff.look c).kind = .artifact) (inStore : c < o.diff.size)
    (all : o.diff.Everywhere Q) : o'.diff.Everywhere Q := by
  obtain rfl := h.result
  rw [Everywhere.iff_look] at all ⊢
  intro n hn
  have size : (o.joined c label stop).diff.size = o.diff.size := size_update ..
  have look : (o.joined c label stop).diff.look n =
      if c = n then { o.diff.look n with label := (o.diff.look n).label.append label, stop }
      else o.diff.look n := look_update inStore
  rw [look]
  split
  · next here =>
    subst here
    exact verbal.plain (by rw [code]; rfl)
  · exact all n (size ▸ hn)

end Outline

/-- What holds of the node of every line holds of all nodes that are read. -/
theorem everywhere_ofLines (verbal : Node.Verbal Q)
    (new : ∀ (line : LogicalLine) change kind start stop formula,
      dialect.item? line.text = some (.node kind formula) →
        Q (Outline.newNode change kind start stop formula ⟨line.lines⟩))
    (h : ofLines options dialect source lines = .ok d) : d.Everywhere Q := by
  let P (o : Outline) : Prop :=
    (o.Neat ∧ ∃ m : Time → Nest Facet, ∀ t, o.Shows t (m t)) ∧ o.diff.Everywhere Q
  have start : P (.start source) := by
    refine ⟨⟨Outline.neat_start source, fun _ => _, Run.shows_start source⟩, fun n x hx => ?_⟩
    cases n with
    | zero =>
      obtain rfl : Node.rootNode = x := Option.some.inj hx
      exact verbal.plain rfl
    | succ n => cases hx
  have kept : Run.Kept options dialect P := by
    intro o o' line change last ⟨⟨neat, m, shown⟩, all⟩ full put
    refine ⟨Run.kept_neat o o' line change last ⟨neat, m, shown⟩ full put, ?_⟩
    obtain ⟨stop, range⟩ := Run.place_of_put put
    obtain ⟨-, -, -, closed | ⟨kind, formula, tops, item, grows⟩⟩ | ⟨-, -, c, joins⟩ :=
      Outline.put_cases range shown put
    · rw [Outline.closeChains_eq] at closed
      have shuts := (Outline.closeAll_shuts (o := { o with lastCode := none })
        (fun t => (shown t).nodup_opened) closed).1
      exact shuts.everywhere verbal all
    · exact grows.everywhere verbal (new line change kind _ _ formula item) all
    · obtain ⟨n, -, -, -, recalls⟩ := shown .before
      obtain ⟨inStore, code, -⟩ := recalls c joins.last
      exact joins.everywhere verbal code inStore all
  obtain ⟨o, ⟨-, all⟩, -, rfl⟩ := kept_ofLines start kept h
  exact all

theorem verbal_unmarked : Node.Verbal fun x => x.kind ≠ .endMark where
  same hx kind _ _ := by rw [kind]; exact hx
  plain {x} plain mark := by rw [mark] at plain; cases plain

/-- A closing line makes no node. -/
theorem unmarked_ofLines (h : ofLines options dialect source lines = .ok d) :
    d.Everywhere fun x => x.kind ≠ .endMark :=
  everywhere_ofLines verbal_unmarked
    (fun _ _ _ _ _ _ item => (Outline.item?_node item).1) h

end Reading

end Variation
