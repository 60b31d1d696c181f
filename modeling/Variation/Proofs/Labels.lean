import Variation.Proofs.Everywhere

/-!
# Labels and conditions

A node gets its label and its condition together, when a line is read. Everything later copies,
takes over or drops the two, but collapsing writes a label of its own. The main statement says that
the label of every condition is read back as that condition, unless the node was written by
collapsing; such a node says in its label how its condition is written, and a condition that is
written is not always read back.
-/

namespace Variation

open Edit Diff

/-- The lines of a label as one text. -/
def Label.joined (l : Label) : String :=
  String.intercalate " " (l.lines.map Reading.LogicalLine.withoutBackslash)

/-- The label of a condition is read as its formula. -/
def Node.ReadsBack (dialect : Dialect) (x : Node) : Prop :=
  ∃ f, x.formula = some f ∧ dialect.condition x.label.joined = .ok f

/-- A condition whose label says how its formula is written. -/
def Node.Written (x : Node) : Prop :=
  x.kind = .ifBranch ∧ ∃ f, x.formula = some f ∧ x.label = .single ("#if " ++ f.text)

/-! ## Histories -/

/-- The simplification steps at hand. -/
inductive Simplification.Bundled where
  | cut
  | collapse
  | moved
  deriving DecidableEq

/-- The step that goes by a name. -/
def Simplification.Bundled.step : Bundled → Simplification
  | cut => Simplification.cut
  | collapse => Simplification.collapse
  | moved => Simplification.moved

namespace Diff

/-- A diff that was made of texts in a dialect and then refined and simplified; the flag tells
whether chains were collapsed on the way. -/
inductive Derived (dialect : Dialect) : Bool → Diff → Prop where
  | read {text : String} {options : Reading.Options} {source : Source} {d : Diff}
    (h : Reading.diff text options source dialect = .ok d) : Derived dialect false d
  | compared {first second : String} {options options' : Reading.Options} {source source' : Source}
    {before after : Tree} {matcher : Matcher} {d : Diff}
    (hb : Reading.tree first options source dialect = .ok before)
    (ha : Reading.tree second options' source' dialect = .ok after)
    (h : Construction.diff before after matcher = .ok d) : Derived dialect false d
  | refined {collapsed : Bool} {matcher : Matcher} {d e : Diff} (hd : Derived dialect collapsed d)
    (h : Refinement.refine d matcher = .ok e) : Derived dialect collapsed e
  | simplified {collapsed : Bool} {steps : List Simplification.Bundled} {d e : Diff}
    (hd : Derived dialect collapsed d) (h : Simplification.apply (steps.map (·.step)) d = .ok e) :
    Derived dialect (collapsed || steps.contains .collapse) e

end Diff

/-- What the nodes of a diff are like: a condition is read back from the label, or it was written
while chains were collapsed. -/
def Node.Agrees (dialect : Dialect) (collapsed : Bool) (x : Node) : Prop :=
  x.kind.isConditional = true → x.ReadsBack dialect ∨ (collapsed = true ∧ x.Written)

section Agrees

variable {dialect : Dialect} {collapsed : Bool} {d e : Diff} {n : Handle} {x : Node}

theorem verbal_agrees : Node.Verbal (Node.Agrees dialect collapsed) where
  same {x y} hx kind formula label conditional := by
    rw [kind] at conditional
    obtain ⟨f, hf, back⟩ | ⟨used, opens, f, hf, written⟩ := hx conditional
    · exact .inl ⟨f, by rw [formula, hf], by rw [label, back]⟩
    · exact .inr ⟨used, by rw [kind, opens], f, by rw [formula, hf], by rw [label, written]⟩
  plain {x} hk conditional := by
    rw [Kind.annotates_of_isConditional conditional] at hk
    cases hk

theorem Node.Agrees.mono (h : x.Agrees dialect collapsed) (more : Bool) :
    x.Agrees dialect (collapsed || more) := fun conditional =>
  (h conditional).imp_right fun ⟨used, written⟩ => ⟨by rw [used, Bool.true_or], written⟩

/-- A node that is read gets its condition from the text that becomes its label. -/
theorem agrees_newNode {line : Reading.LogicalLine} {change : Change} {kind : Kind}
    {start stop : Position} {formula : Option Formula}
    (item : dialect.item? line.text = some (.node kind formula)) :
    (Reading.Outline.newNode change kind start stop formula ⟨line.lines⟩).Agrees dialect
      collapsed := by
  intro conditional
  have conditional : kind.isConditional = true := conditional
  obtain ⟨-, -, -, -, carried⟩ := Dialect.item?_cases item
  rw [if_pos conditional] at carried
  obtain ⟨f, read, rfl⟩ := carried
  exact .inl ⟨f, rfl, read⟩

theorem agrees_of_ofLines {options : Reading.Options} {source : Source}
    {lines : List Reading.PhysicalLine} (h : Reading.ofLines options dialect source lines = .ok d) :
    d.Everywhere (Node.Agrees dialect collapsed) :=
  Reading.everywhere_ofLines verbal_agrees (fun _ _ _ _ _ _ item => agrees_newNode item) h

/-- A step keeps what labels and conditions have to do with each other; collapsing writes labels. -/
theorem keeps_agrees {step : Simplification.Bundled}
    (used : step = .collapse → collapsed = true) :
    Keeps (Everywhere (Node.Agrees dialect collapsed)) step.step.run := by
  cases step with
  | cut => exact Simplification.keeps_cut verbal_agrees.durable
  | collapse =>
    refine Simplification.keeps_collapse verbal_agrees.durable fun {start stop f} => ?_
    exact keeps_addNode_everywhere fun _ => .inr ⟨used rfl, rfl, f, rfl, rfl⟩
  | moved => exact Simplification.keeps_moved verbal_agrees.durable

namespace Diff.Derived

theorem agrees (h : d.Derived dialect collapsed) :
    d.Everywhere (Node.Agrees dialect collapsed) := by
  induction h with
  | read h => exact agrees_of_ofLines h
  | compared hb ha h =>
    obtain ⟨_, run, asTree⟩ := Outcome.bind_eq_ok_iff.1 hb
    obtain ⟨_, run', asTree'⟩ := Outcome.bind_eq_ok_iff.1 ha
    refine verbal_agrees.construction ?_ ?_ h
    · rw [Reading.diff_of_asTree asTree]
      exact agrees_of_ofLines run
    · rw [Reading.diff_of_asTree asTree']
      exact agrees_of_ofLines run'
  | refined _ h ih => exact Refinement.of_refine verbal_agrees.durable ih h
  | @simplified collapsed steps d e _ h ih =>
    refine Simplification.of_apply (fun step hs => ?_) (ih.mono fun x hx => hx.mono _) h
    obtain ⟨bundled, mem, rfl⟩ := List.mem_map.1 hs
    refine keeps_agrees fun collapse => ?_
    rw [Bool.or_eq_true, List.contains_iff_mem]
    exact .inr (collapse ▸ mem)

end Diff.Derived

end Agrees

/-! ## A condition that is not read back -/

/-- An added line below two conditions. -/
def nested : String := " #if A\n #if B\n+x\n #endif\n #endif\n"

end Variation
