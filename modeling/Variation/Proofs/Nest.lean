import Variation.Proofs.Printed
import Variation.Reading.Outline

/-!
# Reading at one time

Seen at one time, reading is simple: there is a chain of open annotations, each with the trees that
are finished below it, and every complete line either opens an annotation, closes a chain or becomes
a leaf. A `Nest` is that chain, a `Facet` is what a node says at one time, and `Nest.put` is the
whole method. The main statement says that what a nest prints is what was put into it.
-/

namespace Variation

/-- What a node says at one time. -/
structure Facet where
  kind : Kind
  start : Int
  stop : Int
  formula : Option Formula
  label : Label
  /-- The line at which the chain was closed, with its text. -/
  closing : Option (Int × Label)
  deriving DecidableEq

/-- What the node says at a time. -/
def Node.facet (x : Node) (t : Time) : Facet :=
  ⟨x.kind, x.start.get t, x.stop.get t, x.formula, x.label,
    (x.closing.get t).map fun c => (c.line.get t, c.label)⟩

/-- What a node of a diff says at a time. -/
def Diff.facet (d : Diff) (t : Time) (n : Handle) : Facet := (d.look n).facet t

/-- What a logical line is. -/
inductive Item where
  | closing
  | node (kind : Kind) (formula : Option Formula)

/-- What a logical line with a text is, if it can be read. -/
def Dialect.item? (dialect : Dialect) (text : String) : Option Item :=
  match dialect.classify text with
  | .error _ => none
  | .ok (some .endMark) => some .closing
  | .ok kind? =>
    if (kind?.getD .artifact).isConditional then
      match dialect.condition text with
      | .error _ => none
      | .ok f => some (.node (kind?.getD .artifact) (some f))
    else some (.node (kind?.getD .artifact) none)

/-- A line that becomes a node is no closing mark, and it carries the condition of its text if it is of
a conditional kind. -/
theorem Dialect.item?_cases {dialect : Dialect} {text : String} {kind : Kind}
    {formula : Option Formula} (h : dialect.item? text = some (.node kind formula)) :
    ∃ kind?, dialect.classify text = .ok kind? ∧ kind? ≠ some .endMark ∧
      kind?.getD .artifact = kind ∧
      if kind.isConditional then ∃ f, dialect.condition text = .ok f ∧ formula = some f
      else formula = none := by
  unfold Dialect.item? at h
  split at h
  · cases h
  · cases h
  · next kind? other read =>
    split at h
    · next conditional =>
      split at h
      · cases h
      · next f readable =>
        cases h
        exact ⟨kind?, read, other, rfl, by rw [if_pos conditional]; exact ⟨f, readable, rfl⟩⟩
    · next leaf =>
      cases h
      exact ⟨kind?, read, other, rfl, by rw [if_neg leaf]⟩

/-- Whether a logical line is no annotation. -/
def Dialect.isCode (dialect : Dialect) (text : String) : Bool :=
  match dialect.classify text with
  | .ok none => true
  | _ => false

/-- A line of code is read as code without a condition. -/
theorem Dialect.item?_of_isCode {dialect : Dialect} {text : String} (h : dialect.isCode text = true) :
    dialect.item? text = some (.node .artifact none) := by
  unfold Dialect.isCode at h
  unfold Dialect.item?
  split at h
  · next read =>
    rw [read]
    rfl
  · cases h

/-- The open places from the innermost one to the bottom, each with the finished trees below it. -/
inductive Nest (α : Type) where
  | base (a : α) (done : Forest α)
  | under (a : α) (done : Forest α) (rest : Nest α)

namespace Nest

variable {α β : Type}

/-- The innermost open place. -/
def top : Nest α → α
  | base a _ => a
  | under a _ _ => a

/-- The open places, the innermost one first. -/
def opened : Nest α → List α
  | base a _ => [a]
  | under a _ rest => a :: rest.opened

/-- The place that stays open. -/
def bottom : Nest α → α
  | base a _ => a
  | under _ _ rest => rest.bottom

/-- All places in the order in which they were met. -/
def flatten : Nest α → List α
  | base a done => a :: done.flatten
  | under a done rest => rest.flatten ++ a :: done.flatten

/-- The nest with a function applied everywhere. -/
def map (f : α → β) : Nest α → Nest β
  | base a done => base (f a) (done.map f)
  | under a done rest => under (f a) (done.map f) (rest.map f)

/-- Hangs finished trees below the innermost open place. -/
def hang (trees : Forest α) : Nest α → Nest α
  | base a done => base a (done ++ trees)
  | under a done rest => under a (done ++ trees) rest

/-- The nest with a function applied to what was finished last below the innermost open place. -/
def atEnd (f : α → α) : Nest α → Nest α
  | base a done => base a (done.atEnd f)
  | under a done rest => under a (done.atEnd f) rest

/-- The lines of a nest; what is open has no last lines yet. -/
def lines (first last : α → List String) : Nest α → List String
  | base a done => first a ++ done.lines first last
  | under a done rest => rest.lines first last ++ first a ++ done.lines first last

variable {trees : Forest α} {n : Nest α} {f : α → β}

theorem hang_under (a : α) (done : Forest α) (rest : Nest α) :
    (under a done rest).hang trees = under a (done ++ trees) rest := rfl

theorem lines_under (first last : α → List String) (a : α) (done : Forest α) (rest : Nest α) :
    (under a done rest).lines first last =
      rest.lines first last ++ first a ++ done.lines first last := rfl

@[simp] theorem opened_hang : (n.hang trees).opened = n.opened := by cases n <;> rfl

@[simp] theorem bottom_hang : (n.hang trees).bottom = n.bottom := by cases n <;> rfl

theorem bottom_mem_flatten (n : Nest α) : n.bottom ∈ n.flatten := by
  induction n with
  | base a done => exact List.mem_cons_self
  | under a done rest ih => exact List.mem_append_left _ ih

@[simp] theorem hang_nil : n.hang .nil = n := by cases n <;> simp [hang]

@[simp] theorem atEnd_hang (f : α → α) (a : α) (below : Forest α) :
    (n.hang (.tree a below)).atEnd f = n.hang (.tree (f a) below) := by
  cases n <;> simp [hang, atEnd]

@[simp] theorem flatten_hang : (n.hang trees).flatten = n.flatten ++ trees.flatten := by
  cases n <;> simp [hang, flatten]

@[simp] theorem map_hang : (n.hang trees).map f = (n.map f).hang (trees.map f) := by
  cases n <;> simp [hang, map]

@[simp] theorem lines_hang {first last : α → List String} :
    (n.hang trees).lines first last = n.lines first last ++ trees.lines first last := by
  cases n <;> simp [hang, lines]

@[simp] theorem opened_map : (n.map f).opened = n.opened.map f := by
  induction n with
  | base a done => rfl
  | under a done rest ih => simp only [map, opened, ih, List.map_cons]

theorem opened_eq_cons (n : Nest α) : ∃ rest, n.opened = n.top :: rest := by
  cases n with
  | base a done => exact ⟨[], rfl⟩
  | under a done rest => exact ⟨rest.opened, rfl⟩

/-- A nest with at most one open place is its bottom. -/
theorem eq_base (h : n.opened.length ≤ 1) : ∃ done, n = base n.bottom done := by
  cases n with
  | base a done => exact ⟨done, rfl⟩
  | under a done rest =>
    obtain ⟨os, hos⟩ := rest.opened_eq_cons
    rw [opened, hos, List.length_cons, List.length_cons] at h
    omega

@[simp] theorem head?_opened : n.opened.head? = some n.top := by
  obtain ⟨rest, h⟩ := n.opened_eq_cons
  rw [h]
  rfl

theorem map_congr {f g : α → β} (h : ∀ a ∈ n.flatten, f a = g a) : n.map f = n.map g := by
  induction n with
  | base a done =>
    simp only [flatten, List.forall_mem_cons] at h
    simp only [map, h.1, Forest.map_congr h.2]
  | under a done rest ih =>
    simp only [flatten, List.forall_mem_append, List.forall_mem_cons] at h
    simp only [map, h.2.1, Forest.map_congr h.2.2, ih h.1]

theorem mem_flatten_of_mem_opened {a : α} (h : a ∈ n.opened) : a ∈ n.flatten := by
  induction n with
  | base b done =>
    rw [List.mem_singleton.1 h]
    exact List.mem_cons_self
  | under b done rest ih =>
    obtain rfl | h := List.mem_cons.1 h
    · exact List.mem_append_right _ List.mem_cons_self
    · exact List.mem_append_left _ (ih h)

theorem top_mem_flatten : n.top ∈ n.flatten :=
  mem_flatten_of_mem_opened (List.mem_of_mem_head? head?_opened)

/-! ## The method -/

/-- Whether another branch may follow the innermost open annotation. -/
def continuable : Nest Facet → Bool
  | base _ _ => false
  | under a _ _ => a.kind != .elseBranch

/-- An annotation that ends at a line, closed there if it opened the chain. -/
def ended (stop line : Int) (label : Label) (a : Facet) : Facet :=
  { a with stop, closing := if a.kind == .ifBranch then some (line, label) else a.closing }

/-- Closes the innermost chain with a closing line. `extra` is what was closed already and hangs
below the innermost place that is still open. -/
def close (line : Int) (label : Label) : Int → Forest Facet → Nest Facet → Option (Nest Facet)
  | _, _, base _ _ => none
  | stop, extra, under a done rest =>
    let closed := .tree (ended stop line label a) (done ++ extra)
    if a.kind == .ifBranch then some (rest.hang closed) else close line label a.start closed rest

/-- Adds a node below the innermost open place and opens it if it is an annotation. -/
def enter (a : Facet) (n : Nest Facet) : Option (Nest Facet) :=
  if a.kind = .root then none
  else if a.kind.isContinuation && !n.continuable then none
  else some (if a.kind.annotates then under a .nil n else n.hang (.tree a .nil))

/-- Puts a complete line into a nest. -/
def put (dialect : Dialect) (lines : List String) (start stop : Int) (n : Nest Facet) :
    Option (Nest Facet) :=
  match dialect.item? ({ lines } : Reading.LogicalLine).text with
  | none => none
  | some .closing => close start ⟨lines⟩ start .nil n
  | some (.node kind formula) => enter ⟨kind, start, stop, formula, ⟨lines⟩, none⟩ n

/-- A node can be entered if it is not the root and, as another branch, finds a branch to continue. -/
theorem enter_eq_some_iff {a : Facet} {n m : Nest Facet} :
    enter a n = some m ↔ a.kind ≠ .root ∧ (a.kind.isContinuation = true → n.continuable = true) ∧
      (if a.kind.annotates then under a .nil n else n.hang (.tree a .nil)) = m := by
  unfold enter
  split
  · next root => simp [root]
  · next root =>
    split
    · next refused =>
      simp only [Bool.and_eq_true, Bool.not_eq_true'] at refused
      simp [refused.1, refused.2]
    · next allowed =>
      simp only [Bool.and_eq_true, Bool.not_eq_true', not_and, Bool.not_eq_false] at allowed
      rw [Option.some.injEq]
      exact ⟨fun h => ⟨root, allowed, h⟩, fun h => h.2.2⟩

/-! ## What a nest prints -/

/-- The lines with which a facet begins. -/
def firstLines (a : Facet) : List String := if a.kind = .root then [] else a.label.lines

/-- The lines with which a facet ends. -/
def lastLines (a : Facet) : List String :=
  if a.kind = .ifBranch then
    match a.closing with
    | some (_, label) => label.lines
    | none => [Printing.plainClosing]
  else []

/-- What a nest of facets prints. -/
def printed (n : Nest Facet) : List String := n.lines firstLines lastLines

theorem printed_close {line stop : Int} {label : Label} {extra : Forest Facet} {n m : Nest Facet}
    (h : close line label stop extra n = some m) :
    m.printed = (n.hang extra).printed ++ label.lines := by
  induction n generalizing stop extra with
  | base a done => cases h
  | under a done rest ih =>
    simp only [close] at h
    have first : firstLines (ended stop line label a) = firstLines a := rfl
    split at h
    · next opens =>
      cases h
      have last : lastLines (ended stop line label a) = label.lines := by
        simp only [lastLines, ended, beq_iff_eq.1 opens, if_true, beq_self_eq_true]
      simp only [printed, lines_hang, Forest.lines_tree, first, last, hang_under, lines_under,
        List.append_assoc]
    · next opens =>
      have last : lastLines (ended stop line label a) = [] :=
        if_neg fun e => opens (beq_iff_eq.2 e)
      rw [ih h]
      simp only [printed, lines_hang, Forest.lines_tree, first, last, hang_under, lines_under,
        List.append_assoc, List.nil_append]

theorem printed_enter {a : Facet} {n m : Nest Facet} (h : enter a n = some m) :
    m.printed = n.printed ++ a.label.lines := by
  unfold enter at h
  split at h
  · cases h
  · next root =>
    split at h
    · cases h
    · have first : firstLines a = a.label.lines := if_neg root
      cases h
      split
      · simp [printed, lines_under, Forest.lines, first]
      · next leaf =>
        have last : lastLines a = [] := if_neg fun e => by simp [e, Kind.annotates] at leaf
        simp [printed, Forest.lines, first, last]

/-- What is put into a nest is printed behind what was there. -/
theorem printed_put {dialect : Dialect} {lines : List String} {start stop : Int}
    {n m : Nest Facet} (h : put dialect lines start stop n = some m) :
    m.printed = n.printed ++ lines := by
  unfold put at h
  split at h
  · cases h
  · simpa using printed_close h
  · exact printed_enter h

/-! ## What the open places decide -/

section Opened

variable {n n' m : Nest Facet} {a b : Facet} {done done' : Forest Facet} {rest : Nest Facet}

theorem opened_base_ne : (base a done).opened ≠ (under b done' rest).opened := by
  intro h
  obtain ⟨os, more⟩ := rest.opened_eq_cons
  rw [opened, opened, more] at h
  cases h

/-- Which places stay open when a chain is closed depends on the open places only. -/
theorem opened_close {line stop stop' : Int} {label : Label} {extra extra' : Forest Facet}
    (same : n.opened = m.opened) (h : n.close line label stop extra = some n') :
    ∃ m', m.close line label stop' extra' = some m' ∧ n'.opened = m'.opened := by
  induction n generalizing m stop stop' extra extra' with
  | base a done => cases h
  | under a done rest ih =>
    cases m with
    | base b done' => exact absurd same.symm opened_base_ne
    | under b done' rest' =>
      obtain ⟨rfl, outer⟩ := List.cons.inj same
      simp only [close] at h ⊢
      split
      · next opens =>
        rw [if_pos opens] at h
        cases h
        exact ⟨_, rfl, by rw [opened_hang, opened_hang, outer]⟩
      · next goesOn =>
        rw [if_neg goesOn] at h
        exact ih outer h

theorem continuable_congr (h : n.opened = m.opened) : n.continuable = m.continuable := by
  cases n with
  | base a done =>
    cases m with
    | base b done' => rfl
    | under b done' rest => exact absurd h opened_base_ne
  | under a done rest =>
    cases m with
    | base b done' => exact absurd h.symm opened_base_ne
    | under b done' rest' =>
      obtain ⟨rfl, -⟩ := List.cons.inj h
      rfl

theorem opened_enter (same : n.opened = m.opened) (h : n.enter a = some n') :
    ∃ m', m.enter a = some m' ∧ n'.opened = m'.opened := by
  obtain ⟨root, allowed, rfl⟩ := enter_eq_some_iff.1 h
  rw [continuable_congr same] at allowed
  refine ⟨_, enter_eq_some_iff.2 ⟨root, allowed, rfl⟩, ?_⟩
  split
  · rw [opened, opened, same]
  · rw [opened_hang, opened_hang, same]

end Opened

end Nest

end Variation
