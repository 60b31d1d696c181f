import Variation.Diff.Walk
import Mathlib.Data.List.Nodup

/-!
# Ordered forests

A tree of a diff is compared and printed as a forest: the first tree with what hangs below its root,
and the trees behind it. Everything about a forest is told by recursion on this shape.
-/

namespace Variation

/-- An ordered forest: the root of the first tree, what hangs below it, and the trees behind it. -/
inductive Forest (α : Type) where
  | nil
  | cons (a : α) (below rest : Forest α)
  deriving DecidableEq

namespace Forest

variable {α β γ : Type}

/-- The roots of the trees, in order. -/
def roots : Forest α → List α
  | nil => []
  | cons a _ rest => a :: rest.roots

/-- All places, each before what hangs below it. -/
def flatten : Forest α → List α
  | nil => []
  | cons a below rest => a :: (below.flatten ++ rest.flatten)

/-- The forest with a function applied everywhere. -/
def map (f : α → β) : Forest α → Forest β
  | nil => nil
  | cons a below rest => cons (f a) (below.map f) (rest.map f)

/-- The trees of one forest and then those of another. -/
def append : Forest α → Forest α → Forest α
  | nil, g => g
  | cons a below rest, g => cons a below (rest.append g)

instance : Append (Forest α) := ⟨append⟩

/-- The forest with a function applied to its last root. -/
def atEnd (f : α → α) : Forest α → Forest α
  | nil => nil
  | cons a below nil => cons (f a) below nil
  | cons a below (cons b inner rest) => cons a below (atEnd f (cons b inner rest))

/-- One tree. -/
def tree (a : α) (below : Forest α) : Forest α := cons a below nil

@[simp] theorem nil_append (f : Forest α) : nil ++ f = f := rfl

@[simp] theorem cons_append (a : α) (below rest f : Forest α) :
    cons a below rest ++ f = cons a below (rest ++ f) := rfl

@[simp] theorem append_nil (f : Forest α) : f ++ nil = f := by
  induction f with
  | nil => rfl
  | cons a below rest _ ih => rw [cons_append, ih]

@[simp] theorem roots_append (f g : Forest α) : (f ++ g).roots = f.roots ++ g.roots := by
  induction f with
  | nil => rfl
  | cons a below rest _ ih => simp only [cons_append, roots, ih, List.cons_append]

@[simp] theorem flatten_append (f g : Forest α) : (f ++ g).flatten = f.flatten ++ g.flatten := by
  induction f with
  | nil => rfl
  | cons a below rest _ ih =>
    simp only [cons_append, flatten, ih, List.cons_append, List.append_assoc]

/-- Steps that are enough for a forest are enough for its first root, what hangs below that, and the
rest. -/
theorem length_flatten_cons_add (a : α) (below rest : Forest α) (steps : Nat) :
    (cons a below rest).flatten.length + steps =
      below.flatten.length + (rest.flatten.length + steps) + 1 := by
  simp only [flatten, List.length_cons, List.length_append]
  omega

/-- A walk that lists what it meets backwards puts a tree in front of what it met before. -/
theorem reverse_flatten_cons (a : α) (below rest : Forest α) (met : List α) :
    (cons a below rest).flatten.reverse ++ met =
      rest.flatten.reverse ++ (below.flatten.reverse ++ a :: met) := by
  simp only [flatten, List.reverse_cons, List.reverse_append, List.append_assoc, List.cons_append,
    List.nil_append]

@[simp] theorem map_append (f : α → β) (g h : Forest α) : (g ++ h).map f = g.map f ++ h.map f := by
  induction g with
  | nil => rfl
  | cons a below rest _ ih => simp only [cons_append, map, ih]

@[simp] theorem roots_map (f : α → β) (g : Forest α) : (g.map f).roots = g.roots.map f := by
  induction g with
  | nil => rfl
  | cons a below rest _ ih => simp only [map, roots, ih, List.map_cons]

@[simp] theorem flatten_map (f : α → β) (g : Forest α) :
    (g.map f).flatten = g.flatten.map f := by
  induction g with
  | nil => rfl
  | cons a below rest ihb ihr => simp only [map, flatten, ihb, ihr, List.map_cons, List.map_append]

theorem mem_flatten_map {g : α → β} {f : Forest α} {b : β} :
    b ∈ (f.map g).flatten ↔ ∃ a ∈ f.flatten, g a = b := by
  rw [flatten_map, List.mem_map]

theorem mem_flatten_map_of_mem (g : α → β) {f : Forest α} {a : α} (h : a ∈ f.flatten) :
    g a ∈ (f.map g).flatten :=
  mem_flatten_map.2 ⟨a, h, rfl⟩

theorem cons_flatten_map (g : α → β) (a : α) (f : Forest α) :
    g a :: (f.map g).flatten = (a :: f.flatten).map g := by
  rw [flatten_map, List.map_cons]

@[simp] theorem roots_tree (a : α) (below : Forest α) : (tree a below).roots = [a] := rfl

@[simp] theorem flatten_tree (a : α) (below : Forest α) :
    (tree a below).flatten = a :: below.flatten := by
  simp [tree, flatten]

@[simp] theorem map_tree (f : α → β) (a : α) (below : Forest α) :
    (tree a below).map f = tree (f a) (below.map f) := rfl

@[simp] theorem atEnd_append (f : α → α) (g : Forest α) (a : α) (below : Forest α) :
    (g ++ tree a below).atEnd f = g ++ tree (f a) below := by
  induction g with
  | nil => rfl
  | cons b inner rest _ ih =>
    cases rest with
    | nil => rfl
    | cons c deeper rest =>
      rw [cons_append] at ih ⊢
      rw [cons_append, atEnd, ih]
      rfl

theorem map_map (g : β → γ) (f : α → β) (h : Forest α) : (h.map f).map g = h.map (g ∘ f) := by
  induction h with
  | nil => rfl
  | cons a below rest ihb ihr => simp only [map, ihb, ihr, Function.comp_apply]

theorem map_id (f : Forest α) : (f.map fun a => a) = f := by
  induction f with
  | nil => rfl
  | cons a below rest ihb ihr => rw [map, ihb, ihr]

theorem map_congr {f g : α → β} {h : Forest α} (e : ∀ a ∈ h.flatten, f a = g a) :
    h.map f = h.map g := by
  induction h with
  | nil => rfl
  | cons a below rest ihb ihr =>
    simp only [flatten, List.mem_cons, List.mem_append] at e
    simp only [map, e a (.inl rfl), ihb fun b hb => e b (.inr (.inl hb)),
      ihr fun b hb => e b (.inr (.inr hb))]

theorem mem_flatten_of_mem_roots {a : α} {f : Forest α} (h : a ∈ f.roots) : a ∈ f.flatten := by
  induction f with
  | nil => cases h
  | cons b below rest _ ih =>
    obtain rfl | h := List.mem_cons.1 h
    · exact List.mem_cons_self
    · exact List.mem_cons_of_mem _ (List.mem_append_right _ (ih h))

end Forest

end Variation
