import Mathlib.Data.List.Pairwise
import Variation.Proofs.Printed

/-!
# What a forest spells

Each place of a forest begins with something, what hangs below it follows, and then it ends. The lines
of a tree are spelled in this way, and so are the places that a walk gives to these lines. What places
do not share, only one of them spells, and two spellings of one forest go along with each other.
-/

namespace Variation.Forest

variable {α β γ : Type}

/-- What a forest spells, from what each place begins and ends with. -/
def spell (first last : α → List β) : Forest α → List β
  | nil => []
  | cons a below rest =>
    first a ++ below.spell first last ++ last a ++ rest.spell first last

variable {first last first' last' : α → List β} {f g : Forest α} {a : α} {b : β}

@[simp] theorem spell_append :
    (f ++ g).spell first last = f.spell first last ++ g.spell first last := by
  induction f with
  | nil => rfl
  | cons a below rest _ ih => simp only [cons_append, spell, ih, List.append_assoc]

@[simp] theorem spell_tree (a : α) :
    (tree a f).spell first last = first a ++ f.spell first last ++ last a := by
  simp [tree, spell]

theorem map_spell (h : β → γ) :
    (f.spell first last).map h = f.spell (fun a => (first a).map h) fun a => (last a).map h := by
  induction f with
  | nil => rfl
  | cons a below rest ihb ihr => simp only [spell, List.map_append, ihb, ihr]

theorem spell_map {first last : γ → List β} (h : α → γ) :
    (f.map h).spell first last = f.spell (fun a => first (h a)) fun a => last (h a) := by
  induction f with
  | nil => rfl
  | cons a below rest ihb ihr => simp only [map, spell, ihb, ihr]

theorem spell_congr (same : ∀ a ∈ f.flatten, first a = first' a ∧ last a = last' a) :
    f.spell first last = f.spell first' last' := by
  induction f with
  | nil => rfl
  | cons a below rest ihb ihr =>
    obtain ⟨here, others⟩ := List.forall_mem_cons.1 same
    obtain ⟨inner, outer⟩ := List.forall_mem_append.1 others
    simp only [spell, here.1, here.2, ihb inner, ihr outer]

theorem lines_eq_spell {first last : α → List String} :
    f.lines first last = f.spell first last := by
  induction f with
  | nil => rfl
  | cons a below rest ihb ihr => simp only [spell, lines, ihb, ihr]

theorem spell_nil_right : f.spell first (fun _ => []) = f.flatten.flatMap first := by
  induction f with
  | nil => rfl
  | cons a below rest ihb ihr =>
    simp only [spell, flatten, ihb, ihr, List.flatMap_cons, List.flatMap_append, List.append_nil,
      List.append_assoc]

/-- A forest spells what its places begin and end with. -/
theorem spell_perm :
    (f.spell first last).Perm (f.flatten.flatMap first ++ f.flatten.flatMap last) := by
  classical
  induction f with
  | nil => exact .refl _
  | cons a below rest ihb ihr =>
    refine List.perm_iff_count.2 fun b => ?_
    have inner := ihb.count_eq b
    have outer := ihr.count_eq b
    simp only [spell, flatten, List.flatMap_cons, List.flatMap_append, List.count_append]
      at inner outer ⊢
    omega

theorem mem_spell : b ∈ f.spell first last ↔ ∃ a ∈ f.flatten, b ∈ first a ∨ b ∈ last a := by
  simp only [spell_perm.mem_iff, List.mem_append, List.mem_flatMap, ← exists_or, ← and_or_left]

/-- If places spell less, so does the forest. -/
theorem spell_sublist (less : ∀ a ∈ f.flatten,
    (first a).Sublist (first' a) ∧ (last a).Sublist (last' a)) :
    (f.spell first last).Sublist (f.spell first' last') := by
  induction f with
  | nil => exact .slnil
  | cons a below rest ihb ihr =>
    obtain ⟨here, others⟩ := List.forall_mem_cons.1 less
    obtain ⟨inner, outer⟩ := List.forall_mem_append.1 others
    exact ((here.1.append (ihb inner)).append here.2).append (ihr outer)

/-- What the places begin with stands in their order. -/
theorem flatMap_sublist_spell : (f.flatten.flatMap first).Sublist (f.spell first last) := by
  rw [← spell_nil_right]
  exact spell_sublist fun a _ => ⟨.refl _, List.nil_sublist _⟩

/-- If all that a forest spells sits somewhere, and the seats of another spelling stand in order, so does
what sits there. -/
theorem pairwise_spell_of {first' last' : α → List γ} {R : β → β → Prop} {S : γ → γ → Prop}
    {P : β → γ → Prop} (order : (f.spell first' last').Pairwise S)
    (lift : ∀ x y i j, P x i → P y j → S i j → R x y)
    (begins : ∀ a ∈ f.flatten, (first a).Pairwise R ∧ ∀ x ∈ first a, ∃ i ∈ first' a, P x i)
    (ends : ∀ a ∈ f.flatten, (last a).Pairwise R ∧ ∀ x ∈ last a, ∃ i ∈ last' a, P x i) :
    (f.spell first last).Pairwise R := by
  have join {xs ys : List β} {is js : List γ} (hxs : xs.Pairwise R ∧ ∀ x ∈ xs, ∃ i ∈ is, P x i)
      (hys : ys.Pairwise R ∧ ∀ y ∈ ys, ∃ j ∈ js, P y j) (order : (is ++ js).Pairwise S) :
      (xs ++ ys).Pairwise R ∧ ∀ x ∈ xs ++ ys, ∃ i ∈ is ++ js, P x i := by
    refine ⟨List.pairwise_append.2 ⟨hxs.1, hys.1, fun x hx y hy => ?_⟩, fun x hx => ?_⟩
    · obtain ⟨i, hi, onx⟩ := hxs.2 x hx
      obtain ⟨j, hj, ony⟩ := hys.2 y hy
      exact lift x y i j onx ony ((List.pairwise_append.1 order).2.2 i hi j hj)
    · obtain hx | hx := List.mem_append.1 hx
      · exact (hxs.2 x hx).imp fun i hi => ⟨List.mem_append_left _ hi.1, hi.2⟩
      · exact (hys.2 x hx).imp fun i hi => ⟨List.mem_append_right _ hi.1, hi.2⟩
  suffices all : (f.spell first last).Pairwise R ∧
      ∀ x ∈ f.spell first last, ∃ i ∈ f.spell first' last', P x i from all.1
  induction f with
  | nil => exact ⟨.nil, fun x hx => absurd hx List.not_mem_nil⟩
  | cons a below rest ihb ihr =>
    obtain ⟨begin, others⟩ := List.forall_mem_cons.1 begins
    obtain ⟨inner, outer⟩ := List.forall_mem_append.1 others
    obtain ⟨finish, others⟩ := List.forall_mem_cons.1 ends
    obtain ⟨inner', outer'⟩ := List.forall_mem_append.1 others
    simp only [spell] at order ⊢
    obtain ⟨front, behind, -⟩ := List.pairwise_append.1 order
    obtain ⟨front', -, -⟩ := List.pairwise_append.1 front
    obtain ⟨-, middle, -⟩ := List.pairwise_append.1 front'
    exact join (join (join begin (ihb middle inner inner') front') finish front)
      (ihr behind outer outer') order

/-- If nothing is spelled twice, it comes from one place. -/
theorem eq_of_mem_spell (different : (f.spell first last).Nodup) {a' : α}
    (ha : a ∈ f.flatten) (ha' : a' ∈ f.flatten) (hb : b ∈ first a ++ last a)
    (hb' : b ∈ first a' ++ last a') : a = a' := by
  by_contra other
  have perm : (f.spell first last).Perm (f.flatten.flatMap fun a => first a ++ last a) :=
    spell_perm.trans (List.flatMap_append_perm ..)
  have apart := (List.nodup_flatMap.1 (perm.nodup_iff.1 different)).2
  have : Std.Symm fun a a' => List.Disjoint (first a ++ last a) (first a' ++ last a') :=
    ⟨fun _ _ => List.Disjoint.symm⟩
  exact apart.forall ha ha' other hb hb'

end Variation.Forest
