import Variation.Proofs.Greedy

/-!
# Aligning lists that have one element in common

Each place of the table holds the best alignment of the ends of the two lists that begin there, so the
best alignment of two lists is told by those of shorter ones. Where all elements that are alike are
like one element of either list, at most one pair is found. Of several elements of the second list
that are like one of the first list, the first one is taken. Of several elements of the first list
that are like one of the second list, the last one is taken, unless that one begins its list.
-/

namespace Variation.Matching

namespace Alignment

variable {α β : Type} {like : α → β → Bool} {x i : α} {y j : β} {xs as bs : List α} {ys cs ds : List β}

/-! ## The table and its rest -/

/-- The alignments of a list with every rest of another one. -/
def table (like : α → β → Bool) (xs : List α) (ys : List β) : List (Alignment α β) :=
  xs.foldr (fun x below => row like x ys below) (List.replicate (ys.length + 1) nil)

theorem row_cons {b b' : Alignment α β} {below : List (Alignment α β)} :
    row like x (y :: ys) (b :: b' :: below) =
      (if like x y then cons (x, y) b'
        else if ((row like x ys (b' :: below)).headD nil).length ≤ b.length then b
        else (row like x ys (b' :: below)).headD nil) :: row like x ys (b' :: below) := rfl

theorem table_nil : table like xs ([] : List β) = [nil] := by
  induction xs with
  | nil => rfl
  | cons x xs ih =>
    show row like x [] (table like xs []) = [nil]
    rw [ih]
    rfl

/-- The table begins with the best alignment of the whole lists. -/
theorem exists_table (like : α → β → Bool) (xs : List α) (ys : List β) :
    ∃ rest, table like xs ys = longest like xs ys :: rest := by
  have some : table like xs ys ≠ [] := by
    cases xs with
    | nil => exact List.cons_ne_nil _ _
    | cons x xs =>
      show row like x ys (table like xs ys) ≠ []
      rw [row]
      cases ys.zip ((table like xs ys).zip (table like xs ys).tail) <;> exact List.cons_ne_nil _ _
  obtain ⟨a, rest, listed⟩ := List.exists_cons_of_ne_nil some
  have first : longest like xs ys = a := by
    show (table like xs ys).headD nil = a
    rw [listed]
    rfl
  exact ⟨rest, first ▸ listed⟩

/-- What is behind the first column is the table for the rest of the second list. -/
theorem table_cons : table like xs (y :: ys) = longest like xs (y :: ys) :: table like xs ys := by
  induction xs with
  | nil => rfl
  | cons x xs ih =>
    obtain ⟨rest, listed⟩ := exists_table like xs ys
    have below : (table like (x :: xs) (y :: ys)).tail = table like (x :: xs) ys := by
      show (row like x (y :: ys) (table like xs (y :: ys))).tail = row like x ys (table like xs ys)
      rw [ih, listed, row_cons]
      rfl
    obtain ⟨rest', listed'⟩ := exists_table like (x :: xs) (y :: ys)
    rw [← below, listed']
    rfl

theorem longest_nil_right : longest like xs [] = nil := by
  show (table like xs []).headD nil = nil
  rw [table_nil]
  rfl

/-- The best alignment of two lists is that of their rests with the first elements in front, if they are
alike, and else the better one of those in which one of them is left out. -/
theorem longest_cons : longest like (x :: xs) (y :: ys) =
    if like x y then cons (x, y) (longest like xs ys)
    else if (longest like (x :: xs) ys).length ≤ (longest like xs (y :: ys)).length then
      longest like xs (y :: ys)
    else longest like (x :: xs) ys := by
  obtain ⟨rest, listed⟩ := exists_table like xs ys
  have here : table like (x :: xs) (y :: ys) = row like x (y :: ys) (table like xs (y :: ys)) := rfl
  have right : longest like (x :: xs) ys = (row like x ys (longest like xs ys :: rest)).headD nil := by
    rw [← listed]
    rfl
  rw [table_cons, table_cons, listed, row_cons, ← right] at here
  exact (List.cons.inj here).1

/-! ## What is left out -/

/-- The elements that are paired stand in the order of their lists. -/
theorem sublist_longest (like : α → β → Bool) (xs : List α) (ys : List β) :
    ((longest like xs ys).pairs.map Prod.fst).Sublist xs ∧
      ((longest like xs ys).pairs.map Prod.snd).Sublist ys ∧
      (longest like xs ys).length = (longest like xs ys).pairs.length := by
  induction xs generalizing ys with
  | nil => exact ⟨List.Sublist.refl _, List.nil_sublist _, rfl⟩
  | cons x xs ihx =>
    induction ys with
    | nil =>
      rw [longest_nil_right]
      exact ⟨List.nil_sublist _, List.Sublist.refl _, rfl⟩
    | cons y ys ihy =>
      rw [longest_cons]
      split
      · obtain ⟨left, right, length⟩ := ihx ys
        exact ⟨left.cons_cons x, right.cons_cons y, congrArg (· + 1) length⟩
      · split
        · obtain ⟨left, right, length⟩ := ihx (y :: ys)
          exact ⟨left.cons x, right, length⟩
        · obtain ⟨left, right, length⟩ := ihy
          exact ⟨left, right.cons y, length⟩

/-- Lists in which nothing is alike have nothing to align. -/
theorem longest_eq_nil (apart : ∀ x ∈ xs, ∀ y ∈ ys, ¬ like x y = true) : longest like xs ys = nil := by
  have none : (longest like xs ys).pairs = [] := by
    refine List.eq_nil_iff_forall_not_mem.2 fun p hp => ?_
    exact all_longest (R := fun _ _ => False) (fun x hx y hy like => apart x hx y hy like) p hp
  have length := (sublist_longest like xs ys).2.2
  rw [none] at length
  cases found : longest like xs ys with
  | mk n ps =>
    rw [found] at none length
    exact congr (congrArg Alignment.mk length) none

/-- Elements without duplicates that are all the same are one at most. -/
theorem length_le_one_of_sublist {γ δ : Type} {zs : List γ} {z : γ} {ps : List δ} {f : δ → γ}
    (once : zs.Nodup) (sub : (ps.map f).Sublist zs) (same : ∀ p ∈ ps, f p = z) : ps.length ≤ 1 := by
  have all : ps.map f = List.replicate ps.length z :=
    List.eq_replicate_iff.2 ⟨List.length_map f, List.forall_mem_map.2 same⟩
  exact List.nodup_replicate.1 (all ▸ sub.nodup once)

/-- All elements that are alike are like one of the first list, or like one of the second list. -/
def Common (like : α → β → Bool) (xs : List α) (ys : List β) (i : α) (j : β) : Prop :=
  (∀ x ∈ xs, ∀ y ∈ ys, like x y = true → x = i) ∨ ∀ x ∈ xs, ∀ y ∈ ys, like x y = true → y = j

/-- So it is if each pair of elements that are alike shares one of them with a pair that is given. -/
theorem Common.of_shared (alike : like i j = true)
    (shared : ∀ x ∈ xs, ∀ y ∈ ys, like x y = true → x = i ∨ y = j)
    (zigzag : ∀ x y, like x j = true → like i j = true → like i y = true → like x y = true) :
    Common like xs ys i j := by
  rw [Common, or_iff_not_imp_left]
  intro several x' hx' y hy like'
  push Not at several
  obtain ⟨x, hx, y₀, hy₀, like₀, other⟩ := several
  obtain rfl : y₀ = j := (shared x hx y₀ hy₀ like₀).resolve_left other
  obtain rfl | here := shared x' hx' y hy like'
  · exact (shared x hx y hy (zigzag x y like₀ alike like')).resolve_left other
  · exact here

theorem Common.sublist {xs' : List α} {ys' : List β} (h : Common like xs ys i j)
    (sub : xs'.Sublist xs) (sub' : ys'.Sublist ys) : Common like xs' ys' i j :=
  h.imp (fun same x hx y hy => same x (sub.subset hx) y (sub'.subset hy))
    fun same x hx y hy => same x (sub.subset hx) y (sub'.subset hy)

/-- Then one pair is found at most. -/
theorem Common.length_le_one (h : Common like xs ys i j) (once : xs.Nodup) (once' : ys.Nodup) :
    (longest like xs ys).length ≤ 1 := by
  obtain ⟨left, right, length⟩ := sublist_longest like xs ys
  rw [length]
  obtain same | same := h
  · exact length_le_one_of_sublist once left (all_longest (R := fun x _ => x = i) same)
  · exact length_le_one_of_sublist once' right (all_longest (R := fun _ y => y = j) same)

/-- Elements of the first list that are unlike the first one of the second list are left out, if a pair is
found without them. -/
theorem longest_append (h : Common like (as ++ xs) (y :: ys) i j) (once : (as ++ xs).Nodup)
    (once' : (y :: ys).Nodup) (found : 1 ≤ (longest like xs (y :: ys)).length)
    (unlike : ∀ a ∈ as, ¬ like a y = true) :
    longest like (as ++ xs) (y :: ys) = longest like xs (y :: ys) := by
  induction as with
  | nil => rfl
  | cons a as ih =>
    obtain ⟨here, unlike⟩ := List.forall_mem_cons.1 unlike
    have tail := List.sublist_cons_self a (as ++ xs)
    have rest := ih (h.sublist tail (List.Sublist.refl _)) (tail.nodup once) unlike
    have few := (h.sublist (List.Sublist.refl _) (List.sublist_cons_self y ys)).length_le_one once
      (List.nodup_cons.1 once').2
    rw [List.cons_append] at few ⊢
    rw [longest_cons, if_neg here, rest, if_pos (Nat.le_trans few found)]

/-- If nothing behind an element is like anything, it is paired with the first one that is like it. -/
theorem longest_of_last (alike : like i j = true) (unlike : ∀ c ∈ cs, ¬ like i c = true)
    (apart : ∀ b ∈ bs, ∀ y ∈ cs ++ j :: ds, ¬ like b y = true) :
    longest like (i :: bs) (cs ++ j :: ds) = ⟨1, [(i, j)]⟩ := by
  induction cs with
  | nil =>
    rw [List.nil_append] at apart ⊢
    rw [longest_cons, if_pos alike, longest_eq_nil fun b hb y hy => apart b hb y (List.mem_cons_of_mem j hy)]
    rfl
  | cons c cs ih =>
    obtain ⟨here, unlike⟩ := List.forall_mem_cons.1 unlike
    have rest := ih unlike fun b hb y hy => apart b hb y (List.mem_cons_of_mem c hy)
    rw [List.cons_append] at apart ⊢
    rw [longest_cons, if_neg here, longest_eq_nil apart, rest]
    rfl

end Alignment

namespace Greedy

variable {like : Nat → Nat → Bool} {ls rs as bs cs ds : List Nat} {i j : Nat}

/-- Where the first elements are unlike, all depends on the size of the table. -/
theorem align_of_unlike {l r : Nat} (unlike : ¬ like l r = true) : align like (l :: ls) (r :: rs) =
    if (l :: ls).length * (r :: rs).length ≤ tableLimit then
      (Alignment.longest like (l :: ls) (r :: rs)).pairs
    else [] := by
  rw [align, commonStart, if_neg unlike]
  rfl

/-- Like elements at the beginning are paired. -/
theorem align_cons {l r : Nat} (alike : like l r = true) :
    align like (l :: ls) (r :: rs) = (l, r) :: align like ls rs := by
  rw [align, commonStart, if_pos alike, align]
  dsimp only
  split <;> rfl

theorem align_eq_nil (apart : ∀ l ∈ ls, ∀ r ∈ rs, ¬ like l r = true) : align like ls rs = [] := by
  refine List.eq_nil_iff_forall_not_mem.2 fun p hp => ?_
  exact align_spec (R := fun _ _ => False) (fun l hl r hr like => apart l hl r hr like) p hp

/-- Which of several like elements are taken: the first one of the second list; and of the first list the
first one too, if the element that they are like begins the second list or the table is too large, and
the last one else. -/
def Takes (like : Nat → Nat → Bool) (ls rs : List Nat) (i j : Nat) : Prop :=
  ∀ l ∈ ls, ∀ r ∈ rs, like l r = true → (l = i ∧ j ≤ r) ∨
    (r = j ∧ if rs.head? = some j ∨ tableLimit < ls.length * rs.length then i ≤ l else l ≤ i)

/-- An element that begins the second list is aligned with the first one that is like it. -/
theorem align_of_first (common : Alignment.Common like (as ++ i :: bs) (j :: ds) i j)
    (once : (as ++ i :: bs).Nodup) (once' : (j :: ds).Nodup) (alike : like i j = true)
    (unlike : ∀ a ∈ as, ¬ like a j = true) (apart : ∀ b ∈ bs, ∀ d ∈ ds, ¬ like b d = true) :
    align like (as ++ i :: bs) (j :: ds) = [(i, j)] ∨
      tableLimit < (as ++ i :: bs).length * (j :: ds).length ∧
        align like (as ++ i :: bs) (j :: ds) = [] := by
  have here : Alignment.longest like (i :: bs) (j :: ds) = ⟨1, [(i, j)]⟩ := by
    rw [Alignment.longest_cons, if_pos alike, Alignment.longest_eq_nil apart]
    rfl
  have whole := Alignment.longest_append common once once' (by rw [here]) unlike
  cases as with
  | nil =>
    left
    rw [List.nil_append, align_cons alike, align_eq_nil apart]
  | cons a as =>
    rw [List.cons_append] at whole ⊢
    rw [align_of_unlike (unlike a List.mem_cons_self), whole, here]
    split
    · exact .inl rfl
    · next large => exact .inr ⟨Nat.not_le.1 large, rfl⟩

/-- An element behind others is aligned with the last one that is like it. -/
theorem align_of_last {c : Nat} (common : Alignment.Common like (as ++ i :: bs) (c :: cs ++ j :: ds) i j)
    (once : (as ++ i :: bs).Nodup) (once' : (c :: cs ++ j :: ds).Nodup) (alike : like i j = true)
    (unlike : ∀ l ∈ as ++ i :: bs, ∀ c' ∈ c :: cs, ¬ like l c' = true)
    (apart : (as ++ i :: bs).length * (c :: cs ++ j :: ds).length ≤ tableLimit →
      ∀ b ∈ bs, ∀ r ∈ c :: cs ++ j :: ds, ¬ like b r = true) :
    align like (as ++ i :: bs) (c :: cs ++ j :: ds) = [(i, j)] ∨
      tableLimit < (as ++ i :: bs).length * (c :: cs ++ j :: ds).length ∧
        align like (as ++ i :: bs) (c :: cs ++ j :: ds) = [] := by
  obtain ⟨l, ls, listed⟩ : ∃ l ls, as ++ i :: bs = l :: ls := List.exists_cons_of_ne_nil (by simp)
  have first : ¬ like l c = true := unlike l (listed ▸ List.mem_cons_self) c List.mem_cons_self
  have table : align like (l :: ls) (c :: (cs ++ j :: ds)) = _ := align_of_unlike first
  rw [← listed, ← List.cons_append] at table
  rw [table]
  split
  · next fits =>
    have here := Alignment.longest_of_last alike (unlike i (by simp)) (apart fits)
    rw [List.cons_append] at common once' here ⊢
    rw [Alignment.longest_append common once once' (by rw [here])
      fun a ha => unlike a (List.mem_append_left _ ha) c List.mem_cons_self, here]
    exact .inl rfl
  · next large => exact .inr ⟨Nat.not_le.1 large, rfl⟩

/-- If two elements are alike, and all others are unlike any but one of the two, then what is aligned are
these two, if they are taken and the table is not too large. -/
theorem align_of_takes (order : ls.Pairwise (· < ·)) (order' : rs.Pairwise (· < ·)) (hi : i ∈ ls)
    (hj : j ∈ rs) (alike : like i j = true) (common : Alignment.Common like ls rs i j)
    (takes : Takes like ls rs i j) :
    align like ls rs = [(i, j)] ∨ tableLimit < ls.length * rs.length ∧ align like ls rs = [] := by
  obtain ⟨as, bs, rfl⟩ := List.append_of_mem hi
  obtain ⟨cs, ds, rfl⟩ := List.append_of_mem hj
  have once : (as ++ i :: bs).Nodup := order.imp Nat.ne_of_lt
  have once' : (cs ++ j :: ds).Nodup := order'.imp Nat.ne_of_lt
  obtain ⟨-, inner, before⟩ := List.pairwise_append.1 order
  obtain ⟨-, inner', before'⟩ := List.pairwise_append.1 order'
  have behind := (List.pairwise_cons.1 inner).1
  have behind' := (List.pairwise_cons.1 inner').1
  cases cs with
  | nil =>
    have leads : ([] ++ j :: ds).head? = some j := rfl
    simp only [Takes, leads, true_or, if_true] at takes
    refine align_of_first common once once' alike (fun a ha like => ?_) fun b hb d hd like => ?_
    · have less : a < i := before a ha i List.mem_cons_self
      obtain ⟨rfl, -⟩ | ⟨-, le⟩ := takes a (by simp [ha]) j (by simp) like
      · exact Nat.lt_irrefl _ less
      · exact Nat.not_lt.2 le less
    · obtain ⟨rfl, -⟩ | ⟨rfl, -⟩ := takes b (by simp [hb]) d (by simp [hd]) like
      · exact Nat.lt_irrefl _ (behind b hb)
      · exact Nat.lt_irrefl _ (behind' d hd)
  | cons c cs =>
    have less : ∀ c' ∈ c :: cs, c' < j := fun c' hc => before' c' hc j List.mem_cons_self
    have unlike : ∀ l ∈ as ++ i :: bs, ∀ c' ∈ c :: cs, ¬ like l c' = true := fun l hl c' hc like => by
      obtain ⟨-, le⟩ | ⟨rfl, -⟩ := takes l hl c' (List.mem_append_left _ hc) like
      · exact Nat.not_lt.2 le (less c' hc)
      · exact Nat.lt_irrefl _ (less c' hc)
    refine align_of_last common once once' alike unlike fun fits b hb r hr like => ?_
    have waits : (c :: cs ++ j :: ds).head? ≠ some j := fun e =>
      Nat.ne_of_lt (less c List.mem_cons_self) (Option.some.inj e)
    have later : i < b := behind b hb
    obtain ⟨rfl, -⟩ | ⟨-, le⟩ := takes b (by simp [hb]) r hr like
    · exact Nat.lt_irrefl _ later
    · rw [if_neg (not_or.2 ⟨waits, Nat.not_lt.2 fits⟩)] at le
      exact Nat.not_lt.2 le later

/-- A list with an element has a least one. -/
theorem exists_least {xs : List Nat} {x : Nat} (hx : x ∈ xs) : ∃ a ∈ xs, ∀ b ∈ xs, a ≤ b := by
  obtain ⟨a, least⟩ := Option.isSome_iff_exists.1 (List.isSome_min?_of_mem hx)
  exact ⟨a, List.min?_eq_some_iff.1 least⟩

theorem exists_greatest {xs : List Nat} {x : Nat} (hx : x ∈ xs) : ∃ a ∈ xs, ∀ b ∈ xs, b ≤ a := by
  obtain ⟨a, greatest⟩ := Option.isSome_iff_exists.1 (List.isSome_max?_of_mem hx)
  exact ⟨a, List.max?_eq_some_iff.1 greatest⟩

/-- If the elements that are alike have one in common, one of the pairs is taken. -/
theorem exists_takes (hi : i ∈ ls) (hj : j ∈ rs) (alike : like i j = true)
    (common : Alignment.Common like ls rs i j) : ∃ i' ∈ ls, ∃ j' ∈ rs, like i' j' = true ∧
      Alignment.Common like ls rs i' j' ∧ Takes like ls rs i' j' := by
  obtain same | same := common
  · obtain ⟨j', hj', least⟩ := exists_least (List.mem_filter.2 ⟨hj, alike⟩)
    rw [List.mem_filter] at hj'
    refine ⟨i, hi, j', hj'.1, hj'.2, .inl same, fun l hl r hr like' => .inl ?_⟩
    obtain rfl := same l hl r hr like'
    exact ⟨rfl, least r (List.mem_filter.2 ⟨hr, like'⟩)⟩
  · have listed : i ∈ ls.filter (like · j) := List.mem_filter.2 ⟨hi, alike⟩
    by_cases front : rs.head? = some j ∨ tableLimit < ls.length * rs.length
    · obtain ⟨i', hi', least⟩ := exists_least listed
      rw [List.mem_filter] at hi'
      refine ⟨i', hi'.1, j, hj, hi'.2, .inr same, fun l hl r hr like' => .inr ?_⟩
      obtain rfl := same l hl r hr like'
      rw [if_pos front]
      exact ⟨rfl, least l (List.mem_filter.2 ⟨hl, like'⟩)⟩
    · obtain ⟨i', hi', greatest⟩ := exists_greatest listed
      rw [List.mem_filter] at hi'
      refine ⟨i', hi'.1, j, hj, hi'.2, .inr same, fun l hl r hr like' => .inr ?_⟩
      obtain rfl := same l hl r hr like'
      rw [if_neg front]
      exact ⟨rfl, greatest l (List.mem_filter.2 ⟨hl, like'⟩)⟩

/-- Of elements that are alike and have one in common, those are aligned that are taken; if none are, the
table is too large. -/
theorem align_cases (order : ls.Pairwise (· < ·)) (order' : rs.Pairwise (· < ·)) (hi : i ∈ ls)
    (hj : j ∈ rs) (alike : like i j = true) (common : Alignment.Common like ls rs i j) :
    (∃ i' j', align like ls rs = [(i', j')] ∧ Takes like ls rs i' j') ∨
      tableLimit < ls.length * rs.length ∧ align like ls rs = [] := by
  obtain ⟨i', hi', j', hj', alike', common', takes⟩ := exists_takes hi hj alike common
  exact (align_of_takes order order' hi' hj' alike' common' takes).imp_left
    fun aligned => ⟨i', j', aligned, takes⟩

end Greedy

end Variation.Matching
