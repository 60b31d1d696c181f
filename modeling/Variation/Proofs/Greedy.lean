import Variation.Proofs.Digests
import Variation.Proofs.Pairs

/-!
# What the greedy matcher adds

Every phase of the greedy matcher only adds pairs of entries that are alike, provided that equal
digests come from subtrees of one shape. So it never breaks the contract, whatever pairs of one kind
it is given. It also leaves nothing to add: no unpaired children of paired entries are alike, and no
two unpaired entries have a digest that no other entry has.
-/

namespace Variation.Matching

/-- A matching that has grown by some pairs. -/
structure Grows (new : Nat → Nat → Prop) (m m' : Matching) : Prop where
  keeps : ∀ i j, m.dst? i = some j → m'.dst? i = some j
  added : ∀ i j, m'.dst? i = some j → m.dst? i = some j ∨ new i j

section Grows

variable {new new' : Nat → Nat → Prop} {m m' m'' : Matching} {i j : Nat}

theorem hasSrc_eq (m : Matching) (i : Nat) : m.hasSrc i = (m.dst? i).isSome :=
  Std.TreeMap.contains_eq_isSome_getElem?

theorem hasDst_eq (m : Matching) (j : Nat) : m.hasDst j = (m.src? j).isSome :=
  Std.TreeMap.contains_eq_isSome_getElem?

theorem not_hasSrc : (!m.hasSrc i) = true ↔ m.dst? i = none := by
  rw [hasSrc_eq, Bool.not_eq_true', Option.isSome_eq_false_iff, Option.isNone_iff_eq_none]

theorem not_hasDst : (!m.hasDst j) = true ↔ m.src? j = none := by
  rw [hasDst_eq, Bool.not_eq_true', Option.isSome_eq_false_iff, Option.isNone_iff_eq_none]

theorem add_of_taken (h : ¬ (m.dst? i = none ∧ m.src? j = none)) : m.add i j = m := by
  rw [add, dif_neg h]

namespace Grows

theorem refl : m.Grows new m := ⟨fun _ _ h => h, fun _ _ h => .inl h⟩

theorem trans (h : m.Grows new m') (h' : m'.Grows new m'') : m.Grows new m'' :=
  ⟨fun i j hi => h'.keeps i j (h.keeps i j hi),
    fun i j hi => (h'.added i j hi).elim (h.added i j) .inr⟩

theorem mono (h : m.Grows new m') (weaker : ∀ i j, new i j → new' i j) : m.Grows new' m' :=
  ⟨h.keeps, fun i j hi => (h.added i j hi).imp_right (weaker i j)⟩

/-- What is unpaired was unpaired. -/
theorem free_src (h : m.Grows new m') (hi : m'.dst? i = none) : m.dst? i = none := by
  cases had : m.dst? i with
  | none => rfl
  | some j =>
    rw [h.keeps i j had] at hi
    cases hi

theorem free_dst (h : m.Grows new m') (hj : m'.src? j = none) : m.src? j = none := by
  cases had : m.src? j with
  | none => rfl
  | some i =>
    rw [(m'.dst?_iff i j).1 (h.keeps i j ((m.dst?_iff i j).2 had))] at hj
    cases hj

end Grows

theorem grows_add (h : new i j) : m.Grows new (m.add i j) := by
  refine ⟨fun x y hx => ?_, fun x y hx => ?_⟩
  · rw [dst?_add, if_neg]
    · exact hx
    · rintro ⟨rfl, hi, -⟩
      rw [hi] at hx
      cases hx
  · rw [dst?_add] at hx
    split at hx
    · next e =>
      obtain rfl := Option.some.inj hx
      exact .inr (e.1 ▸ h)
    · exact .inl hx

/-- A side of an added pair is taken. -/
theorem taken_add (m : Matching) (i j : Nat) :
    (m.add i j).dst? i ≠ none ∨ (m.add i j).src? j ≠ none := by
  by_cases free : m.dst? i = none ∧ m.src? j = none
  · left
    rw [dst?_add, if_pos ⟨rfl, free⟩]
    simp
  · rw [add_of_taken free]
    exact not_and_or.1 free

theorem grows_addAll {ps : List (Nat × Nat)} (h : ∀ p ∈ ps, new p.1 p.2) :
    m.Grows new (m.addAll ps) := by
  induction ps generalizing m with
  | nil => exact .refl
  | cons p ps ih =>
    obtain ⟨here, rest⟩ := List.forall_mem_cons.1 h
    exact (grows_add here).trans (ih rest)

/-- Steps that let a matching grow do so one after the other, and what each achieves stays. -/
theorem grows_foldl {step : Matching → Nat → Matching} {Done : Nat → Matching → Prop}
    {is : List Nat} (grows : ∀ i ∈ is, ∀ m, m.Grows new (step m i) ∧ Done i (step m i))
    (stays : ∀ i m m', m.Grows new m' → Done i m → Done i m') :
    m.Grows new (is.foldl step m) ∧ ∀ i ∈ is, Done i (is.foldl step m) := by
  induction is generalizing m with
  | nil => exact ⟨.refl, by simp⟩
  | cons i is ih =>
    obtain ⟨here, rest⟩ := List.forall_mem_cons.1 grows
    obtain ⟨first, done⟩ := here m
    obtain ⟨others, all⟩ := ih rest
    exact ⟨first.trans others, List.forall_mem_cons.2 ⟨stays i _ _ others done, all⟩⟩

end Grows

/-! ## Aligning two lists -/

namespace Alignment

variable {α β : Type} {like : α → β → Bool} {R : α → β → Prop} {x : α} {xs : List α} {ys : List β}

/-- All pairs of an alignment are in a relation. -/
def All (R : α → β → Prop) (a : Alignment α β) : Prop := ∀ p ∈ a.pairs, R p.1 p.2

theorem all_nil : (nil : Alignment α β).All R := fun p hp => by cases hp

theorem all_headD {as : List (Alignment α β)} (h : ∀ a ∈ as, a.All R) : (as.headD nil).All R := by
  cases as with
  | nil => exact all_nil
  | cons a as => exact h a List.mem_cons_self

theorem all_row {below : List (Alignment α β)} (hx : ∀ y ∈ ys, like x y = true → R x y)
    (h : ∀ a ∈ below, a.All R) : ∀ a ∈ row like x ys below, a.All R := by
  have parts : ∀ z ∈ ys.zip (below.zip below.tail), z.1 ∈ ys ∧ z.2.1.All R ∧ z.2.2.All R := by
    rintro ⟨y, down, diagonal⟩ hz
    obtain ⟨hy, hz⟩ := List.of_mem_zip hz
    obtain ⟨hd, ht⟩ := List.of_mem_zip hz
    exact ⟨hy, h _ hd, h _ (List.mem_of_mem_tail ht)⟩
  rw [row]
  generalize ys.zip (below.zip below.tail) = zs at parts
  induction zs with
  | nil => exact List.forall_mem_singleton.2 all_nil
  | cons z zs ih =>
    obtain ⟨⟨hy, down, diagonal⟩, parts⟩ := List.forall_mem_cons.1 parts
    have rest := ih parts
    rw [List.foldr_cons]
    refine List.forall_mem_cons.2 ⟨?_, rest⟩
    dsimp only
    split
    · next here => exact List.forall_mem_cons.2 ⟨hx _ hy here, diagonal⟩
    · split
      · exact down
      · exact all_headD rest

/-- The best alignment of two lists pairs like elements of them. -/
theorem all_longest (h : ∀ x ∈ xs, ∀ y ∈ ys, like x y = true → R x y) :
    (longest like xs ys).All R := by
  rw [longest]
  refine all_headD ?_
  induction xs with
  | nil => exact fun a ha => (List.eq_of_mem_replicate ha) ▸ all_nil
  | cons x xs ih =>
    obtain ⟨here, rest⟩ := List.forall_mem_cons.1 h
    exact all_row here (ih rest)

end Alignment

namespace Greedy

variable {like : Nat → Nat → Bool} {ls rs : List Nat}

theorem commonStart_spec {R : Nat → Nat → Prop}
    (h : ∀ l ∈ ls, ∀ r ∈ rs, like l r = true → R l r) :
    (∀ p ∈ (commonStart like ls rs).1, R p.1 p.2) ∧ (commonStart like ls rs).2.1 ⊆ ls ∧
      (commonStart like ls rs).2.2 ⊆ rs := by
  fun_induction commonStart like ls rs with
  | case1 l ls r rs here ps ls' rs' found ih =>
    rw [found] at ih
    obtain ⟨pairs, left, right⟩ := ih fun l' hl r' hr =>
      h l' (List.mem_cons_of_mem l hl) r' (List.mem_cons_of_mem r hr)
    exact ⟨List.forall_mem_cons.2 ⟨h l List.mem_cons_self r List.mem_cons_self here, pairs⟩,
      List.subset_cons_of_subset l left, List.subset_cons_of_subset r right⟩
  | case2 l ls r rs apart => exact ⟨by simp, List.Subset.refl _, List.Subset.refl _⟩
  | case3 ls rs end_ => exact ⟨by simp, List.Subset.refl _, List.Subset.refl _⟩

/-- What is aligned are like elements of two lists. -/
theorem align_spec {R : Nat → Nat → Prop} (h : ∀ l ∈ ls, ∀ r ∈ rs, like l r = true → R l r) :
    ∀ p ∈ align like ls rs, R p.1 p.2 := by
  obtain ⟨start, left, right⟩ := commonStart_spec h
  rw [align]
  dsimp only
  split
  · refine List.forall_mem_append.2 ⟨start, Alignment.all_longest fun l hl r hr => ?_⟩
    exact h l (left hl) r (right hr)
  · exact start

/-! ## Whole subtrees -/

variable {hash : String → String} {src dst : Snapshot} {m m' : Matching} {s i j : Nat} {g : String}

/-- The entries that have a digest. -/
def bearers (hash : String → String) (s : Snapshot) (g : String) : List Nat :=
  (places (digests hash s)).getD g []

/-- The places of a digest, in order. -/
theorem places_getD {ds : Array String} :
    (places ds).getD g [] = (ds.toList.zipIdx.filter (·.1 == g)).map (·.2) := by
  have listed (ps : List (String × Nat)) :
      (ps.foldr (fun p m => m.insert p.1 (p.2 :: m.getD p.1 []))
        ({} : Std.TreeMap String (List Nat))).getD g [] = (ps.filter (·.1 == g)).map (·.2) := by
    induction ps with
    | nil => simp
    | cons p ps ih =>
      rw [List.foldr_cons, Std.TreeMap.getD_insert]
      by_cases here : p.1 = g
      · simp [here, ih]
      · have other : compare p.1 g ≠ .eq := fun h => here (Std.LawfulEqOrd.eq_of_compare h)
        simp [other, here, ih]
  exact listed _

theorem mem_places {ds : Array String} : j ∈ (places ds).getD g [] ↔ ds[j]? = some g := by
  rw [places_getD]
  simp only [List.mem_map, List.mem_filter, beq_iff_eq, Prod.exists, exists_eq_right,
    List.mem_zipIdx_iff_getElem?, Array.getElem?_toList]

theorem mem_bearers : j ∈ bearers hash dst g ↔ (digests hash dst)[j]? = some g := mem_places

/-- The digest of an entry. -/
def digestAt (hash : String → String) (s : Snapshot) (i : Nat) : String :=
  (digests hash s).getD i ""

theorem digestAt_of_mem (h : j ∈ bearers hash dst g) : j < dst.size ∧ digestAt hash dst j = g := by
  obtain ⟨inside, here⟩ := Array.getElem?_eq_some_iff.1 (mem_bearers.1 h)
  rw [digestAt, Array.getD_eq_getD_getElem?, mem_bearers.1 h]
  exact ⟨Snapshot.size_digests ▸ inside, rfl⟩

/-- An entry is the only one in either snapshot with its digest, and so is another one. -/
def Sole (hash : String → String) (src dst : Snapshot) (i j : Nat) : Prop :=
  bearers hash src (digestAt hash src i) = [i] ∧ bearers hash dst (digestAt hash src i) = [j]

/-- The first pair of two subtrees is that of their roots. -/
theorem shifted_succ (i j n : Nat) : shifted i j (n + 1) =
    (i, j) :: (List.range n).map fun o => (i + (o + 1), j + (o + 1)) := by
  simp [shifted, List.range_succ_eq_map]

/-- Pairs the subtree of one source. -/
def pairTwin (hash : String → String) (src dst : Snapshot) (m : Matching) (s : Nat) : Matching :=
  if m.hasSrc s then m
  else
    match twin? src dst (places (digests hash src)) (places (digests hash dst))
      (digestAt hash src s) s m with
    | some d => m.addAll (shifted s d ((sizes src).getD s 0))
    | none => m

/-- Nothing is paired for a source that is paired already or has no twin. -/
theorem pairTwin_of_twinless (h : m.dst? i = none → twin? src dst (places (digests hash src))
    (places (digests hash dst)) (digestAt hash src i) i m = none) :
    pairTwin hash src dst m i = m := by
  rw [pairTwin]
  split
  · rfl
  · next unpaired =>
    rw [Bool.not_eq_true, ← Bool.not_eq_true', not_hasSrc] at unpaired
    rw [h unpaired]

theorem pairTwins_eq : pairTwins hash src dst m =
    (List.range' 1 (src.size - 1)).foldl (pairTwin hash src dst) m := rfl

/-- A twin is unpaired and has the digest of the source; it hangs below the counterpart of the parent,
or no other entry of either snapshot has that digest. -/
theorem twin?_spec (h : twin? src dst (places (digests hash src)) (places (digests hash dst)) g s m =
    some j) : m.src? j = none ∧ j ∈ bearers hash dst g ∧
      ((∃ a p q b, src.get? s = some a ∧ a.parent = some p ∧ m.dst? p = some q ∧
        dst.get? j = some b ∧ b.parent = some q) ∨
      ((bearers hash src g).length = 1 ∧ (bearers hash dst g).length = 1)) := by
  have free {j : Nat} {js : List Nat} (h : j ∈ js.filter fun d => !m.hasDst d) :
      m.src? j = none ∧ j ∈ js := by
    rw [List.mem_filter, not_hasDst] at h
    exact h.symm
  rw [twin?, Option.or_eq_some_iff] at h
  obtain byParent | ⟨-, unique⟩ := h
  · obtain ⟨a, ha, h⟩ := Option.bind_eq_some_iff.1 byParent
    obtain ⟨p, hp, h⟩ := Option.bind_eq_some_iff.1 h
    obtain ⟨q, hq, h⟩ := Option.bind_eq_some_iff.1 h
    obtain ⟨unpaired, bears⟩ := free (List.mem_of_find?_eq_some h)
    have here := List.find?_some h
    rw [beq_iff_eq] at here
    obtain ⟨b, hb, below⟩ := Option.bind_eq_some_iff.1 here
    exact ⟨unpaired, bears, .inl ⟨a, p, q, b, ha, hp, hq, hb, below⟩⟩
  · split at unique
    · next one =>
      obtain ⟨unpaired, bears⟩ := free (List.mem_of_head? unique)
      rw [Bool.and_eq_true, beq_iff_eq, beq_iff_eq] at one
      exact ⟨unpaired, bears, .inr ⟨one.2, one.1⟩⟩
    · cases unique

/-- A source that has no twin is not the only one with its digest, or the only destination with that
digest is taken. -/
theorem taken_of_twin?_eq_none (h : twin? src dst (places (digests hash src))
    (places (digests hash dst)) (digestAt hash src i) i m = none) (sole : Sole hash src dst i j) :
    m.src? j ≠ none := by
  intro free
  have bearers : (places (digests hash src)).getD (digestAt hash src i) [] = [i] := sole.1
  have bearers' : (places (digests hash dst)).getD (digestAt hash src i) [] = [j] := sole.2
  rw [twin?, Option.or_eq_none_iff, bearers, bearers'] at h
  simp [hasDst_eq, free] at h

/-- Entries of one kind and label. -/
def Akin (src dst : Snapshot) (i j : Nat) : Prop := alike src dst i j = true

section Phases

variable {f g : Forest (Kind × String)} (hf : src.Spells f) (hg : dst.Spells g)
  (discerns : Discerns hash src dst)

include hf hg discerns

omit hg discerns in
/-- A subtree has at least one entry. -/
theorem sizes_getD_succ (hi : i < src.size) : ∃ n, (sizes src).getD i 0 = n + 1 := by
  have inside : i < (sizes src).size := Snapshot.size_sizes ▸ hi
  obtain ⟨key, below, here⟩ := hf.tree_at hi
  have count := here.sizes 0
  simp only [Forest.tree, Forest.numbered, Forest.roots, List.map_cons, List.map_nil,
    List.foldr_cons, List.foldr_nil, Nat.add_zero, Forest.flatten, List.length_cons,
    Array.getD_eq_getD_getElem?, Array.getElem?_eq_getElem inside, Option.getD_some] at count ⊢
  exact ⟨_, count⟩

/-- Entries with one digest are alike. -/
theorem akin_of_digestAt (hi : i < src.size) (hj : j < dst.size)
    (same : digestAt hash src i = digestAt hash dst j) : Akin src dst i j := by
  obtain ⟨n, size⟩ := sizes_getD_succ hf hi
  refine discerns.alike hf hg hi hj same (i, j) ?_
  rw [size]
  exact List.mem_map.2 ⟨0, List.mem_range.2 (Nat.succ_pos n), rfl⟩

theorem pairTwin_spec (hi : i < src.size) :
    m.Grows (Akin src dst) (pairTwin hash src dst m i) ∧ ∀ j, Sole hash src dst i j →
      (pairTwin hash src dst m i).dst? i ≠ none ∨ (pairTwin hash src dst m i).src? j ≠ none := by
  rw [pairTwin]
  split
  · next paired =>
    rw [hasSrc_eq, Option.isSome_iff_ne_none] at paired
    exact ⟨.refl, fun j _ => .inl paired⟩
  · cases found : twin? src dst (places (digests hash src)) (places (digests hash dst))
      (digestAt hash src i) i m with
    | none => exact ⟨.refl, fun j sole => .inr (taken_of_twin?_eq_none found sole)⟩
    | some d =>
      obtain ⟨-, bears, -⟩ := twin?_spec found
      obtain ⟨hd, same⟩ := digestAt_of_mem bears
      have akin : ∀ p ∈ shifted i d ((sizes src).getD i 0), Akin src dst p.1 p.2 :=
        discerns.alike hf hg hi hd same.symm
      refine ⟨grows_addAll akin, fun j sole => ?_⟩
      obtain rfl : d = j := List.mem_singleton.1 (sole.2 ▸ bears)
      -- the two entries themselves are paired first
      obtain ⟨n, size⟩ := sizes_getD_succ hf hi
      dsimp only
      rw [size] at akin ⊢
      rw [shifted_succ] at akin ⊢
      obtain ⟨here, rest⟩ := List.forall_mem_cons.1 akin
      have others : (m.add i d).Grows (Akin src dst) _ := grows_addAll rest
      refine (taken_add m i d).imp (fun h free => h (others.free_src free)) fun h free => ?_
      exact h (others.free_dst free)

/-- Pairing subtrees only adds like pairs, and takes a side of each pair of sole entries. -/
theorem pairTwins_spec :
    m.Grows (Akin src dst) (pairTwins hash src dst m) ∧
      ∀ i j, 1 ≤ i → i < src.size → Sole hash src dst i j →
        (pairTwins hash src dst m).dst? i ≠ none ∨ (pairTwins hash src dst m).src? j ≠ none := by
  rw [pairTwins_eq]
  have inside {i : Nat} : i ∈ List.range' 1 (src.size - 1) ↔ 1 ≤ i ∧ i < src.size := by
    rw [List.mem_range'_1]
    omega
  let Done (i : Nat) (m : Matching) : Prop :=
    ∀ j, Sole hash src dst i j → m.dst? i ≠ none ∨ m.src? j ≠ none
  have stays (i : Nat) (m m' : Matching) (grows : m.Grows (Akin src dst) m')
      (done : Done i m) : Done i m' := fun j sole => (done j sole).imp
    (fun h free => h (grows.free_src free)) fun h free => h (grows.free_dst free)
  obtain ⟨grows, done⟩ := grows_foldl
    (fun i hi m => pairTwin_spec hf hg discerns (inside.1 hi).2) stays
  exact ⟨grows, fun i j first lt => done i (inside.2 ⟨first, lt⟩) j⟩

end Phases

/-! ## The children of pairs -/

/-- No unpaired children of an entry and of its counterpart are alike. -/
def Full (src dst : Snapshot) (m : Matching) (i : Nat) : Prop :=
  ∀ j a b, m.dst? i = some j → src.get? i = some a → dst.get? j = some b →
    ∀ l ∈ a.children, ∀ r ∈ b.children, m.dst? l = none → m.src? r = none → ¬ Akin src dst l r

/-- All destinations are in the snapshot. -/
def Within (dst : Snapshot) (m : Matching) : Prop :=
  ∀ i j, m.dst? i = some j → ∃ b, dst.get? j = some b

theorem Within.grows (h : Within dst m) (grows : m.Grows (Akin src dst) m') : Within dst m' :=
  fun i j hi => (grows.added i j hi).elim (h i j) fun akin => by
    obtain ⟨-, b, -, hb, -⟩ := alike_iff.1 akin
    exact ⟨b, hb⟩

theorem Full.grows {i : Nat} (h : Full src dst m i) {new : Nat → Nat → Prop}
    (grows : m.Grows new m') (old : ∀ j, m'.dst? i = some j → m.dst? i = some j) :
    Full src dst m' i := fun j a b hi ha hb l hl r hr freeL freeR =>
  h j a b (old j hi) ha hb l hl r hr (grows.free_src freeL) (grows.free_dst freeR)

variable {a b : Entry}

theorem get_of_get? (hb : dst.get? j = some b) : dst.get j = .ok b := by
  have entry : dst.entries[j]? = some b := hb
  rw [Snapshot.get, entry]

theorem get?_of_get (h : dst.get j = .ok b) : dst.get? j = some b := by
  rw [Snapshot.get] at h
  split at h
  · next e here =>
    obtain rfl := Except.ok.inj h
    exact here
  · cases h

/-- The unpaired children of a pair can be aligned. -/
theorem alignChildren_spec (hb : dst.get? j = some b) :
    ∃ m', alignChildren src dst a j m = .ok m' ∧ m.Grows (Akin src dst) m' := by
  refine ⟨_, by rw [alignChildren, get_of_get? hb]; rfl, grows_addAll ?_⟩
  exact align_spec fun l _ r _ h => h

/-- Pairs a child with the first unpaired one that is like it. -/
def pairLeftover (src dst : Snapshot) (rs : List Nat) (m : Matching) (l : Nat) : Matching :=
  match rs.find? fun r => !m.hasDst r && alike src dst l r with
  | some r => m.add l r
  | none => m

/-- Nothing is paired for a source that is like no unpaired destination. -/
theorem pairLeftover_of_unlike {rs : List Nat} {l : Nat}
    (unlike : ∀ r ∈ rs, m.src? r = none → ¬ alike src dst l r = true) :
    pairLeftover src dst rs m l = m := by
  rw [pairLeftover]
  cases found : rs.find? fun r => !m.hasDst r && alike src dst l r with
  | none => rfl
  | some r =>
    have here := List.find?_some found
    rw [Bool.and_eq_true, not_hasDst] at here
    exact absurd here.2 (unlike r (List.mem_of_find?_eq_some found) here.1)

theorem pairLeftovers_eq_foldl (hb : dst.get? j = some b) : pairLeftovers src dst a j m =
    .ok ((a.children.filter fun c => !m.hasSrc c).foldl (pairLeftover src dst b.children) m) := by
  rw [pairLeftovers, get_of_get? hb]
  rfl

/-- Leftovers are only looked for below an entry of the snapshot. -/
theorem exists_get?_of_pairLeftovers (h : pairLeftovers src dst a j m = .ok m') :
    ∃ b, dst.get? j = some b := by
  obtain ⟨b, hb, -⟩ := Outcome.bind_eq_ok_iff.1 h
  exact ⟨b, get?_of_get hb⟩

theorem pairLeftover_spec {rs : List Nat} {l : Nat} :
    m.Grows (fun i j => i = l ∧ Akin src dst i j) (pairLeftover src dst rs m l) ∧
      ∀ r ∈ rs, (pairLeftover src dst rs m l).dst? l = none →
        (pairLeftover src dst rs m l).src? r = none → ¬ Akin src dst l r := by
  rw [pairLeftover]
  cases found : rs.find? fun r => !m.hasDst r && alike src dst l r with
  | none =>
    refine ⟨.refl, fun r hr _ free akin => ?_⟩
    have other := List.find?_eq_none.1 found r hr
    have like : alike src dst l r = true := akin
    have free : m.src? r = none := free
    simp [hasDst_eq, free, like] at other
  | some r =>
    have here := List.find?_some found
    rw [Bool.and_eq_true, not_hasDst] at here
    refine ⟨grows_add ⟨rfl, here.2⟩, fun r' _ free _ _ => ?_⟩
    have taken : (m.add l r).dst? l = none := free
    rw [dst?_add] at taken
    split at taken
    · cases taken
    · next other => exact other ⟨rfl, taken, here.1⟩

/-- After the leftovers of a pair were paired, no unpaired children of it are alike. -/
theorem pairLeftovers_spec (hb : dst.get? j = some b) : ∃ m',
    pairLeftovers src dst a j m = .ok m' ∧
      m.Grows (fun l r => l ∈ a.children ∧ Akin src dst l r) m' ∧
      ∀ l ∈ a.children, ∀ r ∈ b.children, m'.dst? l = none → m'.src? r = none →
        ¬ Akin src dst l r := by
  let ls := a.children.filter fun c => !m.hasSrc c
  let Done (l : Nat) (m : Matching) : Prop :=
    ∀ r ∈ b.children, m.dst? l = none → m.src? r = none → ¬ Akin src dst l r
  have grows (l : Nat) (hl : l ∈ ls) (m₁ : Matching) :
      m₁.Grows (fun l r => l ∈ a.children ∧ Akin src dst l r)
        (pairLeftover src dst b.children m₁ l) ∧ Done l (pairLeftover src dst b.children m₁ l) := by
    obtain ⟨grows, done⟩ := pairLeftover_spec
    exact ⟨grows.mono fun i j h => ⟨h.1 ▸ List.mem_of_mem_filter hl, h.2⟩, done⟩
  obtain ⟨all, done⟩ := grows_foldl grows fun l m₁ m₂ grows done r hr freeL freeR =>
    done r hr (grows.free_src freeL) (grows.free_dst freeR)
  refine ⟨_, pairLeftovers_eq_foldl hb, all, fun l hl r hr freeL freeR => ?_⟩
  have unpaired : l ∈ ls := by
    have free := all.free_src freeL
    simp [ls, hl, hasSrc_eq, free]
  exact done l unpaired r hr freeL freeR

/-- Runs a step for a source that is paired. -/
def visitPair (step : Entry → Nat → Matching → Outcome Matching) (m : Matching) (p : Entry × Nat) :
    Outcome Matching :=
  match m.dst? p.2 with
  | some d => step p.1 d m
  | none => return m

theorem forPairs_eq {step : Entry → Nat → Matching → Outcome Matching} :
    forPairs src step m = src.entries.toList.zipIdx.foldlM (visitPair step) m := rfl

section ForPairs

variable {step : Entry → Nat → Matching → Outcome Matching} {P : Nat → Matching → Prop}
  (paired : ∀ i a j m, src.get? i = some a → m.dst? i = some j → P i m →
    ∃ m', step a j m = .ok m' ∧ P (i + 1) m')
  (unpaired : ∀ i m, m.dst? i = none → P i m → P (i + 1) m)

include paired unpaired

theorem foldlM_visitPair {es : List Entry} {k : Nat} (start : P k m)
    (hes : ∀ i e, es[i]? = some e → src.get? (k + i) = some e) :
    ∃ m', (es.zipIdx k).foldlM (visitPair step) m = .ok m' ∧ P (k + es.length) m' := by
  induction es generalizing k m with
  | nil => exact ⟨m, rfl, start⟩
  | cons e es ih =>
    have rest (i : Nat) (e' : Entry) (hi : es[i]? = some e') : src.get? (k + 1 + i) = some e' := by
      rw [Nat.add_assoc, Nat.add_comm 1]
      exact hes (i + 1) e' hi
    have one : ∃ m₁, visitPair step m (e, k) = .ok m₁ ∧ P (k + 1) m₁ := by
      rw [visitPair]
      cases found : m.dst? k with
      | none => exact ⟨m, rfl, unpaired k m found start⟩
      | some j => exact paired k e j m (hes 0 e rfl) found start
    obtain ⟨m₁, run₁, h₁⟩ := one
    obtain ⟨m', run', h'⟩ := ih h₁ rest
    refine ⟨m', ?_, ?_⟩
    · rw [List.zipIdx_cons, List.foldlM_cons, run₁]
      exact run'
    · rw [List.length_cons, Nat.add_comm es.length, ← Nat.add_assoc]
      exact h'

/-- A run along the pairs goes through if each step does, and proves what the steps prove. -/
theorem forPairs_spec (start : P 0 m) : ∃ m', forPairs src step m = .ok m' ∧ P src.size m' := by
  have listed (i : Nat) (e : Entry) (hi : src.entries.toList[i]? = some e) :
      src.get? (0 + i) = some e := by
    rw [Nat.zero_add, ← hi, Array.getElem?_toList]
    rfl
  obtain ⟨m', run', h'⟩ := foldlM_visitPair paired unpaired start listed
  refine ⟨m', run', ?_⟩
  rw [Nat.zero_add, Array.length_toList] at h'
  exact h'

end ForPairs

/-- What every step keeps holds where a run along the pairs ends, if it goes through. -/
theorem forPairs_induct {step : Entry → Nat → Matching → Outcome Matching}
    {P : Nat → Matching → Prop}
    (paired : ∀ i a j m m', src.get? i = some a → m.dst? i = some j → step a j m = .ok m' →
      P i m → P (i + 1) m')
    (unpaired : ∀ i m, m.dst? i = none → P i m → P (i + 1) m)
    (run : forPairs src step m = .ok m') (start : P 0 m) : P src.size m' := by
  have along (es : List Entry) : ∀ k m, P k m →
      (∀ i e, es[i]? = some e → src.get? (k + i) = some e) →
      (es.zipIdx k).foldlM (visitPair step) m = .ok m' → P (k + es.length) m' := by
    induction es with
    | nil =>
      intro k m start _ run
      obtain rfl := Except.ok.inj run
      exact start
    | cons e es ih =>
      intro k m start hes run
      rw [List.zipIdx_cons, List.foldlM_cons] at run
      obtain ⟨m₁, one, run⟩ := Outcome.bind_eq_ok_iff.1 run
      have next : P (k + 1) m₁ := by
        rw [visitPair] at one
        cases found : m.dst? k with
        | none =>
          rw [found] at one
          obtain rfl := Except.ok.inj one
          exact unpaired k m found start
        | some j =>
          rw [found] at one
          exact paired k e j m m₁ (hes 0 e rfl) found one start
      have rest (i : Nat) (e' : Entry) (hi : es[i]? = some e') : src.get? (k + 1 + i) = some e' := by
        rw [Nat.add_assoc, Nat.add_comm 1]
        exact hes (i + 1) e' hi
      have done := ih (k + 1) m₁ next rest run
      rwa [Nat.add_assoc, Nat.add_comm 1] at done
  have done := along src.entries.toList 0 m start (fun i e hi => by
    rw [Nat.zero_add, ← hi, Array.getElem?_toList]
    rfl) run
  rwa [Nat.zero_add, Array.length_toList] at done

end Greedy

end Variation.Matching
