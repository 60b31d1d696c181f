import Variation.Matching.Greedy
import Variation.Proofs.Lines
import Variation.Proofs.Snapshots

/-!
# Digests of subtrees

The matcher hashes the kind and the label of an entry together with the digests of its children. If
different messages have different digests, and no label ends in what could be the digest of a child,
then entries with one digest begin subtrees of one shape: their entries come in the same order, with
the same kinds and labels. The assumptions are only about the messages that are hashed, so they can
be met.
-/

namespace Variation

open Matching (Snapshot Entry)
open Matching.Greedy (bottomUp message digests sizes)

namespace Text.Digest

theorem length_hexWord (w : UInt32) : (hexWord w).length = 8 := by simp [hexWord]

/-- All digests are of one length. -/
theorem length_ofText (s : String) : (ofText s).length = 64 := by
  simp [ofText, digest, length_hexWord]

end Text.Digest

/-! ## Messages -/

namespace Matching.Greedy

/-- What is hashed for a kind, a label and the digests of the children. -/
def told (key : Kind × String) (below : List String) : String :=
  key.1.keyword ++ "\x00" ++ key.2 ++ String.join (below.map fun g => "\x00" ++ g)

theorem message_eq_told (e : Entry) (values : Array String) :
    message e values = told e.key (e.children.map fun c => values.getD c "") := by
  simp only [message, told, Entry.key, List.map_map, Function.comp_def]

/-- A text ends in a zero character and a digest. -/
def EndsIn (label g : String) : Prop := ('\x00' :: g.toList) <:+ label.toList

instance (label g : String) : Decidable (EndsIn label g) := by
  unfold EndsIn
  infer_instance

theorem toList_told (key : Kind × String) (below : List String) : (told key below).toList =
    key.1.keyword.toList ++ '\x00' :: (key.2.toList ++ below.flatMap fun g => '\x00' :: g.toList) := by
  have joined : (String.join (below.map fun g => "\x00" ++ g)).toList =
      below.flatMap fun g => '\x00' :: g.toList := by
    simp [String.toList_join, List.flatMap_def, Function.comp_def]
  simp [told, joined]

theorem keyword_plain (k : Kind) : '\x00' ∉ k.keyword.toList := by cases k <;> decide

theorem keyword_inj {k k' : Kind} (h : k.keyword = k'.keyword) : k = k' := by
  cases k <;> cases k' <;> first | rfl | exact absurd h (by decide)

/-- What stands behind a label can be told from it, from the end on: the digests are of one length,
and no label ends in one of those that may stand behind the other. -/
theorem label_inj {n : Nat} {l l' : String} {gs gs' : List String} (wide : ∀ g ∈ gs, g.length = n)
    (wide' : ∀ g ∈ gs', g.length = n) (plain : ∀ g ∈ gs', ¬ EndsIn l g)
    (plain' : ∀ g ∈ gs, ¬ EndsIn l' g)
    (h : (l.toList ++ gs.flatMap fun g => '\x00' :: g.toList) =
      l'.toList ++ gs'.flatMap fun g => '\x00' :: g.toList) : l = l' ∧ gs = gs' := by
  induction gs using List.reverseRecOn generalizing gs' with
  | nil =>
    obtain rfl | ⟨init, g, rfl⟩ := gs'.eq_nil_or_concat'
    · exact ⟨String.toList_inj.1 (by simpa using h), rfl⟩
    · refine absurd ⟨l'.toList ++ init.flatMap fun g => '\x00' :: g.toList, ?_⟩ (plain g (by simp))
      simpa using h.symm
  | append_singleton gs g ih =>
    obtain rfl | ⟨init, g', rfl⟩ := gs'.eq_nil_or_concat'
    · refine absurd ⟨l.toList ++ gs.flatMap fun g => '\x00' :: g.toList, ?_⟩ (plain' g (by simp))
      simpa using h
    · simp only [List.forall_mem_append, List.forall_mem_singleton] at wide wide' plain plain'
      have same : ('\x00' :: g.toList).length = ('\x00' :: g'.toList).length := by
        rw [List.length_cons, List.length_cons, String.length_toList, String.length_toList, wide.2,
          wide'.2]
      simp only [List.flatMap_append, List.flatMap_singleton, ← List.append_assoc] at h
      obtain ⟨front, back⟩ := List.append_inj' h same
      obtain ⟨label, rest⟩ := ih wide.1 wide'.1 plain.1 plain'.1 front
      have last : g = g' := String.toList_inj.1 (List.cons.inj back).2
      exact ⟨label, by rw [rest, last]⟩

/-- A message tells the kind, the label and the digests. -/
theorem told_inj {n : Nat} {key key' : Kind × String} {gs gs' : List String}
    (wide : ∀ g ∈ gs, g.length = n) (wide' : ∀ g ∈ gs', g.length = n)
    (plain : ∀ g ∈ gs', ¬ EndsIn key.2 g) (plain' : ∀ g ∈ gs, ¬ EndsIn key'.2 g)
    (h : told key gs = told key' gs') : key = key' ∧ gs = gs' := by
  have lists := congrArg String.toList h
  rw [toList_told, toList_told] at lists
  obtain ⟨kind, rest⟩ := Text.append_mark_inj (keyword_plain _) (keyword_plain _) lists
  obtain ⟨label, same⟩ := label_inj wide wide' plain plain' rest
  exact ⟨Prod.ext (keyword_inj (String.toList_inj.1 kind)) label, same⟩

end Matching.Greedy

/-! ## Digests of forests -/

namespace Forest

open Matching.Greedy

/-- The digests of the trees of a forest. -/
def digests (hash : String → String) : Forest (Kind × String) → List String
  | nil => []
  | cons key below rest => hash (told key (below.digests hash)) :: rest.digests hash

/-- The messages of all places of a forest. -/
def messages (hash : String → String) : Forest (Kind × String) → List String
  | nil => []
  | cons key below rest =>
    told key (below.digests hash) :: (below.messages hash ++ rest.messages hash)

variable {hash : String → String} {f g : Forest (Kind × String)}

theorem digests_subset (f : Forest (Kind × String)) :
    f.digests hash ⊆ (f.messages hash).map hash := by
  induction f with
  | nil => exact List.Subset.refl _
  | cons key below rest _ ih =>
    intro x hx
    rw [digests, List.mem_cons] at hx
    rw [messages, List.map_cons, List.map_append, List.mem_cons, List.mem_append]
    exact hx.imp_right fun hx => .inr (ih hx)

/-- Forests of one list of digests are one forest, if different messages have different digests and no
label of one ends in a digest of the other. -/
theorem eq_of_digests {n : Nat} (wide : ∀ x, (hash x).length = n)
    (apart : ∀ x ∈ f.messages hash, ∀ y ∈ g.messages hash, hash x = hash y → x = y)
    (plain : ∀ key ∈ f.flatten, ∀ x ∈ g.messages hash, ¬ EndsIn key.2 (hash x))
    (plain' : ∀ key ∈ g.flatten, ∀ x ∈ f.messages hash, ¬ EndsIn key.2 (hash x))
    (h : f.digests hash = g.digests hash) : f = g := by
  induction f generalizing g with
  | nil =>
    cases g with
    | nil => rfl
    | cons key below rest => cases h
  | cons key below rest ihb ihr =>
    cases g with
    | nil => cases h
    | cons key' below' rest' =>
      obtain ⟨first, others⟩ := List.cons.inj h
      simp only [messages, flatten, List.forall_mem_cons, List.forall_mem_append] at apart plain plain'
      have ends {l : String} {m : Forest (Kind × String)}
          (free : ∀ x ∈ m.messages hash, ¬ EndsIn l (hash x)) :
          ∀ x ∈ m.digests hash, ¬ EndsIn l x := fun x hx => by
        obtain ⟨y, hy, rfl⟩ := List.mem_map.1 (digests_subset m hx)
        exact free y hy
      have long (m : Forest (Kind × String)) : ∀ x ∈ m.digests hash, x.length = n := fun x hx => by
        obtain ⟨y, -, rfl⟩ := List.mem_map.1 (digests_subset m hx)
        exact wide y
      obtain ⟨rfl, inner⟩ := told_inj (long below) (long below') (ends plain.1.2.1)
        (ends plain'.1.2.1) (apart.1.1 first)
      rw [ihb (fun x hx => (apart.2.1 x hx).2.1) (fun k hk => (plain.2.1 k hk).2.1)
          (fun k hk => (plain'.2.1 k hk).2.1) inner,
        ihr (fun x hx => (apart.2.2 x hx).2.2) (fun k hk => (plain.2.2 k hk).2.2)
          (fun k hk => (plain'.2.2 k hk).2.2) others]

end Forest

/-! ## Digests of the entries of a snapshot -/

namespace Matching

section BottomUp

variable {α : Type} {s : Snapshot} {blank : α} {f : Entry → Array α → α} {i k : Nat} {e : Entry}

/-- The values that are worked out when only the entries from an index on were visited. -/
def valuesFrom (s : Snapshot) (blank : α) (f : Entry → Array α → α) (k : Nat) : Array α :=
  (List.range' k (s.size - k)).foldr
    (fun i values =>
      match s.get? i with
      | some e => values.setIfInBounds i (f e values)
      | none => values)
    (Array.replicate s.size blank)

theorem bottomUp_eq : bottomUp s blank f = valuesFrom s blank f 0 := by
  rw [bottomUp, List.range_eq_range']
  rfl

theorem valuesFrom_of_get? (he : s.get? k = some e) : valuesFrom s blank f k =
    (valuesFrom s blank f (k + 1)).setIfInBounds k (f e (valuesFrom s blank f (k + 1))) := by
  have inside : k < s.size := Snapshot.lt_size_of_get? he
  have count : s.size - k = s.size - (k + 1) + 1 := by omega
  rw [valuesFrom, count, List.range'_succ, List.foldr_cons, he]
  rfl

theorem size_valuesFrom : (valuesFrom s blank f k).size = s.size := by
  rw [valuesFrom]
  generalize List.range' k (s.size - k) = is
  induction is with
  | nil => simp
  | cons i is ih =>
    rw [List.foldr_cons]
    split
    · rw [Array.size_setIfInBounds, ih]
    · exact ih

/-- A value stays once it is worked out. -/
theorem valuesFrom_getD {j : Nat} (hk : k ≤ j) (hj : j ≤ i) :
    (valuesFrom s blank f k).getD i blank = (valuesFrom s blank f j).getD i blank := by
  obtain ⟨m, rfl⟩ := Nat.exists_eq_add_of_le hk
  induction m generalizing k with
  | zero => rfl
  | succ m ih =>
    have next : k + (m + 1) = k + 1 + m := by omega
    have step : (valuesFrom s blank f k).getD i blank =
        (valuesFrom s blank f (k + 1)).getD i blank := by
      cases he : s.get? k with
      | none =>
        have outside : s.size ≤ k := Array.getElem?_eq_none_iff.1 he
        have none : s.size - k = 0 := by omega
        have none' : s.size - (k + 1) = 0 := by omega
        rw [valuesFrom, valuesFrom, none, none']
        rfl
      | some e =>
        rw [valuesFrom_of_get? he]
        simp only [Array.getD_eq_getD_getElem?, Array.getElem?_setIfInBounds_ne (by omega : k ≠ i)]
    rw [step, next]
    exact ih (by omega) (by omega)

/-- What is worked out for an entry comes from the final values, if it depends on later entries
only. -/
theorem bottomUp_getD (he : s.get? i = some e)
    (later : ∀ v w : Array α, (∀ c, i < c → v.getD c blank = w.getD c blank) → f e v = f e w) :
    (bottomUp s blank f).getD i blank = f e (bottomUp s blank f) := by
  have inside : i < s.size := Snapshot.lt_size_of_get? he
  rw [bottomUp_eq, valuesFrom_getD (Nat.zero_le i) (Nat.le_refl i), valuesFrom_of_get? he]
  rw [Array.getD_eq_getD_getElem?, Array.getElem?_setIfInBounds_self_of_lt
    (by rw [size_valuesFrom]; exact inside), Option.getD_some]
  exact later _ _ fun c hc => (valuesFrom_getD (Nat.zero_le _) hc).symm

end BottomUp

namespace Snapshot

open Greedy (message_eq_told)

variable {s : Snapshot} {hash : String → String} {i k : Nat} {e : Entry}
  {f : Forest (Kind × String)} {key : Kind × String}

/-- A snapshot holds a forest from an index on, in preorder: each entry has the key of its place and
the indices of the places right below it. -/
def Holds (s : Snapshot) : Nat → Forest (Kind × String) → Prop
  | _, .nil => True
  | k, .cons key below rest =>
    (∃ e, s.get? k = some e ∧ e.key = key ∧
      e.children = (below.numbered (k + 1)).roots.map (·.2)) ∧
      s.Holds (k + 1) below ∧ s.Holds (k + 1 + below.flatten.length) rest

theorem le_of_mem_roots {f : Forest (Kind × String)} {c : Nat}
    (hc : c ∈ (f.numbered k).roots.map (·.2)) : k ≤ c := by
  obtain ⟨⟨key, c⟩, mem, rfl⟩ := List.mem_map.1 hc
  exact (Forest.bounds_of_mem_numbered (Forest.mem_flatten_of_mem_roots mem)).1

/-- The roots of a forest come one after the other. -/
theorem pairwise_roots {f : Forest (Kind × String)} :
    ((f.numbered k).roots.map (·.2)).Pairwise (· < ·) := by
  induction f generalizing k with
  | nil => exact List.Pairwise.nil
  | cons key below rest _ ih =>
    refine List.pairwise_cons.2 ⟨fun c hc => ?_, ih⟩
    have le := le_of_mem_roots hc
    show k < c
    omega

theorem digests_getD (he : s.get? i = some e) (later : ∀ c ∈ e.children, i < c) :
    (digests hash s).getD i "" = hash (message e (digests hash s)) := by
  refine bottomUp_getD he fun v w same => ?_
  rw [message_eq_told, message_eq_told]
  congr 2
  exact List.map_congr_left fun c hc => same c (later c hc)

theorem sizes_getD (he : s.get? i = some e) (later : ∀ c ∈ e.children, i < c) :
    (sizes s).getD i 1 = e.children.foldr (fun c size => (sizes s).getD c 1 + size) 1 := by
  refine bottomUp_getD he fun v w same => ?_
  exact List.foldr_ext _ _ _ fun c hc size => by rw [same c (later c hc)]

/-- The digests at the roots of a forest are those of its trees. -/
theorem Holds.digests (h : s.Holds k f) : ((f.numbered k).roots.map (·.2)).map
    (fun i => (Greedy.digests hash s).getD i "") = f.digests hash := by
  induction f generalizing k with
  | nil => rfl
  | cons key below rest ihb ihr =>
    obtain ⟨⟨e, he, rfl, children⟩, hb, hr⟩ := h
    have later : ∀ c ∈ e.children, k < c := fun c hc => le_of_mem_roots (children ▸ hc)
    rw [Forest.numbered, Forest.roots, List.map_cons, List.map_cons, ihr hr, Forest.digests,
      digests_getD he later, message_eq_told, children, ihb hb]

/-- The sizes at the roots of a forest add up to the number of its places. -/
theorem Holds.sizes (h : s.Holds k f) (m : Nat) : ((f.numbered k).roots.map (·.2)).foldr
    (fun c size => (Greedy.sizes s).getD c 1 + size) m = f.flatten.length + m := by
  induction f generalizing k m with
  | nil => exact (Nat.zero_add m).symm
  | cons key below rest ihb ihr =>
    obtain ⟨⟨e, he, rfl, children⟩, hb, hr⟩ := h
    have later : ∀ c ∈ e.children, k < c := fun c hc => le_of_mem_roots (children ▸ hc)
    rw [Forest.numbered, Forest.roots, List.map_cons, List.foldr_cons, ihr hr,
      sizes_getD he later, children, ihb hb, Forest.flatten, List.length_cons, List.length_append]
    omega

/-- The places of a forest come one after the other. -/
theorem Holds.get? (h : s.Holds k f) (hi : f.flatten[i]? = some key) :
    ∃ e, s.get? (k + i) = some e ∧ e.key = key := by
  induction f generalizing k i with
  | nil => cases hi
  | cons a below rest ihb ihr =>
    obtain ⟨⟨e, he, here, -⟩, hb, hr⟩ := h
    rw [Forest.flatten] at hi
    cases i with
    | zero => exact ⟨e, he, here.trans (Option.some.inj hi)⟩
    | succ i =>
      rw [List.getElem?_cons_succ] at hi
      by_cases inner : i < below.flatten.length
      · rw [List.getElem?_append_left inner] at hi
        obtain ⟨e, he, key⟩ := ihb hb hi
        exact ⟨e, by rw [← he]; congr 1; omega, key⟩
      · rw [List.getElem?_append_right (Nat.le_of_not_lt inner)] at hi
        obtain ⟨e, he, key⟩ := ihr hr hi
        exact ⟨e, by rw [← he]; congr 1; omega, key⟩

/-- Each entry begins a tree. -/
theorem Holds.tree_at (h : s.Holds k f) (le : k ≤ i) (lt : i < k + f.flatten.length) :
    ∃ key below, s.Holds i (.tree key below) := by
  induction f generalizing k with
  | nil => exact absurd lt (Nat.not_lt.2 le)
  | cons key below rest ihb ihr =>
    obtain ⟨here, hb, hr⟩ := h
    rw [Forest.flatten, List.length_cons, List.length_append] at lt
    obtain rfl | above := Nat.eq_or_lt_of_le le
    · exact ⟨key, below, here, hb, trivial⟩
    · by_cases inner : i < k + 1 + below.flatten.length
      · exact ihb hb above inner
      · exact ihr hr (Nat.le_of_not_lt inner) (by omega)

theorem size_digests : (Greedy.digests hash s).size = s.size := by
  rw [Greedy.digests, bottomUp_eq, size_valuesFrom]

theorem size_sizes : (Greedy.sizes s).size = s.size := by
  rw [Greedy.sizes, bottomUp_eq, size_valuesFrom]

/-- The messages of the entries. -/
def messages (hash : String → String) (s : Snapshot) : List String :=
  s.entries.toList.map fun e => message e (Greedy.digests hash s)

/-- The messages of a forest are those of its entries. -/
theorem Holds.messages_subset (h : s.Holds k f) : f.messages hash ⊆ s.messages hash := by
  induction f generalizing k with
  | nil => exact List.nil_subset _
  | cons key below rest ihb ihr =>
    obtain ⟨⟨e, he, rfl, children⟩, hb, hr⟩ := h
    rw [Forest.messages, List.cons_subset, List.append_subset]
    refine ⟨List.mem_map.2 ⟨e, Array.mem_toList_iff.2 (Array.mem_of_getElem? he), ?_⟩, ihb hb, ihr hr⟩
    rw [message_eq_told, children, hb.digests]

theorem Holds.labels (h : s.Holds k f) (hk : key ∈ f.flatten) : ∃ e ∈ s.entries, e.key = key := by
  obtain ⟨i, hi, rfl⟩ := List.getElem_of_mem hk
  obtain ⟨e, he, here⟩ := h.get? (List.getElem?_eq_getElem hi)
  exact ⟨e, Array.mem_of_getElem? he, here⟩

/-- A snapshot is a forest in preorder. -/
structure Spells (s : Snapshot) (f : Forest (Kind × String)) : Prop where
  holds : s.Holds 0 f
  size : s.size = f.flatten.length

theorem Spells.tree_at (h : s.Spells f) (hi : i < s.size) :
    ∃ key below, s.Holds i (.tree key below) :=
  h.holds.tree_at (Nat.zero_le i) (by rw [Nat.zero_add, ← h.size]; exact hi)

theorem Spells.later (h : s.Spells f) (he : s.get? i = some e) : ∀ c ∈ e.children, i < c := by
  obtain ⟨key, below, ⟨⟨e', he', -, children⟩, -, -⟩⟩ := h.tree_at (lt_size_of_get? he)
  obtain rfl := Option.some.inj (he.symm.trans he')
  exact fun c hc => le_of_mem_roots (children ▸ hc)

theorem Spells.ordered (h : s.Spells f) (he : s.get? i = some e) : e.children.Pairwise (· < ·) := by
  obtain ⟨key, below, ⟨⟨e', he', -, children⟩, -, -⟩⟩ := h.tree_at (lt_size_of_get? he)
  obtain rfl := Option.some.inj (he.symm.trans he')
  exact children ▸ pairwise_roots

/-- The messages of the entries have the digests of the entries. -/
theorem Spells.hash_mem (h : s.Spells f) {x : String} (hx : x ∈ s.messages hash) :
    hash x ∈ Greedy.digests hash s := by
  obtain ⟨e, he, rfl⟩ := List.mem_map.1 hx
  obtain ⟨i, hi, rfl⟩ := List.getElem_of_mem he
  rw [Array.length_toList] at hi
  rw [Array.getElem_toList]
  have entry : s.get? i = some s.entries[i] := Array.getElem?_eq_getElem hi
  have inside : i < (Greedy.digests hash s).size := size_digests ▸ hi
  have own : (Greedy.digests hash s).getD i "" = _ := digests_getD entry (h.later entry)
  rw [Array.getD_eq_getD_getElem?, Array.getElem?_eq_getElem inside, Option.getD_some] at own
  exact own ▸ Array.getElem_mem inside

/-- The numbers of the roots do not depend on what stands at the places. -/
theorem roots_numbered_map {α β : Type} (g : α → β) (f : Forest α) (k : Nat) :
    ((f.map g).numbered k).roots.map (·.2) = (f.numbered k).roots.map (·.2) := by
  induction f generalizing k with
  | nil => rfl
  | cons a below rest _ ih =>
    simp only [Forest.map, Forest.numbered, Forest.roots, List.map_cons, ih, Forest.flatten_map,
      List.length_map]

/-- The entries of a diff hold its tree. -/
theorem Lists.holds {d : Diff} {g : Forest Handle} (h : Lists d s (g.numbered k)) :
    s.Holds k (g.map fun n => ((d.look n).kind, (d.look n).matchingText)) := by
  induction g generalizing k with
  | nil => trivial
  | cons n below rest ihb ihr =>
    obtain ⟨⟨parent, here⟩, hb, hr⟩ := h
    refine ⟨⟨_, here, rfl, (roots_numbered_map _ below (k + 1)).symm⟩, ihb hb, ?_⟩
    rw [Forest.flatten_map, List.length_map]
    exact ihr hr

/-- The snapshot of a diff is a tree in preorder, of the kinds and texts of the nodes. -/
theorem spells_of_ofDiff {d : Diff} {t : Time} {g : Forest Handle} (hd : d.Regular)
    (h : d.Shape t g) (hs : ofDiff d t = .ok s) : s.Spells
      ((Forest.tree Diff.root g).map fun n => ((d.look n).kind, (d.look n).matchingText)) := by
  obtain ⟨s', hs', size, lists⟩ := ofDiff_spec hd h
  obtain rfl := Except.ok.inj (hs.symm.trans hs')
  exact ⟨lists.holds, by simp [size]⟩

end Snapshot

namespace Greedy

variable {hash : String → String} {src dst : Snapshot} {f g : Forest (Kind × String)} {i j : Nat}

theorem alike_iff : alike src dst i j = true ↔
    ∃ a b, src.get? i = some a ∧ dst.get? j = some b ∧ a.key = b.key := by
  unfold alike
  cases ha : src.get? i with
  | none => simp
  | some a =>
    cases hb : dst.get? j with
    | none => simp
    | some b => simp

/-- A label of one snapshot ends in a zero character and a digest of an entry of the other one. -/
def Feigns (hash : String → String) (s s' : Snapshot) : Prop :=
  ∃ e ∈ s.entries, ∃ g ∈ digests hash s', EndsIn e.label g

theorem not_feigns_of_any {s s' : Snapshot}
    (none : (s.entries.any fun e => (digests hash s').any fun g => decide (EndsIn e.label g)) = false) :
    ¬ Feigns hash s s' := by
  rintro ⟨e, he, g, hg, ends⟩
  rw [Array.any_eq_false'] at none
  exact none e he (Array.any_eq_true'.2 ⟨g, hg, decide_eq_true ends⟩)

/-- The digests of two snapshots tell subtrees apart: different messages have different digests, and
no label can be mistaken for a label and a child. -/
structure Discerns (hash : String → String) (src dst : Snapshot) : Prop where
  wide : ∃ n, ∀ x, (hash x).length = n
  apart : ∀ x ∈ src.messages hash, ∀ y ∈ dst.messages hash, hash x = hash y → x = y
  plain : ¬ Feigns hash src dst
  plain' : ¬ Feigns hash dst src

/-- Entries with one digest begin subtrees whose entries are alike one by one. -/
theorem Discerns.alike (discerns : Discerns hash src dst) (hf : src.Spells f) (hg : dst.Spells g)
    (hi : i < src.size) (hj : j < dst.size)
    (same : (digests hash src).getD i "" = (digests hash dst).getD j "") :
    ∀ p ∈ shifted i j ((sizes src).getD i 0), alike src dst p.1 p.2 = true := by
  obtain ⟨n, wide⟩ := discerns.wide
  obtain ⟨key, below, here⟩ := hf.tree_at hi
  obtain ⟨key', below', there⟩ := hg.tree_at hj
  have trees : Forest.tree key below = .tree key' below' := by
    refine Forest.eq_of_digests wide (fun x hx y hy => ?_) (fun k hk x hx ends => ?_)
      (fun k hk x hx ends => ?_) ?_
    · exact discerns.apart x (here.messages_subset hx) y (there.messages_subset hy)
    · obtain ⟨e, he, rfl⟩ := here.labels hk
      exact discerns.plain ⟨e, he, _, hg.hash_mem (there.messages_subset hx), ends⟩
    · obtain ⟨e, he, rfl⟩ := there.labels hk
      exact discerns.plain' ⟨e, he, _, hf.hash_mem (here.messages_subset hx), ends⟩
    · have one : _ = (Forest.tree key below).digests hash := here.digests
      have other : _ = (Forest.tree key' below').digests hash := there.digests
      simp only [Forest.tree, Forest.numbered, Forest.roots, List.map_cons, List.map_nil] at one other
      rw [same, other] at one
      exact one.symm
  have count := here.sizes 0
  simp only [Forest.tree, Forest.numbered, Forest.roots, List.map_cons, List.map_nil, List.foldr_cons,
    List.foldr_nil, Nat.add_zero] at count
  intro p hp
  obtain ⟨o, ho, rfl⟩ := List.mem_map.1 hp
  have inside : i < (sizes src).size := Snapshot.size_sizes ▸ hi
  have lt : o < (Forest.tree key below).flatten.length := by
    rw [Array.getD_eq_getD_getElem?, Array.getElem?_eq_getElem inside, Option.getD_some] at ho count
    rw [Forest.tree, ← count]
    exact List.mem_range.1 ho
  obtain ⟨a, ha, first⟩ := here.get? (List.getElem?_eq_getElem lt)
  rw [trees] at lt
  obtain ⟨b, hb, second⟩ := there.get? (List.getElem?_eq_getElem lt)
  simp only [trees] at first
  exact alike_iff.2 ⟨a, b, ha, hb, first.trans second.symm⟩

end Greedy

end Matching

end Variation
