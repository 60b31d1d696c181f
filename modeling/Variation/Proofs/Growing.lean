import Variation.Proofs.Chains
import Variation.Proofs.Tour

/-!
# The chains that are found

The walk over a diff lets every node begin a chain, continue one or be left alone. A node comes behind
its parent, so the chain that it continues was begun by then. The main statement says that the chains
that are found are chains and share no node, that none of them can be made longer, and that no chain
is missed.
-/

namespace Variation

namespace Diff

/-- A chain may be followed from where it begins to a node, and further. -/
inductive Growing (d : Diff) : Handle → Prop
  | begin {n : Handle} (plain : d.Plain n) (begins : d.Begins n) : Growing d n
  | more {n p : Handle} (up : Growing d p) (plain : d.Plain n) (sole : d.Sole n p)
      (passes : d.Passes n) : Growing d n

/-- A chain may be followed from where it begins to a node, and not further. -/
structure Closes (d : Diff) (n p : Handle) : Prop where
  growing : d.Growing p
  plain : d.Plain n
  sole : d.Sole n p
  shut : ¬ d.Passes n

/-- A chain that cannot be made longer. -/
structure Whole (d : Diff) (ns : List Handle) : Prop where
  begins : ∀ first ∈ ns.getLast?, d.Begins first
  closes : ∀ last ∈ ns.head?, ∃ p, d.Closes last p

variable {d : Diff} {n p : Handle} {seen ns ms : List Handle} {f : Forest Handle}

theorem Growing.plain (h : d.Growing n) : d.Plain n := by
  cases h <;> assumption

/-- What continues a growing chain begins none. -/
theorem Growing.not_begins (h : d.Growing p) (hd : d.Regular) (sole : d.Sole n p) : ¬ d.Begins n :=
  fun begins => h.plain.ne_root hd (begins p sole).1

/-- Nodes that are visited one after another: each is reached, and was not visited before, but its
parent was if it is the only child there. -/
inductive Visits (d : Diff) : List Handle → List Handle → Prop
  | nil (seen : List Handle) : Visits d seen []
  | cons {seen ns : List Handle} {n : Handle} (reached : d.Reaches n) (new : n ∉ seen)
      (behind : ∀ p, d.Plain n → d.Sole n p → p ∈ seen) (rest : Visits d (n :: seen) ns) :
      Visits d seen (n :: ns)

theorem Visits.append (h : d.Visits seen ns) (h' : d.Visits (ns.reverse ++ seen) ms) :
    d.Visits seen (ns ++ ms) := by
  induction h with
  | nil => exact h'
  | @cons seen ns n reached new behind rest ih =>
    refine .cons reached new behind (ih ?_)
    simpa using h'

/-- A tour visits an only child behind its parent. -/
theorem Tours.visits (h : d.Tours seen ns f) (hd : d.Regular) (hns : ∀ n ∈ ns, d.Reaches n)
    (behind : ∀ n ∈ ns, ∀ p, d.Plain n → d.Sole n p → p ∈ seen) : d.Visits seen f.flatten := by
  induction h with
  | nil => exact .nil _
  | skip old rest ih =>
    exact ih (List.forall_mem_cons.1 hns).2 (List.forall_mem_cons.1 behind).2
  | @visit seen ns n below rest new inner outer ihb ihr =>
    obtain ⟨here, hns⟩ := List.forall_mem_cons.1 hns
    obtain ⟨first, behind⟩ := List.forall_mem_cons.1 behind
    refine .cons here new first (Visits.append (ihb ?_ ?_) (ihr hns ?_))
    · exact fun c hc => here.of_mem_belowBoth hc
    · intro c hc p _ sole
      obtain ⟨t, up⟩ := hd.exists_above hc
      rw [sole.parent t] at up
      exact Option.some.inj up ▸ List.mem_cons_self
    · intro m hm p plain sole
      exact List.mem_append_right _ (List.mem_cons_of_mem n (behind m hm p plain sole))

theorem exists_visits (hd : d.Regular) :
    ∃ ns, d.preorder = .ok ns ∧ d.Visits [] ns ∧ ∀ n, d.Reaches n → n ∈ ns := by
  obtain ⟨f, tour⟩ := Tour.exists_tour hd
  refine ⟨_, preorder_eq hd tour, ?_, fun n => tour.mem_iff.2⟩
  have visits := tour.tours.visits hd (List.forall_mem_singleton.2 .root)
    (List.forall_mem_singleton.2 fun p plain => absurd rfl (plain.ne_root hd))
  rwa [Forest.flatten_tree] at visits

end Diff

namespace Simplification

open Diff

variable {d : Diff} {n : Handle} {seen : List Handle} {cs cs' : Chains}

/-- What becomes of the chains found so far when a node is visited: it is of no interest, begins a
chain, finds no chain that it could continue, or continues one. -/
inductive Chains.Adds (d : Diff) (n : Handle) (cs : Chains) : Chains → Prop
  | skip (other : ¬ d.Plain n) : Adds d n cs cs
  | begin (plain : d.Plain n) (begins : d.Begins n) :
      Adds d n cs { cs with growing := cs.growing ++ [[n]] }
  | miss {p : Handle} (plain : d.Plain n) (further : ¬ d.Begins n) (sole : d.Sole n p)
      (none : ∀ ns ∈ cs.growing, ns.head? ≠ some p) : Adds d n cs cs
  | extend {p : Handle} {i : Nat} {ends : Bool} (plain : d.Plain n) (further : ¬ d.Begins n)
      (sole : d.Sole n p) (hi : i < cs.growing.length) (last : cs.growing[i].head? = some p)
      (told : ends = true ↔ ¬ d.Passes n) : Adds d n cs (cs.extend i n ends)

theorem add_cases (hd : d.Regular) (hn : d.Reaches n) (cs : Chains) :
    ∃ cs', Chains.add d cs n = .ok cs' ∧ Chains.Adds d n cs cs' := by
  have inStore := hn.lt_size hd
  obtain ⟨begins, begun, start⟩ := beginsChain_spec hd inStore
  obtain ⟨continued, answer, only⟩ := continuesChain_spec hd inStore
  obtain ⟨ends, ended, last⟩ := endsChain_spec hd inStore
  simp only [Chains.add, node_look inStore, Outcome.ok_bind, begun, answer, ended]
  split
  · next other =>
    refine ⟨cs, rfl, .skip fun plain => ?_⟩
    obtain kind | change | branch := other
    · have branch := plain.annotates
      rw [Diff.annotates, kind] at branch
      cases branch
    · exact change plain.change
    · exact branch plain.annotates
  next annotation =>
  have plain : d.Plain n := by
    simp only [not_or, not_not] at annotation
    exact ⟨hn, annotation.2.1, annotation.2.2⟩
  split
  · next yes => exact ⟨_, rfl, .begin plain (start.1 yes)⟩
  next no =>
  have further : ¬ d.Begins n := fun begins => no (start.2 begins)
  split
  · next continues =>
    obtain ⟨p, sole⟩ := only.1 continues
    have parent : (d.look n).parent.before = some p :=
      (above_look inStore).symm.trans (sole.parent .before)
    split
    · next none =>
      refine ⟨cs, rfl, .miss plain further sole fun ns hns head => ?_⟩
      have other := List.findIdx?_eq_none_iff.1 none ns hns
      rw [head, parent, beq_self_eq_true] at other
      cases other
    · next i found =>
      obtain ⟨hi, head, -⟩ := List.findIdx?_eq_some_iff_getElem.1 found
      rw [parent, beq_iff_eq] at head
      exact ⟨_, rfl, .extend plain further sole hi head (last.trans (and_iff_right ⟨p, sole⟩))⟩
  · next shut =>
    exact absurd (fun p sole => absurd (only.2 ⟨p, sole⟩) shut) further

/-! ## Chains that share no node -/

/-- The chains found so far share no node, and have only visited ones. -/
structure Chains.Found (d : Diff) (seen : List Handle) (cs : Chains) : Prop where
  chained : d.Chained (cs.growing ++ cs.complete)
  seen : (cs.growing ++ cs.complete).flatten ⊆ seen

namespace Chains.Found

variable {i : Nat} {p : Handle} {ends : Bool}

/-- A chain that is put in place of some part of the chains found so far, and has one visited node
more. -/
theorem put {ns : List Handle} {chains : List (List Handle)} {first : Handle} {cs' : Chains}
    (h : cs.Found d seen) (old : (cs.growing ++ cs.complete).flatten.Perm (ns ++ chains.flatten))
    (rest : d.Chained chains) (chain : d.Chain first n (n :: ns)) (new : n ∉ seen)
    (same : ((n :: ns) :: chains).Perm (cs'.growing ++ cs'.complete)) :
    cs'.Found d (n :: seen) where
  chained := by
    refine (rest.cons chain fun m hm other => ?_).perm same
    obtain rfl | hm := List.mem_cons.1 hm
    · exact new (h.seen (old.mem_iff.2 (List.mem_append_right ns other)))
    · have once := old.nodup_iff.1 h.chained.once
      exact (List.nodup_append'.1 once).2.2 hm other
  seen m hm := by
    have mem := same.flatten.mem_iff.2 hm
    rw [List.flatten_cons, List.cons_append] at mem
    obtain rfl | mem := List.mem_cons.1 mem
    · exact List.mem_cons_self
    · exact List.mem_cons_of_mem n (h.seen (old.mem_iff.2 mem))

theorem begin (h : cs.Found d seen) (plain : d.Plain n) (new : n ∉ seen) :
    Found d (n :: seen) { cs with growing := cs.growing ++ [[n]] } := by
  have old : (cs.growing ++ cs.complete).flatten.Perm ([] ++ (cs.growing ++ cs.complete).flatten) :=
    .refl _
  refine h.put old h.chained (.one plain) new ?_
  rw [List.append_assoc, List.singleton_append]
  exact List.perm_middle.symm

theorem extend (h : cs.Found d seen) (plain : d.Plain n) (new : n ∉ seen)
    (hi : i < cs.growing.length) (last : cs.growing[i].head? = some p) (sole : d.Sole n p) :
    (cs.extend i n ends).Found d (n :: seen) := by
  have take : (cs.growing ++ cs.complete).Perm
      (cs.growing[i] :: (cs.growing.eraseIdx i ++ cs.complete)) :=
    (List.getElem_cons_eraseIdx_perm hi).symm.append_right cs.complete
  have chained := h.chained.perm take
  obtain ⟨first, q, chain⟩ := chained.chain _ List.mem_cons_self
  rw [chain.head?] at last
  obtain rfl := Option.some.inj last
  have other : n ∉ cs.growing[i] := fun hn => new (h.seen (take.flatten.mem_iff.2 (by simp [hn])))
  refine h.put (by simpa using take.flatten) chained.tail (.more chain plain sole other) new ?_
  have get : cs.growing.getD i [] = cs.growing[i] := by simp [hi]
  rw [Chains.extend, get]
  cases ends with
  | true => exact List.perm_middle.symm
  | false =>
    have back : ((n :: cs.growing[i]) :: cs.growing.eraseIdx i).Perm
        (cs.growing.set i (n :: cs.growing[i])) := by
      have inside : i < (cs.growing.set i (n :: cs.growing[i])).length := by simpa using hi
      have whole := List.getElem_cons_eraseIdx_perm inside
      rwa [List.getElem_set_self, List.eraseIdx_set_eq] at whole
    exact back.append_right cs.complete

end Chains.Found

/-- The chains found so far share no node after one more node is visited. -/
theorem Chains.Found.add (h : cs.Found d seen) (new : n ∉ seen)
    (adds : Chains.Adds d n cs cs') : cs'.Found d (n :: seen) := by
  have kept : cs.Found d (n :: seen) := ⟨h.chained, List.subset_cons_of_subset n h.seen⟩
  cases adds with
  | skip | miss => exact kept
  | begin plain => exact h.begin plain new
  | extend plain _ sole hi last => exact h.extend plain new hi last sole

/-! ## No chain is missed -/

/-- The chains found so far are those that visited nodes allow to follow: the growing ones begin where
chains begin, the complete ones cannot be made longer, and none is missing. -/
structure Chains.Grown (d : Diff) (seen : List Handle) (cs : Chains) : Prop where
  begins : ∀ ns ∈ cs.growing, ∀ first ∈ ns.getLast?, d.Begins first
  grows : ∀ ns ∈ cs.growing, ∀ last ∈ ns.head?, d.Growing last
  whole : ∀ ns ∈ cs.complete, d.Whole ns
  growing : ∀ n ∈ seen, d.Growing n →
    (∃ ns ∈ cs.growing, ns.head? = some n) ∨ ∃ c ∈ seen, d.Sole c n
  closed : ∀ n ∈ seen, ∀ p, d.Closes n p → ∃ ns ∈ cs.complete, n ∈ ns

section Extend

variable {i : Nat} {ends : Bool} {ns : List Handle}

theorem mem_growing_extend (hi : i < cs.growing.length) : ns ∈ (cs.extend i n ends).growing ↔
    (ends = false ∧ ns = n :: cs.growing[i]) ∨ ns ∈ cs.growing.eraseIdx i := by
  have get : cs.growing.getD i [] = cs.growing[i] := by simp [hi]
  rw [Chains.extend, get]
  cases ends with
  | true => simp
  | false =>
    have inside : i < (cs.growing.set i (n :: cs.growing[i])).length := by simpa using hi
    have whole := List.getElem_cons_eraseIdx_perm inside
    rw [List.getElem_set_self, List.eraseIdx_set_eq] at whole
    simp [← whole.mem_iff]

theorem mem_complete_extend (hi : i < cs.growing.length) : ns ∈ (cs.extend i n ends).complete ↔
    (ends = true ∧ ns = n :: cs.growing[i]) ∨ ns ∈ cs.complete := by
  have get : cs.growing.getD i [] = cs.growing[i] := by simp [hi]
  rw [Chains.extend, get]
  cases ends <;> simp

theorem mem_growing_iff (hi : i < cs.growing.length) :
    ns ∈ cs.growing ↔ ns = cs.growing[i] ∨ ns ∈ cs.growing.eraseIdx i := by
  rw [← (List.getElem_cons_eraseIdx_perm hi).mem_iff, List.mem_cons]

end Extend

namespace Chains.Grown

variable {i : Nat} {p : Handle} {ends : Bool}

/-- Nothing is missing after one more node, if that is so for the node itself. -/
theorem skip (h : cs.Grown d seen) (growing : d.Growing n → ∃ c ∈ seen, d.Sole c n)
    (closed : ∀ p, ¬ d.Closes n p) : cs.Grown d (n :: seen) where
  begins := h.begins
  grows := h.grows
  whole := h.whole
  growing := List.forall_mem_cons.2 ⟨fun grows => .inr <| by
      obtain ⟨c, hc, sole⟩ := growing grows
      exact ⟨c, List.mem_cons_of_mem n hc, sole⟩,
    fun m hm grows => (h.growing m hm grows).imp_right fun ⟨c, hc, sole⟩ =>
      ⟨c, List.mem_cons_of_mem n hc, sole⟩⟩
  closed := List.forall_mem_cons.2 ⟨fun p closes => absurd closes (closed p), h.closed⟩

theorem begin (h : cs.Grown d seen) (hd : d.Regular) (plain : d.Plain n) (begins : d.Begins n) :
    Grown d (n :: seen) { cs with growing := cs.growing ++ [[n]] } where
  begins := List.forall_mem_append.2 ⟨h.begins, by simpa using begins⟩
  grows := List.forall_mem_append.2 ⟨h.grows, by simpa using Growing.begin plain begins⟩
  whole := h.whole
  growing := by
    refine List.forall_mem_cons.2 ⟨fun _ => .inl ⟨[n], by simp, rfl⟩, fun m hm grows => ?_⟩
    obtain ⟨ns, hns, head⟩ | ⟨c, hc, sole⟩ := h.growing m hm grows
    · exact .inl ⟨ns, List.mem_append_left _ hns, head⟩
    · exact .inr ⟨c, List.mem_cons_of_mem n hc, sole⟩
  closed := List.forall_mem_cons.2
    ⟨fun _ closes => absurd begins (closes.growing.not_begins hd closes.sole), h.closed⟩

theorem extend (h : cs.Grown d seen) (plain : d.Plain n) (further : ¬ d.Begins n)
    (sole : d.Sole n p) (hi : i < cs.growing.length) (last : cs.growing[i].head? = some p)
    (told : ends = true ↔ ¬ d.Passes n) : (cs.extend i n ends).Grown d (n :: seen) := by
  have mem : cs.growing[i] ∈ cs.growing := List.getElem_mem hi
  have start : ∀ first ∈ (n :: cs.growing[i]).getLast?, d.Begins first := by
    intro first hfirst
    obtain ⟨qs, hq⟩ := List.head?_eq_some_iff.1 last
    rw [hq, List.getLast?_cons_cons, ← hq] at hfirst
    exact h.begins _ mem first hfirst
  have up : d.Growing p := h.grows _ mem p last
  refine ⟨fun ns hns => ?_, fun ns hns => ?_, fun ns hns => ?_, ?_, ?_⟩
  · obtain ⟨-, rfl⟩ | hns := (mem_growing_extend hi).1 hns
    · exact start
    · exact h.begins ns ((mem_growing_iff hi).2 (.inr hns))
  · obtain ⟨open_, rfl⟩ | hns := (mem_growing_extend hi).1 hns
    · have passes : d.Passes n := by_contra fun shut => by
        rw [told.2 shut] at open_
        cases open_
      simpa using Growing.more up plain sole passes
    · exact h.grows ns ((mem_growing_iff hi).2 (.inr hns))
  · obtain ⟨shut, rfl⟩ | hns := (mem_complete_extend hi).1 hns
    · exact ⟨start, by simpa using ⟨p, up, plain, sole, told.1 shut⟩⟩
    · exact h.whole ns hns
  · refine List.forall_mem_cons.2 ⟨fun grows => ?_, fun m hm grows => ?_⟩
    · cases grows with
      | begin _ begins => exact absurd begins further
      | more _ _ _ passes =>
        have open_ : ends = false := Bool.eq_false_iff.2 fun shut => told.1 shut passes
        exact .inl ⟨_, (mem_growing_extend hi).2 (.inl ⟨open_, rfl⟩), rfl⟩
    · obtain ⟨ns, hns, head⟩ | ⟨c, hc, below⟩ := h.growing m hm grows
      · obtain here | hns := (mem_growing_iff hi).1 hns
        · -- the chain that ended here goes on
          rw [here, last] at head
          obtain rfl := Option.some.inj head
          exact .inr ⟨n, List.mem_cons_self, sole⟩
        · exact .inl ⟨ns, (mem_growing_extend hi).2 (.inr hns), head⟩
      · exact .inr ⟨c, List.mem_cons_of_mem n hc, below⟩
  · refine List.forall_mem_cons.2 ⟨fun q closes => ?_, fun m hm q closes => ?_⟩
    · exact ⟨_, (mem_complete_extend hi).2 (.inl ⟨told.2 closes.shut, rfl⟩), List.mem_cons_self⟩
    · obtain ⟨ns, hns, inside⟩ := h.closed m hm q closes
      exact ⟨ns, (mem_complete_extend hi).2 (.inr hns), inside⟩

theorem add (h : cs.Grown d seen) (hd : d.Regular) (new : n ∉ seen)
    (behind : ∀ p, d.Plain n → d.Sole n p → p ∈ seen) (adds : Chains.Adds d n cs cs') :
    cs'.Grown d (n :: seen) := by
  cases adds with
  | skip other => exact h.skip (fun grows => absurd grows.plain other) fun _ closes => other closes.plain
  | begin plain begins => exact h.begin hd plain begins
  | @miss p plain further sole none =>
    -- the parent was visited, so it would be the last node of a chain
    have stuck : ¬ d.Growing p := fun grows => by
      obtain ⟨ns, hns, head⟩ | ⟨c, hc, other⟩ := h.growing p (behind p plain sole) grows
      · exact none ns hns head
      · exact new (sole.only _ _ (other.parent .before) ▸ hc)
    have same {q : Handle} (other : d.Sole n q) : q = p :=
      Option.some.inj ((other.parent .before).symm.trans (sole.parent _))
    refine h.skip (fun grows => ?_) fun q closes => stuck (same closes.sole ▸ closes.growing)
    cases grows with
    | begin _ begins => exact absurd begins further
    | more up _ other => exact absurd (same other ▸ up) stuck
  | extend plain further sole hi last told => exact h.extend plain further sole hi last told

end Chains.Grown

/-! ## The walk -/

theorem foldlM_add_spec (hd : d.Regular) {ns : List Handle} (visits : d.Visits seen ns)
    (found : cs.Found d seen) (grown : cs.Grown d seen) :
    ∃ cs', ns.foldlM (Chains.add d) cs = .ok cs' ∧ cs'.Found d (ns.reverse ++ seen) ∧
      cs'.Grown d (ns.reverse ++ seen) := by
  induction visits generalizing cs with
  | nil => exact ⟨cs, rfl, found, grown⟩
  | @cons seen ns n reached new behind rest ih =>
    obtain ⟨cs₁, run, adds⟩ := add_cases hd reached cs
    obtain ⟨cs', run', spec⟩ := ih (found.add new adds) (grown.add hd new behind adds)
    refine ⟨cs', by rw [List.foldlM_cons, run]; exact run', ?_⟩
    simpa using spec

/-- The chains of a diff are found: they are chains that share no node and cannot be made longer, and
none is missed. -/
theorem chains_spec (hd : d.Regular) : ∃ cs, chains d = .ok cs ∧ d.Chained cs ∧
    (∀ ns ∈ cs, d.Whole ns) ∧ ∀ n p, d.Closes n p → n ∈ cs.flatten := by
  obtain ⟨ns, walk, visits, all⟩ := exists_visits hd
  have none : Chains.Found d [] {} := ⟨⟨by simp, by simp⟩, by simp⟩
  have fresh : Chains.Grown d [] {} := ⟨by simp, by simp, by simp, by simp, by simp⟩
  obtain ⟨cs, run, found, grown⟩ := foldlM_add_spec hd visits none fresh
  have chained := found.chained.perm List.perm_append_comm
  have once := chained.once
  rw [List.flatten_append] at once
  have complete : d.Chained cs.complete :=
    ⟨(List.nodup_append.1 once).1, fun ns hns => chained.chain ns (List.mem_append_left _ hns)⟩
  refine ⟨_, by rw [chains, walk, Outcome.ok_bind, run]; rfl,
    complete.perm (List.reverse_perm _).symm, fun ns hns => grown.whole ns (List.mem_reverse.1 hns),
    fun n p closes => ?_⟩
  have visited : n ∈ ns.reverse ++ [] := by simpa using all n closes.plain.reaches
  obtain ⟨ns, hns, inside⟩ := grown.closed n visited p closes
  exact List.mem_flatten.2 ⟨ns, List.mem_reverse.2 hns, inside⟩

end Simplification

end Variation
