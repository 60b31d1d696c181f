import Mathlib.Logic.Relation
import Variation.Proofs.Compared
import Variation.Proofs.Reprinted

/-!
# Which diffs have a line diff

A diff is a tree at each time, but its nodes can hang below each other crosswise: one below the other
before the edit, the other below the one after it. The walk that prints a diff does not mind, since it
marks the nodes that it has met. To place a closing line that was not recorded, though, it looks for
the last line of everything below a node, and this search marks a node only when it leaves it. So it
comes to an end below the nodes that are `Founded`. The main statement says that a diff has a line
diff exactly if everything that is left open is founded, and that the line diff then holds the lines
of every node below the root once, and closing lines beside them.
-/

namespace Variation

open Diff

namespace Outcome

variable {α β : Type} {as : List α} {f : β → α → Outcome β} {b : β}

/-- A run through a list goes through, as long as it keeps something that lets each step go through,
or it fails for the reason for which a step may fail. -/
theorem foldlM_settles {keeps : β → Prop} {finds : α → Prop} {reason : Failure → Prop}
    (step : ∀ a ∈ as, ∀ b, keeps b → (∃ b', f b a = .ok b' ∧ keeps b' ∧ finds a) ∨
      ∃ e, f b a = .error e ∧ reason e) (start : keeps b) :
    (∃ b', as.foldlM f b = .ok b' ∧ keeps b' ∧ ∀ a ∈ as, finds a) ∨
      ∃ e, as.foldlM f b = .error e ∧ reason e := by
  induction as generalizing b with
  | nil => exact .inl ⟨b, rfl, start, fun a ha => absurd ha List.not_mem_nil⟩
  | cons a as ih =>
    obtain ⟨here, step⟩ := List.forall_mem_cons.1 step
    rw [List.foldlM_cons]
    obtain ⟨b', run, kept, found⟩ | ⟨e, run, why⟩ := here b start
    · rw [run, ok_bind]
      refine (ih step kept).imp_left ?_
      rintro ⟨b'', rest, kept', all⟩
      exact ⟨b'', rest, kept', List.forall_mem_cons.2 ⟨found, all⟩⟩
    · exact .inr ⟨e, by rw [run, error_bind], why⟩

theorem exists_foldlM (step : ∀ a ∈ as, ∀ b, ∃ b', f b a = .ok b') (b : β) :
    ∃ b', as.foldlM f b = .ok b' := by
  induction as generalizing b with
  | nil => exact ⟨b, rfl⟩
  | cons a as ih =>
    obtain ⟨here, step⟩ := List.forall_mem_cons.1 step
    obtain ⟨b', run⟩ := here b
    rw [List.foldlM_cons, run, ok_bind]
    exact ih step b'

end Outcome

namespace Diff

variable {d : Diff} {n m : Handle}

/-- A node hangs below another one, at some time. -/
def Under (d : Diff) (p c : Handle) : Prop := c ∈ d.belowBoth p

/-- Following children of either time down from a node comes to an end. -/
inductive Founded (d : Diff) : Handle → Prop
  | intro {n : Handle} (below : ∀ c, d.Under n c → Founded d c) : Founded d n

/-- Following children of either time down from a node meets a number of nodes at most. -/
def Within (d : Diff) : Nat → Handle → Prop
  | 0, _ => False
  | k + 1, n => ∀ c, d.Under n c → d.Within k c

/-- Some node at or below a node hangs somewhere below itself. -/
def Loops (d : Diff) (n : Handle) : Prop :=
  ∃ m, Relation.ReflTransGen d.Under n m ∧ Relation.TransGen d.Under m m

theorem Within.founded {k : Nat} (h : d.Within k n) : d.Founded n := by
  induction k generalizing n with
  | zero => exact h.elim
  | succ k ih => exact .intro fun c hc => ih (h c hc)

theorem Founded.not_loops (h : d.Founded n) : ¬ d.Loops n := by
  induction h with
  | @intro n _ ih =>
    rintro ⟨m, below, loop⟩
    -- a loop at the node goes through one of its children
    obtain ⟨c, hc, below, loop⟩ : ∃ c, d.Under n c ∧ Relation.ReflTransGen d.Under c m ∧
        Relation.TransGen d.Under m m := by
      obtain rfl | ⟨c, hc, below⟩ := Relation.ReflTransGen.cases_head below
      · obtain ⟨c, hc, back⟩ := Relation.TransGen.head'_iff.1 loop
        exact ⟨c, hc, back, loop⟩
      · exact ⟨c, hc, below, loop⟩
    exact ih c hc ⟨m, below, loop⟩

/-- Without a loop all nodes that are met on the way down are different, so there are not more of them
than there are in the store. -/
theorem within_of_not_loops (hd : d.Regular) (hn : n < d.size) (h : ¬ d.Loops n) :
    d.Within (d.size + 1) n := by
  suffices deep : ∀ (k : Nat) (m : Handle) (path : List Handle), m < d.size →
      Relation.ReflTransGen d.Under n m → path.Nodup →
      (∀ p ∈ path, p < d.size ∧ Relation.TransGen d.Under p m) → d.size < k + path.length →
      d.Within k m from
    deep (d.size + 1) n [] hn .refl .nil (fun p hp => absurd hp List.not_mem_nil) (by simp)
  intro k
  induction k with
  | zero =>
    intro m path _ _ once above enough
    have short := (once.subperm fun p hp => List.mem_range.2 (above p hp).1).length_le
    rw [List.length_range] at short
    omega
  | succ k ih =>
    intro m path hm below once above enough c hc
    have new : m ∉ path := fun hp => h ⟨m, below, (above m hp).2⟩
    refine ih c (m :: path) (hd.lt_size_of_mem_belowBoth hc) (below.tail hc) (List.nodup_cons.2 ⟨new, once⟩)
      (List.forall_mem_cons.2 ⟨⟨hm, .single hc⟩, fun p hp => ?_⟩) (by rw [List.length_cons]; omega)
    exact ⟨(above p hp).1, (above p hp).2.tail hc⟩

theorem founded_iff (hd : d.Regular) (hn : n < d.size) : d.Founded n ↔ ¬ d.Loops n :=
  ⟨Founded.not_loops, fun h => (within_of_not_loops hd hn h).founded⟩

/-- A chain lacks the closing line of a time at which it is there. -/
def LeftOpen (d : Diff) (n : Handle) : Prop :=
  (d.look n).kind = .ifBranch ∧ ∃ t, d.lives t n = true ∧ (d.look n).closing.get t = none

/-- A node below the root that is not the root. -/
def Inner (d : Diff) (n : Handle) : Prop := d.Reaches n ∧ n ≠ root

/-- What hangs below the root starts at a place between 1 and 2 ^ 30 and has fewer lines than that. -/
def Spacious (d : Diff) : Prop :=
  ∀ n, d.Inner n → 1 ≤ (d.look n).start.diff ∧ (d.look n).start.diff ≤ 2 ^ 30 ∧
    (d.look n).label.lines.length < 2 ^ 30

/-- No child is the root. -/
theorem Inner.child (hd : d.Regular) (sound : d.Sound) (h : d.Reaches n) {c : Handle}
    (hc : d.Under n c) : d.Inner c :=
  ⟨h.of_mem_belowBoth hc, ne_root_of_mem_belowBoth hd.root sound hd.toSymmetric hc⟩

end Diff

namespace Printing

variable {d : Diff} {n : Handle} {ends : Ends} {levels : Nat}

/-! ## The last line below a node -/

/-- The nodes whose last lines are known are founded. -/
def Memo (d : Diff) (ends : Ends) : Prop :=
  ∀ n last, ends[n]? = some (some last) → d.Founded n

theorem memo_replicate (d : Diff) (size : Nat) : Memo d (Array.replicate size none) := by
  intro n last h
  rw [Array.getElem?_replicate] at h
  split at h <;> cases h

theorem Memo.set (h : Memo d ends) (founded : d.Founded n) (last : Option Int) :
    Memo d (ends.setIfInBounds n last) := by
  intro m k hk
  rw [Array.getElem?_setIfInBounds] at hk
  split at hk
  · next same => exact same ▸ founded
  · exact h m k hk

/-- A place for the last line of a node is in range. -/
theorem exists_ownEnd (spacious : d.Spacious) (h : d.Inner n) :
    ∃ last, ownEnd (d.look n) = .ok last := by
  obtain ⟨low, high, few⟩ := spacious n h
  have fits : FitsLine ((d.look n).start.diff + max (d.look n).label.lines.length 1) := by
    constructor <;> omega
  rw [ownEnd, lineNumber?, if_pos fits]
  exact ⟨_, rfl⟩

/-- The search goes on with the next child. -/
def endStep (d : Diff) (levels : Nat) (p : Int × Ends) (c : Handle) : Outcome (Int × Ends) := do
  let (below, ends) ← endBelow d levels c p.2
  return (max p.1 below, ends)

theorem endBelow_known {last : Int} (known : ends[n]? = some (some last)) :
    endBelow d levels n ends = .ok (last, ends) := by
  cases levels <;> rw [endBelow, known] <;> rfl

theorem endBelow_zero (unknown : ∀ last, ends[n]? ≠ some (some last)) :
    endBelow d 0 n ends = .fail (.notRooted n) := by
  rw [endBelow]
  split
  · next last known => exact absurd known (unknown last)
  · rfl

theorem endBelow_succ (hn : n < d.size) (unknown : ∀ last, ends[n]? ≠ some (some last)) :
    endBelow d (levels + 1) n ends = do
      let own ← ownEnd (d.look n)
      let p ← (d.belowBoth n).foldlM (endStep d levels) (own, ends)
      return (p.1, p.2.setIfInBounds n (some p.1)) := by
  rw [endBelow]
  split
  · next last known => exact absurd known (unknown last)
  · rw [node_look hn, allChildren_eq hn]
    rfl

/-- A search that comes to an end knew the last line, or went through the children with one level less. -/
theorem endBelow_cases {p : Int × Ends} (hn : n < d.size) (run : endBelow d levels n ends = .ok p) :
    (∃ last, ends[n]? = some (some last) ∧ p = (last, ends)) ∨
      ∃ k own q, levels = k + 1 ∧ (∀ last, ends[n]? ≠ some (some last)) ∧
        ownEnd (d.look n) = .ok own ∧ (d.belowBoth n).foldlM (endStep d k) (own, ends) = .ok q ∧
        p = (q.1, q.2.setIfInBounds n (some q.1)) := by
  by_cases known : ∃ last, ends[n]? = some (some last)
  · obtain ⟨last, known⟩ := known
    rw [endBelow_known known] at run
    exact .inl ⟨last, known, (Except.ok.inj run).symm⟩
  · have unknown := not_exists.1 known
    cases levels with
    | zero =>
      rw [endBelow_zero unknown] at run
      cases run
    | succ levels =>
      rw [endBelow_succ hn unknown] at run
      obtain ⟨own, first, run⟩ := Outcome.bind_eq_ok_iff.1 run
      obtain ⟨q, search, run⟩ := Outcome.bind_eq_ok_iff.1 run
      exact .inr ⟨levels, own, q, rfl, unknown, first, search, (Except.ok.inj run).symm⟩

/-- The search finds a last line below founded nodes only, and fails in one way. -/
theorem endBelow_settles (hd : d.Regular) (sound : d.Sound) (spacious : d.Spacious)
    (levels : Nat) (h : d.Inner n) (memo : Memo d ends) :
    (∃ p, endBelow d levels n ends = .ok p ∧ Memo d p.2 ∧ d.Founded n) ∨
      ∃ e, endBelow d levels n ends = .error e ∧ ∃ m, e = .fault (.notRooted m) := by
  induction levels generalizing n ends with
  | zero =>
    by_cases known : ∃ last, ends[n]? = some (some last)
    · obtain ⟨last, known⟩ := known
      exact .inl ⟨(last, ends), endBelow_known known, memo, memo n last known⟩
    · exact .inr ⟨_, endBelow_zero (not_exists.1 known), n, rfl⟩
  | succ levels ih =>
    by_cases known : ∃ last, ends[n]? = some (some last)
    · obtain ⟨last, known⟩ := known
      exact .inl ⟨(last, ends), endBelow_known known, memo, memo n last known⟩
    · obtain ⟨own, found⟩ := exists_ownEnd spacious h
      rw [endBelow_succ (h.1.lt_size hd) (not_exists.1 known), found, Outcome.ok_bind]
      have step : ∀ c ∈ d.belowBoth n, ∀ p : Int × Ends, Memo d p.2 →
          (∃ p', endStep d levels p c = .ok p' ∧ Memo d p'.2 ∧ d.Founded c) ∨
            ∃ e, endStep d levels p c = .error e ∧ ∃ m, e = .fault (.notRooted m) := by
        intro c hc p kept
        obtain ⟨q, run, kept', founded⟩ | ⟨e, run, why⟩ := ih (.child hd sound h.1 hc) kept
        · exact .inl ⟨(max p.1 q.1, q.2), by rw [endStep, run]; rfl, kept', founded⟩
        · exact .inr ⟨e, by rw [endStep, run, Outcome.error_bind], why⟩
      obtain ⟨p, run, kept, founded⟩ | ⟨e, run, why⟩ := Outcome.foldlM_settles (b := (own, ends)) step memo
      · exact .inl ⟨_, by rw [run]; rfl, kept.set (.intro founded) _, .intro founded⟩
      · exact .inr ⟨e, by rw [run, Outcome.error_bind], why⟩

/-- The search comes to an end if there are levels for all nodes that it meets on the way down. -/
theorem exists_endBelow (hd : d.Regular) (sound : d.Sound) (spacious : d.Spacious)
    (h : d.Inner n) (within : d.Within levels n) (ends : Ends) :
    ∃ p, endBelow d levels n ends = .ok p := by
  induction levels generalizing n ends with
  | zero => exact within.elim
  | succ levels ih =>
    by_cases known : ∃ last, ends[n]? = some (some last)
    · obtain ⟨last, known⟩ := known
      exact ⟨(last, ends), endBelow_known known⟩
    · obtain ⟨own, found⟩ := exists_ownEnd spacious h
      have step : ∀ c ∈ d.belowBoth n, ∀ p : Int × Ends,
          ∃ p', endStep d levels p c = .ok p' := by
        intro c hc p
        obtain ⟨q, run⟩ := ih (.child hd sound h.1 hc) (within c hc) p.2
        exact ⟨(max p.1 q.1, q.2), by rw [endStep, run]; rfl⟩
      obtain ⟨p, run⟩ := Outcome.exists_foldlM step (own, ends)
      exact ⟨_, by
        rw [endBelow_succ (h.1.lt_size hd) (not_exists.1 known), found, Outcome.ok_bind, run]
        rfl⟩

/-! ## The walk -/

/-- A line that closes something: one of a closing line that was recorded, or a plain one. -/
def Closing (d : Diff) (e : Entry) : Prop :=
  (∃ n t c, d.Records n t c ∧ e ∈ (d.block (.closing c)).entries) ∨
    e.added = true ∧ e.text = plainClosing

namespace Sheet

variable {s : Sheet} {seen ns : List Handle} {f : Forest Handle} {es : List Entry}

/-- A sheet carries the lines of the nodes that were met, each node once, and closing lines. -/
structure Carries (d : Diff) (s : Sheet) (seen : List Handle) (es : List Entry) : Prop where
  marked : d.Marked s.visited seen
  entries : s.entries.toList.Perm (seen.flatMap (firstEntries d) ++ es)
  closings : ∀ e ∈ es, Closing d e
  memo : Memo d s.ends

theorem carries_blank (d : Diff) : (blank d.size).Carries d [] [] where
  marked := .none d
  entries := .refl _
  closings _ he := absurd he List.not_mem_nil
  memo := memo_replicate d d.size

theorem Carries.meet (h : s.Carries d seen es) (hn : n < d.size) :
    (s.meet d n).Carries d (n :: seen) es where
  marked := h.marked.mark hn
  entries := perm_meet h.entries
  closings := h.closings
  memo := h.memo

theorem Carries.write (h : s.Carries d seen es) (es' : List Entry)
    (closings : ∀ e ∈ es', Closing d e) : (s.write es').Carries d seen (es ++ es') where
  marked := h.marked
  entries := by
    show (s.entries ++ es'.toArray).toList.Perm _
    rw [Array.toList_append, ← List.append_assoc]
    exact h.entries.append_right es'
  closings := List.forall_mem_append.2 ⟨h.closings, closings⟩
  memo := h.memo

/-- Recorded closing lines are written, unless they were written before. -/
theorem Carries.writeClosings {cs : List ClosingLine} (h : s.Carries d seen es)
    (recorded : ∀ c ∈ cs, ∃ n t, d.Records n t c) :
    ∃ es', (cs.foldl writeClosing s).Carries d seen es' := by
  induction cs generalizing s es with
  | nil => exact ⟨es, h⟩
  | cons c cs ih =>
    obtain ⟨⟨n, t, here⟩, recorded⟩ := List.forall_mem_cons.1 recorded
    obtain ⟨es₁, carries⟩ : ∃ es₁, (s.writeClosing c).Carries d seen es₁ := by
      unfold Sheet.writeClosing
      split
      · exact ⟨es, h⟩
      · have written := h.write (d.block (.closing c)).entries
          fun e he => .inl ⟨n, t, c, here, he⟩
        exact ⟨_, written.marked, written.entries, written.closings, written.memo⟩
    exact ih carries recorded

/-- The times at which a node is there without a closing line. -/
theorem missing_eq_nil_iff (hn : n < d.size) (kind : (d.look n).kind = .ifBranch) :
    ((d.look n).change.times.filter fun t => ((d.look n).closing.get t).isNone) = [] ↔
      ¬ d.LeftOpen n := by
  simp only [LeftOpen, kind, true_and, lives_look hn, List.filter_eq_nil_iff, Change.mem_times,
    Node.existsAt, Option.isNone_iff_eq_none, not_exists, not_and]

/-- What a node opened is closed, unless it was left open and is not founded. -/
theorem Carries.close (hd : d.Regular) (sound : d.Sound) (spacious : d.Spacious) (depth : Nat)
    (h : s.Carries d seen es) (inner : d.Inner n) (kind : (d.look n).kind = .ifBranch) :
    (∃ s' es', s.close d n (d.look n) depth = .ok s' ∧ s'.Carries d seen es' ∧
        (d.LeftOpen n → d.Founded n)) ∨
      (∃ m, s.close d n (d.look n) depth = .fail (.notRooted m)) ∧ d.LeftOpen n ∧
        ¬ d.Founded n := by
  have hn := inner.1.lt_size hd
  have recorded : ∀ c ∈ (d.look n).change.times.filterMap (d.look n).closing.get,
      ∃ n t, d.Records n t c := by
    intro c hc
    obtain ⟨t, -, hc⟩ := List.mem_filterMap.1 hc
    exact ⟨n, t, inner.1, Node.closingAt_eq_some_iff.2 ⟨kind, hc⟩⟩
  obtain ⟨es', carries⟩ := h.writeClosings recorded
  rw [Sheet.close]
  by_cases missing : ((d.look n).change.times.filter
      fun t => ((d.look n).closing.get t).isNone) = []
  · refine .inl ⟨_, es', ?_, carries, fun leftOpen =>
      absurd leftOpen ((missing_eq_nil_iff hn kind).1 missing)⟩
    simp only [missing, List.isEmpty_nil, if_true]
    rfl
  · have leftOpen : d.LeftOpen n := by
      by_contra closed
      exact missing ((missing_eq_nil_iff hn kind).2 closed)
    simp only [List.isEmpty_iff, missing, if_false]
    obtain ⟨⟨last, ends⟩, run, memo, founded⟩ | ⟨e, run, m, rfl⟩ :=
      endBelow_settles hd sound spacious (d.size + 1) inner carries.memo
    · have located := Carries.mk (s := { List.foldl writeClosing s _ with ends }) carries.marked
        carries.entries carries.closings memo
      refine .inl ⟨_, _, by rw [run]; rfl, located.write _ fun e he => ?_, fun _ => founded⟩
      obtain ⟨change, -, rfl⟩ := List.mem_map.1 he
      exact .inr ⟨rfl, rfl⟩
    · refine .inr ⟨⟨m, by rw [run]; rfl⟩, leftOpen, fun founded => ?_⟩
      obtain ⟨p, goes⟩ := exists_endBelow hd sound spacious inner
        (within_of_not_loops hd hn founded.not_loops) _
      rw [run] at goes
      cases goes

/-- The walk writes the tour of what it visits, unless something on it was left open and is not
founded. -/
theorem visit_settles (levels depth : Nat) (hd : d.Regular) (sound : d.Sound)
    (spacious : d.Spacious) (h : d.Tours seen ns f) (reaches : ∀ n ∈ ns, d.Reaches n)
    (deep : f.flatten.length < levels) (carries : s.Carries d seen es) :
    (∃ s' es', ns.foldlM (visit d levels depth) s = .ok s' ∧
        s'.Carries d (f.flatten.reverse ++ seen) es' ∧
        ∀ n ∈ f.flatten, d.LeftOpen n → d.Founded n) ∨
      (∃ m, ns.foldlM (visit d levels depth) s = .fail (.notRooted m)) ∧
        ∃ n ∈ f.flatten, d.LeftOpen n ∧ ¬ d.Founded n := by
  induction h generalizing levels depth s es with
  | nil seen => exact .inl ⟨s, es, rfl, carries, fun n hn => absurd hn List.not_mem_nil⟩
  | @skip seen ns n f old rest ih =>
    obtain ⟨levels, rfl⟩ : ∃ k, levels = k + 1 := ⟨levels - 1, by omega⟩
    rw [List.foldlM_cons, visit, if_pos ((carries.marked.has n).2 old)]
    exact ih (levels + 1) depth (List.forall_mem_cons.1 reaches).2 deep carries
  | @visit seen ns n below rest new inner outer ihb ihr =>
    obtain ⟨here, hns⟩ := List.forall_mem_cons.1 reaches
    have hn := here.lt_size hd
    simp only [Forest.flatten, List.length_cons, List.length_append] at deep
    simp only [Forest.flatten, List.mem_cons, List.mem_append]
    obtain ⟨levels, rfl⟩ : ∃ k, levels = k + 1 := ⟨levels - 1, by omega⟩
    have children : ∀ c ∈ d.belowBoth n, d.Reaches c := fun c hc => here.of_mem_belowBoth hc
    have unmarked : ¬ s.visited.has n = true := fun h => new ((carries.marked.has n).1 h)
    rw [List.foldlM_cons, visit_eq hn unmarked]
    obtain ⟨s₁, es₁, run₁, carries₁, founded₁⟩ | ⟨⟨m, run₁⟩, k, hk, stuck⟩ :=
      ihb levels (depth + 1) children (by omega) (carries.meet hn)
    · have closes : (∃ s₂ es₂,
          (if (d.look n).kind = .ifBranch then s₁.close d n (d.look n) depth else .ok s₁) = .ok s₂ ∧
            s₂.Carries d (below.flatten.reverse ++ n :: seen) es₂ ∧
            (d.LeftOpen n → d.Founded n)) ∨
          (∃ m, (if (d.look n).kind = .ifBranch then s₁.close d n (d.look n) depth
            else .ok s₁) = .fail (.notRooted m)) ∧ d.LeftOpen n ∧ ¬ d.Founded n := by
        split
        · next kind =>
          exact carries₁.close hd sound spacious depth
            ⟨here, ne_root_of_kind hd kind (by decide)⟩ kind
        · next other => exact .inl ⟨s₁, es₁, rfl, carries₁, fun leftOpen => absurd leftOpen.1 other⟩
      rw [run₁, Outcome.ok_bind]
      obtain ⟨s₂, es₂, run₂, carries₂, founded₂⟩ | ⟨⟨m, run₂⟩, stuck⟩ := closes
      · rw [run₂, Outcome.ok_bind]
        obtain ⟨s', es', run', carries', founded'⟩ | ⟨failed, k, hk, stuck⟩ :=
          ihr (levels + 1) depth hns (by omega) carries₂
        · refine .inl ⟨s', es', run', ?_, ?_⟩
          · rw [← Forest.flatten, Forest.reverse_flatten_cons]
            exact carries'
          · rintro k (rfl | hk | hk)
            · exact founded₂
            · exact founded₁ k hk
            · exact founded' k hk
        · exact .inr ⟨failed, k, .inr (.inr hk), stuck⟩
      · exact .inr ⟨⟨m, by rw [run₂]; rfl⟩, n, .inl rfl, stuck⟩
    · exact .inr ⟨⟨m, by rw [run₁]; rfl⟩, k, .inr (.inl hk), stuck⟩

end Sheet

/-- The walk from the root writes the tour, unless something below the root was left open and loops. -/
theorem entries_settle (hd : d.Regular) (sound : d.Sound) (spacious : d.Spacious) :
    (∃ (f : Forest Handle) (s : Sheet) (es : List Entry), d.Tour f ∧
        entries d = .ok (inOrder Entry.before s.entries.toList) ∧
        s.Carries d (root :: f.flatten).reverse es ∧
        ∀ n, d.Inner n → d.LeftOpen n → ¬ d.Loops n) ∨
      (∃ m, entries d = .fail (.notRooted m)) ∧ ∃ n, d.Inner n ∧ d.LeftOpen n ∧ d.Loops n := by
  obtain ⟨f, tour⟩ := Tour.exists_tour hd
  have inner (n : Handle) (leftOpen : d.LeftOpen n) :
      n ∈ (Forest.tree root f).flatten ↔ d.Inner n := by
    rw [Forest.flatten_tree, tour.mem_iff, Diff.Inner, and_iff_left (ne_root_of_kind hd leftOpen.1 (by decide))]
  have one (x : Outcome Sheet) : (do let s ← x; [].foldlM (Sheet.visit d (d.size + 1) 0) s) = x := by
    cases x <;> rfl
  have walk := Sheet.visit_settles (d.size + 1) 0 hd sound spacious tour.tours
    (List.forall_mem_singleton.2 .root) (tour.length_tree_lt hd) (Sheet.carries_blank d)
  rw [List.foldlM_cons, one] at walk
  obtain ⟨s, es, run, carries, founded⟩ | ⟨⟨m, run⟩, n, hn, leftOpen, stuck⟩ := walk
  · rw [Forest.flatten_tree, List.append_nil] at carries
    refine .inl ⟨f, s, es, tour, by rw [entries, run]; rfl, carries, fun n hn leftOpen => ?_⟩
    exact (founded n ((inner n leftOpen).2 hn) leftOpen).not_loops
  · have here := (inner n leftOpen).1 hn
    refine .inr ⟨⟨m, by rw [entries, run]; rfl⟩, n, here, leftOpen, ?_⟩
    rwa [founded_iff hd (here.1.lt_size hd), not_not] at stuck

/-- A diff with places for all lines has a line diff exactly if no chain that was left open has a loop
at or below it; otherwise printing takes some node for one without a root. The line diff holds the lines of
each node below the root once, and closing lines beside them, in the order of their places. -/
theorem exists_lineDiff_iff (hd : d.Regular) (sound : d.Sound) (spacious : d.Spacious) :
    ((∃ text, lineDiff d = .ok text) ↔ ∀ n, d.Inner n → d.LeftOpen n → ¬ d.Loops n) ∧
    (∀ e, lineDiff d = .error e → ∃ n, e = .fault (.notRooted n)) ∧
    ∀ text, lineDiff d = .ok text → ∃ (ns : List Handle) (closings es : List Entry), ns.Nodup ∧
      (∀ n, n ∈ ns ↔ d.Inner n) ∧ (∀ e ∈ closings, Closing d e) ∧
      es.Perm ((ns.flatMap fun n => (d.block (.node n)).entries) ++ closings) ∧
      es.Pairwise (fun a b => a.before b = true) ∧ text = Text.unlines (es.map Entry.written) := by
  obtain ⟨f, s, closings, tour, run, carries, loopless⟩ | ⟨⟨m, run⟩, n, inner, leftOpen, loops⟩ :=
    entries_settle hd sound spacious
  · have printed : lineDiff d =
        .ok (Text.unlines ((inOrder Entry.before s.entries.toList).map Entry.written)) := by
      rw [lineDiff, run]
      rfl
    refine ⟨iff_of_true ⟨_, printed⟩ loopless, fun e failed => ?_, fun text ok => ?_⟩
    · rw [printed] at failed
      cases failed
    · have once := List.nodup_cons.1 tour.nodup
      have inner (n : Handle) : n ∈ f.flatten ↔ d.Inner n := by
        rw [Diff.Inner, ← tour.mem_iff, List.mem_cons]
        constructor
        · intro hn
          exact ⟨.inr hn, fun top => once.1 (top ▸ hn)⟩
        · rintro ⟨hn, other⟩
          exact hn.resolve_left other
      have kind (n : Handle) (hn : d.Inner n) : (d.look n).kind ≠ .root := by
        obtain ⟨p, t, hp⟩ := hn.1.exists_above hd hn.2
        obtain ⟨x, hx, law, -⟩ := sound n hn.1
        rw [look_of_node hx]
        exact law.kind_ne_root hx hp
      have lines : (root :: f.flatten).flatMap (Sheet.firstEntries d) =
          f.flatten.flatMap fun n => (d.block (.node n)).entries := by
        have bare : Sheet.firstEntries d root = [] := if_pos (look_root_kind hd)
        rw [List.flatMap_cons, bare, List.nil_append]
        exact List.flatMap_congr fun n hn => if_neg (kind n ((inner n).1 hn))
      have forwards := (List.reverse_perm (root :: f.flatten)).flatMap_right (Sheet.firstEntries d)
      rw [lines] at forwards
      rw [printed] at ok
      exact ⟨f.flatten, closings, inOrder Entry.before s.entries.toList, once.2, inner,
        carries.closings,
        (inOrder_perm _ _).trans (carries.entries.trans (forwards.append_right closings)),
        pairwise_inOrder Entry.before_total Entry.before_trans _, (Except.ok.inj ok).symm⟩
  · have failed : lineDiff d = .fail (.notRooted m) := by
      rw [lineDiff, run]
      rfl
    refine ⟨iff_of_false ?_ fun all => all n inner leftOpen loops, fun e h => ?_, fun text h => ?_⟩
    · rintro ⟨text, ok⟩
      rw [failed] at ok
      exact Outcome.fail_ne_ok _ _ ok
    · rw [failed] at h
      exact ⟨m, (Except.error.inj h).symm⟩
    · rw [failed] at h
      exact absurd h (Outcome.fail_ne_ok _ _)

/-- Two conditions. The second one hangs below the first one before the edit and the other way round
after it. -/
def crossedChains (closings : List Call) : Diff :=
  ofCalls ([.addNode .unchanged .ifBranch ⟨1, 1, 2⟩ ⟨4, 4, 3⟩ (some (.literal "A")) (.single "#if A"),
    .addNode .unchanged .ifBranch ⟨2, 2, 1⟩ ⟨3, 3, 4⟩ (some (.literal "B")) (.single "#if B"),
    .attachLast 0 1 .before, .attachLast 1 2 .before, .attachLast 0 2 .after,
    .attachLast 2 1 .after] ++ closings)

/-- Closing lines for both conditions at both times. -/
def bothClosings : List Call :=
  Time.all.flatMap fun t => [.setClosing 1 t (some ⟨.unchanged, ⟨4, 4, 3⟩, .single "#endif"⟩),
    .setClosing 2 t (some ⟨.unchanged, ⟨3, 3, 4⟩, .single "#endif"⟩)]

theorem spacious_crossedChains (closings : List Call)
    (places : ∀ n < (crossedChains closings).size, n ≠ 0 →
      1 ≤ ((crossedChains closings).look n).start.diff ∧
        ((crossedChains closings).look n).start.diff ≤ 2 ^ 30 ∧
        ((crossedChains closings).look n).label.lines.length < 2 ^ 30) :
    (crossedChains closings).Spacious := fun n hn =>
  places n (hn.1.lt_size (built_ofCalls _).regular) hn.2

/-- Crossed conditions that were left open have no line diff; with closing lines they have one. -/
theorem crossedChains_left_open :
    (∀ cs ∈ [[], bothClosings], (crossedChains cs).Regular ∧ (crossedChains cs).Sound ∧
      (crossedChains cs).Spacious) ∧
    (¬ ∃ text, lineDiff (crossedChains []) = .ok text) ∧
    ∃ text, lineDiff (crossedChains bothClosings) = .ok text := by
  have open_ : (crossedChains []).Sound :=
    sound_ofCalls (by decide +kernel) (by decide +kernel)
  have closed : (crossedChains bothClosings).Sound :=
    sound_ofCalls (by decide +kernel) (by decide +kernel)
  have room : (crossedChains []).Spacious := spacious_crossedChains [] (by decide +kernel)
  have room' : (crossedChains bothClosings).Spacious :=
    spacious_crossedChains bothClosings (by decide +kernel)
  have regular (cs : List Call) : (crossedChains cs).Regular := (built_ofCalls _).regular
  refine ⟨?_, ?_, ?_⟩
  · rintro cs hcs
    obtain rfl | hcs := List.mem_cons.1 hcs
    · exact ⟨regular [], open_, room⟩
    · rw [List.mem_singleton.1 hcs]
      exact ⟨regular bothClosings, closed, room'⟩
  · rw [(exists_lineDiff_iff (regular []) open_ room).1]
    have first : (crossedChains []).Under root 1 := by unfold Under; decide +kernel
    have down : (crossedChains []).Under 1 2 := by unfold Under; decide +kernel
    have back : (crossedChains []).Under 2 1 := by unfold Under; decide +kernel
    intro loopless
    refine loopless 1 (.child (regular []) open_ .root first) ⟨by decide +kernel, .before, ?_⟩
      ⟨1, .refl, .head down (.single back)⟩
    constructor <;> decide +kernel
  · rw [(exists_lineDiff_iff (regular bothClosings) closed room').1]
    intro n hn leftOpen
    have none_open : ∀ n < (crossedChains bothClosings).size, n ≠ 0 → ∀ t,
        ((crossedChains bothClosings).look n).closing.get t ≠ none := by
      intro n hn other t
      cases t <;> revert n <;> decide +kernel
    obtain ⟨-, t, -, missing⟩ := leftOpen
    exact absurd missing (none_open n (hn.1.lt_size (regular _)) hn.2 t)

end Printing

end Variation
