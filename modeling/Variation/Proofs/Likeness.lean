import Variation.Proofs.Putting

/-!
# Nests that cannot be told apart

Code that joins the code in front of it leaves a nest in which one leaf stands for what would have
been two. How the finished code is cut into leaves neither decides what can be put next nor what is
printed: two nests with the same open places that print the same are `Akin`. What is read with or
without joining code is therefore the same up to likeness, and exactly the same if code never joins.
-/

namespace Variation

namespace Nest

variable {n n' m : Nest Facet}

/-- Two nests with the same open places that print the same. How their finished code is cut into
leaves may differ, and no line that is put next can tell. -/
structure Akin (n m : Nest Facet) : Prop where
  opened : n.opened = m.opened
  printed : n.printed = m.printed

namespace Akin

theorem refl (n : Nest Facet) : n.Akin n := ⟨rfl, rfl⟩

theorem symm (h : n.Akin m) : m.Akin n := ⟨h.opened.symm, h.printed.symm⟩

/-- What can be put into a nest can be put into one that is akin. -/
theorem put {dialect : Dialect} {lines : List String} {start stop : Int} (h : n.Akin m)
    (put : n.put dialect lines start stop = some n') :
    ∃ m', m.put dialect lines start stop = some m' ∧ n'.Akin m' := by
  have other : ∃ m', m.put dialect lines start stop = some m' ∧ n'.opened = m'.opened := by
    unfold Nest.put at put ⊢
    split at put
    · cases put
    · exact opened_close h.opened put
    · exact opened_enter h.opened put
  obtain ⟨m', put', opened⟩ := other
  exact ⟨m', put', opened, by rw [printed_put put, printed_put put', h.printed]⟩

end Akin

theorem printed_leaf {a : Facet} (code : a.kind = .artifact) :
    (n.hang (.tree a .nil)).printed = n.printed ++ a.label.lines := by
  simp [printed, Forest.lines, firstLines, lastLines, code]

/-- Code that is extended prints the same as code that is added behind it. -/
theorem Akin.extend {a b : Facet} {lines : List String} {stop : Int}
    (h : (n.hang (.tree a .nil)).Akin m) (ha : a.kind = .artifact) (hb : b.kind = .artifact)
    (text : b.label.lines = lines) :
    (n.hang (.tree (Reading.Outline.extended lines stop a) .nil)).Akin (m.hang (.tree b .nil)) := by
  refine ⟨?_, ?_⟩
  · have opened := h.opened
    rw [opened_hang] at opened
    rw [opened_hang, opened_hang, opened]
  · rw [printed_leaf (a := Reading.Outline.extended lines stop a) ha, printed_leaf hb, ← h.printed,
      printed_leaf ha, text, List.append_assoc]
    rfl

end Nest

namespace Reading.Outline

open Diff

variable {o o' : Outline} {t : Time} {m m' : Time → Nest Facet} {options : Options}
  {dialect : Dialect} {line : LogicalLine} {change : Change} {last stop : Position}

/-- Two nests that are the same as far as what is read can tell: if lines join each other, only up to
how the finished code is cut. -/
def Sees (options : Options) (n m : Nest Facet) : Prop := if options.collapse then n.Akin m else n = m

namespace Sees

variable {n n' k k' : Nest Facet}

theorem refl (options : Options) (n : Nest Facet) : Sees options n n := by
  unfold Sees
  split
  · exact .refl n
  · rfl

theorem symm (h : Sees options n k) : Sees options k n := by
  unfold Sees at h ⊢
  split at h
  · next collapse =>
    rw [if_pos collapse]
    exact h.symm
  · next single =>
    rw [if_neg single]
    exact h.symm

theorem akin (h : Sees options n k) : n.Akin k := by
  unfold Sees at h
  split at h
  · exact h
  · exact h ▸ .refl n

theorem eq (h : Sees options n k) (single : options.collapse = false) : n = k := by
  unfold Sees at h
  rw [single] at h
  exact h

theorem put {lines : List String} {start stop : Int} (h : Sees options n k)
    (put : n.put dialect lines start stop = some n') :
    ∃ k', k.put dialect lines start stop = some k' ∧ Sees options n' k' := by
  unfold Sees at h ⊢
  split at h
  · next collapse =>
    simp only [if_pos collapse]
    exact h.put put
  · next single =>
    simp only [if_neg single]
    exact ⟨n', h ▸ put, rfl⟩

theorem putAt? {start : Position} {m₁ m₂ m₁' : Time → Nest Facet}
    (h : ∀ t, Sees options (m₁ t) (m₂ t))
    (put : ∀ t, putAt? dialect line change start stop m₁ t = some (m₁' t)) :
    ∃ m₂' : Time → Nest Facet,
      (∀ t, putAt? dialect line change start stop m₂ t = some (m₂' t)) ∧
      ∀ t, Sees options (m₁' t) (m₂' t) := by
  have each (t : Time) : ∃ k, Outline.putAt? dialect line change start stop m₂ t = some k ∧
      Sees options (m₁' t) k := by
    have here := put t
    unfold Outline.putAt? at here ⊢
    split at here
    · next there =>
      rw [if_pos there]
      exact (h t).put here
    · next absent =>
      rw [if_neg absent, ← Option.some.inj here]
      exact ⟨m₂ t, rfl, h t⟩
  exact ⟨fun t => (each t).choose, fun t => (each t).choose_spec.1, fun t => (each t).choose_spec.2⟩

end Sees

/-- Code that is extended cannot be told from code that is added behind it. -/
theorem putAt?_extended (start stop : Position) {m₁ m₂ : Time → Nest Facet}
    (collapse : options.collapse = true)
    (item : dialect.item? line.text = some (.node .artifact none))
    (h : ∀ t, Sees options (m₁ t) (m₂ t))
    (code : ∀ t, change.existsAt t = true →
      ∃ (k : Nest Facet) (a : Facet), m₁ t = k.hang (.tree a .nil) ∧ a.kind = .artifact) :
    ∃ m₂' : Time → Nest Facet,
      (∀ t, putAt? dialect line change start stop m₂ t = some (m₂' t)) ∧
      ∀ t, Sees options (extendedAt change line.lines (stop.restrict change) m₁ t) (m₂' t) := by
  have each (t : Time) : ∃ k, putAt? dialect line change start stop m₂ t = some k ∧
      Sees options (extendedAt change line.lines (stop.restrict change) m₁ t) k := by
    rw [putAt?_node item, enteredAt?, extendedAt]
    by_cases there : change.existsAt t = true
    · rw [if_pos there, if_pos there]
      refine ⟨_, Nest.enter_eq_some_iff.2 ⟨Kind.noConfusion, Bool.noConfusion, rfl⟩, ?_⟩
      obtain ⟨k, a, shape, artifact⟩ := code t there
      have same := (h t).akin
      rw [shape] at same
      unfold Sees
      rw [if_pos collapse, shape, Nest.atEnd_hang]
      exact same.extend artifact rfl rfl
    · rw [if_neg there, if_neg there]
      exact ⟨m₂ t, rfl, h t⟩
  exact ⟨fun t => (each t).choose, fun t => (each t).choose_spec.1, fun t => (each t).choose_spec.2⟩

/-- What an outline shows at a time cannot be told from a nest. -/
def Seems (options : Options) (o : Outline) (t : Time) (n : Nest Facet) : Prop :=
  ∃ k, o.Shows t k ∧ Sees options k n

theorem Seems.exists_shows (ho : ∀ t, Seems options o t (m t)) :
    ∃ k : Time → Nest Facet, (∀ t, o.Shows t (k t)) ∧ ∀ t, Sees options (k t) (m t) :=
  ⟨fun t => Exists.choose (ho t), fun t => (Exists.choose_spec (ho t)).1,
    fun t => (Exists.choose_spec (ho t)).2⟩

/-- Putting a line puts it into what an outline seems to show at each time. -/
theorem put_seems (range : last.add? 1 = some stop) (ho : ∀ t, Seems options o t (m t))
    (h : o.put options dialect line change last = .ok o') :
    ∃ m' : Time → Nest Facet,
      (∀ t, putAt? dialect line change (startOf line last) stop m t = some (m' t)) ∧
      ∀ t, Seems options o' t (m' t) := by
  obtain ⟨k, shown, seen⟩ := Seems.exists_shows ho
  obtain ⟨k', put, shown', -⟩ | ⟨collapse, item, c, joins⟩ := put_cases range shown h
  · obtain ⟨m', put', seen'⟩ := Sees.putAt? seen put
    exact ⟨m', put', fun t => ⟨k' t, shown' t, seen' t⟩⟩
  · obtain ⟨shown', code⟩ := joins.shows shown
    obtain ⟨m', put', seen'⟩ := putAt?_extended _ _ collapse item seen code
    exact ⟨m', put', fun t => ⟨_, shown' t, seen' t⟩⟩

/-- A line can be put into an outline if it can be put into what the outline seems to show. -/
theorem put_seems_total (range : last.add? 1 = some stop) (ho : ∀ t, Seems options o t (m t))
    (hm : ∀ t, putAt? dialect line change (startOf line last) stop m t = some (m' t)) :
    ∃ o', o.put options dialect line change last = .ok o' := by
  obtain ⟨k, shown, seen⟩ := Seems.exists_shows ho
  obtain ⟨k', put, -⟩ := Sees.putAt? (fun t => (seen t).symm) hm
  exact put_total range shown put

end Reading.Outline

end Variation
