import Variation.Fault

/-!
# Outcomes taken apart

A sequence of questions succeeds exactly if each of them does.
-/

namespace Variation.Outcome

variable {α β : Type} {x : Outcome α} {f : α → Outcome β} {b : β}

theorem bind_eq_ok_iff : x >>= f = .ok b ↔ ∃ a, x = .ok a ∧ f a = .ok b := by
  cases x <;> simp [bind, Except.bind]

/-- A test in front of what follows has no answer of its own. -/
theorem seq_eq_ok_iff {x : Outcome Unit} {y : Outcome β} :
    (x >>= fun _ => y) = .ok b ↔ x = .ok () ∧ y = .ok b := by
  rw [bind_eq_ok_iff]
  exact ⟨fun ⟨_, h⟩ => h, fun h => ⟨(), h⟩⟩

theorem pure_eq_ok_iff {a b : α} : (pure a : Outcome α) = .ok b ↔ a = b := by
  simp [pure, Except.pure]

@[simp] theorem ok_bind (a : α) : (Except.ok a : Outcome α) >>= f = f a := rfl

@[simp] theorem error_bind (e : Failure) : (Except.error e : Outcome α) >>= f = .error e := rfl

theorem eq_ok_of_toOption {a : α} (h : x.toOption = some a) : x = .ok a := by
  cases x with
  | error e => cases h
  | ok b =>
    obtain rfl := Option.some.inj h
    rfl

@[simp] theorem fail_ne_ok (cause : Fault) (a : α) : Outcome.fail cause ≠ .ok a := by
  simp [Outcome.fail]

theorem ite_fail_eq_ok_iff {c : Prop} [Decidable c] {cause : Fault} :
    (if c then Outcome.fail cause else pure () : Outcome Unit) = .ok () ↔ ¬ c := by
  split
  · simp [*]
  · simp [*, pure, Except.pure]

theorem forM_eq_ok_iff {as : List α} {f : α → Outcome Unit} :
    as.forM f = .ok () ↔ ∀ a ∈ as, f a = .ok () := by
  induction as with
  | nil => exact ⟨fun _ _ h => by simp at h, fun _ => rfl⟩
  | cons a as ih =>
    change (f a >>= fun _ => as.forM f) = .ok () ↔ _
    rw [seq_eq_ok_iff, List.forall_mem_cons, ih]

theorem mapM_eq_map {as : List α} {f : α → Outcome β} {g : α → β} (h : ∀ a ∈ as, f a = .ok (g a)) :
    as.mapM f = .ok (as.map g) := by
  induction as with
  | nil => rfl
  | cons a as ih =>
    obtain ⟨here, h⟩ := List.forall_mem_cons.1 h
    rw [List.mapM_cons, here, ok_bind, ih h]
    rfl

end Variation.Outcome
