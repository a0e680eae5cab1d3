import Mathlib.Data.List.Forall2

/-!
# Outcomes

- `failure?`, the error of an outcome; of two steps one after the other the first that fails gives it
  (`failure?_bind`).
- Where only one error can arise, when there is a result says also when there is none (`eq_error_iff`).
- A traversal succeeds exactly if every element does, and then has their results in order (`mapM_eq_ok_iff`).
-/

namespace Cbor.Outcome

variable {ε α β : Type}

/-- The error of an outcome, if it is one. -/
def failure? : Except ε α → Option ε
  | .ok _ => none
  | .error e => some e

theorem failure?_eq_some_iff {r : Except ε α} {e : ε} : failure? r = some e ↔ r = .error e := by
  cases r <;> simp [failure?]

theorem failure?_eq_none_iff {r : Except ε α} : failure? r = none ↔ ∃ x, r = .ok x := by
  cases r <;> simp [failure?]

/-- A result that is only put into another shape. -/
theorem failure?_map (r : Except ε α) (f : α → β) : failure? (r >>= fun x => pure (f x)) = failure? r := by
  cases r <;> rfl

/-- Of two steps, one after the other, the first that fails gives the error. -/
theorem failure?_bind (r : Except ε α) {f : α → Except ε β} {o : Option ε} (hf : ∀ x, failure? (f x) = o) :
    failure? (r >>= f) = (failure? r).or o := by
  cases r with
  | ok x => exact hf x
  | error e => rfl

/-- An outcome that can fail with one error only fails with it exactly if there is no result. -/
theorem eq_error_iff {r : Except ε α} {P : α → Prop} {e₀ : ε} (hok : ∀ x, r = .ok x ↔ P x)
    (herror : ∀ e, r = .error e → e = e₀) (e : ε) : r = .error e ↔ (∀ x, ¬P x) ∧ e = e₀ := by
  cases r with
  | ok x => exact iff_of_false (fun h => by cases h) fun h => h.1 x ((hok x).mp rfl)
  | error e' =>
    obtain rfl := herror e' rfl
    constructor
    · intro h
      cases h
      refine ⟨fun x hx => ?_, rfl⟩
      cases (hok x).mpr hx
    · rintro ⟨-, rfl⟩
      rfl

theorem map_eq_ok_iff {r : Except ε α} {f : α → β} {y : β} : r.map f = .ok y ↔ ∃ x, r = .ok x ∧ f x = y := by
  cases r with
  | ok x =>
    show Except.ok (f x) = .ok y ↔ _
    simp only [Except.ok.injEq, exists_eq_left']
  | error e =>
    refine iff_of_false (fun h => by cases h) ?_
    rintro ⟨_, h, -⟩
    cases h

section MapError

variable {ε' : Type}

theorem mapError_eq_ok_iff {r : Except ε α} {f : ε → ε'} {x : α} : r.mapError f = .ok x ↔ r = .ok x := by
  cases r with
  | ok x' =>
    show Except.ok x' = .ok x ↔ _
    rw [Except.ok.injEq, Except.ok.injEq]
  | error e => exact iff_of_false (fun h => by cases h) fun h => by cases h

theorem eq_of_mapError_eq_error {r : Except ε α} {e e' : ε'} (h : r.mapError (fun _ => e) = .error e') : e' = e := by
  cases r with
  | ok x => cases h
  | error e₀ =>
    cases h
    rfl

end MapError

theorem bind_eq_ok_iff {r : Except ε α} {f : α → Except ε β} {y : β} :
    (r >>= f) = .ok y ↔ ∃ x, r = .ok x ∧ f x = .ok y := by
  cases r with
  | ok x =>
    constructor
    · intro h
      exact ⟨x, rfl, h⟩
    · rintro ⟨x', hx, h⟩
      cases hx
      exact h
  | error e =>
    constructor
    · intro h
      cases h
    · rintro ⟨x, hx, -⟩
      cases hx

theorem pure_eq_ok_iff {x y : α} : (pure x : Except ε α) = .ok y ↔ y = x := by
  show Except.ok x = .ok y ↔ _
  rw [Except.ok.injEq, eq_comm]

/-- A traversal succeeds exactly if every element does, with their results in order. -/
theorem mapM_eq_ok_iff {f : α → Except ε β} {xs : List α} : ∀ {ys : List β},
    xs.mapM f = .ok ys ↔ List.Forall₂ (fun x y => f x = .ok y) xs ys := by
  induction xs with
  | nil =>
    intro ys
    rw [List.mapM_nil, List.forall₂_nil_left_iff, pure_eq_ok_iff]
  | cons x xs ih =>
    intro ys
    simp only [List.mapM_cons, bind_eq_ok_iff, pure_eq_ok_iff, ih, List.forall₂_cons_left_iff]
    constructor
    · rintro ⟨y, hy, ys', hys, rfl⟩
      exact ⟨y, ys', hy, hys, rfl⟩
    · rintro ⟨y, ys', hy, hys, rfl⟩
      exact ⟨y, hy, ys', hys, rfl⟩

end Cbor.Outcome
