import Mathlib

/-!
# Computations that may fail

A sequence of steps succeeds when every step does.
-/

namespace Fallible

universe u v

variable {ε : Type u} {ε' : Type u} {α β : Type v}

/-- A sequence succeeds if both parts do. -/
theorem bind_eq_ok {x : Except ε α} {f : α → Except ε β} {b : β} :
  (x >>= f) = .ok b ↔ ∃ a, x = .ok a ∧ f a = .ok b
  := by
  cases x with
  | error e =>
    constructor
    · intro h
      cases h
    · rintro ⟨a, h, -⟩
      cases h
  | ok a =>
    constructor
    · intro h
      exact ⟨a, rfl, h⟩
    · rintro ⟨a', h, hf⟩
      cases h
      exact hf

@[simp] theorem ok_bind (a : α) (f : α → Except ε β) :
  (Except.ok a >>= f) = f a
  := rfl

@[simp] theorem error_bind (e : ε) (f : α → Except ε β) :
  ((Except.error e : Except ε α) >>= f) = .error e
  := rfl

theorem mapError_eq_ok {x : Except ε α} {f : ε → ε'} {a : α} :
  x.mapError f = .ok a ↔ x = .ok a
  := by
  cases x with
  | error | ok => simp [Except.mapError]

/-- A loop succeeds if all its passes do. -/
theorem forM_eq_ok {f : α → Except ε PUnit} {as : List α} :
  as.forM f = .ok ⟨⟩ ↔ ∀ a ∈ as, f a = .ok ⟨⟩
  := by
  induction as with
  | nil =>
    constructor
    · intro _ a ha
      cases ha
    · exact fun _ => rfl
  | cons a as ih =>
    have hcons : (a :: as).forM f = (f a >>= fun _ => as.forM f) := rfl
    rw [hcons, bind_eq_ok, List.forall_mem_cons, ← ih]
    constructor
    · rintro ⟨u, hfirst, hrest⟩
      exact ⟨hfirst, hrest⟩
    · rintro ⟨hfirst, hrest⟩
      exact ⟨⟨⟩, hfirst, hrest⟩

/-! ### Failures that do not occur -/

/-- A computation does not fail in one of certain ways. -/
def Avoids (P : ε → Prop) (x : Except ε α) : Prop :=
  ∀ e, x = .error e → ¬ P e

variable {P : ε → Prop}

theorem avoids_ok (a : α) :
  Avoids P (.ok a)
  := nofun

theorem Avoids.bind {x : Except ε α} {f : α → Except ε β} (hx : Avoids P x)
    (hf : ∀ a, Avoids P (f a)) :
  Avoids P (x >>= f)
  := by
  cases x with
  | error e =>
    intro e' h
    cases h
    exact hx e rfl
  | ok a => exact hf a

theorem Avoids.map {x : Except ε α} (hx : Avoids P x) (f : α → β) :
  Avoids P (x.map f)
  := hx.bind fun a => avoids_ok (f a)

theorem avoids_mapError {P : ε' → Prop} {f : ε → ε'} (h : ∀ e, ¬ P (f e)) (x : Except ε α) :
  Avoids P (x.mapError f)
  := by
  cases x with
  | error e =>
    intro e' heq
    cases heq
    exact h e
  | ok a => nofun

end Fallible
