import Mathlib

/-!
# Computations with a bound

A computation is given a number of steps. It ends with a result or a failure, or the steps do not
suffice. A family of computations ends when some number of steps suffices, and then every larger
number does, with the same outcome.
-/

/-- A computation that may fail, and for which the steps may not suffice. -/
abbrev Bounded (ε : Type) := ExceptT ε Option

namespace Bounded

variable {ε ε' α β : Type}

/-- The steps do not suffice. -/
def exhausted : Bounded ε α :=
  ExceptT.mk none

def fail (e : ε) : Bounded ε α :=
  ExceptT.mk (some (.error e))

/-- A computation that takes no steps. -/
def lift (x : Except ε α) : Bounded ε α :=
  ExceptT.mk (some x)

/-- A computation that cannot fail. -/
def ofOption (x : Option α) : Bounded ε α :=
  ExceptT.mk (x.map .ok)

/-- A failure under another name. -/
def mapError (f : ε → ε') (x : Bounded ε α) : Bounded ε' α :=
  ExceptT.mk (x.run.map fun r => r.mapError f)

/-- A computation ends with a result. -/
def Yields (x : Bounded ε α) (a : α) : Prop :=
  x.run = some (.ok a)

variable {x : Bounded ε α}

/-- A sequence yields what its second part does with a result of the first. -/
theorem yields_bind {f : α → Bounded ε β} {b : β} :
  Yields (x >>= f) b ↔ ∃ a, Yields x a ∧ Yields (f a) b
  := by
  have hrun : (x >>= f).run
      = x.run.bind fun r => match r with
        | .ok a => (f a).run
        | .error e => some (.error e) := rfl
  rw [Yields, hrun]
  constructor
  · intro h
    cases hx : x.run with
    | none =>
      rw [hx] at h
      cases h
    | some r =>
      rw [hx, Option.bind_some] at h
      cases r with
      | error e => cases h
      | ok a => exact ⟨a, hx, h⟩
  · rintro ⟨a, hx, hf⟩
    rw [Yields] at hx
    rw [hx, Option.bind_some]
    exact hf

theorem bind_congr {f g : α → Bounded ε β} (h : ∀ a, Yields x a → f a = g a) :
  x >>= f = x >>= g
  := by
  apply ExceptT.ext
  rw [ExceptT.run_bind, ExceptT.run_bind]
  cases hx : x.run with
  | none => rfl
  | some r =>
    cases r with
    | error e => rfl
    | ok a => exact congrArg ExceptT.run (h a hx)

variable {a : α}

@[simp] theorem yields_lift {x : Except ε α} :
  Yields (lift x) a ↔ x = .ok a
  := by
  constructor
  · intro h
    cases h
    rfl
  · rintro rfl
    rfl

/-- A computation does not fail in one of certain ways. -/
def Avoids (P : ε → Prop) (x : Bounded ε α) : Prop :=
  ∀ e, x.run = some (.error e) → ¬ P e

variable {P : ε → Prop}

theorem avoids_pure (a : α) :
  Avoids P (pure a : Bounded ε α)
  := nofun

/-- Failures that neither part has, the sequence does not have. -/
theorem Avoids.bind {f : α → Bounded ε β} (hx : Avoids P x) (hf : ∀ a, Avoids P (f a)) :
  Avoids P (x >>= f)
  := by
  intro e h
  have hrun : (x >>= f).run
      = x.run.bind fun r => match r with
        | .ok a => (f a).run
        | .error e => some (.error e) := rfl
  rw [hrun] at h
  cases hx' : x.run with
  | none =>
    rw [hx'] at h
    cases h
  | some r =>
    rw [hx'] at h
    cases r with
    | error e' =>
      cases h
      exact hx e hx'
    | ok a => exact hf a e h

theorem avoids_lift {x : Except ε α} (h : ∀ e, x = .error e → ¬ P e) :
  Avoids P (lift x)
  := by
  intro e heq
  exact h e (Option.some.inj heq)

theorem avoids_mapError {P : ε' → Prop} {f : ε → ε'} (h : ∀ e, ¬ P (f e)) (x : Bounded ε α) :
  Avoids P (x.mapError f)
  := by
  intro e heq
  rw [mapError, ExceptT.run_mk] at heq
  obtain ⟨r, -, hr⟩ := Option.map_eq_some_iff.mp heq
  cases r with
  | error e' =>
    cases hr
    exact h e'
  | ok a => cases hr

/-! ### Enough steps -/

/-- From some number of steps on, there is an outcome, and always the same. -/
def Settles (x : Nat → Option α) (a : α) : Prop :=
  ∃ n, ∀ fuel, n ≤ fuel → x fuel = some a

namespace Settles

variable {x : Nat → Option α}

theorem of_forall {a : α} (h : ∀ fuel, x fuel = some a) :
  Settles x a
  := ⟨0, fun fuel _ => h fuel⟩

theorem succ {a : α} (h : Settles (fun fuel => x (fuel + 1)) a) :
  Settles x a
  := by
  obtain ⟨n, h⟩ := h
  refine ⟨n + 1, fun fuel hfuel => ?_⟩
  obtain ⟨fuel, rfl⟩ : ∃ k, fuel = k + 1 := ⟨fuel - 1, by omega⟩
  exact h fuel (by omega)

theorem map {a : α} (g : α → β) (hx : Settles x a) :
  Settles (fun fuel => (x fuel).map g) (g a)
  := by
  obtain ⟨n, hx⟩ := hx
  exact ⟨n, fun fuel hfuel => congrArg (Option.map g) (hx fuel hfuel)⟩

end Settles

theorem growing_induction
    {κ : Type} [DecidableEq κ] (S : Finset κ) {P : List κ → Prop}
    (h : ∀ l, (∀ l', l ⊆ l' → (∃ k ∈ S, k ∉ l ∧ k ∈ l') → P l') → P l) (l : List κ) :
  P l
  := by
  -- The induction is on the number of elements of the set that the list does not hold.
  induction hn : (S.filter (· ∉ l)).card using Nat.strong_induction_on generalizing l with
  | _ n ih =>
    subst hn
    apply h
    rintro l' hsub ⟨k, hk, hnot, hmem⟩
    apply ih _ _ l' rfl
    apply Finset.card_lt_card
    refine ⟨fun x hx => ?_, fun hback => ?_⟩
    · rw [Finset.mem_filter] at hx ⊢
      exact ⟨hx.1, fun hl => hx.2 (hsub hl)⟩
    · have hout := hback (Finset.mem_filter.mpr ⟨hk, hnot⟩)
      exact (Finset.mem_filter.mp hout).2 hmem

end Bounded
