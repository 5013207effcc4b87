import Mathlib

/-!
# Patches between trees

A tree holds a content at some paths. A patch is an exact edit: for each path it touches, what is
there before and after. Patches that are taken from tree to tree lead, one after another, from the
first tree to the last.
-/

universe u v

/-- A content at some of the paths. -/
abbrev ContentTree (κ : Type u) (β : Type v) : Type max u v :=
  κ → Option β

/-- For each path that is touched, what is there before and after. -/
def Patch (κ : Type u) (β : Type v) : Type max u v :=
  κ → Option (Option β × Option β)

namespace Patch

variable {κ : Type u} {β : Type v}

/-- The edit from one tree to another. -/
def between [DecidableEq β] (a b : ContentTree κ β) : Patch κ β :=
  fun k => if a k = b k then none else some (a k, b k)

/-- A patch applies to a tree that has, at every path it touches, what was there before. -/
def Applies (p : Patch κ β) (a : ContentTree κ β) : Prop :=
  ∀ k old new, p k = some (old, new) → a k = old

/-- The tree after an edit. -/
def apply (p : Patch κ β) (a : ContentTree κ β) : ContentTree κ β :=
  fun k => match p k with
    | none => a k
    | some (_, new) => new

/-- Patches that apply cleanly, one after another, lead from a tree to another. -/
def Replay : List (Patch κ β) → ContentTree κ β → ContentTree κ β → Prop
  | [], a, b => a = b
  | p :: rest, a, b => p.Applies a ∧ Replay rest (p.apply a) b

theorem between_applies [DecidableEq β] (a b : ContentTree κ β) :
  (between a b).Applies a
  := by
  intro k old new h
  simp only [between] at h
  split at h
  · cases h
  · cases h
    rfl

@[simp]
theorem apply_between [DecidableEq β] (a b : ContentTree κ β) :
  (between a b).apply a = b
  := by
  funext k
  simp only [apply, between]
  split_ifs with h
  · exact h
  · rfl

/-- Nothing is touched. -/
def Empty (p : Patch κ β) : Prop :=
  ∀ k, p k = none

theorem between_empty_iff [DecidableEq β] {a b : ContentTree κ β} :
  (between a b).Empty ↔ a = b
  := by
  constructor
  · intro h
    funext k
    by_contra hne
    have hk := h k
    rw [between, if_neg hne] at hk
    cases hk
  · rintro rfl k
    rw [between, if_pos rfl]

theorem Replay.append
    {ps qs : List (Patch κ β)} {a b c : ContentTree κ β} (hp : Replay ps a b) (hq : Replay qs b c) :
  Replay (ps ++ qs) a c
  := by
  induction ps generalizing a with
  | nil =>
    cases hp
    exact hq
  | cons p ps ih => exact ⟨hp.1, ih hp.2⟩

theorem Replay.concat [DecidableEq β]
    {ps : List (Patch κ β)} {a b : ContentTree κ β} (h : Replay ps a b) (c : ContentTree κ β) :
  Replay (ps ++ [between b c]) a c
  := by
  apply h.append
  exact ⟨between_applies b c, apply_between b c⟩

end Patch
