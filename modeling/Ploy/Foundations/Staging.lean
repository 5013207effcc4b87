import Ploy.Foundations.Patch

/-!
# Staging a worktree

An index holds a content at the paths it tracks. Staging everything brings the paths that are
tracked to what the worktree has there, and adds what is in the worktree and neither tracked nor
ignored. Which paths are ignored may depend on the worktree, since that is where the rules are kept.
-/

universe u v

/-- Which paths are ignored, in a worktree. -/
abbrev IgnoreRules (κ : Type u) (β : Type v) : Type max u v :=
  ContentTree κ β → κ → Bool

namespace ContentTree

variable {κ : Type u} {β : Type v}

/-- The tree with nothing in it. -/
def empty : ContentTree κ β :=
  fun _ => none

/-- The index after everything in the worktree is staged. -/
def addAll (ignored : IgnoreRules κ β) (index work : ContentTree κ β) : ContentTree κ β :=
  fun k => if !(index k).isSome && ignored work k then none else work k

variable {ignored : IgnoreRules κ β} {index work : ContentTree κ β} {k : κ}

theorem addAll_of_tracked (h : (index k).isSome = true) :
  addAll ignored index work k = work k
  := by
  simp [addAll, h]

theorem addAll_of_unignored (h : ignored work k = false) :
  addAll ignored index work k = work k
  := by
  simp [addAll, h]

theorem addAll_of_ignored (huntracked : index k = none) (h : ignored work k = true) :
  addAll ignored index work k = none
  := by
  simp [addAll, huntracked, h]

/-- Staging a second time changes nothing. -/
theorem addAll_addAll (ignored : IgnoreRules κ β) (index work : ContentTree κ β) :
  addAll ignored (addAll ignored index work) work = addAll ignored index work
  := by
  funext k
  cases htracked : (addAll ignored index work k).isSome with
  | false =>
    have hnone : addAll ignored index work k = none := by simpa using htracked
    cases hignored : ignored work k with
    | false => rw [addAll_of_unignored hignored, addAll_of_unignored hignored]
    | true => rw [addAll_of_ignored hnone hignored, hnone]
  | true =>
    rw [addAll_of_tracked htracked]
    -- nothing but what the worktree has is ever staged
    unfold addAll at htracked ⊢
    split_ifs at htracked ⊢ with h
    · cases htracked
    · rfl

/-- A clean tree is staged from nothing as it is, if nothing of it is ignored. -/
theorem addAll_empty
    (hclean : addAll ignored index work = index)
    (hunignored : ∀ k, (index k).isSome = true → ignored work k = false) :
  addAll ignored empty work = index
  := by
  funext k
  cases hignored : ignored work k with
  | false => rw [addAll_of_unignored hignored, ← hclean, addAll_of_unignored hignored]
  | true =>
    rw [addAll_of_ignored rfl hignored]
    cases hk : index k with
    | none => rfl
    | some b =>
      have := hunignored k (by simp [hk])
      rw [hignored] at this
      cases this

/-- Two indexes stage one worktree alike exactly if they track the same of its ignored paths. -/
theorem addAll_eq_addAll_iff {index' : ContentTree κ β} :
  addAll ignored index work = addAll ignored index' work
    ↔ ∀ k, ignored work k = true → (work k).isSome = true → (index k).isSome = (index' k).isSome
  := by
  rw [funext_iff]
  apply forall_congr'
  intro k
  unfold addAll
  cases ignored work k <;> cases (index k).isSome <;> cases (index' k).isSome <;>
    cases work k <;> simp

end ContentTree
