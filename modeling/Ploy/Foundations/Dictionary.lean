import Mathlib

/-!
# Dictionaries

A dictionary is a list of keys with their values. The first pair of a key counts. Setting a key
rewrites its pair where it stands, or appends one.
-/

namespace Dictionary

universe u v

variable {κ : Type u} {ν : Type v} [DecidableEq κ]

/-- The value of a key. -/
def get : List (κ × ν) → κ → Option ν
  | [], _ => none
  | (k, v) :: d, key => if k = key then some v else get d key

/-- The dictionary in which a key has a value. -/
def set : List (κ × ν) → κ → ν → List (κ × ν)
  | [], key, value => [(key, value)]
  | (k, v) :: d, key, value => if k = key then (k, value) :: d else (k, v) :: set d key value

/-- The dictionary without a key. -/
def erase (d : List (κ × ν)) (key : κ) : List (κ × ν) :=
  d.filter fun entry => entry.1 ≠ key

@[simp] theorem get_nil (key : κ) :
  get ([] : List (κ × ν)) key = none
  := rfl

@[simp] theorem get_set_self (d : List (κ × ν)) (key : κ) (value : ν) :
  get (set d key value) key = some value
  := by
  induction d with
  | nil => simp [set, get]
  | cons entry d ih =>
    by_cases h : entry.1 = key
    · simp [set, get, h]
    · simp [set, get, h, ih]

theorem get_set_of_ne
    (d : List (κ × ν)) {key key' : κ} (value : ν) (hne : key' ≠ key) :
  get (set d key value) key' = get d key'
  := by
  induction d with
  | nil => simp [set, get, hne.symm]
  | cons entry d ih =>
    by_cases h : entry.1 = key
    · simp [set, get, h, hne.symm]
    · simp only [set, h, if_false, get, ih]

theorem get_set (d : List (κ × ν)) (key key' : κ) (value : ν) :
  get (set d key value) key' = if key' = key then some value else get d key'
  := by
  split
  · next h => rw [h, get_set_self]
  · next h => exact get_set_of_ne d value h

theorem set_of_get
    {d : List (κ × ν)} {key : κ} {value : ν} (h : get d key = some value) :
  set d key value = d
  := by
  induction d with
  | nil => cases h
  | cons entry d ih =>
    by_cases hk : entry.1 = key
    · rw [get, if_pos hk] at h
      cases h
      rw [set, if_pos hk]
    · rw [get, if_neg hk] at h
      rw [set, if_neg hk, ih h]

theorem set_set (d : List (κ × ν)) (key : κ) (value value' : ν) :
  set (set d key value) key value' = set d key value'
  := by
  induction d with
  | nil => simp [set]
  | cons entry d ih =>
    by_cases h : entry.1 = key
    · simp [set, h]
    · simp [set, h, ih]

@[simp] theorem get_erase_self (d : List (κ × ν)) (key : κ) :
  get (erase d key) key = none
  := by
  induction d with
  | nil => rfl
  | cons entry d ih =>
    by_cases h : entry.1 = key
    · simpa [erase, h] using ih
    · simpa [erase, h, get] using ih

theorem get_erase_of_ne
    (d : List (κ × ν)) {key key' : κ} (hne : key' ≠ key) :
  get (erase d key) key' = get d key'
  := by
  induction d with
  | nil => rfl
  | cons entry d ih =>
    by_cases h : entry.1 = key
    · have hentry : entry.1 ≠ key' := fun he => hne (he.symm.trans h)
      rw [get, if_neg hentry, ← ih, erase, List.filter_cons_of_neg (by simpa using h)]
      rfl
    · rw [get, ← ih, erase, List.filter_cons_of_pos (by simpa using h)]
      rfl

theorem get_erase (d : List (κ × ν)) (key key' : κ) :
  get (erase d key) key' = if key' = key then none else get d key'
  := by
  split
  · next h => rw [h, get_erase_self]
  · next h => exact get_erase_of_ne d h

theorem erase_set_of_get
    {d : List (κ × ν)} {key : κ} (h : get d key = none) (value : ν) :
  erase (set d key value) key = d
  := by
  induction d with
  | nil => simp [set, erase]
  | cons entry d ih =>
    rw [get] at h
    split at h
    · cases h
    · next hk =>
        rw [set, if_neg hk, erase, List.filter_cons_of_pos (by simpa using hk)]
        exact congrArg (entry :: ·) (ih h)

theorem mem_of_get
    {d : List (κ × ν)} {key : κ} {value : ν} (h : get d key = some value) :
  (key, value) ∈ d
  := by
  induction d with
  | nil => cases h
  | cons entry d ih =>
    by_cases hk : entry.1 = key
    · rw [get, if_pos hk] at h
      cases h
      cases hk
      exact List.mem_cons_self
    · rw [get, if_neg hk] at h
      exact List.mem_cons_of_mem _ (ih h)

end Dictionary
