import Mathlib

/-!
# Consecutive numbers

A list of numbers that goes up to `n` holds the last numbers of `1, …, n`, none left out.
-/

/-- The list holds the last numbers up to `n`. -/
def UpTo (l : List Nat) (n : Nat) : Prop :=
  l <:+ List.range' 1 n

namespace UpTo

variable {l a b : List Nat} {n : Nat}

theorem nil (n : Nat) :
  UpTo [] n
  := List.nil_suffix

theorem snoc (h : UpTo l n) :
  UpTo (l ++ [n + 1]) (n + 1)
  := by
  obtain ⟨front, hfront⟩ := h
  use front
  rw [← List.append_assoc, hfront, List.range'_1_concat, Nat.add_comm]

theorem suffix (h : UpTo l n) (hb : b <:+ l) :
  UpTo b n
  := hb.trans h

theorem split (h : UpTo l n) :
  ∃ m, m + l.length = n ∧ l = List.range' (1 + m) l.length
  := by
  obtain ⟨front, hfront⟩ := h
  have hlength : front.length + l.length = n := by
    rw [← List.length_append, hfront, List.length_range']
  use front.length, hlength
  rw [← hlength, ← List.range'_append_1] at hfront
  exact (List.append_inj hfront (by rw [List.length_range'])).2

theorem left (h : UpTo (a ++ b) n) :
  ∃ m, UpTo a m
  := by
  obtain ⟨m, -, hrange⟩ := h.split
  rw [List.length_append, ← List.range'_append_1] at hrange
  have ha := (List.append_inj hrange (by rw [List.length_range'])).1
  use m + a.length, List.range' 1 m
  rw [← List.range'_append_1, ← ha]

/-- What comes after a number is consecutive, too. -/
theorem after (h : UpTo l n) (since : Nat) :
  UpTo (l.filter (since < ·)) n
  := by
  obtain ⟨m, -, hrange⟩ := h.split
  rcases Nat.le_total since m with hall | hsome
  · -- all of them do
    rw [List.filter_eq_self.mpr]
    · apply h
    · intro i hi
      rw [hrange, List.mem_range'_1] at hi
      simp only [decide_eq_true_eq]
      omega
  · apply h.suffix
    rw [hrange]
    rcases Nat.le_total l.length (since - m) with hnone | hlater
    · rw [List.filter_eq_nil_iff.mpr]
      · apply List.nil_suffix
      · intro i hi
        rw [List.mem_range'_1] at hi
        simp only [decide_eq_true_eq]
        omega
    · -- the first `since - m` do not, the others do
      have hlength : l.length = (since - m) + (l.length - (since - m)) := by omega
      rw [hlength, ← List.range'_append_1, List.filter_append, List.filter_eq_nil_iff.mpr,
        List.nil_append, List.filter_eq_self.mpr]
      · apply List.suffix_append
      · intro i hi
        rw [List.mem_range'_1] at hi
        simp only [decide_eq_true_eq]
        omega
      · intro i hi
        rw [List.mem_range'_1] at hi
        simp only [decide_eq_true_eq]
        omega

theorem pos (h : UpTo l n) {i : Nat} (hi : i ∈ l) :
  0 < i
  := by
  have hmem := h.subset hi
  rw [List.mem_range'_1] at hmem
  exact hmem.1

end UpTo
