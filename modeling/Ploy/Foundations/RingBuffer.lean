import Mathlib

/-!
# Rings

A ring is a circular buffer of fixed capacity: a new element is written at the head, over the oldest
one once the ring is full. Read from the oldest element on, it is the list of the last elements
written.
-/

universe u

/-- A circular buffer. The head is where the next element is written. -/
structure RingBuffer (α : Type u) where
  items : List α
  head : Nat
  len : Nat
  cap : Nat
  cap_pos : 0 < cap
  length_items : items.length = cap
  head_lt : head < cap
  len_le : len ≤ cap
  deriving DecidableEq

namespace RingBuffer

variable {α : Type u}

/-- An empty ring. Its capacity is at least one. -/
def new [Inhabited α] (capacity : Nat) : RingBuffer α where
  items := List.replicate (max capacity 1) default
  head := 0
  len := 0
  cap := max capacity 1
  cap_pos := by omega
  length_items := List.length_replicate
  head_lt := by omega
  len_le := Nat.zero_le _

def push (r : RingBuffer α) (e : α) : RingBuffer α where
  items := r.items.set r.head e
  head := (r.head + 1) % r.cap
  len := if r.len < r.cap then r.len + 1 else r.len
  cap := r.cap
  cap_pos := r.cap_pos
  length_items := by rw [List.length_set, r.length_items]
  head_lt := Nat.mod_lt _ r.cap_pos
  len_le := by
    have := r.len_le
    split <;> omega

/-- The place of the oldest element. -/
def oldest (r : RingBuffer α) : Nat :=
  (r.head + r.cap - r.len) % r.cap

/-- All elements, the oldest first. They wrap around where they reach the end of the buffer. -/
def slice (r : RingBuffer α) : List α :=
  if r.oldest + r.len ≤ r.cap then (r.items.drop r.oldest).take r.len
  else r.items.drop r.oldest ++ r.items.take (r.len - (r.cap - r.oldest))

/-- The elements among the next `n` ones from a place on that pass a test. -/
def walk (r : RingBuffer α) (p : α → Bool) : Nat → Nat → List α
  | _, 0 => []
  | i, n + 1 => (r.items[i]?).toList.filter p ++ r.walk p ((i + 1) % r.cap) n

/-- All elements that pass a test, the oldest first. -/
def collect (r : RingBuffer α) (p : α → Bool) : List α :=
  r.walk p r.oldest r.len

/-! ### The list of the last elements -/

theorem oldest_lt (r : RingBuffer α) :
  r.oldest < r.cap
  := Nat.mod_lt _ r.cap_pos

theorem head_eq (r : RingBuffer α) :
  r.head = (r.oldest + r.len) % r.cap
  := by
  have hlen := r.len_le
  have hhead := r.head_lt
  rw [oldest, Nat.mod_add_mod]
  have hsum : r.head + r.cap - r.len + r.len = r.head + r.cap := by omega
  rw [hsum, Nat.add_mod_right, Nat.mod_eq_of_lt hhead]

theorem place_eq (r : RingBuffer α) {i : Nat} (h : i < r.cap) :
  (r.oldest + i) % r.cap = if r.oldest + i < r.cap then r.oldest + i else r.oldest + i - r.cap
  := by
  have hold := r.oldest_lt
  split
  · rename_i hlt
    apply Nat.mod_eq_of_lt hlt
  · rename_i hge
    rw [Nat.mod_eq_sub_mod (by omega), Nat.mod_eq_of_lt (by omega)]

/-- The kept elements, from the oldest on. -/
theorem getElem?_slice (r : RingBuffer α) (i : Nat) :
  r.slice[i]? = if i < r.len then r.items[(r.oldest + i) % r.cap]? else none
  := by
  have hold := r.oldest_lt
  have hlen := r.len_le
  have hitems := r.length_items
  by_cases hi : i < r.len
  · rw [if_pos hi, r.place_eq (by omega), slice]
    by_cases hwrap : r.oldest + r.len ≤ r.cap
    · rw [if_pos hwrap, List.getElem?_take_of_lt hi, List.getElem?_drop, if_pos (by omega)]
    · rw [if_neg hwrap]
      by_cases hbefore : r.oldest + i < r.cap
      · rw [if_pos hbefore, List.getElem?_append_left (by rw [List.length_drop]; omega),
          List.getElem?_drop]
      · rw [if_neg hbefore, List.getElem?_append_right (by rw [List.length_drop]; omega),
          List.length_drop, List.getElem?_take_of_lt (by omega)]
        congr 1
        omega
  · rw [if_neg hi, List.getElem?_eq_none]
    rw [slice]
    split
    · rw [List.length_take]
      omega
    · rw [List.length_append, List.length_drop, List.length_take]
      omega

@[simp]
theorem length_slice (r : RingBuffer α) :
  r.slice.length = r.len
  := by
  have hold := r.oldest_lt
  have hlen := r.len_le
  have hitems := r.length_items
  rw [slice]
  split
  · rw [List.length_take, List.length_drop]
    omega
  · rw [List.length_append, List.length_drop, List.length_take]
    omega

@[simp]
theorem slice_new [Inhabited α] (capacity : Nat) :
  (new capacity : RingBuffer α).slice = []
  := List.length_eq_zero_iff.mp (length_slice _)

/-- An element that does not fit takes the place of the oldest. -/
theorem oldest_push (r : RingBuffer α) (e : α) :
  (r.push e).oldest = (r.oldest + (r.len + 1 - r.cap)) % r.cap
  := by
  have hlen := r.len_le
  have hcap := r.cap_pos
  have hhead := r.head_lt
  change ((r.head + 1) % r.cap + r.cap - (if r.len < r.cap then r.len + 1 else r.len)) % r.cap
    = ((r.head + r.cap - r.len) % r.cap + (r.len + 1 - r.cap)) % r.cap
  rw [Nat.mod_add_mod]
  by_cases hfull : r.len < r.cap
  · have hnone : r.len + 1 - r.cap = 0 := Nat.sub_eq_zero_of_le hfull
    rw [if_pos hfull, hnone, Nat.add_zero (r.head + r.cap - r.len)]
    by_cases hwrap : r.head + 1 = r.cap
    · rw [hwrap, Nat.mod_self, Nat.zero_add]
      have hsum : r.head + r.cap - r.len = (r.cap - (r.len + 1)) + r.cap := by omega
      rw [hsum, Nat.add_mod_right]
    · have hnext : (r.head + 1) % r.cap = r.head + 1 := Nat.mod_eq_of_lt (by omega)
      rw [hnext]
      congr 1
      omega
  · have hlencap : r.len = r.cap := by omega
    rw [if_neg hfull, hlencap, Nat.add_sub_cancel, Nat.add_sub_cancel, Nat.mod_mod]
    congr 1
    omega

/-- What is kept after a push are the last elements, as many as fit. -/
theorem slice_push (r : RingBuffer α) (e : α) :
  (r.push e).slice = (r.slice ++ [e]).drop (r.len + 1 - r.cap)
  := by
  have hold := r.oldest_lt
  have hlen := r.len_le
  have hcap := r.cap_pos
  have hitems := r.length_items
  apply List.ext_getElem?
  intro i
  rw [getElem?_slice, oldest_push, List.getElem?_drop]
  change (if i < (if r.len < r.cap then r.len + 1 else r.len) then
    (r.items.set r.head e)[((r.oldest + (r.len + 1 - r.cap)) % r.cap + i) % r.cap]? else none) = _
  rw [Nat.mod_add_mod, Nat.add_assoc]
  -- the place that is written is the one after the last element
  generalize hj : r.len + 1 - r.cap + i = j
  have hbound : (i < if r.len < r.cap then r.len + 1 else r.len) ↔ j ≤ r.len := by
    split <;> omega
  simp only [hbound]
  rcases Nat.lt_trichotomy j r.len with hlt | heq | hgt
  · rw [if_pos (Nat.le_of_lt hlt), List.getElem?_append_left (by rw [length_slice]; exact hlt),
      getElem?_slice, if_pos hlt]
    apply List.getElem?_set_ne
    rw [r.head_eq]
    intro hsame
    have hcases : r.len < r.cap ∨ r.len = r.cap := by omega
    rcases hcases with hroom | hfull
    · rw [r.place_eq hroom, r.place_eq (by omega)] at hsame
      split at hsame <;> split at hsame <;> omega
    · rw [hfull, Nat.add_mod_right, Nat.mod_eq_of_lt hold, r.place_eq (by omega)] at hsame
      split at hsame <;> omega
  · rw [heq, if_pos (Nat.le_refl _), ← r.head_eq,
      List.getElem?_set_self (by rw [hitems]; exact r.head_lt),
      List.getElem?_append_right (Nat.le_of_eq r.length_slice), length_slice, Nat.sub_self]
    rfl
  · rw [if_neg (by omega), List.getElem?_eq_none]
    rw [List.length_append, length_slice]
    exact hgt

/-- Walking the buffer filters the elements that are walked over. -/
theorem walk_eq (r : RingBuffer α) (p : α → Bool) {i : Nat} {l : List α} (hi : i < r.cap)
    (h : ∀ j < l.length, l[j]? = r.items[(i + j) % r.cap]?) :
  r.walk p i l.length = l.filter p
  := by
  induction l generalizing i with
  | nil => rfl
  | cons a l ih =>
    have hfirst := h 0 (Nat.zero_lt_succ _)
    rw [Nat.add_zero, Nat.mod_eq_of_lt hi, List.getElem?_cons_zero] at hfirst
    have hrest := ih (i := (i + 1) % r.cap) (Nat.mod_lt _ r.cap_pos) (by
      intro j hj
      have hnext := h (j + 1) (Nat.succ_lt_succ hj)
      rw [List.getElem?_cons_succ] at hnext
      rw [hnext, Nat.mod_add_mod]
      congr 2
      omega)
    rw [List.length_cons, walk, hrest, ← hfirst, Option.toList_some]
    exact (List.filter_append [a] l).symm

theorem collect_eq (r : RingBuffer α) (p : α → Bool) :
  r.collect p = r.slice.filter p
  := by
  rw [collect, ← r.length_slice]
  apply r.walk_eq p r.oldest_lt
  intro j hj
  rw [length_slice] at hj
  rw [getElem?_slice, if_pos hj]

end RingBuffer
