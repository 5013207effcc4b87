import Mathlib

/-!
# Linked chains

Items with an identifier and an optional successor form a chain, read as a list, when each
names the next one and the last names none. A set of items with distinct identifiers is a
chain in at most one way, and following successors from an item reads off what comes after
it.
-/

universe u v

variable {α : Type u} {κ : Type v}

/-- The list `l` is linked: each item names the one after it, and the last names none. -/
def Linked (id : α → κ) (next : α → Option κ) : List α → Prop
  | [] => True
  | a :: l => next a = l.head?.map id ∧ Linked id next l

namespace Linked

variable {id : α → κ} {next : α → Option κ}

theorem map
    {f : α → α} (hid : ∀ a, id (f a) = id a) (hnext : ∀ a, next (f a) = next a)
    {l : List α} (h : Linked id next l) :
  Linked id next (l.map f)
  := by
  induction l with
  | nil => trivial
  | cons a l ih =>
    obtain ⟨ha, hl⟩ := h
    constructor
    · rw [hnext, ha]
      cases l with
      | nil => rfl
      | cons b l => simp [hid]
    · apply ih hl

theorem append_right {pre l : List α} (h : Linked id next (pre ++ l)) :
  Linked id next l
  := by
  induction pre with
  | nil => apply h
  | cons a pre ih => apply ih h.2

theorem next_eq {pre post : List α} {a : α} (h : Linked id next (pre ++ a :: post)) :
  next a = post.head?.map id
  := h.append_right.1

theorem exists_of_next {l : List α} (h : Linked id next l) {a : α} (ha : a ∈ l) {k : κ}
    (hk : next a = some k) :
  ∃ b ∈ l, id b = k
  := by
  obtain ⟨pre, post, rfl⟩ := List.append_of_mem ha
  rw [h.next_eq, Option.map_eq_some_iff] at hk
  obtain ⟨b, hb, rfl⟩ := hk
  use b
  simp [List.mem_of_mem_head? hb]

/-- A chain is determined by its first item. -/
theorem tail_unique
    {a : α} {l l' : List α} (h : Linked id next (a :: l)) (h' : Linked id next (a :: l'))
    (hinj : ∀ x ∈ l, ∀ y ∈ l', id x = id y → x = y) :
  l = l'
  := by
  induction l generalizing a l' with
  | nil =>
    have hnone : l'.head?.map id = none := by rw [← h'.1, h.1]; rfl
    cases l' with
    | nil => rfl
    | cons b l' => cases hnone
  | cons b l ih =>
    have hsome : l'.head?.map id = some (id b) := by rw [← h'.1, h.1]; rfl
    cases l' with
    | nil => cases hsome
    | cons b' l' =>
      obtain rfl : b = b' := by
        apply hinj b List.mem_cons_self b' List.mem_cons_self
        simpa using hsome.symm
      rw [ih h.2 h'.2]
      intro x hx y hy
      apply hinj x (List.mem_cons_of_mem _ hx) y (List.mem_cons_of_mem _ hy)

/-- A set of items is chained in one order only. -/
theorem unique
    {l l' : List α} (h : Linked id next l) (h' : Linked id next l') (hperm : l.Perm l')
    (hnodup : (l.map id).Nodup) :
  l = l'
  := by
  have hinj : ∀ x ∈ l, ∀ y ∈ l, id x = id y → x = y := List.inj_on_of_nodup_map hnodup
  cases l with
  | nil => rw [hperm.nil_eq]
  | cons a t =>
    obtain ⟨pre, post, rfl⟩ := List.append_of_mem (hperm.subset List.mem_cons_self)
    have htail : t = post := by
      apply tail_unique h h'.append_right
      intro x hx y hy
      apply hinj x (List.mem_cons_of_mem _ hx) y
      apply hperm.symm.subset (List.mem_append_right _ (List.mem_cons_of_mem _ hy))
    have hlength := hperm.length_eq
    rw [htail] at hlength ⊢
    simp only [List.length_append, List.length_cons] at hlength
    have hpre : pre = [] := List.eq_nil_of_length_eq_zero (by omega)
    rw [hpre]
    rfl

/-- The item that links to one of a chain stands right before it. -/
theorem prev_eq
    {pre post : List α} {b p : α} (h : Linked id next (pre ++ b :: post))
    (hnodup : ((pre ++ b :: post).map id).Nodup) (hp : p ∈ pre ++ b :: post)
    (hnext : next p = some (id b)) :
  ∃ front, pre = front ++ [p]
  := by
  have hinj := List.inj_on_of_nodup_map hnodup
  obtain ⟨front, back, heq⟩ := List.append_of_mem hp
  rw [heq] at h
  rw [h.next_eq, Option.map_eq_some_iff] at hnext
  obtain ⟨c, hc, hid⟩ := hnext
  obtain ⟨rest, rfl⟩ : ∃ rest, back = c :: rest := by
    cases back with
    | nil => cases hc
    | cons d rest =>
      cases hc
      use rest
  obtain rfl : c = b := by
    apply hinj _ _ hid
    · rw [heq]
      simp
    · simp
  -- `c` occurs once in the chain, so the two splittings at it agree
  have hsplit : (front ++ [p]) ++ c :: rest = pre ++ c :: post := by
    simpa using heq.symm
  have honce := hnodup.of_map id
  rw [← hsplit] at honce
  have hfresh := List.nodup_append.mp honce
  have hfront : c ∉ front ++ [p] := fun hmem => hfresh.2.2 c hmem c List.mem_cons_self rfl
  have hrest : c ∉ rest := (List.nodup_cons.mp hfresh.2.1).1
  use front
  apply ((List.append_cons_inj_of_notMem hfront hrest).mp hsplit).1.symm

theorem prev_unique
    {pre post : List α} {a b p : α} (h : Linked id next (pre ++ a :: b :: post))
    (hnodup : ((pre ++ a :: b :: post).map id).Nodup) (hp : p ∈ pre ++ a :: b :: post)
    (hnext : next p = some (id b)) :
  p = a
  := by
  rw [show pre ++ a :: b :: post = (pre ++ [a]) ++ b :: post by simp] at h hnodup hp
  obtain ⟨front, heq⟩ := h.prev_eq hnodup hp hnext
  simpa using (List.append_inj' heq rfl).2.symm

end Linked
