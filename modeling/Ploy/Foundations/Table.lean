import Mathlib

/-!
# Keyed tables

A table is a list of rows no two of which have the same key. Rows are inserted at the end,
refused when their key is taken, and rewritten in place by a map that keeps keys.

The overlay of a table by a patch replaces the rows whose key the patch has, and appends
the others; the difference of two tables is the patch of the rows that changed.
-/

/-- A rewriting of rows that leaves a part of them, `fixed`, as it is. -/
structure RowUpdate {ρ γ : Type} (fixed : ρ → γ) where
  apply : ρ → ρ
  keeps : ∀ r, fixed (apply r) = fixed r

namespace RowUpdate

variable {ρ γ : Type} {fixed : ρ → γ}

/-- The rewriting of the rows that satisfy a condition. -/
def onlyIf (p : ρ → Bool) (u : RowUpdate fixed) : RowUpdate fixed where
  apply r := if p r then u.apply r else r
  keeps r := by
    split
    · apply u.keeps
    · rfl

/-- The rewriting that changes nothing. -/
def refl (fixed : ρ → γ) : RowUpdate fixed where
  apply r := r
  keeps _ := rfl

/-- One rewriting after another. -/
def comp (v u : RowUpdate fixed) : RowUpdate fixed where
  apply r := v.apply (u.apply r)
  keeps r := (v.keeps _).trans (u.keeps r)

@[simp] theorem comp_apply (v u : RowUpdate fixed) (r : ρ) :
  (v.comp u).apply r = v.apply (u.apply r)
  := rfl

theorem onlyIf_pos {p : ρ → Bool} {u : RowUpdate fixed} {r : ρ} (h : p r = true) :
  (u.onlyIf p).apply r = u.apply r
  := if_pos h

theorem onlyIf_neg {p : ρ → Bool} {u : RowUpdate fixed} {r : ρ} (h : ¬ p r = true) :
  (u.onlyIf p).apply r = r
  := if_neg h

end RowUpdate

/-- Rows in storage order, no two with the same primary key. -/
structure Table {ρ κ : Type} (key : ρ → κ) where
  rows : List ρ
  nodup : (rows.map key).Nodup

namespace Table

variable {ρ κ : Type} {key : ρ → κ}

instance : Membership ρ (Table key) where
  mem t r := r ∈ t.rows

theorem mem_rows {t : Table key} {r : ρ} :
  r ∈ t.rows ↔ r ∈ t
  := Iff.rfl

/-- The table with no rows. -/
def empty (key : ρ → κ) : Table key :=
  ⟨[], List.nodup_nil⟩

@[simp] theorem not_mem_empty (r : ρ) :
  r ∉ empty key
  := List.not_mem_nil

theorem eq_of_key_eq {t : Table key} {r r' : ρ} (hr : r ∈ t) (hr' : r' ∈ t)
    (h : key r = key r') :
  r = r'
  := List.inj_on_of_nodup_map t.nodup hr hr' h

/-! ### Rewriting rows -/

/-- Every row rewritten by a map that keeps keys. -/
def update (t : Table key) (f : ρ → ρ) (hf : ∀ r, key (f r) = key r) : Table key :=
  ⟨t.rows.map f, by
    rw [List.map_map, show key ∘ f = key from funext hf]
    apply t.nodup⟩

@[simp] theorem rows_update (t : Table key) (f : ρ → ρ) (hf : ∀ r, key (f r) = key r) :
  (t.update f hf).rows = t.rows.map f
  := rfl

theorem keys_update (t : Table key) (f : ρ → ρ) (hf : ∀ r, key (f r) = key r) :
  t.rows.map key <+: (t.update f hf).rows.map key
  := by
  have hkeys : (t.update f hf).rows.map key = t.rows.map key := by
    rw [rows_update, List.map_map, show key ∘ f = key from funext hf]
  exact hkeys ▸ List.prefix_rfl

theorem update_update (t : Table key) (f g : ρ → ρ) (hf : ∀ r, key (f r) = key r)
    (hg : ∀ r, key (g r) = key r) :
  (t.update f hf).update g hg = t.update (g ∘ f) (fun r => (hg (f r)).trans (hf r))
  := by
  simp [update]

theorem update_eq_self {t : Table key} {f : ρ → ρ} {hf : ∀ r, key (f r) = key r}
    (h : ∀ r ∈ t, f r = r) :
  t.update f hf = t
  := by
  cases t with
  | mk rows nodup =>
    have hrows : rows.map f = rows := by
      conv => rhs; rw [← List.map_id rows]
      apply List.map_congr_left h
    simp only [update, hrows]

theorem update_congr {t : Table key} {f g : ρ → ρ} {hf : ∀ r, key (f r) = key r}
    {hg : ∀ r, key (g r) = key r} (h : ∀ r ∈ t, f r = g r) :
  t.update f hf = t.update g hg
  := by
  have hrows : t.rows.map f = t.rows.map g := List.map_congr_left h
  simp only [update, hrows]

/-! ### Looking rows up -/

section Find

variable [DecidableEq κ]

/-- The row with a given key. -/
def find? (t : Table key) (k : κ) : Option ρ :=
  t.rows.find? (fun r => key r = k)

/-- A row is found by its key. -/
theorem find?_eq_some {t : Table key} {k : κ} {r : ρ} :
  t.find? k = some r ↔ r ∈ t ∧ key r = k
  := by
  constructor
  · intro h
    have hk := List.find?_some h
    apply And.intro (List.mem_of_find?_eq_some h)
    simpa using hk
  · rintro ⟨hr, hk⟩
    cases h : t.find? k with
    | none =>
      have := List.find?_eq_none.mp h r hr
      simp [hk] at this
    | some r' =>
      have hk' := List.find?_some h
      simp only [decide_eq_true_eq] at hk'
      rw [eq_of_key_eq (List.mem_of_find?_eq_some h) hr (hk'.trans hk.symm)]

theorem find?_eq_none {t : Table key} {k : κ} :
  t.find? k = none ↔ ∀ r ∈ t, key r ≠ k
  := by
  simp [find?, List.find?_eq_none, mem_rows]

theorem find?_of_mem {t : Table key} {r : ρ} (hr : r ∈ t) :
  t.find? (key r) = some r
  := find?_eq_some.mpr ⟨hr, rfl⟩

theorem find?_update (t : Table key) (f : ρ → ρ) (hf : ∀ r, key (f r) = key r) (k : κ) :
  (t.update f hf).find? k = (t.find? k).map f
  := by
  have h : (fun r => decide (key r = k)) ∘ f = fun r => decide (key r = k) := by
    funext r
    simp [hf]
  rw [find?, rows_update, List.find?_map, h]
  rfl

end Find

/-! ### Inserting rows -/

section Insert

variable [DecidableEq κ]

/-- The table with a row appended, unless its key is taken. -/
def insert? (t : Table key) (r : ρ) : Option (Table key) :=
  if h : key r ∈ t.rows.map key then none
  else some ⟨t.rows ++ [r], by
    rw [List.map_append]
    apply t.nodup.append (List.nodup_singleton _)
    simpa using h⟩

/-- A row is inserted at the end if its key is new. -/
theorem insert?_eq_some {t t' : Table key} {r : ρ} :
  t.insert? r = some t' ↔ (∀ r' ∈ t, key r' ≠ key r) ∧ t'.rows = t.rows ++ [r]
  := by
  unfold insert?
  split
  · rename_i h
    obtain ⟨r', hr', hk⟩ := List.mem_map.mp h
    simp only [reduceCtorEq, false_iff, not_and]
    intro hfresh
    apply absurd hk (hfresh r' hr')
  · rename_i h
    constructor
    · rintro ⟨⟩
      constructor
      · intro r' hr' hk
        apply h (List.mem_map.mpr ⟨r', hr', hk⟩)
      · rfl
    · rintro ⟨-, hrows⟩
      cases t'
      cases hrows
      rfl

theorem mem_insert? {t t' : Table key} {r r' : ρ} (h : t.insert? r = some t') :
  r' ∈ t' ↔ r' ∈ t ∨ r' = r
  := by
  rw [← mem_rows, (insert?_eq_some.mp h).2, List.mem_append, List.mem_singleton, mem_rows]

theorem keys_insert? {t t' : Table key} {r : ρ} (h : t.insert? r = some t') :
  t.rows.map key <+: t'.rows.map key
  := by
  rw [(insert?_eq_some.mp h).2, List.map_append]
  apply List.prefix_append

end Insert

/-! ### Patches -/

/-- The rows that satisfy a predicate. -/
def filter (t : Table key) (p : ρ → Bool) : Table key :=
  ⟨t.rows.filter p, t.nodup.sublist (List.filter_sublist.map key)⟩

theorem mem_filter {t : Table key} {p : ρ → Bool} {r : ρ} :
  r ∈ t.filter p ↔ r ∈ t ∧ p r = true
  := List.mem_filter

/-- The rows of `t'` that `t` does not have. -/
def diff [DecidableEq ρ] (t t' : Table key) : Table key :=
  t'.filter (fun r => r ∉ t.rows)

theorem mem_diff [DecidableEq ρ] {t t' : Table key} {r : ρ} :
  r ∈ t.diff t' ↔ r ∈ t' ∧ r ∉ t
  := by
  simp [diff, mem_filter, mem_rows]

theorem diff_self [DecidableEq ρ] (t : Table key) :
  t.diff t = empty key
  := by
  simp only [diff, filter, empty, mk.injEq, List.filter_eq_nil_iff]
  intro r hr
  simp [hr]

section Overlay

variable [DecidableEq κ]

/-- The row a patch puts in the place of `r`: its own row of that key, if it has one. -/
def replaced (p : Table key) (r : ρ) : ρ :=
  (p.find? (key r)).getD r

theorem key_replaced (p : Table key) (r : ρ) :
  key (p.replaced r) = key r
  := by
  unfold replaced
  cases h : p.find? (key r) with
  | none => rfl
  | some r' => apply (find?_eq_some.mp h).2

/-- The table `t` with the rows of the patch `p` in place of those of the same key, and the
rows of `p` with new keys after them. -/
def overlay (p t : Table key) : Table key :=
  ⟨t.rows.map p.replaced ++ p.rows.filter (fun r => key r ∉ t.rows.map key), by
    rw [List.map_append, List.map_map, show key ∘ p.replaced = key from funext p.key_replaced]
    apply t.nodup.append (p.nodup.sublist (List.filter_sublist.map key))
    intro k hk hk'
    obtain ⟨r, hr, rfl⟩ := List.mem_map.mp hk'
    have := (List.mem_filter.mp hr).2
    simp only [decide_eq_true_eq] at this
    apply this hk⟩

/-- The rows of an overlay hide those with their keys. -/
theorem mem_overlay {p t : Table key} {r : ρ} :
  r ∈ p.overlay t ↔ r ∈ p ∨ (r ∈ t ∧ ∀ r' ∈ p, key r' ≠ key r)
  := by
  have hrows : (p.overlay t).rows
      = t.rows.map p.replaced ++ p.rows.filter (fun r => key r ∉ t.rows.map key) := rfl
  rw [← mem_rows, hrows, List.mem_append]
  constructor
  · rintro (h | h)
    · obtain ⟨r₀, hr₀, rfl⟩ := List.mem_map.mp h
      unfold replaced
      cases hf : p.find? (key r₀) with
      | none => apply Or.inr ⟨hr₀, find?_eq_none.mp hf⟩
      | some r' => apply Or.inl (find?_eq_some.mp hf).1
    · apply Or.inl (List.mem_filter.mp h).1
  · rintro (hp | ⟨ht, hfree⟩)
    · by_cases hk : key r ∈ t.rows.map key
      · obtain ⟨r₀, hr₀, hk₀⟩ := List.mem_map.mp hk
        apply Or.inl (List.mem_map.mpr ⟨r₀, hr₀, _⟩)
        rw [replaced, hk₀, find?_of_mem hp]
        rfl
      · apply Or.inr (List.mem_filter.mpr ⟨hp, _⟩)
        simpa using hk
    · apply Or.inl (List.mem_map.mpr ⟨r, ht, _⟩)
      rw [replaced, find?_eq_none.mpr hfree]
      rfl

theorem keys_overlay (p t : Table key) :
  t.rows.map key <+: (p.overlay t).rows.map key
  := by
  have hkeys : (t.rows.map p.replaced).map key = t.rows.map key := by
    rw [List.map_map, show key ∘ p.replaced = key from funext p.key_replaced]
  change t.rows.map key <+: (t.rows.map p.replaced ++ _).map key
  rw [List.map_append, hkeys]
  apply List.prefix_append

theorem replaced_diff [DecidableEq ρ] {s t : Table key} {r : ρ} (hr : r ∈ s)
    (hk : key r ∈ t.rows.map key) :
  t.find? (key r) = some ((s.diff t).replaced r)
  := by
  obtain ⟨r', hr', hk'⟩ := List.mem_map.mp hk
  rw [← hk', find?_of_mem hr', replaced]
  cases hfind : (s.diff t).find? (key r) with
  | some x =>
    obtain ⟨hx, hxk⟩ := find?_eq_some.mp hfind
    rw [eq_of_key_eq (mem_diff.mp hx).1 hr' (hxk.trans hk'.symm)]
    rfl
  | none =>
    by_cases hs : r' ∈ s
    · rw [eq_of_key_eq hs hr hk']
      rfl
    · apply absurd hk' (find?_eq_none.mp hfind r' (mem_diff.mpr ⟨hr', hs⟩))

/-- The difference of two tables leads from one to the other. -/
theorem overlay_diff [DecidableEq ρ] {s t : Table key} (h : s.rows.map key <+: t.rows.map key) :
  (s.diff t).overlay s = t
  := by
  obtain ⟨more, hmore⟩ := h
  obtain ⟨old, new, hrows, hold, -⟩ := List.map_eq_append_iff.mp hmore.symm
  have hfirst : s.rows.map (s.diff t).replaced = old := by
    have hsome : (s.rows.map (s.diff t).replaced).map some = old.map some := by
      calc (s.rows.map (s.diff t).replaced).map some
          = (s.rows.map key).map t.find? := by
            rw [List.map_map, List.map_map]
            apply List.map_congr_left
            intro r hr
            symm
            apply replaced_diff hr
            rw [← hmore]
            apply List.mem_append_left _ (List.mem_map_of_mem hr)
        _ = (old.map key).map t.find? := by rw [hold]
        _ = old.map some := by
            rw [List.map_map]
            apply List.map_congr_left
            intro r hr
            apply find?_of_mem
            rw [← mem_rows, hrows]
            apply List.mem_append_left _ hr
    apply List.map_injective_iff.mpr (fun _ _ => Option.some.inj) hsome
  have hlast : (s.diff t).rows.filter (fun r => key r ∉ s.rows.map key) = new := by
    change (t.rows.filter (fun r => r ∉ s.rows)).filter _ = new
    rw [hrows, List.filter_filter, List.filter_append]
    have hnone : old.filter (fun r => decide (key r ∉ s.rows.map key) && decide (r ∉ s.rows))
        = [] := by
      apply List.filter_eq_nil_iff.mpr
      intro r hr
      have hk : key r ∈ s.rows.map key := by
        rw [← hold]
        apply List.mem_map_of_mem hr
      simp [hk]
    have hall : new.filter (fun r => decide (key r ∉ s.rows.map key) && decide (r ∉ s.rows))
        = new := by
      apply List.filter_eq_self.mpr
      intro r hr
      -- keys are not repeated
      have hk : key r ∉ s.rows.map key := by
        intro hk
        have hnodup := t.nodup
        rw [hrows, List.map_append, List.nodup_append] at hnodup
        rw [← hold] at hk
        apply hnodup.2.2 _ hk _ (List.mem_map_of_mem hr) rfl
      have hr' : r ∉ s.rows := fun hs => hk (List.mem_map_of_mem hs)
      simp only [hk, hr', not_false_eq_true, decide_true, Bool.and_self]
    rw [hnone, hall, List.nil_append]
  cases t with
  | mk rows nodup =>
    simp only [overlay, mk.injEq]
    rw [hfirst, hlast]
    apply hrows.symm

theorem empty_overlay (t : Table key) :
  (empty key).overlay t = t
  := by
  cases t with
  | mk rows nodup =>
    have h : rows.map (empty key).replaced = rows := List.map_id rows
    simp only [overlay, h]
    simp [empty]

end Overlay

end Table
