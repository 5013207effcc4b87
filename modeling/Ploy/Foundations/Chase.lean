import Ploy.Foundations.Bounded

/-!
# Chases

A chase goes from a key to the next one, as long as there is one, and stops at a key where it has
been before. Where the keys are finitely many it comes to an end, and its trail holds all keys that
can be reached.
-/

namespace Chase

variable {κ β : Type} (next : κ → Option κ)

/-! ### Keys that are reached -/

/-- The key that is reached after a number of steps. -/
def follow : Nat → κ → Option κ
  | 0, k => some k
  | n + 1, k => (next k).bind (follow n)

variable {next}

theorem follow_add (m n : Nat) (k : κ) :
  follow next (m + n) k = (follow next m k).bind (follow next n)
  := by
  induction m generalizing k with
  | zero => rw [Nat.zero_add]; rfl
  | succ m ih =>
    rw [Nat.succ_add, follow, follow, Option.bind_assoc]
    congr 1
    funext k'
    exact ih k'

theorem follow_of_le {m n : Nat} {k x : κ} (h : follow next n k = some x) (hle : m ≤ n) :
  ∃ y, follow next m k = some y
  := by
  obtain ⟨d, rfl⟩ := Nat.exists_eq_add_of_le hle
  rw [follow_add] at h
  obtain ⟨y, hy, -⟩ := Option.bind_eq_some_iff.mp h
  exact ⟨y, hy⟩

/-- A chase that goes on at certain keys only is another one as long as all keys on the way are
such. -/
theorem follow_filter
    {next' : κ → Option κ} {clear : κ → Bool} {P : κ → Prop}
    (hnext : ∀ k, P k → next k = (next' k).filter clear)
    (hstay : ∀ k k', P k → next' k = some k' → P k') {k : κ} (hk : P k) {n : Nat} {x : κ} :
  follow next n k = some x ↔ follow next' n k = some x
    ∧ ∀ m < n, ∀ y, follow next' (m + 1) k = some y → clear y = true
  := by
  induction n generalizing k with
  | zero => simp [follow]
  | succ n ih =>
    rw [follow, follow, hnext k hk]
    cases hnext' : next' k with
    | none => simp
    | some k' =>
      rw [Option.filter_some, Option.bind_some]
      have hbelow : (∀ m < n + 1, ∀ y, follow next' (m + 1) k = some y → clear y = true)
          ↔ clear k' = true ∧ ∀ m < n, ∀ y, follow next' (m + 1) k' = some y → clear y = true := by
        simp only [Nat.forall_lt_succ_left, follow, hnext', Option.bind_some, Option.some.injEq,
          forall_eq']
      rw [hbelow]
      cases clear k' with
      | true =>
        rw [if_pos rfl, Option.bind_some, ih (hstay k k' hk hnext')]
        simp
      | false => simp

variable (next) in
/-- A chase comes to a key that has no next one. -/
def Ends (k x : κ) : Prop :=
  ∃ n, follow next n k = some x ∧ next x = none

variable (next) in
/-- A chase comes to the same key again. -/
def Loops (k : κ) : Prop :=
  ∃ m n x, m < n ∧ follow next m k = some x ∧ follow next n k = some x

theorem follow_eq_none_of_end
    {k x : κ} {m n : Nat} (h : follow next m k = some x) (hend : next x = none) (hlt : m < n) :
  follow next n k = none
  := by
  obtain ⟨d, rfl⟩ := Nat.exists_eq_add_of_lt hlt
  rw [Nat.add_assoc, follow_add, h, Option.bind_some, follow, hend]
  rfl

/-- A chase has one end at most. -/
theorem Ends.unique {k x y : κ} (hx : Ends next k x) (hy : Ends next k y) :
  x = y
  := by
  obtain ⟨m, hm, hxend⟩ := hx
  obtain ⟨n, hn, hyend⟩ := hy
  rcases Nat.lt_trichotomy m n with hlt | rfl | hgt
  · rw [follow_eq_none_of_end hm hxend hlt] at hn
    cases hn
  · exact Option.some.inj (hm.symm.trans hn)
  · rw [follow_eq_none_of_end hn hyend hgt] at hm
    cases hm

/-- A chase that comes back to a place has no end. -/
theorem Loops.not_ends {k x : κ} (h : Loops next k) :
  ¬ Ends next k x
  := by
  obtain ⟨m, n, y, hlt, hm, hn⟩ := h
  obtain ⟨d, rfl⟩ := Nat.exists_eq_add_of_lt hlt
  -- From the first visit on, the chase repeats itself with period `d + 1`.
  have hperiod : follow next (d + 1) y = some y := by
    rw [Nat.add_assoc, follow_add, hm, Option.bind_some] at hn
    exact hn
  have hagain : ∀ t, follow next (t * (d + 1)) y = some y := by
    intro t
    induction t with
    | zero =>
      rw [Nat.zero_mul]
      rfl
    | succ t ih => rw [Nat.succ_mul, follow_add, ih, Option.bind_some, hperiod]
  rintro ⟨e, he, hend⟩
  have hfar : follow next (m + (e + 1) * (d + 1)) k = some y := by
    rw [follow_add, hm, Option.bind_some, hagain]
  have hlong : e + 1 ≤ (e + 1) * (d + 1) := Nat.le_mul_of_pos_right (e + 1) (Nat.succ_pos d)
  rw [follow_eq_none_of_end he hend (by omega)] at hfar
  cases hfar

/-! ### Walks -/

variable (next) in
/-- The keys of a chase, in order, and the key at which it stopped because it had been there. -/
inductive Walk : List κ → κ → List κ → Option κ → Prop
  | seen {visited : List κ} {k : κ} (h : k ∈ visited) : Walk visited k [] (some k)
  | last {visited : List κ} {k : κ} (h : k ∉ visited) (hnext : next k = none) :
      Walk visited k [k] none
  | step {visited : List κ} {k k' : κ} {trail : List κ} {stop : Option κ} (h : k ∉ visited)
      (hnext : next k = some k') (rest : Walk (k :: visited) k' trail stop) :
      Walk visited k (k :: trail) stop

/-- A walk over finitely many places stops. -/
theorem exists_walk [DecidableEq κ]
    (S : Finset κ) (hnext : ∀ k k', next k = some k' → k' ∈ S) {k : κ} (hk : k ∈ S)
    (visited : List κ) :
  ∃ trail stop, Walk next visited k trail stop
  := by
  revert k
  refine Bounded.growing_induction S
    (P := fun visited => ∀ {k}, k ∈ S → ∃ trail stop, Walk next visited k trail stop) ?_ visited
  intro visited ih k hk
  by_cases hseen : k ∈ visited
  · exact ⟨[], some k, .seen hseen⟩
  · cases hnextk : next k with
    | none => exact ⟨[k], none, .last hseen hnextk⟩
    | some k' =>
      obtain ⟨trail, stop, hwalk⟩ := ih (k :: visited) (List.subset_cons_self k visited)
        ⟨k, hk, hseen, List.mem_cons_self⟩ (hnext k k' hnextk)
      exact ⟨k :: trail, stop, .step hseen hnextk hwalk⟩

namespace Walk

variable {visited : List κ} {k : κ} {trail : List κ} {stop : Option κ}

/-- The places of a walk are those that are met by following, in order. -/
theorem follow_eq (h : Walk next visited k trail stop) :
  (∀ n, n < trail.length → follow next n k = trail[n]?) ∧ follow next trail.length k = stop
  := by
  induction h with
  | seen h => exact ⟨fun n hn => absurd hn (Nat.not_lt_zero n), rfl⟩
  | last h hnext =>
    refine ⟨fun n hn => ?_, ?_⟩
    · obtain rfl : n = 0 := by simpa using hn
      rfl
    · change follow next 1 _ = none
      rw [follow, hnext]
      rfl
  | step h hnext rest ih =>
    refine ⟨fun n hn => ?_, ?_⟩
    · cases n with
      | zero => rfl
      | succ n =>
        rw [follow, hnext, Option.bind_some, ih.1 n (by simpa using hn)]
        rfl
    · rw [List.length_cons, follow, hnext, Option.bind_some]
      exact ih.2

/-- A walk that stops at a place stops where it has been. -/
theorem stop_mem (h : Walk next visited k trail stop) :
  ∀ x ∈ stop, x ∈ visited ∨ x ∈ trail
  := by
  induction h with
  | seen h =>
    rintro x ⟨⟩
    exact Or.inl h
  | last h hnext =>
    intro x hx
    cases hx
  | step h hnext rest ih =>
    intro x hx
    rcases ih x hx with hmem | hmem
    · rcases List.mem_cons.mp hmem with rfl | hmem
      · exact Or.inr List.mem_cons_self
      · exact Or.inl hmem
    · exact Or.inr (List.mem_cons_of_mem _ hmem)

/-- Nothing is met by following that the walk does not pass. -/
theorem mem_of_follow (h : Walk next [] k trail stop) {n : Nat} {x : κ}
    (hx : follow next n k = some x) :
  x ∈ trail
  := by
  obtain ⟨htrail, hstop⟩ := h.follow_eq
  have hindex : ∀ m, m < trail.length → ∀ y, follow next m k = some y → y ∈ trail := by
    intro m hm y hy
    rw [htrail m hm] at hy
    exact List.mem_of_getElem? hy
  -- A key behind the trail comes from one in it, whose next key is in the trail or is the stop.
  induction n generalizing x with
  | zero =>
    cases hx
    cases h with
    | seen h => cases h
    | last | step => exact List.mem_cons_self
  | succ n ih =>
    rw [follow_add] at hx
    obtain ⟨y, hy, hx⟩ := Option.bind_eq_some_iff.mp hx
    obtain ⟨i, hi, hget⟩ := List.mem_iff_getElem.mp (ih hy)
    have hfollow : follow next i k = some y := by
      rw [htrail i hi, List.getElem?_eq_getElem hi, hget]
    have hnext : follow next (i + 1) k = some x := by
      rw [follow_add, hfollow, Option.bind_some, hx]
    by_cases hlt : i + 1 < trail.length
    · exact hindex (i + 1) hlt x hnext
    · have heq : i + 1 = trail.length := by omega
      rw [heq, hstop] at hnext
      rcases h.stop_mem x hnext with hmem | hmem
      · cases hmem
      · exact hmem

/-- A walk that runs out ends at its last place. -/
theorem ends (h : Walk next visited k trail none) :
  ∃ x, trail.getLast? = some x ∧ Ends next k x
  := by
  generalize hstop : (none : Option κ) = stop at h
  induction h with
  | seen h => cases hstop
  | @last visited k h hnext => exact ⟨k, rfl, 0, rfl, hnext⟩
  | @step visited k k' trail stop h hnext rest ih =>
    obtain ⟨x, hlast, n, hn, hend⟩ := ih hstop
    refine ⟨x, ?_, n + 1, ?_, hend⟩
    · rw [List.getLast?_cons, hlast]
      rfl
    · rw [follow, hnext, Option.bind_some, hn]

theorem loops {x : κ} (h : Walk next [] k trail (some x)) :
  Loops next k
  := by
  obtain ⟨htrail, hstop⟩ := h.follow_eq
  rcases h.stop_mem x rfl with hmem | hmem
  · cases hmem
  · obtain ⟨i, hi, hget⟩ := List.mem_iff_getElem.mp hmem
    refine ⟨i, trail.length, x, hi, ?_, hstop⟩
    rw [htrail i hi, List.getElem?_eq_getElem hi, hget]

/-- What a walk finds first is what is met first by following. -/
theorem findSome?_eq_some_iff (h : Walk next [] k trail stop) {f : κ → Option β} {b : β} :
  trail.findSome? f = some b ↔
    ∃ n x, follow next n k = some x ∧ f x = some b ∧
      ∀ m < n, ∀ y, follow next m k = some y → f y = none
  := by
  obtain ⟨htrail, -⟩ := h.follow_eq
  rw [List.findSome?_eq_some_iff]
  constructor
  · rintro ⟨before, x, behind, rfl, hfx, hbefore⟩
    refine ⟨before.length, x, ?_, hfx, ?_⟩
    · rw [htrail _ (by simp), List.getElem?_append_right (Nat.le_refl _), Nat.sub_self]
      rfl
    · intro m hm y hy
      rw [htrail m (by simp; omega), List.getElem?_append_left hm] at hy
      exact hbefore y (List.mem_of_getElem? hy)
  · rintro ⟨n, x, hx, hfx, hfirst⟩
    obtain ⟨i, hi, hget⟩ := List.mem_iff_getElem.mp (h.mem_of_follow hx)
    have hfollow : follow next i k = some x := by
      rw [htrail i hi, List.getElem?_eq_getElem hi, hget]
    -- The key is not in the trail before the place where the chase first comes to it.
    have hle : n ≤ i := by
      by_contra hlt
      rw [hfirst i (by omega) x hfollow] at hfx
      cases hfx
    have hn : n < trail.length := Nat.lt_of_le_of_lt hle hi
    have hat : trail[n]? = some x := by
      rw [← htrail n hn, hx]
    refine ⟨trail.take n, x, trail.drop (n + 1), ?_, hfx, ?_⟩
    · have hget : trail[n] = x := by
        rw [List.getElem?_eq_getElem hn] at hat
        exact Option.some.inj hat
      rw [← hget, List.getElem_cons_drop, List.take_append_drop]
    · intro y hy
      obtain ⟨m, hm, hget⟩ := List.mem_iff_getElem.mp hy
      rw [List.length_take] at hm
      rw [List.getElem_take] at hget
      apply hfirst m (by omega) y
      rw [htrail m (by omega), List.getElem?_eq_getElem (by omega), hget]

end Walk

end Chase
