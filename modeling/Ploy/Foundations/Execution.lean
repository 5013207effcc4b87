import Mathlib

/-!
# Executions of a labelled machine

A machine has initial states and a partial step function; whatever is left open by the
state is decided by the label. An execution is a history of labels, each with the state it
was taken in, that ends in a state.
-/

universe u v

/-- Initial states, and the state each label leads to where it can be taken. -/
structure Machine (σ : Type u) (Λ : Type v) where
  init : σ → Prop
  step : Λ → σ → Option σ

namespace Machine

variable {σ : Type u} {Λ : Type v}

/-- The executions of a machine, as the history of states and labels taken in them, the
latest first, and the state reached. -/
inductive Execution (M : Machine σ Λ) : List (σ × Λ) → σ → Prop where
  | start {s : σ} (h : M.init s) : Execution M [] s
  | step {past : List (σ × Λ)} {s s' : σ} {l : Λ} (h : Execution M past s)
      (hs : M.step l s = some s') : Execution M ((s, l) :: past) s'

variable {M : Machine σ Λ}

variable {I : σ → Prop} {past : List (σ × Λ)} {s : σ}

theorem Execution.invariant_of_allowed (allowed : σ → Λ → Bool) (hinit : ∀ s, M.init s → I s)
    (hstep : ∀ s l s', I s → allowed s l = true → M.step l s = some s' → I s')
    (h : M.Execution past s) (ha : ∀ x ∈ past, allowed x.1 x.2 = true) :
  I s
  := by
  induction h with
  | start h => apply hinit _ h
  | @step past s s' l _ hs ih =>
    have hx := ha (s, l) List.mem_cons_self
    apply hstep s l s' (ih (fun x hx => ha x (List.mem_cons_of_mem _ hx))) hx hs

theorem Execution.invariant (hinit : ∀ s, M.init s → I s)
    (hstep : ∀ s l s', I s → M.step l s = some s' → I s') (h : M.Execution past s) :
  I s
  := by
  apply h.invariant_of_allowed (fun _ _ => true) hinit
  · intro s l s' hI _ hs
    apply hstep s l s' hI hs
  · intro _ _
    rfl

theorem Execution.since_of {P Q : σ → Λ → Prop} {later earlier : List (σ × Λ)} {s₀ : σ} {l₀ : Λ}
    (h : M.Execution (later ++ (s₀, l₀) :: earlier) s)
    (hP : ∀ x ∈ later ++ (s₀, l₀) :: earlier, P x.1 x.2) (hQ : ∀ x ∈ later, Q x.1 x.2)
    (hfirst : ∀ s₁, M.Execution earlier s₀ → M.step l₀ s₀ = some s₁ → I s₁)
    (hstep : ∀ past s l s', M.Execution past s → (∀ x ∈ past, P x.1 x.2) → P s l → Q s l → I s →
      M.step l s = some s' → I s') :
  I s
  := by
  induction later generalizing s with
  | nil =>
    cases h with
    | step h hs => apply hfirst s h hs
  | cons x later ih =>
    cases h with
    | step h hs =>
      have hP' : ∀ x ∈ later ++ (s₀, l₀) :: earlier, P x.1 x.2 :=
        fun x hx => hP x (List.mem_cons_of_mem _ hx)
      apply hstep _ _ _ _ h hP' (hP _ List.mem_cons_self) (hQ _ List.mem_cons_self) _ hs
      apply ih h hP' (fun x hx => hQ x (List.mem_cons_of_mem _ hx))

theorem Execution.since {later earlier : List (σ × Λ)} {s₀ : σ} {l₀ : Λ}
    (h : M.Execution (later ++ (s₀, l₀) :: earlier) s)
    (hfirst : ∀ s₁, M.Execution earlier s₀ → M.step l₀ s₀ = some s₁ → I s₁)
    (hstep : ∀ past s l s', M.Execution past s → I s → M.step l s = some s' → I s') :
  I s
  := by
  apply h.since_of (P := fun _ _ => True) (Q := fun _ _ => True) (fun _ _ => trivial)
    (fun _ _ => trivial) hfirst
  intro past s l s' hexec _ _ _
  apply hstep past s l s' hexec

/-- The state a list of labels, taken in order, leads to. -/
def follow (M : Machine σ Λ) : σ → List Λ → Option σ
  | s, [] => some s
  | s, l :: rest => (M.step l s).bind (M.follow · rest)

variable {labels : List Λ}

theorem Execution.follow {s' : σ} (h : M.Execution past s) (hf : M.follow s labels = some s') :
  ∃ later, M.Execution (later ++ past) s' ∧ later.map Prod.snd = labels.reverse
  := by
  induction labels generalizing past s with
  | nil =>
    cases hf
    apply Exists.intro [] ⟨h, rfl⟩
  | cons l rest ih =>
    obtain ⟨s₁, hs₁, hrest⟩ := Option.bind_eq_some_iff.mp hf
    obtain ⟨later, hexec, hlabels⟩ := ih (h.step hs₁) hrest
    use later ++ [(s, l)]
    constructor
    · simpa using hexec
    · simp [hlabels]

theorem Execution.of_follow {s' : σ} (h : M.init s) (hf : M.follow s labels = some s') :
  ∃ past, M.Execution past s' ∧ past.map Prod.snd = labels.reverse
  := by
  have hstart : M.Execution [] s := Execution.start h
  obtain ⟨past, hexec, hlabels⟩ := hstart.follow hf
  rw [List.append_nil] at hexec
  exact ⟨past, hexec, hlabels⟩

/-- The machine that takes only steps that are allowed. -/
def restrict (M : Machine σ Λ) (allowed : σ → Λ → Bool) : Machine σ Λ where
  init := M.init
  step l s := if allowed s l then M.step l s else none

variable {allowed : σ → Λ → Bool}

/-- Executions of the restricted machine are those whose steps are all allowed. -/
theorem Execution.of_restrict (h : (M.restrict allowed).Execution past s) :
  M.Execution past s ∧ ∀ x ∈ past, allowed x.1 x.2 = true
  := by
  induction h with
  | start h =>
    use Execution.start h
    intro x hx
    cases hx
  | @step past s s' l _ hs ih =>
    obtain ⟨hexec, hall⟩ := ih
    simp only [restrict] at hs
    split at hs
    · rename_i hallowed
      use hexec.step hs
      intro x hx
      rcases List.mem_cons.mp hx with rfl | hx
      · apply hallowed
      · apply hall x hx
    · cases hs

theorem Execution.of_follow_restrict {s' : σ} (h : M.init s)
    (hf : (M.restrict allowed).follow s labels = some s') :
  ∃ past, M.Execution past s' ∧ ∀ x ∈ past, allowed x.1 x.2 = true
  := by
  have hinit : (M.restrict allowed).init s := h
  obtain ⟨past, hexec, -⟩ := Execution.of_follow hinit hf
  exact ⟨past, hexec.of_restrict⟩

theorem Execution.of_follow_step {l : Λ} {p : σ → σ → Bool} (h : M.init s)
    (hf : ((M.follow s labels).bind fun s₀ => (M.step l s₀).map (p s₀)) = some true) :
  ∃ earlier s₀ s', M.Execution ((s₀, l) :: earlier) s'
    ∧ earlier.map Prod.snd = labels.reverse ∧ p s₀ s' = true
  := by
  obtain ⟨s₀, hfollow, hlast⟩ := Option.bind_eq_some_iff.mp hf
  obtain ⟨s', hstep, hp⟩ := Option.map_eq_some_iff.mp hlast
  obtain ⟨earlier, hexec, hlabels⟩ := Execution.of_follow h hfollow
  exact ⟨earlier, s₀, s', hexec.step hstep, hlabels, hp⟩

theorem Execution.of_follow_last {l : Λ} {p : σ → σ → Bool} (h : M.init s)
    (hf : (((M.restrict allowed).follow s labels).bind fun s₀ =>
      ((M.restrict allowed).step l s₀).map (p s₀)) = some true) :
  ∃ earlier s₀ s', M.Execution ((s₀, l) :: earlier) s'
    ∧ (∀ x ∈ (s₀, l) :: earlier, allowed x.1 x.2 = true) ∧ p s₀ s' = true
  := by
  have hinit : (M.restrict allowed).init s := h
  obtain ⟨earlier, s₀, s', hexec, -, hp⟩ := Execution.of_follow_step hinit hf
  obtain ⟨hexec', hall⟩ := hexec.of_restrict
  exact ⟨earlier, s₀, s', hexec', hall, hp⟩

end Machine

/-! ### Pools

A pool holds the states of concurrent calls, each in a place of its own. A call that starts is put
at the end of the pool, and a step of a call replaces its state in its place. -/

namespace Pool

variable {τ : Type u} {pool : List τ} {i k : Nat} {t t' x : τ}

theorem get_set (h : pool[i]? = some t) :
  (pool.set i t')[k]? = some x ↔ (k = i ∧ t' = x) ∨ (k ≠ i ∧ pool[k]? = some x)
  := by
  obtain ⟨hi, -⟩ := List.getElem?_eq_some_iff.mp h
  by_cases hk : k = i
  · rw [hk, List.getElem?_set_self hi]
    simp
  · rw [List.getElem?_set_ne (Ne.symm hk)]
    simp [hk]

theorem get_start :
  (pool ++ [t])[k]? = some x ↔ (k = pool.length ∧ t = x) ∨ pool[k]? = some x
  := by
  rcases Nat.lt_trichotomy k pool.length with hk | hk | hk
  · rw [List.getElem?_append_left hk]
    simp [Nat.ne_of_lt hk]
  · rw [hk, List.getElem?_append_right (Nat.le_refl _)]
    simp
  · have hlength : (pool ++ [t]).length ≤ k := by
      rw [List.length_append]
      exact hk
    rw [List.getElem?_eq_none hlength, List.getElem?_eq_none (Nat.le_of_lt hk)]
    simp [Nat.ne_of_gt hk]

theorem set_self (h : pool[i]? = some t) :
  pool.set i t = pool
  := by
  obtain ⟨hi, rfl⟩ := List.getElem?_eq_some_iff.mp h
  apply List.set_getElem_self

theorem mem_of_set (hx : x ∈ pool.set i t') :
  x = t' ∨ x ∈ pool
  := (List.mem_or_eq_of_mem_set hx).symm

end Pool
