import Ploy.Run.Machine

/-!
# The attempts a run has reached

A run counts its attempts from one. An attempt has jobs exactly when the run has reached it,
and none of them is active once the run has left it.
-/

namespace Ploy

theorem terminal_cancelIfActive {l : List Job} {k : Job} (hk : k ∈ l.map cancelIfActive.apply) :
  k.status.terminal = true
  := by
  obtain ⟨j, -, rfl⟩ := List.mem_map.mp hk
  by_cases hactive : j.status.active = true
  · rw [cancelIfActive, RowUpdate.onlyIf_pos (by simpa using hactive)]
    rfl
  · rw [cancelIfActive, RowUpdate.onlyIf_neg (by simpa using hactive)]
    simpa [JobStatus.terminal] using hactive

theorem resumeCount_settledRun (r : Run) (rows : List Job) :
  (settledRun r rows).stats.resumeCount = r.stats.resumeCount
  := by
  unfold settledRun
  split
  · apply resumeCount_setRunStatus
  · rfl

theorem Attempt.Step.counters {whole : Bool} {s s' : Attempt} (h : Attempt.Step whole s s') :
  s'.number = s.number
    ∧ ((s'.run.attempt = s.run.attempt ∧ s'.run.stats.resumeCount = s.run.stats.resumeCount)
      ∨ s'.run.attempt = s.run.attempt + 1
      ∨ (s'.run.attempt = s.run.attempt
        ∧ s'.run.stats.resumeCount = s.run.stats.resumeCount + 1))
  := by
  cases h with
  | idle | claim | unclaim | settle | cancelJobs => exact ⟨rfl, Or.inl ⟨rfl, rfl⟩⟩
  | complete input rows accepted order =>
    exact ⟨rfl, Or.inl ⟨attempt_settledRun _ _, resumeCount_settledRun _ _⟩⟩
  | @cancelRun r a l =>
    use rfl
    left
    simp only [RowUpdate.onlyIf]
    split <;> exact ⟨rfl, rfl⟩
  | leave | enter => exact ⟨rfl, Or.inr (Or.inl rfl)⟩
  | resume | stay => exact ⟨rfl, Or.inr (Or.inr ⟨rfl, resumeCount_resumeRow _ _ _ _⟩)⟩

/-- How the jobs of an attempt depend on where the run is. -/
structure Attempt.Placed (s : Attempt) : Prop where
  counted : 1 ≤ s.run.attempt
  empty : s.number = 0 ∨ s.run.attempt < s.number → s.jobs = []
  populated : 1 ≤ s.number → s.number ≤ s.run.attempt → s.jobs ≠ []
  left : s.number < s.run.attempt → ∀ j ∈ s.jobs, j.status.terminal = true

theorem Attempt.Placed.of_jobs {r r' : Run} {a : Nat} {l l' : List Job}
    (h : Attempt.Placed ⟨r, a, l⟩) (hattempt : r'.attempt = r.attempt)
    (hlength : l'.length = l.length)
    (hleft : a < r.attempt → ∀ j ∈ l', j.status.terminal = true) :
  Attempt.Placed ⟨r', a, l'⟩
  := by
  have hnil : l' = [] ↔ l = [] := by
    rw [← List.length_eq_zero_iff, hlength, List.length_eq_zero_iff]
  constructor
  · rw [hattempt]
    apply h.counted
  · rw [hattempt]
    intro ha
    apply hnil.mpr (h.empty ha)
  · rw [hattempt]
    intro hpos hle
    apply mt hnil.mp (h.populated hpos hle)
  · rw [hattempt]
    apply hleft

theorem Attempt.Placed.not_left {r : Run} {a : Nat} {pre post : List Job} {j : Job}
    (h : Attempt.Placed ⟨r, a, pre ++ j :: post⟩) (hactive : j.status.active = true) :
  ¬ a < r.attempt
  := by
  intro hlt
  have := h.left hlt j (by simp)
  rw [JobStatus.terminal, hactive] at this
  cases this

theorem length_after (input : CompletionInput) (j : Job) (post : List Job) :
  (input.after j post).length = post.length
  := by
  simpa using congrArg List.length
    (input.map_after (j := j) (fun _ => ()) (fun _ _ => rfl) (fun _ => rfl) fun _ => rfl)

/-- Jobs stand in the attempts that the run has reached. -/
theorem placed_invariant :
  Attempt.Invariant Attempt.Placed
  := by
  constructor
  · rintro ⟨r, a, l⟩ ⟨hattempt, -, -, ⟨rfl, -, hne⟩ | ⟨hother, hnil⟩⟩
    · dsimp only at hattempt
      refine ⟨by simp [hattempt], ?_, fun _ _ => hne, ?_⟩
      · dsimp only
        omega
      · dsimp only
        omega
    · dsimp only at hattempt hother hnil
      subst hnil
      refine ⟨by simp [hattempt], fun _ => rfl, ?_, ?_⟩
      · dsimp only
        omega
      · intro _ j hj
        cases hj
  · intro _ s s' _ h hstep
    cases hstep with
    | idle => apply h
    | claim n now running queued owner =>
      apply h.of_jobs rfl (by simp)
      intro hlt
      apply absurd hlt (h.not_left (by rw [queued]; rfl))
    | unclaim running =>
      apply h.of_jobs rfl (by simp)
      intro hlt
      apply absurd hlt (h.not_left (by rw [running]; rfl))
    | complete input rows accepted order =>
      apply h.of_jobs (attempt_settledRun _ _) (by simp [length_after])
      intro hlt
      apply absurd hlt (h.not_left (by rw [accepted.running]; rfl))
    | settle status terminal other => apply h.of_jobs (attempt_setRunStatus _ _) rfl h.left
    | cancelJobs =>
      apply h.of_jobs rfl (by simp)
      intro _ j hj
      apply terminal_cancelIfActive hj
    | cancelRun =>
      apply h.of_jobs _ (by simp)
      · intro _ j hj
        apply terminal_cancelIfActive hj
      · rw [← cancelRunUpdate_pos (p := fun _ => true) rfl, attempt_cancelRunUpdate]
    | @leave r a l stats terminal reached =>
      constructor
      · apply Nat.le_add_left
      · intro (ha : a = 0 ∨ r.attempt + 1 < a)
        have hnil : l = [] := h.empty (by dsimp only; omega)
        rw [hnil]
        split <;> rfl
      · intro (hpos : 1 ≤ a) (hle : a ≤ r.attempt + 1)
        have hne : l ≠ [] := h.populated hpos (by dsimp only; omega)
        split
        · simpa using hne
        · apply hne
      · intro (hlt : a < r.attempt + 1) j hj
        dsimp only at hj
        split at hj
        · apply terminal_cancelIfActive hj
        · apply h.left (by dsimp only; omega) j hj
    | @enter r created stats terminal planned nonempty =>
      constructor
      · apply Nat.le_add_left
      · intro (ha : r.attempt + 1 = 0 ∨ r.attempt + 1 < r.attempt + 1)
        omega
      · intro _ _
        apply nonempty
      · intro hlt
        apply absurd hlt (lt_irrefl _)
    | resume stats now u terminal succeeded failed cancelled first rest =>
      apply h.of_jobs (attempt_resumeRow _ _ _ _) (by simp)
      intro hlt
      apply absurd hlt (lt_irrefl _)
    | stay stats now terminal other => apply h.of_jobs (attempt_resumeRow _ _ _ _) rfl h.left

end Ploy
