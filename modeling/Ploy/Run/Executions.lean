import Ploy.Run.Fencing
import Ploy.Server.Resume

/-!
# Jobs across executions

A retry from the failed job resets the rest of the chain, and the jobs that it resets run once
more under their identifiers. What an operation does to the success of a job, and to the execution
that the jobs that have not succeeded are in.
-/

namespace Ploy

open Program

/-- The jobs that an operation resets, with the resume count that they run under from then on. -/
def Operation.resets (db : DB) : Operation → Option (List JobID × Nat)
  | .restartRun _ arg =>
    if arg.fromFailed then
      (db.runs.find? arg.runID).bind fun r =>
        (failedJobSuffix (jobsOfAttempt db r.id r.attempt)).map fun suffix =>
          (suffix.map Job.id, r.stats.resumeCount + 1)
    else none
  | _ => none

def Operation.completes : Operation → Option CompletionInput
  | .completeJob input => some input
  | _ => none

/-! ### Jobs that succeeded -/

def Succeeded (db : DB) (id : JobID) : Prop :=
  ∃ j ∈ db.jobs, j.id = id ∧ j.status = .success

variable {db : DB} {u : JobUpdate} {j' : Job}

theorem Succeeded.of_updateJobs
    (hu : ∀ k ∈ db.jobs, (u.apply k).status = .success → k.status = .success)
    (hj' : j' ∈ (db.updateJobs u).jobs) (hsuccess : j'.status = .success) :
  Succeeded db j'.id
  := by
  obtain ⟨k, hk, rfl⟩ := DB.mem_updateJobs.mp hj'
  exact ⟨k, hk, (u.id_apply k).symm, hu k hk hsuccess⟩

variable {k : Job}

theorem success_of_onlyIf {p : Job → Bool}
    (hu : (u.apply k).status ≠ .success) (h : ((u.onlyIf p).apply k).status = .success) :
  k.status = .success
  := by
  by_cases hp : p k = true
  · rw [RowUpdate.onlyIf_pos hp] at h
    apply absurd h hu
  · rwa [RowUpdate.onlyIf_neg hp] at h

theorem success_of_after {input : CompletionInput} {j : Job} {post : List Job} {k' : Job}
    (hk' : k' ∈ input.after j post) :
  ∃ k ∈ post, k.id = k'.id ∧ (k'.status = .success ↔ k.status = .success)
  := by
  apply input.forall_after _ _ _ _ k' hk'
  · intro _ _ hk
    apply hk
  · rintro k hcreated ⟨k₀, hk₀, hid, hiff⟩
    rw [hcreated] at hiff
    exact ⟨k₀, hk₀, hid, by rw [← hiff]; simp [promoteRow]⟩
  · rintro k hactive ⟨k₀, hk₀, hid, hiff⟩
    refine ⟨k₀, hk₀, hid, ?_⟩
    rw [← hiff]
    cases hs : k.status <;> simp [cancelJob, hs, JobStatus.active] at hactive ⊢
  · intro k hk
    exact ⟨k, hk, rfl, Iff.rfl⟩

variable {db db' : DB}

theorem AddsRuns.jobs {wave : CreateWaveParams} {plans : List RunPlan}
    (h : AddsRuns wave plans db db') (hk : k ∈ db'.jobs) :
  k ∈ db.jobs ∨ ∃ run first, PlannedJob run first k
  := by
  induction h with
  | nil db => apply Or.inl hk
  | cons alone known run rows linked planned nonempty later ih =>
    rcases ih hk with hk | hk
    · rw [← Table.mem_rows, rows, List.mem_append, List.mem_reverse] at hk
      rcases hk with hk | hk
      · apply Or.inl (Table.mem_rows.mp hk)
      · obtain ⟨first, hfirst⟩ := planned.mem hk
        exact Or.inr ⟨_, first, hfirst⟩
    · apply Or.inr hk

theorem PlannedJob.not_success {run : Run} {first : Bool} (h : PlannedJob run first k) :
  k.status ≠ .success
  := by
  rw [h.status]
  cases first <;> simp

theorem ResetTo.not_success {first : Bool} {k k' : Job} (h : ResetTo first k k') :
  k'.status ≠ .success
  := by
  obtain ⟨d, rfl⟩ := h
  cases first <;> simp [resetRow]

theorem success_of_cancelJobs (p : Job → Bool) :
  ∀ k ∈ db.jobs, ((cancelJobsUpdate p).apply k).status = .success → k.status = .success
  := by
  intro k _
  apply success_of_onlyIf
  simp [cancelJob]

variable {suffix : List Job}

theorem reset_success
    (hsuffix : ∀ k ∈ suffix, k ∈ db.jobs)
    (hkeep : ∀ k, k.id ∉ suffix.map Job.id → u.apply k = k)
    (hfirst : ∀ k ∈ suffix.head?, ResetTo true k (u.apply k))
    (hrest : ∀ k ∈ suffix.tail, ResetTo false k (u.apply k)) :
  ∀ k ∈ db.jobs, (u.apply k).status = .success → k.id ∉ suffix.map Job.id ∧ k.status = .success
  := by
  intro k hk hs
  have hout : k.id ∉ suffix.map Job.id := by
    intro hmem
    obtain ⟨k₀, hk₀, hid⟩ := List.mem_map.mp hmem
    obtain rfl := Table.eq_of_key_eq (hsuffix k₀ hk₀) hk hid
    cases suffix with
    | nil => cases hk₀
    | cons head tail =>
      rcases List.mem_cons.mp hk₀ with rfl | hk₀
      · apply (hfirst k₀ rfl).not_success hs
      · apply (hrest k₀ hk₀).not_success hs
  rw [hkeep k hout] at hs
  exact ⟨hout, hs⟩

theorem mem_of_failedJobSuffix {run : RunID} {attempt : Nat}
    (h : failedJobSuffix (jobsOfAttempt db run attempt) = some suffix) (hk : k ∈ suffix) :
  k ∈ db.jobs ∧ k.runID = run ∧ k.attempt = attempt ∧ k.status ≠ .success
  := by
  obtain ⟨pre, j, post, hperm, -, rfl, -, hfailed, hcancelled⟩ := failedJobSuffix_spec h
  have hrow : k ∈ db.jobs.rows.filter (Job.inAttempt run attempt) := by
    apply (hperm.trans (jobsOfAttempt_perm db run attempt)).mem_iff.mp
    apply List.mem_append_right _ hk
  simp only [List.mem_filter, Table.mem_rows, Job.inAttempt, Bool.and_eq_true,
    decide_eq_true_eq] at hrow
  refine ⟨hrow.1, hrow.2.1, hrow.2.2, ?_⟩
  rcases List.mem_cons.mp hk with rfl | hk
  · rcases hfailed.failed with hs | hs <;> simp [hs]
  · simp [(hcancelled k hk).cancelled]

theorem success_of_not_mem_failedJobSuffix {run : RunID} {attempt : Nat}
    (h : failedJobSuffix (jobsOfAttempt db run attempt) = some suffix)
    (hk : k ∈ db.jobs) (hrun : k.runID = run) (hattempt : k.attempt = attempt)
    (hout : k.id ∉ suffix.map Job.id) :
  k.status = .success
  := by
  obtain ⟨pre, j, post, hperm, -, rfl, hpre, -, -⟩ := failedJobSuffix_spec h
  have hmem : k ∈ pre ++ j :: post := by
    apply (hperm.trans (jobsOfAttempt_perm db run attempt)).mem_iff.mpr
    simp [Table.mem_rows, Job.inAttempt, hk, hrun, hattempt]
  rcases List.mem_append.mp hmem with hk | hk
  · apply hpre k hk
  · apply absurd (List.mem_map_of_mem hk) hout

variable {op : Operation}

/-- A job succeeds only by a completion. -/
theorem Operation.success_of (hdb : WellFormed db)
    (hstep : op.step db = some db') (hj' : j' ∈ db'.jobs)
    (hsuccess : j'.status = .success) :
  Succeeded db j'.id ∨ ∃ input, op.completes = some input ∧ j'.id = input.jobID
  := by
  cases op with
  | createWaveWithRuns ids arg =>
    obtain ⟨_, ht⟩ := committed_eq_some.mp hstep
    obtain ⟨-, waves, -, hadds⟩ := createWaveWithRuns_effect ht
    rcases hadds.jobs hj' with hold | ⟨run, first, hplanned⟩
    · exact Or.inl ⟨j', hold, rfl, hsuccess⟩
    · apply absurd hsuccess hplanned.not_success
  | claimJob nodeID skipLocked =>
    obtain ⟨_, ht⟩ := committed_eq_some.mp hstep
    obtain ⟨n, -, -, j, -, -, -, rfl⟩ := claimJob_effect ht
    left
    apply Succeeded.of_updateJobs _ hj' hsuccess
    intro k _
    apply success_of_onlyIf
    simp [claimRow]
  | unclaimJob id nodeID =>
    obtain ⟨_, ht⟩ := committed_eq_some.mp hstep
    left
    rcases unclaimJob_effect ht with rfl | rfl
    · exact ⟨j', hj', rfl, hsuccess⟩
    · apply Succeeded.of_updateJobs _ hj' hsuccess
      intro k _
      apply success_of_onlyIf
      simp [unclaimRow]
  | completeJob input =>
    obtain ⟨_, ht⟩ := committed_eq_some.mp hstep
    obtain ⟨r, hr, pre, j, post, hchain, haccepted, u, rows, hother, hmap, -, rfl, -⟩ :=
      completeJob_effect hdb ht
    obtain ⟨k, hk, rfl⟩ := DB.mem_updateJobs.mp hj'
    by_cases hin : k.runID = r.id ∧ k.attempt = r.attempt
    · have hmem : u.apply k ∈ pre ++ input.completed j :: input.after j post := by
        rw [← hmap]
        apply List.mem_map_of_mem (hchain.mem_iff.mpr ⟨hk, hin⟩)
      simp only [List.mem_append, List.mem_cons] at hmem
      rcases hmem with hpre | hdone | hpost
      · exact Or.inl ⟨_, (hchain.mem_iff.mp (by simp [hpre])).1, rfl, hsuccess⟩
      · right
        use input, rfl
        rw [hdone, ← haccepted.job]
        rfl
      · obtain ⟨k₀, hk₀, hid, hiff⟩ := success_of_after hpost
        exact Or.inl ⟨k₀, (hchain.mem_iff.mp (by simp [hk₀])).1, hid, hiff.mp hsuccess⟩
    · rw [hother k hk hin] at hsuccess ⊢
      exact Or.inl ⟨k, hk, rfl, hsuccess⟩
  | cancelRun runID =>
    obtain ⟨_, ht⟩ := committed_eq_some.mp hstep
    obtain ⟨-, rfl⟩ := cancelRun_effect ht
    left
    apply Succeeded.of_updateJobs (success_of_cancelJobs _) hj' hsuccess
  | cancelWave waveID =>
    obtain ⟨_, ht⟩ := committed_eq_some.mp hstep
    obtain ⟨-, rfl⟩ := cancelWave_effect ht
    left
    apply Succeeded.of_updateJobs (success_of_cancelJobs _) hj' hsuccess
  | restartRun ids arg =>
    obtain ⟨_, ht⟩ := committed_eq_some.mp hstep
    left
    obtain ⟨r, w, db₁, hrestartable, hreopen, -, hmode⟩ := restartRun_effect ht
    have hreopened : ∀ k ∈ db₁.jobs, k.status = .success → Succeeded db k.id := by
      intro k hk hs
      unfold reopenRun at hreopen
      split at hreopen
      · obtain ⟨-, -, suffix, hsuffix, u, hkeep, hfirst, hrest, rfl⟩ :=
          resumeFailedJobs_effect hreopen
        apply Succeeded.of_updateJobs _ hk hs
        intro k₀ hk₀ hs₀
        apply (reset_success (fun m hm => (mem_of_failedJobSuffix hsuffix hm).1) hkeep hfirst hrest
          k₀ hk₀ hs₀).2
      · rw [startNextAttempt_effect hreopen] at hk
        apply Succeeded.of_updateJobs (success_of_cancelJobs _) hk hs
    rcases hmode with ⟨-, rfl⟩ | ⟨-, created, hcreated⟩
    · apply hreopened j' hj' hsuccess
    · obtain ⟨⟨jobs, rfl, hrows⟩, -, hplanned, -⟩ := createPlannedJobs_effect hcreated
      rw [← Table.mem_rows, hrows, List.mem_append, List.mem_reverse] at hj'
      rcases hj' with hj' | hj'
      · apply hreopened j' (Table.mem_rows.mp hj') hsuccess
      · obtain ⟨first, hfirst⟩ := hplanned.mem hj'
        apply absurd hsuccess hfirst.not_success
  | cancelActiveJobsByRunAttempt runID attempt =>
    cases hstep
    left
    apply Succeeded.of_updateJobs (success_of_cancelJobs _) hj' hsuccess
  | outside nodes now =>
    cases hstep
    exact Or.inl ⟨j', hj', rfl, hsuccess⟩

/-! ### Jobs that have not succeeded -/

theorem Evolves.job {whole : Bool} (h : Evolves whole db db') (hdb : WellFormed db)
    {j : Job} (hj : j ∈ db.jobs) :
  ∃ j' ∈ db'.jobs, j'.id = j.id ∧ j'.runID = j.runID ∧ j'.attempt = j.attempt
  := by
  obtain ⟨r, hr, hid, -⟩ := hdb.referenced j hj
  obtain ⟨l, hl⟩ := hdb.chained r.id j.attempt
  obtain ⟨r', -, -, hsteps⟩ := h.kept r hr
  obtain ⟨l', hl', hs⟩ := hsteps j.attempt l hl
  have hmem : j.id ∈ l'.map Job.id := by
    apply hs.ids (List.mem_map_of_mem (hl.mem_iff.mpr ⟨hj, hid.symm, rfl⟩))
  obtain ⟨j', hj', hsame⟩ := List.mem_map.mp hmem
  obtain ⟨hjobs, hrun, hattempt⟩ := hl'.mem_iff.mp hj'
  exact ⟨j', hjobs, hsame, hrun.trans hid, hattempt⟩

/-- A job that has not succeeded is new, or had not succeeded before. -/
theorem Attempt.Step.unsuccessful_of {whole : Bool} {s s' : Attempt} (h : Attempt.Step whole s s')
    (hj' : j' ∈ s'.jobs) (hcurrent : s'.number = s'.run.attempt)
    (hne : j'.status ≠ .success) :
  (s.jobs = [] ∧ s'.run.stats.resumeCount = 0)
    ∨ (s.number = s.run.attempt ∧ ∃ j ∈ s.jobs, j.id = j'.id ∧ j.status ≠ .success)
  := by
  -- a job in the place of another one
  have hreplace : ∀ {pre post post' : List Job} {j k : Job}, j' ∈ pre ++ k :: post' →
      k.id = j.id → j.status ≠ .success →
      (j' ∈ post' → ∃ m ∈ post, m.id = j'.id ∧ m.status ≠ .success) →
      ∃ m ∈ pre ++ j :: post, m.id = j'.id ∧ m.status ≠ .success := by
    intro pre post post' j k hmem hid hk hpost
    simp only [List.mem_append, List.mem_cons] at hmem
    rcases hmem with hmem | rfl | hmem
    · exact ⟨j', by simp [hmem], rfl, hne⟩
    · exact ⟨j, by simp, hid.symm, hk⟩
    · obtain ⟨m, hm, hmid, hmne⟩ := hpost hmem
      exact ⟨m, by simp [hm], hmid, hmne⟩
  have hcancelled : ∀ {l : List Job}, j' ∈ l.map cancelIfActive.apply →
      ∃ j ∈ l, j.id = j'.id ∧ j.status ≠ .success := by
    intro l hmem
    obtain ⟨j, hj, rfl⟩ := List.mem_map.mp hmem
    refine ⟨j, hj, (cancelIfActive.id_apply j).symm, ?_⟩
    intro hs
    apply hne
    rw [cancelIfActive, RowUpdate.onlyIf_neg (by simp [hs, JobStatus.active]), hs]
  cases h with
  | idle => exact Or.inr ⟨hcurrent, j', hj', rfl, hne⟩
  | claim n now running queued owner =>
    right
    use hcurrent
    apply hreplace hj'
    · rfl
    · simp [queued]
    intro hmem
    exact ⟨j', hmem, rfl, hne⟩
  | unclaim running =>
    right
    use hcurrent
    apply hreplace hj'
    · rfl
    · simp [running]
    intro hmem
    exact ⟨j', hmem, rfl, hne⟩
  | complete input rows accepted order =>
    right
    use accepted.attempt
    apply hreplace hj'
    · rfl
    · simp [accepted.running]
    intro hmem
    obtain ⟨k, hk, hid, hiff⟩ := success_of_after hmem
    exact ⟨k, hk, hid, mt hiff.mpr hne⟩
  | settle status terminal other => apply absurd hcurrent other
  | cancelJobs => exact Or.inr ⟨hcurrent, hcancelled hj'⟩
  | @cancelRun r a l =>
    right
    refine ⟨?_, hcancelled hj'⟩
    dsimp only at hcurrent ⊢
    rw [hcurrent]
    simp only [RowUpdate.onlyIf]
    split <;> rfl
  | leave stats terminal reached => apply absurd hcurrent reached
  | enter => exact Or.inl ⟨rfl, rfl⟩
  | @resume r pre post j stats now u terminal succeeded failed cancelled first rest =>
    right
    use rfl
    apply hreplace hj' (u.id_apply j)
    · rcases failed.failed with hs | hs <;> simp [hs]
    · intro hmem
      obtain ⟨k, hk, rfl⟩ := List.mem_map.mp hmem
      exact ⟨k, hk, (u.id_apply k).symm, by simp [(cancelled k hk).cancelled]⟩
  | stay stats now terminal other => apply absurd hcurrent other

theorem Operation.resets_effect {ids : Nat → JobID} {arg : RestartRunParams}
    (hstep : (Operation.restartRun ids arg).step db = some db') (hmode : arg.fromFailed = true) :
  ∃ r ∈ db.runs, ∃ suffix, failedJobSuffix (jobsOfAttempt db r.id r.attempt) = some suffix
    ∧ (Operation.restartRun ids arg).resets db = some (suffix.map Job.id, r.stats.resumeCount + 1)
    ∧ ∃ u : JobUpdate, (∀ k, k.id ∉ suffix.map Job.id → u.apply k = k)
    ∧ db'.jobs = (db.updateJobs u).jobs
    ∧ db'.runs = (db.updateRuns
        ((resumeRow arg.stats (r.stats.resumeCount + 1) db.now).onlyIf (·.id = r.id))).runs
  := by
  obtain ⟨_, ht⟩ := committed_eq_some.mp hstep
  obtain ⟨r, w, db₁, hrestartable, hreopen, -, hcommit⟩ := restartRun_effect ht
  rw [reopenRun, if_pos hmode] at hreopen
  obtain ⟨-, -, suffix, hsuffix, u, hkeep, -, -, rfl⟩ := resumeFailedJobs_effect hreopen
  refine ⟨r, hrestartable.run, suffix, hsuffix, ?_, u, hkeep, ?_⟩
  · rw [Operation.resets, if_pos hmode, ← hrestartable.id, Table.find?_of_mem hrestartable.run,
      Option.bind_some, hsuffix]
    rfl
  · rcases hcommit with ⟨-, rfl⟩ | ⟨hother, -⟩
    · exact ⟨rfl, rfl⟩
    · rw [hmode] at hother
      cases hother

/-- Without a restart from a failed job the resume count stays. -/
theorem Operation.sameExecution_of (hdb : WellFormed db)
    (hstep : op.step db = some db') (hresets : op.resets db = none) {r r' : Run} (hr : r ∈ db.runs)
    (hr' : r' ∈ db'.runs) (hid : r'.id = r.id) (hattempt : r'.attempt = r.attempt) :
  r'.stats.resumeCount = r.stats.resumeCount
  := by
  by_cases hne : op.restarts = some r.id
  · cases op with
    | restartRun ids arg =>
      obtain hrun : arg.runID = r.id := Option.some.inj hne
      cases hmode : arg.fromFailed with
      | true =>
        obtain ⟨r₀, -, suffix, -, hsome, -⟩ := Operation.resets_effect hstep hmode
        rw [hresets] at hsome
        cases hsome
      | false =>
        -- the run has moved on
        obtain ⟨_, ht⟩ := committed_eq_some.mp hstep
        obtain ⟨r₀, w, db₁, hrestartable, hreopen, -, hcommit⟩ := restartRun_effect ht
        rw [reopenRun, hmode, if_neg (by simp)] at hreopen
        have hruns : db'.runs = db₁.runs := by
          rcases hcommit with ⟨-, rfl⟩ | ⟨-, created, hcreated⟩
          · rfl
          · obtain ⟨⟨jobs, rfl, -⟩, -⟩ := createPlannedJobs_effect hcreated
            rfl
        rw [hruns, startNextAttempt_effect hreopen, DB.mem_updateRuns] at hr'
        obtain ⟨r₁, hr₁, rfl⟩ := hr'
        rw [RunUpdate.id_apply] at hid
        obtain rfl := Table.eq_of_key_eq hr₁ hr hid
        rw [RowUpdate.onlyIf_pos (by simpa using hrun.symm)] at hattempt
        simp [incrementAttemptRow] at hattempt
    | _ => cases hne
  · obtain ⟨r'', hr'', hid'', -, hcount⟩ := Operation.keeps_execution hdb hstep hr hne
    obtain rfl := Table.eq_of_key_eq hr'' hr' (hid''.trans hid.symm)
    apply hcount

/-- Without such a restart no job loses its success. -/
theorem Operation.unsuccessful_of (hdb : WellFormed db)
    (hstep : op.step db = some db') (hresets : op.resets db = none)
    (hj' : j' ∈ db'.jobs) {r' : Run} (hr' : r' ∈ db'.runs) (hrun : j'.runID = r'.id)
    (hattempt : j'.attempt = r'.attempt) (hne : j'.status ≠ .success) :
  ((∀ j ∈ db.jobs, j.id ≠ j'.id) ∧ r'.stats.resumeCount = 0)
    ∨ ∃ j ∈ db.jobs, ∃ r ∈ db.runs, j.id = j'.id ∧ j.runID = r.id ∧ j.attempt = r.attempt
      ∧ j.status ≠ .success ∧ r'.stats.resumeCount = r.stats.resumeCount
  := by
  have hevolves := (Operation.step_refines hdb hstep).evolves
  -- a job under the identifier was in the same run and attempt
  have hplace : ∀ j ∈ db.jobs, j.id = j'.id → j.runID = r'.id ∧ j.attempt = r'.attempt := by
    intro j hj hid
    obtain ⟨j'', hj'', hid'', hrun'', hattempt''⟩ := hevolves.job hdb hj
    obtain rfl := Table.eq_of_key_eq hj'' hj' (hid''.trans hid)
    exact ⟨hrun''.symm.trans hrun, hattempt''.symm.trans hattempt⟩
  by_cases hold : ∃ r ∈ db.runs, r.id = r'.id
  · obtain ⟨r, hr, hid⟩ := hold
    obtain ⟨r'', hr'', hid'', hsteps⟩ := hevolves.kept r hr
    obtain rfl := Table.eq_of_key_eq hr'' hr' (hid''.trans hid)
    obtain ⟨l, hl⟩ := hdb.chained r.id r''.attempt
    obtain ⟨l', hl', hs⟩ := hsteps _ l hl
    have hmem : j' ∈ l' := hl'.mem_iff.mpr ⟨hj', hrun.trans hid.symm, hattempt⟩
    rcases hs.unsuccessful_of hmem rfl hne with ⟨hempty, hzero⟩ | ⟨hcurrent, j, hj, hjid, hjne⟩
    · left
      refine ⟨?_, hzero⟩
      intro j hj hjid
      obtain ⟨hjrun, hjattempt⟩ := hplace j hj hjid
      have hin : j ∈ l := hl.mem_iff.mpr ⟨hj, hjrun.trans hid.symm, hjattempt⟩
      dsimp only at hempty
      rw [hempty] at hin
      cases hin
    · right
      obtain ⟨hjobs, hjrun, hjattempt⟩ := hl.mem_iff.mp hj
      dsimp only at hcurrent
      refine ⟨j, hjobs, r, hr, hjid, hjrun, hjattempt.trans hcurrent, hjne, ?_⟩
      apply Operation.sameExecution_of hdb hstep hresets hr hr'' hid.symm hcurrent
  · left
    obtain ⟨l', -, -, -, hzero, -⟩ := (hevolves.created r' hr').resolve_left hold r'.attempt
    refine ⟨?_, hzero⟩
    intro j hj hjid
    obtain ⟨hjrun, -⟩ := hplace j hj hjid
    obtain ⟨r, hr, hid, -⟩ := hdb.referenced j hj
    apply hold ⟨r, hr, hid.trans hjrun⟩

end Ploy
