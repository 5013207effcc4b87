import Ploy.Isolation.Machine

/-!
# The statements of transactions

Which statements the transactions of the store issue, by what they can do to runs and jobs.
-/

namespace Ploy

open Program

/-- The statements that leave runs as they are, insert no job, and make no job active. -/
def Query.calm : {β : Type} → Query β → Bool
  | _, .createWave _ | _, .updateWaveStatus _ _ | _, .cancelActiveJobsByRun _
  | _, .cancelActiveJobsByRunAttempt _ _ | _, .claimJob _ _ | _, .unclaimJob _ _
  | _, .promoteJobByIDIfUnblocked _ => true
  | _, .updateJobStatus _ status _ => status.terminal
  | _, .updateJobCompletion _ status _ _ => status.terminal
  | _, q => q.reads

def Query.writesRuns : {β : Type} → Query β → Bool
  | _, .insertRun _ _ | _, .updateRunStatus _ _ | _, .cancelActiveRunsByWave _ | _, .resumeRun _ _ _
  | _, .incrementRunAttempt _ _ => true
  | _, _ => false

def Query.endsRuns : {β : Type} → Query β → Bool
  | _, .updateRunStatus _ status => isTerminalRunStatus status
  | _, .cancelActiveRunsByWave _ => true
  | _, _ => false

/-- A job is one of another store, and active only if it was. -/
def Job.From (db : DB) (j : Job) : Prop :=
  ∃ j₀ ∈ db.jobs, j₀.id = j.id ∧ j₀.runID = j.runID ∧ j₀.attempt = j.attempt
    ∧ (j.status.active = true → j₀.status.active = true)

theorem Job.from_self {db : DB} {j : Job} (h : j ∈ db.jobs) :
  j.From db
  := ⟨j, h, rfl, rfl, rfl, fun hactive => hactive⟩

variable {db v : DB}

theorem Job.From.trans (hv : ∀ j ∈ v.jobs, j.From db) {j : Job} (h : j.From v) :
  j.From db
  := by
  obtain ⟨j₁, hj₁, hid, hrun, hattempt, hactive⟩ := h
  obtain ⟨j₀, hj₀, hid₀, hrun₀, hattempt₀, hactive₀⟩ := hv j₁ hj₁
  exact ⟨j₀, hj₀, hid₀.trans hid, hrun₀.trans hrun, hattempt₀.trans hattempt, hactive₀ ∘ hactive⟩

/-- What a calm statement does to runs and jobs. -/
structure Calm (db v : DB) : Prop where
  runs : v.runs = db.runs
  jobs : ∀ j ∈ v.jobs, j.From db

theorem Calm.refl (db : DB) : Calm db db :=
  ⟨rfl, fun _ hj => Job.from_self hj⟩

theorem calm_updateJobs (db : DB) (u : JobUpdate)
    (h : ∀ j ∈ db.jobs, (u.apply j).status.active = true → j.status.active = true) :
  Calm db (db.updateJobs u)
  := by
  refine ⟨rfl, ?_⟩
  intro j' hj'
  obtain ⟨j, hj, rfl⟩ := DB.mem_updateJobs.mp hj'
  exact ⟨j, hj, (u.id_apply j).symm, (u.runID_apply j).symm, (u.attempt_apply j).symm, h j hj⟩

theorem Calm.trans {db v v' : DB} (h : Calm db v) (h' : Calm v v') : Calm db v' :=
  ⟨h'.runs.trans h.runs, fun j hj => (h'.jobs j hj).trans h.jobs⟩

theorem inactive_of_terminal {status : JobStatus} (h : status.terminal = true) :
  ¬ status.active = true
  := by
  simpa [JobStatus.terminal] using h

theorem onlyIf_inactive {u : JobUpdate} {c : Job → Bool} {j : Job}
    (h : ¬ (u.apply j).status.active = true) :
  ((u.onlyIf c).apply j).status.active = true → j.status.active = true
  := by
  simp only [RowUpdate.onlyIf]
  split
  · intro hactive
    apply absurd hactive h
  · exact id

theorem onlyIf_active {u : JobUpdate} {c : Job → Bool} {j : Job}
    (h : c j = true → j.status.active = true) :
  ((u.onlyIf c).apply j).status.active = true → j.status.active = true
  := by
  simp only [RowUpdate.onlyIf]
  split
  · rename_i hc
    intro _
    apply h hc
  · exact id

theorem calm_updateJobCompletion (db : DB) (id : JobID) {status : JobStatus}
    (h : status.terminal = true) (repoShaOut : String) (metadata : Option JSONDocument) :
  Calm db (db.updateJobCompletion id status repoShaOut metadata)
  := by
  simp only [DB.updateJobCompletion]
  split
  · apply Calm.refl
  · apply (calm_updateJobs db _ _).trans (calm_updateJobs _ _ _)
    · intro j _
      apply onlyIf_inactive
      apply inactive_of_terminal h
    · intro j _
      simp only [RowUpdate.onlyIf]
      split
      · exact fun hactive => hactive
      · exact fun hactive => hactive

/-- A claim makes no job active that was not. -/
theorem calm_claimJob (db : DB) (node : NodeID) (skipLocked : List JobID) :
  Calm db (db.claimJob node skipLocked).2
  := by
  simp only [DB.claimJob]
  split
  · apply Calm.refl
  · rename_i j hclaim
    obtain ⟨n, -, hnext⟩ := Option.bind_eq_some_iff.mp hclaim
    have hj : j ∈ db.jobs ∧ eligible db n j = true := by
      have hmem := List.mem_of_head? hnext
      rw [(List.perm_insertionSort _ _).mem_iff, List.mem_filter, Bool.and_eq_true] at hmem
      exact ⟨hmem.1, hmem.2.1⟩
    have hqueued : j.status = .queued := by
      have heligible := hj.2
      simp only [eligible, Bool.and_eq_true, decide_eq_true_eq] at heligible
      apply heligible.1.1.1.2
    apply calm_updateJobs
    intro k hk
    apply onlyIf_active
    intro hid
    rw [Table.eq_of_key_eq hk hj.1 (by simpa using hid), hqueued]
    rfl

theorem calm_unclaimJob (db : DB) (id : JobID) (node : NodeID) :
  Calm db (db.unclaimJob id node)
  := by
  simp only [DB.unclaimJob]
  split
  · apply Calm.refl
  · apply calm_updateJobs
    intro j _
    apply onlyIf_active
    intro hc
    simp only [Bool.and_eq_true, decide_eq_true_eq] at hc
    rw [hc.2]
    rfl

/-- A promotion makes no job active that was not. -/
theorem calm_promoteJobByIDIfUnblocked (db : DB) (id : JobID) :
  Calm db (db.promoteJobByIDIfUnblocked id).2
  := by
  simp only [DB.promoteJobByIDIfUnblocked]
  split
  · apply Calm.refl
  · rename_i j hj
    obtain ⟨hj, hid⟩ := Table.find?_eq_some.mp hj
    split
    · rename_i hcreated
      simp only [Bool.and_eq_true, decide_eq_true_eq] at hcreated
      apply calm_updateJobs
      intro k hk
      apply onlyIf_active
      intro hk'
      rw [Table.eq_of_key_eq hk hj (by simpa [hid] using hk'), hcreated.1]
      rfl
    · apply Calm.refl

theorem createJob_ok {arg : CreateJobParams} {b : Job}
    (h : db.createJob arg = .ok (b, v)) :
  v.runs = db.runs ∧ (∀ j ∈ db.jobs, j.id ≠ b.id) ∧ (∀ j, j ∈ v.jobs ↔ j ∈ db.jobs ∨ j = b)
    ∧ b.runID = arg.runID ∧ b.attempt = arg.attempt
  := by
  obtain ⟨d, jobs, rfl, hinsert, rfl, -⟩ := createJob_effect h
  obtain ⟨hfresh, -⟩ := Table.insert?_eq_some.mp hinsert
  exact ⟨rfl, hfresh, fun j => Table.mem_insert? hinsert, rfl, rfl⟩

theorem insertRun_ok {wave : CreateWaveParams} {plan : RunPlan} {b : Run}
    (h : db.insertRun wave plan = .ok (b, v)) :
  v.jobs = db.jobs ∧ (∀ r, r ∈ v.runs ↔ r ∈ db.runs ∨ r = b) ∧ (∀ r ∈ db.runs, r.id ≠ b.id)
    ∧ isTerminalRunStatus b.status = false ∧ b.repoID = plan.repoID
    ∧ ∃ p ∈ db.repos, p.id = plan.repoID
  := by
  obtain ⟨runs, rfl, hinsert, rfl, -, hrepo⟩ := insertRun_effect h
  obtain ⟨hfresh, -⟩ := Table.insert?_eq_some.mp hinsert
  exact ⟨rfl, fun r => Table.mem_insert? hinsert, hfresh, rfl, rfl, hrepo⟩

variable {β : Type} {q : Query β}

/-- The calm statements write no run, and open no job. -/
theorem Query.calm_exec (hq : q.calm = true) {b : β}
    (h : q.exec db = .ok (b, v)) :
  Calm db v
  := by
  cases q with
  | createWave arg =>
    obtain ⟨waves, -, -, rfl⟩ := createWave_effect h
    exact ⟨rfl, fun _ hj => Job.from_self hj⟩
  | updateWaveStatus id status =>
    cases h
    exact ⟨rfl, fun _ hj => Job.from_self hj⟩
  | updateJobStatus id status startedAt =>
    cases h
    apply calm_updateJobs
    intro j _
    apply onlyIf_inactive
    apply inactive_of_terminal hq
  | updateJobCompletion id status repoShaOut metadata =>
    cases h
    apply calm_updateJobCompletion _ _ hq
  | cancelActiveJobsByRun | cancelActiveJobsByRunAttempt =>
    cases h
    apply calm_updateJobs
    intro j _
    exact onlyIf_inactive nofun
  | claimJob node skipLocked =>
    have hv : (db.claimJob node skipLocked).2 = v := congrArg Prod.snd (Except.ok.inj h)
    rw [← hv]
    apply calm_claimJob
  | unclaimJob id node =>
    cases h
    apply calm_unclaimJob
  | promoteJobByIDIfUnblocked id =>
    have hv : (db.promoteJobByIDIfUnblocked id).2 = v := congrArg Prod.snd (Except.ok.inj h)
    rw [← hv]
    apply calm_promoteJobByIDIfUnblocked
  | insertRun | createJob | updateRunStatus | cancelActiveRunsByWave | resetJob | resumeRun
  | incrementRunAttempt => cases hq
  | _ =>
    cases h
    apply Calm.refl

theorem Query.writesRuns_of_calm (h : q.calm = true) :
  q.writesRuns = false
  := by
  cases q <;> first
    | rfl
    | cases h

/-- Statements that do not write runs leave them as they are. -/
theorem Query.runs_exec (hq : q.writesRuns = false) {b : β}
    (h : q.exec db = .ok (b, v)) :
  v.runs = db.runs
  := by
  cases q with
  | insertRun | updateRunStatus | cancelActiveRunsByWave | resumeRun
    | incrementRunAttempt => cases hq
  | createJob arg => apply (createJob_ok h).1
  | resetJob id status metadata keepInput =>
    simp only [Query.exec] at h
    split at h
    · cases h
    · cases h
      rfl
  | updateJobStatus id status startedAt =>
    cases h
    rfl
  | updateJobCompletion id status repoShaOut metadata =>
    cases h
    simp only [DB.updateJobCompletion]
    split <;> rfl
  | _ => apply (Query.calm_exec rfl h).runs

/-- Statements that write no run or end runs make none active. -/
theorem Query.active_exec (hq : q.writesRuns = false ∨ q.endsRuns = true)
    {b : β} (h : q.exec db = .ok (b, v)) {r : Run} (hr : r ∈ v.runs)
    (hactive : r.active = true) :
  r ∈ db.runs
  := by
  rcases hq with hq | hq
  · rw [← Query.runs_exec hq h]
    apply hr
  · cases q with
    | updateRunStatus id status =>
      cases h
      obtain ⟨r₀, hr₀, rfl⟩ := DB.mem_updateRuns.mp hr
      by_cases hid : r₀.id = id
      · rw [RowUpdate.onlyIf_pos (by simpa using hid)] at hactive
        rw [active_iff_not_terminal] at hactive
        have hended : isTerminalRunStatus status = false := hactive
        have hq : isTerminalRunStatus status = true := hq
        rw [hended] at hq
        cases hq
      · rw [RowUpdate.onlyIf_neg (by simpa using hid)]
        apply hr₀
    | cancelActiveRunsByWave wave =>
      cases h
      obtain ⟨r₀, hr₀, rfl⟩ := DB.mem_updateRuns.mp hr
      by_cases hc : r₀.waveID = wave ∧ r₀.active = true
      · rw [RowUpdate.onlyIf_pos (by simpa using hc)] at hactive
        cases hactive
      · rw [RowUpdate.onlyIf_neg (by simpa using hc)]
        apply hr₀
    | _ => cases hq

/-- A job keeps its run and its attempt. -/
def DB.SameJobs (db v : DB) : Prop :=
  ∀ j ∈ v.jobs, ∀ j₀ ∈ db.jobs, j₀.id = j.id → j₀.runID = j.runID ∧ j₀.attempt = j.attempt

theorem Calm.sameJobs (h : Calm db v) :
  db.SameJobs v
  := by
  intro j hj j₀ hj₀ hid
  obtain ⟨j₁, hj₁, hid₁, hrun, hattempt, -⟩ := h.jobs j hj
  rw [Table.eq_of_key_eq hj₀ hj₁ (hid.trans hid₁.symm)]
  exact ⟨hrun, hattempt⟩

theorem sameJobs_updateJobs (db : DB) (u : JobUpdate) :
  db.SameJobs (db.updateJobs u)
  := by
  intro j hj j₀ hj₀ hid
  obtain ⟨j₁, hj₁, rfl⟩ := DB.mem_updateJobs.mp hj
  rw [u.id_apply] at hid
  rw [Table.eq_of_key_eq hj₀ hj₁ hid, u.runID_apply, u.attempt_apply]
  exact ⟨rfl, rfl⟩

theorem sameJobs_of_eq (h : v.jobs = db.jobs) :
  db.SameJobs v
  := by
  intro j hj j₀ hj₀ hid
  rw [h] at hj
  rw [Table.eq_of_key_eq hj₀ hj hid]
  exact ⟨rfl, rfl⟩

/-- A job keeps its run and its attempt. -/
theorem Query.sameJobs_exec {b : β}
    (h : q.exec db = .ok (b, v)) :
  db.SameJobs v
  := by
  cases q with
  | createJob arg =>
    obtain ⟨-, hfresh, hjobs, -⟩ := createJob_ok h
    intro j hj j₀ hj₀ hid
    rcases (hjobs j).mp hj with hj | rfl
    · apply sameJobs_of_eq rfl j hj j₀ hj₀ hid
    · apply absurd hid (hfresh j₀ hj₀)
  | resetJob id status metadata keepInput =>
    simp only [Query.exec] at h
    split at h
    · cases h
    · cases h
      apply sameJobs_updateJobs
  | updateJobStatus id status startedAt =>
    cases h
    apply sameJobs_updateJobs
  | updateJobCompletion id status repoShaOut metadata =>
    cases h
    simp only [DB.updateJobCompletion]
    split
    · apply sameJobs_of_eq rfl
    · rw [DB.updateJobs_updateJobs]
      apply sameJobs_updateJobs
  | insertRun wave plan => apply sameJobs_of_eq (insertRun_ok h).1
  | updateRunStatus | cancelActiveRunsByWave | resumeRun | incrementRunAttempt =>
    apply sameJobs_of_eq
    simp only [Query.exec] at h
    repeat' split at h
    all_goals first
      | cases h
        rfl
      | cases h
  | _ => apply (Query.calm_exec rfl h).sameJobs

/-! ### Programs -/

/-- A program issues only calm statements. -/
abbrev CalmProgram {α : Type} (p : Tx α) : Prop :=
  p.Issues fun q => q.calm = true

/-- A program issues no statement that writes runs. -/
abbrev RunlessProgram {α : Type} (p : Tx α) : Prop :=
  p.Issues fun q => q.writesRuns = false

/-- A program issues only calm statements and statements that end runs. -/
abbrev EndingProgram {α : Type} (p : Tx α) : Prop :=
  p.Issues fun q => q.calm = true ∨ q.endsRuns = true

section Programs

variable {α β : Type}

theorem CalmProgram.ending {p : Tx α} (h : CalmProgram p) : EndingProgram p :=
  Issues.mono h (fun _ hq => Or.inl hq)

theorem CalmProgram.runless {p : Tx α} (h : CalmProgram p) : RunlessProgram p :=
  Issues.mono h (fun _ hq => Query.writesRuns_of_calm hq)

theorem calm_one {q : Query (Option α)} (h : q.calm = true) :
  CalmProgram (one q)
  := (issues_issue h).bind (issues_orFail _)

theorem calm_lockRepos (ids : List RepoID) :
  CalmProgram (lockRepos ids)
  := by
  induction ids with
  | nil => apply issues_pure
  | cons id rest ih => apply (issues_issue rfl).bind fun _ => ih

theorem calm_lockRunRepositories (ids : List RepoID) :
  CalmProgram (lockRunRepositories ids)
  := (issues_issue rfl).bind calm_lockRepos

theorem calm_requireRepoWithoutActiveRun (repoID : RepoID) :
  CalmProgram (requireRepoWithoutActiveRun repoID)
  := by
  apply (issues_issue rfl).bind
  rintro (_ | ⟨runID, repoURL⟩) <;> exact ⟨trivial⟩

theorem issues_validatePlans {R : ∀ {β : Type}, Query β → Prop} (i : Nat) (plans : List JobPlan) :
  (validatePlans i plans).Issues R
  := by
  induction plans generalizing i with
  | nil => apply issues_pure
  | cons plan rest ih =>
    apply (issues_rejectIf _ _).bind
    intro _
    apply ih

theorem runless_insertPlannedJobs (ids : Nat → JobID) (run : Run) (i : Nat) (plans : List JobPlan) :
  RunlessProgram (insertPlannedJobs ids run i plans)
  := by
  induction plans generalizing i with
  | nil => apply issues_pure
  | cons plan rest ih =>
    apply (ih (i + 1)).bind
    intro later
    apply (Issues.mapError (issues_issue rfl) _).bind
    intro created
    apply issues_pure

theorem runless_createPlannedJobs (ids : Nat → JobID) (run : Run) (jobs : List JobPlan) :
  RunlessProgram (createPlannedJobs ids run jobs)
  := by
  apply (issues_rejectIf _ _).bind
  intro _
  apply (issues_validatePlans _ _).bind
  intro _
  apply runless_insertPlannedJobs

theorem runless_resetJobs (plans : List JobPlan) (first : Bool) (jobs : List Job) :
  RunlessProgram (resetJobs plans first jobs)
  := by
  induction jobs generalizing first with
  | nil => apply issues_pure
  | cons job rest ih =>
    apply (issues_orFail _ _).bind
    intro plan
    apply (issues_issue rfl).bind
    intro _
    apply ih

theorem calm_claim (nodeID : NodeID) (skipLocked : List JobID) :
  CalmProgram (claimJob nodeID skipLocked)
  := (issues_rejectIf _ _).bind fun _ => calm_one rfl

theorem calm_unclaim (id : JobID) (nodeID : NodeID) :
  CalmProgram (unclaimJob id nodeID)
  := by
  apply (issues_rejectIf _ _).bind
  intro _
  apply (issues_rejectIf _ _).bind
  intro _
  apply Issues.mapError (issues_issue rfl)

theorem calm_cancelJobs (jobs : List Job) :
  CalmProgram (cancelJobs jobs)
  := by
  induction jobs with
  | nil => apply issues_pure
  | cons job rest ih =>
    apply Issues.bind
    · apply Issues.when
      intro _
      apply Issues.mapError (issues_issue rfl)
    · intro _
      apply ih

theorem calm_cancelRemainingJobsAfterFailure (job : Job) :
  CalmProgram (cancelRemainingJobsAfterFailure job)
  := by
  apply Issues.bind (Issues.mapError (issues_issue rfl) _)
  intro jobs
  apply calm_cancelJobs

theorem CalmProgram.logged {p : Tx Unit} (h : CalmProgram p) :
  CalmProgram (Ploy.logged p)
  := Issues.recover h fun _ => issues_pure ()

theorem calm_onFail (status : JobStatus) (job : Job) :
  CalmProgram (onFail status job)
  := by
  apply Issues.when
  intro _
  apply Issues.when
  intro _
  apply (calm_cancelRemainingJobsAfterFailure job).logged

theorem calm_onCancelled (status : JobStatus) (job : Job) :
  CalmProgram (onCancelled status job)
  := by
  apply Issues.when
  intro _
  apply Issues.when
  intro _
  apply (calm_cancelRemainingJobsAfterFailure job).logged

theorem calm_onSuccess (status : JobStatus) (job : Job) :
  CalmProgram (onSuccess status job)
  := by
  apply Issues.when
  intro _
  apply Issues.when
  intro _
  split
  · apply issues_pure
  · apply CalmProgram.logged
    apply (issues_issue rfl).bind
    intro _
    apply issues_pure

theorem ending_maybeUpdateRunStatus (runID : RunID) (attempt : Nat) :
  EndingProgram (maybeUpdateRunStatus runID attempt)
  := by
  apply Issues.bind (Issues.mapError (issues_issue (Or.inl rfl)) _)
  intro jobs
  rcases evaluateRunAttemptTerminalStatus_cases jobs with ⟨heval, -⟩ | ⟨status, heval, hterminal, -⟩
  · simp only [heval]
    apply issues_pure
  · simp only [heval]
    apply Issues.bind (Issues.mapError (issues_issue (Or.inr hterminal)) _)
    intro _
    apply issues_pure

theorem calm_loadRunForPostCompletion (runID : RunID) :
  CalmProgram (loadRunForPostCompletion runID)
  := by
  apply (issues_issue rfl).bind
  rintro (_ | run)
  · apply issues_issue rfl
  · apply issues_pure

theorem ending_reconcileRepoRun (job : Job) :
  EndingProgram (reconcileRepoRun job)
  := by
  apply Issues.bind
  · apply Issues.recover (ending_maybeUpdateRunStatus _ _)
    intro _
    apply issues_pure
  · intro updated
    cases updated with
    | true => apply (calm_loadRunForPostCompletion _).ending
    | false => apply issues_pure

/-- Completing a job only ends runs. -/
theorem ending_complete (input : CompletionInput) (job : Job) :
  EndingProgram (complete input job)
  := by
  apply (issues_rejectIf _ _).bind
  intro _
  apply (issues_rejectIf _ _).bind
  intro _
  apply (issues_rejectIf _ _).bind
  intro _
  apply (issues_rejectIf _ _).bind
  intro _
  apply Issues.bind (Issues.mapError (issues_issue (Or.inl input.terminal)) _)
  intro _
  apply (calm_onFail _ _).ending.bind
  intro _
  apply (calm_onCancelled _ _).ending.bind
  intro _
  apply (calm_onSuccess _ _).ending.bind
  intro _
  apply ending_reconcileRepoRun

theorem ending_completeJob (input : CompletionInput) :
  EndingProgram (completeJob input)
  := by
  apply (calm_one rfl).ending.bind
  intro job
  apply (issues_issue (Or.inl rfl)).bind
  intro _
  apply (calm_one rfl).ending.bind
  intro run
  apply (issues_rejectIf _ _).bind
  intro _
  apply (calm_one rfl).ending.bind
  intro job'
  apply ending_complete

theorem ending_cancelRun (runID : RunID) :
  EndingProgram (cancelRun runID)
  := by
  apply (Issues.mapError (calm_one rfl).ending _).bind
  intro run
  apply Issues.bind
  · apply Issues.when
    intro _
    apply Issues.mapError (issues_issue (Or.inr rfl))
  · intro _
    apply Issues.mapError (issues_issue (Or.inl rfl))

/-- Cancelling a wave only ends runs. -/
theorem ending_cancelWave (waveID : WaveID) :
  EndingProgram (cancelWave waveID)
  := by
  apply (Issues.mapError (calm_one rfl).ending _).bind
  intro wave
  apply Issues.bind
  · apply Issues.when
    intro _
    apply Issues.mapError (issues_issue (Or.inl rfl))
  · intro _
    apply (Issues.mapError (issues_issue (Or.inr rfl)) _).bind
    intro _
    apply (Issues.mapError (issues_issue (Or.inl rfl)) _).bind
    intro runs
    induction runs with
    | nil => apply issues_pure
    | cons run rest ih =>
      apply (Issues.mapError (issues_issue (Or.inl rfl)) _).bind
      intro _
      apply ih

end Programs

/-! ### Assertions that these statements keep -/

section Keeps

variable {P : Protocol isolation Surroundings.apply} {guard : (β : Type) → Query β → DB → Bool}
  {pre : P.Assertion}

/-- The rule for statements: what holds of the locks and of what is seen before and after. -/
theorem leads_of {β : Type} {q : Query β} {post : β → P.Assertion}
    (h : ∀ {L L' : List RowKey} {p p' : Writes} {s : DB} {b : β} {v : DB}, L ⊆ L' →
      q.selects (p.view s) ⊆ L' → isolation.Owns L' p' → guard _ q (p.view s) = true →
      P.invariant s → pre.holds L p s → q.exec (p.view s) = .ok (b, v) → p'.view s = v →
      (post b).holds L' p' s) :
  P.Leads guard pre q post
  := by
  intro L p s howns hinv hpre hguard b v hexec
  apply h (List.subset_append_left _ _) _ (howns.statement isolation q s v) hguard hinv hpre hexec
    (view_after hexec)
  intro k hk
  exact List.mem_append_right _ (List.mem_append_left _ hk)

theorem keeps_seenRun {β : Type} {q : Query β} (hq : q.writesRuns = false) (r : Run) :
  P.Keeps guard (seenRun P r) q
  := by
  apply leads_of
  rintro L L' p p' s b v hL - - - - ⟨hlocked, hr⟩ hexec rfl
  refine ⟨hL hlocked, ?_⟩
  rw [Query.runs_exec hq hexec]
  apply hr

theorem triple_one {α : Type} {q : Query (Option α)} {post : Option α → P.Assertion}
    (h : P.Leads guard pre q post) :
  P.Triple guard pre (one q) (fun a => post (some a))
  := by
  apply Protocol.Triple.bind (Protocol.Triple.issue h)
  intro o
  cases o with
  | none => apply Protocol.Triple.fail
  | some a =>
    apply Protocol.Triple.pure
    intro L p s _ hpost
    apply hpost

theorem leads_getRunForUpdate (runID : RunID) :
  P.Leads guard pre (.getRunForUpdate runID) (fun o =>
    match o with
    | some r => seenRun P r ⊓ Protocol.Assertion.pure P (r.id = runID)
    | none => ⊤)
  := by
  apply leads_of
  rintro L L' p p' s b v - hselects - - - - hexec hview
  cases hexec
  cases hfind : (p.view s).runs.find? runID with
  | none => trivial
  | some r =>
    obtain ⟨hr, rfl⟩ := Table.find?_eq_some.mp hfind
    exact ⟨⟨hselects (mem_runKey hr), hview ▸ hr⟩, rfl⟩

theorem leads_getRun (runID : RunID) :
  P.Leads guard (Protocol.Assertion.locked P (.run runID)) (.getRun runID) (fun o =>
    match o with
    | some r => seenRun P r ⊓ Protocol.Assertion.pure P (r.id = runID)
    | none => ⊤)
  := by
  apply leads_of
  rintro L L' p p' s b v hL - - - - hlocked hexec hview
  cases hexec
  cases hfind : (p.view s).runs.find? runID with
  | none => trivial
  | some r =>
    obtain ⟨hr, rfl⟩ := Table.find?_eq_some.mp hfind
    exact ⟨⟨hL hlocked, hview ▸ hr⟩, rfl⟩

end Keeps

end Ploy
