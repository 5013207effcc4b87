import Ploy.Run.Attempt

/-!
# What a completion commits

A completion records the report, hands the output to the next job, queues it or cancels the
rest of the chain, and sets the status of the run. On the chain of the job, this is the step
`Attempt.Step.complete`; no other attempt changes.
-/

namespace Ploy

open RowUpdate
open Program

variable {db db' : DB} {run : RunID} {attempt : Nat} {pre post : List Job} {j : Job}

/-! ### The report -/

/-- The rewriting of a completed job and of its successor. -/
def CompletionInput.update (input : CompletionInput) (j : Job) : JobUpdate :=
  ((feedRow (input.completed j).repoShaOut).onlyIf fun next =>
      next.id ≠ j.id && j.nextID = some next.id).comp
    ((completeRow input.status (input.recordedOutput j) input.jobMeta).onlyIf (·.id = j.id))

theorem updateJobCompletion_eq (input : CompletionInput) (hj : j ∈ db.jobs) :
  db.updateJobCompletion j.id input.status (input.recordedOutput j) input.jobMeta
    = db.updateJobs (input.update j)
  := by
  rw [DB.updateJobCompletion, Table.find?_of_mem hj]
  apply DB.updateJobs_updateJobs

theorem CompletionInput.update_other (input : CompletionInput) {k : Job} (hid : k.id ≠ j.id)
    (hnext : j.nextID ≠ some k.id) :
  (input.update j).apply k = k
  := by
  rw [update, comp_apply,
    onlyIf_neg (p := fun x : Job => decide (x.id = j.id)) (by simpa using hid),
    onlyIf_neg (by simp [hnext])]

theorem CompletionInput.update_self (input : CompletionInput) (j : Job) :
  (input.update j).apply j = input.completed j
  := by
  rw [update, comp_apply,
    onlyIf_pos (p := fun x : Job => decide (x.id = j.id)) (by simp),
    onlyIf_neg (by simp [JobUpdate.id_apply])]
  rfl

theorem CompletionInput.update_next (input : CompletionInput) {k : Job} (hid : k.id ≠ j.id)
    (hnext : j.nextID = some k.id) :
  (input.update j).apply k = (feedRow (input.completed j).repoShaOut).apply k
  := by
  rw [update, comp_apply,
    onlyIf_neg (p := fun x : Job => decide (x.id = j.id)) (by simpa using hid),
    onlyIf_pos (by simp [hid, hnext])]

/-- A completion changes its job and hands its output to the next one. -/
theorem CompletionInput.map_update (input : CompletionInput)
    (hnodup : ((pre ++ j :: post).map Job.id).Nodup)
    (hlinked : Linked Job.id Job.nextID (pre ++ j :: post)) :
  (pre ++ j :: post).map (input.update j).apply
    = pre ++ input.completed j :: feed (input.completed j).repoShaOut post
  := by
  have hnext := hlinked.next_eq
  have hpre : ∀ k ∈ pre, (input.update j).apply k = k := by
    intro k hk
    apply input.update_other (ne_of_nodup hnodup (Or.inl hk))
    rw [hnext]
    intro hhead
    obtain ⟨k', hk', hid⟩ := Option.map_eq_some_iff.mp hhead
    rw [List.map_append, List.nodup_append] at hnodup
    apply hnodup.2.2 k.id (List.mem_map_of_mem hk) k'.id _ hid.symm
    apply List.mem_map_of_mem (List.mem_cons_of_mem _ (List.mem_of_mem_head? hk'))
  rw [List.map_append, List.map_cons, map_eq_self hpre, input.update_self]
  congr 2
  cases post with
  | nil => rfl
  | cons k rest =>
    have hk := ne_of_nodup hnodup (Or.inr List.mem_cons_self)
    rw [List.map_cons, input.update_next hk hnext, map_eq_self]
    · rfl
    · intro k' hk'
      apply input.update_other (ne_of_nodup hnodup (Or.inr (List.mem_cons_of_mem _ hk')))
      rw [hnext]
      simp only [List.head?_cons, Option.map_some, ne_eq, Option.some.injEq]
      rw [show pre ++ j :: k :: rest = (pre ++ [j]) ++ k :: rest by simp] at hnodup
      apply (ne_of_nodup hnodup (Or.inr hk')).symm

/-! ### The rest of the chain -/

/-- From a job of a chain the rest of the chain is reached. -/
theorem reachableJobs_eq {jobs : List Job} (hnodup : (jobs.map Job.id).Nodup)
    (hsub : post ⊆ jobs) (hpost : (post.map Job.id).Nodup)
    (hlinked : Linked Job.id Job.nextID post) {fuel : Nat} (hfuel : post.length ≤ fuel) :
  reachableJobs jobs fuel (post.head?.map Job.id) = post
  := by
  induction post generalizing jobs fuel with
  | nil => cases fuel <;> rfl
  | cons k rest ih =>
    obtain ⟨fuel, rfl⟩ : ∃ n, fuel = n + 1 := ⟨fuel - 1, by simp at hfuel; omega⟩
    have hk : k ∈ jobs := hsub List.mem_cons_self
    simp only [List.head?_cons, Option.map_some, reachableJobs, itemByID_of_mem hnodup hk]
    rw [hlinked.1]
    congr 1
    apply ih
    · apply hnodup.sublist (List.filter_sublist.map _)
    · intro k' hk'
      apply List.mem_filter.mpr ⟨hsub (List.mem_cons_of_mem _ hk'), _⟩
      rw [decide_eq_true_eq]
      rintro hid
      apply (List.nodup_cons.mp hpost).1
      rw [← hid]
      apply List.mem_map_of_mem hk'
    · apply (List.nodup_cons.mp hpost).2
    · apply hlinked.2
    · simpa using hfuel

/-- Cancelling jobs cancels those that are active. -/
theorem cancelJobs_effect {jobs : List Job} (hnodup : (jobs.map Job.id).Nodup)
    (hmem : ∀ k ∈ jobs, k ∈ db.jobs) :
  (cancelJobs jobs).transaction engine db
    = .ok ((), db.updateJobs (cancelJobsUpdate fun k => k.id ∈ jobs.map Job.id))
  := by
  induction jobs generalizing db with
  | nil =>
    rw [DB.updateJobs_eq_self]
    · rfl
    · intro k _
      apply onlyIf_neg
      simp
  | cons k rest ih =>
    obtain ⟨hfresh, hnodup⟩ := List.nodup_cons.mp hnodup
    have hk := hmem k List.mem_cons_self
    -- the statement for `k` cancels it if it is active, and touches no other job
    have hstep : (when (k.status.terminal = false) (within ("cancel job " ++ k.id.raw)
          (issue (.updateJobStatus k.id .cancelled k.startedAt)))).transaction engine db
        = .ok ((), db.updateJobs (cancelJobsUpdate (·.id = k.id))) := by
      simp only [transaction_when_ok, transaction_within_ok, transaction_issue, engine_exec,
        Query.exec, Except.ok.injEq, Prod.mk.injEq, true_and]
      by_cases hactive : k.status.active = true
      · refine Or.inl ⟨by simp [JobStatus.terminal, hactive], ?_⟩
        apply DB.updateJobs_congr
        intro x hx
        by_cases hid : x.id = k.id
        · obtain rfl := Table.eq_of_key_eq hx hk hid
          rw [cancelJobsUpdate, onlyIf_pos (by simp),
            onlyIf_pos (by simp [hactive])]
          rfl
        · rw [cancelJobsUpdate, onlyIf_neg (by simpa using hid),
            onlyIf_neg (by simp [hid])]
      · refine Or.inr ⟨by simp [JobStatus.terminal, hactive], ?_⟩
        symm
        apply DB.updateJobs_eq_self
        intro x hx
        apply onlyIf_neg
        intro hguard
        simp only [Bool.and_eq_true, decide_eq_true_eq] at hguard
        obtain rfl := Table.eq_of_key_eq hx hk hguard.1
        apply hactive hguard.2
    have hrest : ∀ x ∈ rest, x ∈ (db.updateJobs (cancelJobsUpdate (·.id = k.id))).jobs := by
      intro x hx
      apply DB.mem_updateJobs.mpr ⟨x, hmem x (List.mem_cons_of_mem _ hx), _⟩
      apply onlyIf_neg
      have hne : x.id ≠ k.id := by
        intro hid
        apply hfresh
        rw [← hid]
        apply List.mem_map_of_mem hx
      simp [hne]
    simp only [cancelJobs, transaction_bind_ok]
    refine ⟨_, _, hstep, ?_⟩
    rw [ih hnodup hrest, DB.updateJobs_updateJobs]
    congr 2
    apply DB.updateJobs_congr
    intro x _
    simp only [comp_apply, cancelJobsUpdate, onlyIf, cancelJob, List.map_cons,
      List.mem_cons]
    by_cases hactive : x.status.active = true <;> by_cases hid : x.id = k.id <;>
      by_cases hin : x.id ∈ rest.map Job.id <;> simp_all [JobStatus.active]

/-- After a failed job the rest of the chain is cancelled. -/
theorem cancelRemainingJobsAfterFailure_effect
    (hchain : IsChain db run attempt (pre ++ j :: post)) {failed : Job} (hid : failed.id = j.id)
    (hrun : failed.runID = run) (hattempt : failed.attempt = attempt) :
  (cancelRemainingJobsAfterFailure failed).transaction engine db
    = .ok ((), db.updateJobs (cancelJobsUpdate fun k => k.id ∈ post.map Job.id))
  := by
  have hperm := (jobsOfAttempt_perm db run attempt).trans hchain.1.symm
  have hnodup : ((jobsOfAttempt db run attempt).map Job.id).Nodup := by
    rw [(hperm.map Job.id).nodup_iff]
    apply hchain.nodup
  have hsuffix : (post.map Job.id).Nodup := by
    have := hchain.nodup
    rw [List.map_append, List.map_cons, List.nodup_append, List.nodup_cons] at this
    apply this.2.1.2
  have hsub : post ⊆ jobsOfAttempt db run attempt := by
    intro k hk
    apply hperm.symm.subset
    simp [hk]
  have hfound : itemByID Job.id (jobsOfAttempt db run attempt) failed.id = some j := by
    rw [hid]
    apply itemByID_of_mem hnodup (hperm.symm.subset (by simp))
  have hfuel : post.length ≤ (jobsOfAttempt db run attempt).length := by
    rw [hperm.length_eq]
    simp
    omega
  simp only [cancelRemainingJobsAfterFailure, transaction_bind_ok, transaction_within_ok,
    transaction_issue, engine_exec, Query.exec, Except.ok.injEq, Prod.mk.injEq]
  refine ⟨_, _, ⟨rfl, rfl⟩, ?_⟩
  rw [hrun, hattempt, hfound]
  dsimp only
  rw [hchain.2.next_eq, reachableJobs_eq hnodup hsub hsuffix hchain.2.append_right.2 hfuel]
  apply cancelJobs_effect hsuffix
  intro k hk
  apply (hchain.mem_iff.mp (by simp [hk])).1

/-- A job that nothing blocks is queued if it was created. -/
theorem promote_effect {id : JobID} (h : unblocked db id = true) :
  (db.promoteJobByIDIfUnblocked id).2
    = db.updateJobs (promoteRow.onlyIf fun k => k.id = id && k.status = .created)
  := by
  unfold DB.promoteJobByIDIfUnblocked
  cases hj : db.jobs.find? id with
  | none =>
    symm
    apply DB.updateJobs_eq_self
    intro k hk
    apply onlyIf_neg
    simp [Table.find?_eq_none.mp hj k hk]
  | some k =>
    obtain ⟨hk, rfl⟩ := Table.find?_eq_some.mp hj
    by_cases hcreated : k.status = .created
    · simp only [hcreated, h, decide_true, Bool.and_self, if_true]
      apply DB.updateJobs_congr
      intro x hx
      by_cases hid : x.id = k.id
      · obtain rfl := Table.eq_of_key_eq hx hk hid
        rw [onlyIf_pos (by simp), onlyIf_pos (by simp [hcreated])]
      · rw [onlyIf_neg (by simpa using hid), onlyIf_neg (by simp [hid])]
    · simp only [hcreated, decide_false, Bool.false_and, Bool.false_eq_true, if_false]
      symm
      apply DB.updateJobs_eq_self
      intro x hx
      apply onlyIf_neg
      intro hguard
      simp only [Bool.and_eq_true, decide_eq_true_eq] at hguard
      obtain rfl := Table.eq_of_key_eq hx hk hguard.1
      apply hcreated hguard.2

theorem unblocked_of_chain (hdb : WellFormed db) {k : Job} {rest : List Job}
    (hchain : IsChain db run attempt (pre ++ j :: k :: rest)) (hsuccess : j.status = .success) :
  unblocked db k.id = true
  := by
  simp only [unblocked, List.all_eq_true, Bool.or_eq_true, decide_eq_true_eq]
  intro p hp
  by_cases hnext : p.nextID = some k.id
  · right
    have hmem := hdb.mem_of_next hchain hp (by simp) hnext
    rw [hchain.2.prev_unique hchain.nodup hmem hnext]
    apply hsuccess
  · apply Or.inl hnext

/-- The rewriting of the jobs after a completed one: the first is queued if it waits, or all
that are active are cancelled. -/
def followUpUpdate (status : JobStatus) (post : List Job) : JobUpdate :=
  if status = .success then
    promoteRow.onlyIf fun k => post.head?.map Job.id = some k.id && k.status = .created
  else cancelJobsUpdate fun k => k.id ∈ post.map Job.id

theorem followUpUpdate_other {status : JobStatus} {k : Job} (h : k.id ∉ post.map Job.id) :
  (followUpUpdate status post).apply k = k
  := by
  unfold followUpUpdate
  split
  · apply onlyIf_neg
    intro hguard
    simp only [Bool.and_eq_true, decide_eq_true_eq] at hguard
    obtain ⟨k', hk', hid⟩ := Option.map_eq_some_iff.mp hguard.1
    apply h
    rw [← hid]
    apply List.mem_map_of_mem (List.mem_of_mem_head? hk')
  · apply onlyIf_neg
    simp [h]

/-- After a success the next job is queued, and otherwise the rest is cancelled. -/
theorem map_followUpUpdate (status : JobStatus) (hnodup : (post.map Job.id).Nodup) :
  post.map (followUpUpdate status post).apply
    = if status = .success then advance post else post.map cancelIfActive.apply
  := by
  unfold followUpUpdate
  split
  · cases post with
    | nil => rfl
    | cons k rest =>
      have hfresh := (List.nodup_cons.mp hnodup).1
      rw [List.map_cons, map_eq_self (l := rest)]
      · simp [advance, onlyIf]
      · intro k' hk'
        apply onlyIf_neg
        simp only [List.head?_cons, Option.map_some, Option.some.injEq, Bool.and_eq_true,
          decide_eq_true_eq, not_and]
        intro hid
        apply absurd (List.mem_map_of_mem hk') (hid ▸ hfresh)
  · apply List.map_congr_left
    intro k hk
    simp only [cancelJobsUpdate, cancelIfActive, onlyIf,
      decide_eq_true (List.mem_map_of_mem (f := Job.id) hk), Bool.true_and]

theorem logged_effect {p : Tx Unit} (h : p.transaction engine db = .ok ((), db')) {x : Unit}
    {db'' : DB} (hlogged : (logged p).transaction engine db = .ok (x, db'')) :
  db'' = db'
  := by
  rw [logged, transaction_recover h] at hlogged
  cases hlogged
  rfl

/-- The three follow-ups of a completion come to one update. -/
theorem followUp_effect (hdb : WellFormed db)
    (hchain : IsChain db run attempt (pre ++ j :: post)) {job : Job} (hid : job.id = j.id)
    (hrun : job.runID = run) (hattempt : job.attempt = attempt) (hnext : job.nextID = j.nextID)
    (hterminal : j.status.terminal = true) {x₁ x₂ x₃ : Unit} {db₁ db₂ : DB}
    (hfail : (onFail j.status job).transaction engine db = .ok (x₁, db₁))
    (hcancelled : (onCancelled j.status job).transaction engine db₁ = .ok (x₂, db₂))
    (hsuccess : (onSuccess j.status job).transaction engine db₂ = .ok (x₃, db')) :
  db' = db.updateJobs (followUpUpdate j.status post)
  := by
  have hcancel := cancelRemainingJobsAfterFailure_effect hchain hid hrun hattempt
  simp only [onFail, onCancelled, onSuccess, transaction_when_ok] at hfail hcancelled hsuccess
  cases hstatus : j.status with
  | success =>
    simp only [hstatus, reduceCtorEq, or_self, false_and, not_false_eq_true, true_and, false_or,
      not_true_eq_false, or_false] at hfail hcancelled hsuccess
    subst hfail hcancelled
    rw [followUpUpdate, if_pos rfl]
    rw [hnext, hchain.2.next_eq] at hsuccess
    cases post with
    | nil =>
      rcases hsuccess with ⟨hadvance, -⟩ | ⟨-, rfl⟩
      · cases hadvance
      · symm
        apply DB.updateJobs_eq_self
        intro k _
        apply onlyIf_neg
        simp
    | cons k rest =>
      rcases hsuccess with ⟨-, h⟩ | ⟨hadvance, -⟩
      · have hpromote := promote_effect (unblocked_of_chain hdb hchain hstatus)
        have hrows : (issue (.promoteJobByIDIfUnblocked k.id) >>= fun _ => pure () :
            Tx Unit).transaction engine db
            = .ok ((), (db.promoteJobByIDIfUnblocked k.id).2) := by
          simp only [transaction_bind_ok, transaction_issue, engine_exec, Query.exec,
            transaction_pure, Except.ok.injEq, Prod.mk.injEq, true_and]
          exact ⟨_, _, rfl, rfl⟩
        rw [logged_effect hrows h, hpromote]
        apply DB.updateJobs_congr
        intro x _
        have hcomm : decide (x.id = k.id) = decide (k.id = x.id) := decide_eq_decide.mpr eq_comm
        simp only [onlyIf, hcomm, List.head?_cons, Option.map_some,
          Option.some.injEq]
      · apply absurd rfl hadvance
  | fail =>
    simp only [hstatus, reduceCtorEq, true_and, not_true_eq_false, false_and, or_false,
      not_false_eq_true, false_or, evaluateCompletionDecision] at hfail hcancelled hsuccess
    subst hsuccess hcancelled
    rw [logged_effect hcancel hfail]
    rfl
  | error =>
    simp only [hstatus, reduceCtorEq, or_true, true_and, not_true_eq_false, false_and, or_false,
      not_false_eq_true, false_or, evaluateCompletionDecision] at hfail hcancelled hsuccess
    subst hsuccess hcancelled
    rw [logged_effect hcancel hfail]
    rfl
  | cancelled =>
    simp only [hstatus, reduceCtorEq, or_self, true_and, not_true_eq_false, false_and, or_false,
      not_false_eq_true, false_or, evaluateCompletionDecision, ne_eq] at hfail hcancelled hsuccess
    subst hsuccess hfail
    rw [logged_effect hcancel hcancelled]
    rfl
  | created | queued | running => simp [hstatus, JobStatus.terminal, JobStatus.active] at hterminal

/-! ### The status of the run -/

/-- The rewriting that gives a run the status of its jobs. -/
def settleUpdate (runID : RunID) (rows : List Job) : RunUpdate :=
  match evaluateRunAttemptTerminalStatus rows with
  | .ok (some status) => (setRunStatus status).onlyIf (·.id = runID)
  | _ => refl _

theorem settleUpdate_self (r : Run) (rows : List Job) :
  (settleUpdate r.id rows).apply r = settledRun r rows
  := by
  rcases evaluateRunAttemptTerminalStatus_cases rows with ⟨heval, -⟩ | ⟨status, heval, -⟩
  · rw [settleUpdate, settledRun, heval]
    rfl
  · rw [settleUpdate, settledRun, heval]
    apply onlyIf_pos
    simp

theorem settleUpdate_other {r : Run} {runID : RunID} (h : r.id ≠ runID) (rows : List Job) :
  (settleUpdate runID rows).apply r = r
  := by
  unfold settleUpdate
  split
  · rw [onlyIf_neg (by simpa using h)]
  · rfl

/-- The status of a run is set to what its jobs come to, if they have ended. -/
theorem maybeUpdateRunStatus_effect (db : DB) (runID : RunID) (attempt : Nat) :
  ∃ updated, (maybeUpdateRunStatus runID attempt).transaction engine db
      = .ok (updated, db.updateRuns (settleUpdate runID (jobsOfAttempt db runID attempt)))
    ∧ updated = (evaluateRunAttemptTerminalStatus
      (jobsOfAttempt db runID attempt)).toOption.join.isSome
  := by
  rcases evaluateRunAttemptTerminalStatus_cases (jobsOfAttempt db runID attempt) with
    ⟨heval, -⟩ | ⟨status, heval, -⟩
  · refine ⟨false, ?_, by simp [heval, Except.toOption]⟩
    simp only [maybeUpdateRunStatus, transaction_bind_ok, transaction_within_ok,
      transaction_issue, engine_exec, Query.exec, Except.ok.injEq, Prod.mk.injEq]
    refine ⟨_, _, ⟨rfl, rfl⟩, ?_⟩
    rw [settleUpdate, heval, DB.updateRuns_refl]
    rfl
  · refine ⟨true, ?_, by simp [heval, Except.toOption]⟩
    simp only [maybeUpdateRunStatus, transaction_bind_ok, transaction_within_ok,
      transaction_issue, engine_exec, Query.exec, Except.ok.injEq, Prod.mk.injEq]
    refine ⟨_, _, ⟨rfl, rfl⟩, ?_⟩
    rw [settleUpdate, heval]
    rfl

/-- The run is returned exactly if its status was set. -/
theorem reconcileRepoRun_effect {job : Job} {r : Run} (hr : r ∈ db.runs) (hid : r.id = job.runID)
    {result : Option Run}
    (h : (reconcileRepoRun job).transaction engine db = .ok (result, db')) :
  db' = db.updateRuns (settleUpdate r.id (jobsOfAttempt db job.runID job.attempt))
    ∧ result = if (evaluateRunAttemptTerminalStatus
          (jobsOfAttempt db job.runID job.attempt)).toOption.join.isSome
        then some (settledRun r (jobsOfAttempt db job.runID job.attempt)) else none
  := by
  obtain ⟨updated, hupdate, heval⟩ := maybeUpdateRunStatus_effect db job.runID job.attempt
  simp only [reconcileRepoRun, transaction_bind_ok, transaction_recover hupdate,
    Except.ok.injEq, Prod.mk.injEq] at h
  obtain ⟨updated', db₁, ⟨rfl, rfl⟩, h⟩ := h
  rw [← heval]
  cases hup : updated with
  | false =>
    rw [hup] at h
    cases h
    rw [hid]
    apply And.intro rfl rfl
  | true =>
    rw [hup, if_pos rfl] at h
    have hfind : (db.updateRuns (settleUpdate job.runID
        (jobsOfAttempt db job.runID job.attempt))).runs.find? job.runID
        = some (settledRun r (jobsOfAttempt db job.runID job.attempt)) := by
      rw [DB.updateRuns, Table.find?_update, ← hid, Table.find?_of_mem hr, Option.map_some,
        settleUpdate_self]
    simp only [loadRunForPostCompletion, transaction_bind_ok, transaction_issue, engine_exec,
      Query.exec, hfind, Except.ok.injEq, Prod.mk.injEq] at h
    obtain ⟨_, _, ⟨rfl, rfl⟩, h⟩ := h
    cases h
    rw [hid]
    apply And.intro rfl rfl

/-! ### Completion -/

/-- Whether the jobs of an attempt give their run a final status. -/
def settles (rows : List Job) : Bool :=
  (evaluateRunAttemptTerminalStatus rows).toOption.join.isSome

theorem withJobExecution_effect {α : Type} {jobID : JobID} {resumeCount : Int}
    {complete : Job → Tx α} {result : α}
    (h : (withJobExecution jobID resumeCount complete).transaction engine db = .ok (result, db')) :
  ∃ j ∈ db.jobs, j.id = jobID ∧ ∃ r ∈ db.runs, r.id = j.runID
    ∧ (r.stats.resumeCount : Int) = resumeCount ∧ j.attempt = r.attempt
    ∧ (complete j).transaction engine db = .ok (result, db')
  := by
  simp only [withJobExecution, transaction_bind_ok, transaction_one_ok, transaction_rejectIf_ok,
    transaction_issue, engine_exec, Query.exec, Except.ok.injEq, Prod.mk.injEq, true_and] at h
  obtain ⟨j, _, ⟨hj, rfl⟩, _, _, rfl, r, _, ⟨hr, rfl⟩, _, _, ⟨hstale, rfl⟩, j', _, ⟨hj', rfl⟩, h⟩ :=
    h
  obtain rfl : j = j' := Option.some.inj (hj.symm.trans hj')
  obtain ⟨hjmem, hjid⟩ := Table.find?_eq_some.mp hj
  obtain ⟨hrmem, hrid⟩ := Table.find?_eq_some.mp hr
  rw [not_or, not_not, not_not] at hstale
  exact ⟨j, hjmem, hjid, r, hrmem, hrid, hstale.1, hstale.2, h⟩

theorem complete_effect {input : CompletionInput} {result : Option Run}
    (h : (complete input j).transaction engine db = .ok (result, db')) :
  (j.nodeID = some input.nodeID ∧ j.status = .running)
    ∧ (input.status = .success → j.nextID ≠ none →
      isCanonicalFullCommitSHA j.repoShaIn = true ∧ input.recordedOutput j ≠ "")
    ∧ ∃ x₁ x₂ x₃ db₁ db₂ db₃,
      (onFail input.status j).transaction engine
          (db.updateJobCompletion j.id input.status (input.recordedOutput j) input.jobMeta)
        = .ok (x₁, db₁)
      ∧ (onCancelled input.status j).transaction engine db₁ = .ok (x₂, db₂)
      ∧ (onSuccess input.status j).transaction engine db₂ = .ok (x₃, db₃)
      ∧ (reconcileRepoRun j).transaction engine db₃ = .ok (result, db')
  := by
  simp only [complete, transaction_bind_ok, transaction_rejectIf_ok, transaction_issue,
    transaction_mapError_ok, engine_exec, Query.exec, Except.ok.injEq, Prod.mk.injEq, true_and] at h
  obtain ⟨_, _, ⟨howner, rfl⟩, _, _, ⟨hrunning, rfl⟩, _, _, ⟨hinput, rfl⟩, _, _,
    ⟨houtput, rfl⟩, _, _, rfl,
    x₁, db₁, hfail, x₂, db₂, hcancelled, x₃, db₃, hsuccess, hreconcile⟩ := h
  refine ⟨⟨not_not.mp howner, not_not.mp hrunning⟩, ?_, x₁, x₂, x₃, db₁, db₂, db₃,
    hfail, hcancelled,
    hsuccess, hreconcile⟩
  intro hs hn
  constructor
  · simpa using not_and.mp (not_and.mp hinput hs) hn
  · apply not_and.mp (not_and.mp houtput hs) hn

/-- What a completion does to the jobs and to the run. -/
theorem completeJob_effect (hdb : WellFormed db) {input : CompletionInput} {result : Option Run}
    (h : (completeJob input).transaction engine db = .ok (result, db')) :
  ∃ r ∈ db.runs, ∃ pre j post, IsChain db r.id r.attempt (pre ++ j :: post)
    ∧ Completable input r r.attempt j
    ∧ ∃ (u : JobUpdate) (rows : List Job),
      (∀ k ∈ db.jobs, ¬ (k.runID = r.id ∧ k.attempt = r.attempt) → u.apply k = k)
      ∧ (pre ++ j :: post).map u.apply = pre ++ input.completed j :: input.after j post
      ∧ rows.Perm (pre ++ input.completed j :: input.after j post)
      ∧ db' = (db.updateJobs u).updateRuns (settleUpdate r.id rows)
      ∧ result = if settles rows then some (settledRun r rows) else none
  := by
  obtain ⟨j, hjmem, hjid, r, hrmem, hrid, hcount, hattempt, h⟩ := withJobExecution_effect h
  obtain ⟨⟨howner, hrunning⟩, hhandover, x₁, x₂, x₃, db₁, db₂, db₃, hfail, hcancelled, hsuccess,
    hreconcile⟩ := complete_effect h
  obtain ⟨l, hl⟩ := hdb.chained r.id r.attempt
  obtain ⟨pre, post, rfl⟩ := List.append_of_mem (hl.mem_iff.mpr ⟨hjmem, hrid.symm, hattempt⟩)
  have haccepted : Completable input r r.attempt j :=
    ⟨hjid, rfl, hcount, howner, hrunning, hhandover⟩
  -- the report
  rw [updateJobCompletion_eq input hjmem] at hfail
  have hchain₁ := hl.updateJobs (input.update j)
  rw [input.map_update hl.nodup hl.2] at hchain₁
  have hdb₁ : WellFormed (db.updateJobs (input.update j)) := by
    apply hdb.rewrite (refl _) (input.update j)
    · rw [DB.updateRuns_refl]
      rfl
    · rfl
    · intro _ _
      apply le_refl
  -- the rest of the chain
  have hfollow : db₃ = (db.updateJobs (input.update j)).updateJobs
      (followUpUpdate input.status (feed (input.completed j).repoShaOut post)) := by
    have hid : j.id = (input.completed j).id := rfl
    apply followUp_effect hdb₁ hchain₁ hid hrid.symm hattempt rfl input.terminal hfail hcancelled
      hsuccess
  have hpost : ((feed (input.completed j).repoShaOut post).map Job.id).Nodup := by
    have := hchain₁.nodup
    rw [List.map_append, List.map_cons, List.nodup_append, List.nodup_cons] at this
    apply this.2.1.2
  have hmap : (pre ++ input.completed j :: feed (input.completed j).repoShaOut post).map
      (followUpUpdate input.status (feed (input.completed j).repoShaOut post)).apply
      = pre ++ input.completed j :: input.after j post := by
    rw [List.map_append, List.map_cons, map_followUpUpdate _ hpost, map_eq_self,
      followUpUpdate_other]
    · rfl
    · apply not_mem_post hchain₁.nodup (Or.inr rfl)
    · intro k hk
      apply followUpUpdate_other (not_mem_post hchain₁.nodup (Or.inl hk))
  have hchain₂ := hchain₁.updateJobs
    (followUpUpdate input.status (feed (input.completed j).repoShaOut post))
  rw [hmap] at hchain₂
  -- the status of the run
  have hruns : r ∈ db₃.runs := by
    rw [hfollow]
    apply hrmem
  obtain ⟨rfl, hresult⟩ := reconcileRepoRun_effect hruns hrid hreconcile
  rw [hfollow, ← hrid, hattempt] at hresult
  refine ⟨r, hrmem, pre, j, post, hl, haccepted,
    (followUpUpdate input.status (feed (input.completed j).repoShaOut post)).comp (input.update j),
    _, ?_, ?_, (jobsOfAttempt_perm _ _ _).trans hchain₂.1.symm, ?_, hresult⟩
  · intro k hk hout
    have hsame : (input.update j).apply k = k := by
      apply input.update_other (hl.id_ne (by simp) hk hout)
      rw [hl.2.next_eq]
      intro hhead
      obtain ⟨k', hk', hid⟩ := Option.map_eq_some_iff.mp hhead
      apply hl.id_ne (by simp [List.mem_of_mem_head? hk']) hk hout hid.symm
    rw [comp_apply, hsame]
    apply followUpUpdate_other
    intro hmem
    obtain ⟨k', hk', hid⟩ := List.mem_map.mp hmem
    have hk₁ : k ∈ (db.updateJobs (input.update j)).jobs := DB.mem_updateJobs.mpr ⟨k, hk, hsame⟩
    apply hchain₁.id_ne (by simp [hk']) hk₁ hout hid.symm
  · have hcomp : ((followUpUpdate input.status (feed (input.completed j).repoShaOut post)).comp
        (input.update j)).apply = (followUpUpdate input.status
          (feed (input.completed j).repoShaOut post)).apply ∘ (input.update j).apply := rfl
    rw [hcomp, ← List.map_map, input.map_update hl.nodup hl.2, hmap]
  · rw [← DB.updateJobs_updateJobs, ← hfollow, ← hrid, hattempt]

end Ploy
