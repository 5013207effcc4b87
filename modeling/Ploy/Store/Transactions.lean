import Ploy.Store.JobChain

/-!
# The transactions of the store

Each operation of the store as the program of statements it issues.
-/

namespace Ploy

open Program

/-- Programs over the statements of the store. -/
abbrev Tx := Program Query StoreError

/-- A statement that selects one row, which is an error when there is none. -/
def one {α : Type} (q : Query (Option α)) : Tx α :=
  issue q >>= orFail .noRows

/-- A program whose errors are put in a context. -/
def within {α : Type} (context : String) (p : Tx α) : Tx α :=
  p.mapError (.wrap context)

/-! ### Repositories -/

/-- Locking rows one after another. -/
def lockRepos : List RepoID → Tx Unit
  | [] => pure ()
  | id :: rest => do
      issue (.lockRepo id)
      lockRepos rest

/-- Locking the rows of repositories in the order of their identifiers. -/
def lockRunRepositories (repoIDs : List RepoID) : Tx Unit := do
  let ids ← issue (.selectRepos repoIDs)
  lockRepos ids

/-- Refusing a repository that has an active run. -/
def requireRepoWithoutActiveRun (repoID : RepoID) : Tx Unit := do
  match ← issue (.activeRepoRun repoID) with
  | none => pure ()
  | some (runID, repoURL) => fail (.activeRepoRun repoID repoURL runID)

/-! ### Creating runs -/

/-- Checking the metadata of plans, the first of which has index `i`. -/
def validatePlans : Nat → List JobPlan → Tx Unit
  | _, [] => pure ()
  | i, plan :: rest => do
      rejectIf (plan.metadata = .malformed) (.wrap ("job " ++ toString i ++ " meta") .invalidJSON)
      validatePlans (i + 1) rest

/-- The parameters of the planned job at index `i`, before the plans `rest`. -/
def plannedJob (ids : Nat → JobID) (run : Run) (i : Nat) (plan : JobPlan) (rest : List JobPlan) :
    CreateJobParams where
  id := ids i
  runID := run.id
  repoID := run.repoID
  repoBaseRef := run.repoBaseRef
  attempt := run.attempt
  status := if i = 0 then .queued else .created
  jobType := plan.jobType
  jobImage := plan.jobImage
  nextID := if rest.isEmpty then none else some (ids (i + 1))
  name := plan.name
  metadata := plan.metadata
  repoShaIn := if i = 0 then run.repoSha0 else ""

/-- Inserting planned jobs, the last first, since each refers to its successor. -/
def insertPlannedJobs (ids : Nat → JobID) (run : Run) : Nat → List JobPlan → Tx (List Job)
  | _, [] => pure []
  | i, plan :: rest => do
      let later ← insertPlannedJobs ids run (i + 1) rest
      let created ← (issue (.createJob (plannedJob ids run i plan rest))).mapError
        (.createJob plan.name plan.jobType (ids i))
      pure (created :: later)

/-- Creating the chain of jobs of an attempt. The identifiers come from `ids`. -/
def createPlannedJobs (ids : Nat → JobID) (run : Run) (jobs : List JobPlan) : Tx (List Job) := do
  rejectIf (jobs = []) (.message "jobs required")
  validatePlans 0 jobs
  insertPlannedJobs ids run 0 jobs

/-- Creating the runs of a wave with their jobs, the first of which has index `k`. -/
def createRuns (ids : Nat → Nat → JobID) (wave : CreateWaveParams) :
    Nat → List RunPlan → Tx (List (Run × List Job))
  | _, [] => pure []
  | k, plan :: rest => do
      requireRepoWithoutActiveRun plan.repoID
      let run ← within ("create wave with runs: create run " ++ plan.id.raw)
        (issue (.insertRun wave plan))
      let jobs ← within ("create wave with runs: create jobs for run " ++ run.id.raw)
        (createPlannedJobs (ids k) run plan.jobs)
      let later ← createRuns ids wave (k + 1) rest
      pure ((run, jobs) :: later)

def createWaveWithRuns (ids : Nat → Nat → JobID) (arg : CreateWaveWithRunsParams) :
    Tx (Wave × List (Run × List Job)) := do
  rejectIf (arg.runs = []) (.message "create wave with runs: runs required")
  within "create wave with runs: lock repositories"
    (lockRunRepositories (arg.runs.map RunPlan.repoID))
  let wave ← within "create wave with runs: create wave" (issue (.createWave arg.wave))
  let materialized ← createRuns ids arg.wave 0 arg.runs
  pure (wave, materialized)

/-! ### Claiming jobs -/

/-- Giving the next job to a node. -/
def claimJob (nodeID : NodeID) (skipLocked : List JobID) : Tx Job := do
  rejectIf nodeID.isZero .emptyNodeID
  one (.claimJob nodeID skipLocked)

/-- Taking a job back from a node. -/
def unclaimJob (id : JobID) (nodeID : NodeID) : Tx Unit := do
  rejectIf id.isZero (.message "store: UnclaimJob requires non-empty job ID")
  rejectIf nodeID.isZero (.message "store: UnclaimJob requires non-empty node ID")
  within "unclaim job" (issue (.unclaimJob id nodeID))

/-! ### Cancelling -/

/-- Cancelling a run and its active jobs. -/
def cancelRun (runID : RunID) : Tx Unit := do
  let run ← within "cancel run: get run" (one (.getRun runID))
  when (run.status ≠ .success ∧ run.status ≠ .fail ∧ run.status ≠ .cancelled)
    (within "cancel run: update run status" (issue (.updateRunStatus runID .cancelled)))
  within "cancel run: cancel active jobs" (issue (.cancelActiveJobsByRun runID))

def cancelJobsOfRuns : List Run → Tx Unit
  | [] => pure ()
  | run :: rest => do
      within ("cancel wave: cancel jobs for run " ++ run.id.raw)
        (issue (.cancelActiveJobsByRun run.id))
      cancelJobsOfRuns rest

/-- Cancelling a wave, its active runs and their active jobs. -/
def cancelWave (waveID : WaveID) : Tx Unit := do
  let wave ← within "cancel wave: get wave" (one (.getWave waveID))
  when (wave.status ≠ .finished ∧ wave.status ≠ .cancelled)
    (within "cancel wave: update wave status" (issue (.updateWaveStatus waveID .cancelled)))
  within "cancel wave: cancel active runs" (issue (.cancelActiveRunsByWave waveID))
  let runs ← within "cancel wave: list runs" (issue (.listRunsByWave waveID))
  cancelJobsOfRuns runs

/-! ### Restarting -/

/-- The plan that a map filled from the list, in order, holds under a name. -/
def planByName (plans : List JobPlan) (name : String) : Option JobPlan :=
  plans.reverse.find? (·.name = name)

/-- Resetting the jobs of a chain for another execution: the first is queued and keeps its
input, the others wait for theirs. -/
def resetJobs (plans : List JobPlan) (first : Bool) : List Job → Tx Unit
  | [] => pure ()
  | job :: rest => do
      let plan ← orFail (.stepConfigurationMissing job.id)
        ((planByName plans job.name).filter (·.jobType = job.jobType))
      issue (.resetJob job.id (if first then .queued else .created) plan.metadata first)
      resetJobs plans false rest

/-- Retrying the failed job of the current attempt and its successors in place. -/
def resumeFailedJobs (run : Run) (arg : RestartRunParams) : Tx Unit := do
  rejectIf ((run.status ≠ .fail ∧ run.status ≠ .cancelled)
    ∨ (run.stats.resumeCount : Int) ≠ arg.expectedResumeCount) .runResumeInvalid
  let jobs ← issue (.listJobsByRunAttempt run.id run.attempt)
  let suffix ← orFail .runResumeInvalid (failedJobSuffix jobs)
  resetJobs arg.jobs true suffix
  issue (.resumeRun run.id arg.stats (arg.expectedResumeCount + 1))

/-- Leaving the current attempt of a run for the next one. -/
def startNextAttempt (run : Run) (arg : RestartRunParams) : Tx Unit := do
  within "restart run: cancel active jobs"
    (issue (.cancelActiveJobsByRunAttempt arg.runID run.attempt))
  within "restart run: increment attempt" (issue (.incrementRunAttempt arg.runID arg.stats))

/-- Making a run run again, in the same attempt or in the next one. -/
def reopenRun (run : Run) (arg : RestartRunParams) : Tx Unit :=
  if arg.fromFailed then resumeFailedJobs run arg else startNextAttempt run arg

/-- Starting a new attempt of a terminal run, or retrying the failed part of the current
one. -/
def restartRun (ids : Nat → JobID) (arg : RestartRunParams) : Tx Run := do
  let run ← within "restart run: get run" (one (.getRunForUpdate arg.runID))
  rejectIf ((run.attempt : Int) ≠ arg.expectedAttempt
    ∨ (run.status ≠ .success ∧ run.status ≠ .fail ∧ run.status ≠ .cancelled)) .runRestartActive
  let wave ← within "restart run: get wave" (one (.getWave run.waveID))
  rejectIf (wave.status = .cancelled) .runRestartWaveCancelled
  within "restart run: lock repository" (lockRunRepositories [run.repoID])
  requireRepoWithoutActiveRun run.repoID
  reopenRun run arg
  when (wave.status = .finished)
    (within "restart run: revive wave" (issue (.updateWaveStatus wave.id .started)))
  let updated ← within "restart run: reload run" (one (.getRun arg.runID))
  when (arg.fromFailed = false)
    (within "restart run: create jobs"
      (createPlannedJobs ids updated arg.jobs >>= fun _ => pure ()))
  pure updated

/-! ### Executions of a job -/

/-- Completing a job in the execution its run is in, with the row of the run locked. -/
def withJobExecution {α : Type} (jobID : JobID) (resumeCount : Int) (complete : Job → Tx α) :
    Tx α := do
  let job ← one (.getJob jobID)
  issue (.lockRun job.runID)
  let run ← one (.getRun job.runID)
  rejectIf ((run.stats.resumeCount : Int) ≠ resumeCount ∨ job.attempt ≠ run.attempt)
    .jobExecutionStale
  let job ← one (.getJob jobID)
  complete job

end Ploy
