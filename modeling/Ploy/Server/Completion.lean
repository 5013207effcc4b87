import Ploy.Server.Reconcile

/-!
# Completing jobs

A node reports how a job ended. The report is checked against the execution the run is in,
recorded, and followed by what it means for the rest of the chain and for the run.
-/

namespace Ploy

open Program

/-! ### Claims

What a node is told about the execution it claimed, and what it is told to name when it reports
back. -/

/-- The part of a claim response that tells which execution was claimed. -/
structure NodeClaimResponse where
  runID : RunID
  resumeCount : Nat
  attempt : Nat
  jobID : JobID
  nodeID : Option NodeID
  deriving DecidableEq, Repr

/-- The response to a claim, from the claimed job and its run, which is read after the job was
claimed. -/
def buildJobClaimPayload (run : Run) (job : Job) : NodeClaimResponse where
  runID := run.id
  resumeCount := run.stats.resumeCount
  attempt := job.attempt
  jobID := job.id
  nodeID := job.nodeID

/-! ### Requests -/

/-- A completion request that passed validation. -/
structure CompletionInput where
  jobID : JobID
  nodeID : NodeID
  status : JobStatus
  resumeCount : Int
  jobMeta : Option JSONDocument
  repoSHAOut : String
  terminal : status.terminal = true
  output : repoSHAOut = "" ∨ isCanonicalFullCommitSHA repoSHAOut = true

theorem no_output : "" = "" ∨ isCanonicalFullCommitSHA "" = true :=
  Or.inl rfl

/-! ### The rest of the chain -/

/-- What a completed job means for the chain after it. -/
inductive CompletionChainAction where
  | noAction | cancelRemainder | advanceNext
  deriving DecidableEq, Repr

def evaluateCompletionDecision (status : JobStatus) (hasNext : Bool) : CompletionChainAction :=
  match status with
  | .success => if hasNext then .advanceNext else .noAction
  | .fail | .error | .cancelled => .cancelRemainder
  | _ => .noAction

/-- The jobs met by following successors from `next`, each once. -/
def reachableJobs (jobs : List Job) : Nat → Option JobID → List Job
  | 0, _ => []
  | _, none => []
  | fuel + 1, some id =>
    match itemByID Job.id jobs id with
    | none => []
    | some job => job :: reachableJobs (jobs.filter (·.id ≠ id)) fuel job.nextID

def cancelJobs : List Job → Tx Unit
  | [] => pure ()
  | job :: rest => do
      when (job.status.terminal = false)
        (within ("cancel job " ++ job.id.raw)
          (issue (.updateJobStatus job.id .cancelled job.startedAt)))
      cancelJobs rest

def cancelRemainingJobsAfterFailure (failedJob : Job) : Tx Unit := do
  let jobs ← within "list jobs for repo attempt"
    (issue (.listJobsByRunAttempt failedJob.runID failedJob.attempt))
  let nextID :=
    match itemByID Job.id jobs failedJob.id with
    | some refreshed => refreshed.nextID
    | none => failedJob.nextID
  cancelJobs (reachableJobs jobs jobs.length nextID)

/-- A step whose errors are logged and otherwise ignored. -/
def logged (p : Tx Unit) : Tx Unit :=
  p.recover fun _ => pure ()

/-- After a failed job, the jobs after it are cancelled. -/
def onFail (status : JobStatus) (job : Job) : Tx Unit :=
  when (status = .fail ∨ status = .error)
    (when (evaluateCompletionDecision status job.nextID.isSome = .cancelRemainder)
      (logged (cancelRemainingJobsAfterFailure job)))

/-- After a cancelled job, the jobs after it are cancelled. -/
def onCancelled (status : JobStatus) (job : Job) : Tx Unit :=
  when (status = .cancelled)
    (when (evaluateCompletionDecision status job.nextID.isSome ≠ .noAction)
      (logged (cancelRemainingJobsAfterFailure job)))

/-- After a job that succeeded, the one after it is queued. -/
def onSuccess (status : JobStatus) (job : Job) : Tx Unit :=
  when (status = .success)
    (when (evaluateCompletionDecision status job.nextID.isSome = .advanceNext)
      (match job.nextID with
        | none => pure ()
        | some next => logged (issue (.promoteJobByIDIfUnblocked next) >>= fun _ => pure ())))

/-- The row of a run, asked for again when it is not found. -/
def loadRunForPostCompletion (runID : RunID) : Tx (Option Run) := do
  match ← issue (.getRun runID) with
  | some run => pure (some run)
  | none => issue (.getRun runID)

/-- Setting the status of the run of a job; the run is returned if it has ended. -/
def reconcileRepoRun (job : Job) : Tx (Option Run) := do
  let updated ← (maybeUpdateRunStatus job.runID job.attempt).recover fun _ => pure false
  if updated then loadRunForPostCompletion job.runID else pure none

/-! ### Completion -/

/-- Whether a job leaves the tree as it finds it. -/
def isNonChangingJob : JobType → Bool
  | .preGate | .postGate => true
  | .mig => false

/-- The output SHA that is recorded. A gate that succeeds without one hands on its input. -/
def CompletionInput.recordedOutput (input : CompletionInput) (job : Job) : String :=
  if input.status = .success then
    let out := normalizeRepoSHA input.repoSHAOut
    if out = "" ∧ isNonChangingJob job.jobType then normalizeRepoSHA job.repoShaIn else out
  else input.repoSHAOut

/-- Recording how a job of the current execution ended, and what follows from it. -/
def complete (input : CompletionInput) (job : Job) : Tx (Option Run) := do
  rejectIf (job.nodeID ≠ some input.nodeID) (.completion 403 "job not assigned to this node")
  rejectIf (job.status ≠ .running)
    (.completion 409 ("job status is " ++ job.status.text ++ ", expected Running"))
  rejectIf (input.status = .success ∧ job.nextID ≠ none
      ∧ isCanonicalFullCommitSHA job.repoShaIn = false)
    (.completion 409 "job repo_sha_in must match ^[0-9a-f]\x7b40\x7d$ for chain progression")
  rejectIf (input.status = .success ∧ job.nextID ≠ none ∧ input.recordedOutput job = "")
    (.completion 400 "repo_sha_out is required for successful jobs with next_id")
  (issue (.updateJobCompletion job.id input.status (input.recordedOutput job)
    input.jobMeta)).mapError
    (.completionInternal "failed to complete job")
  onFail input.status job
  onCancelled input.status job
  onSuccess input.status job
  reconcileRepoRun job

/-- The transaction of a completion request. -/
def completeJob (input : CompletionInput) : Tx (Option Run) :=
  withJobExecution input.jobID input.resumeCount (complete input)

/-- The error inside its contexts. -/
def StoreError.cause : StoreError → StoreError
  | .wrap _ e => e.cause
  | .createJob _ _ _ e => e.cause
  | .completionInternal _ e => e.cause
  | e => e

/-- The answer to a completion request that failed. -/
def completionError (e : StoreError) : StoreError :=
  if e.cause = .jobExecutionStale then
    .completion 409 "completion belongs to an earlier execution"
  else if e.cause = .noRows then .completion 404 "job not found"
  else e

/-- Finishing the wave of a run that ended, after the transaction; errors are logged. -/
def reconcileWave (run : Run) : Tx Unit :=
  (maybeCompleteRunIfAllReposTerminal run >>= fun _ => pure ()).recover fun _ => pure ()

/-- Serving a completion request: the transaction, and after it, if it ended the run, the
statements that finish the wave. -/
def serveCompletion (input : CompletionInput) (db : DB) : Except StoreError Unit × DB :=
  match (completeJob input).transaction engine db with
  | .error e => (.error (completionError e), db)
  | .ok (none, db') => (.ok (), db')
  | .ok (some run, db') => (reconcileWave run).autocommit engine db'

end Ploy
