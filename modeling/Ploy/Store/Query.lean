import Ploy.Store.Rows
import Ploy.Foundations.Program

/-!
# The statements of the store

The named queries the server issues, and what each does to the store. A query that selects
one row answers with the row, if there is one.
-/

namespace Ploy

/-- The errors of the store and of the services over it. `wrap` adds the context that is
put in front of a cause. -/
inductive StoreError where
  | noRows
  | uniqueViolation (constraint : String)
  | foreignKeyViolation (constraint : String)
  | notNullViolation (column : String)
  | invalidTextRepresentation
  | integerOutOfRange
  | connectionLost
  | message (text : String)
  | emptyNodeID
  | invalidJSON
  | runResumeInvalid
  | stepConfigurationMissing (id : JobID)
  | jobExecutionStale
  | runRestartActive
  | runRestartWaveCancelled
  | activeRepoRun (repoID : RepoID) (repoURL : String) (runID : RunID)
  | completion (status : Nat) (text : String)
  | completionInternal (text : String) (cause : StoreError)
  | createJob (name : String) (jobType : JobType) (id : JobID) (cause : StoreError)
  | wrap (context : String) (cause : StoreError)
  deriving DecidableEq, Repr

/-- The least value an integer column does not hold. -/
def integerLimit : Nat := 2 ^ 31

/-- The document a required JSON column holds for the bytes supplied. -/
def RawJSON.column (column : String) : RawJSON → Except StoreError JSONDocument
  | .empty => .error (.notNullViolation column)
  | .malformed => .error .invalidTextRepresentation
  | .document d => .ok d

/-! ### Row updates -/

def setWaveStatus (status : WaveStatus) : WaveUpdate where
  apply w := { w with status }
  keeps _ := rfl

def setRunStatus (status : RunStatus) : RunUpdate where
  apply r := { r with status }
  keeps _ := rfl

def cancelJob : JobUpdate where
  apply j := { j with status := .cancelled }
  keeps _ := rfl

/-- Setting the status of a job, and when it started. A job set to run keeps the time it
started at, or starts now. -/
def setJobStatus (status : JobStatus) (startedAt : Option Time) (now : Time) : JobUpdate where
  apply j :=
    { j with
      status
      startedAt := if status = .running then some (j.startedAt.getD now) else startedAt }
  keeps _ := rfl

def claimRow (node : NodeID) (now : Time) : JobUpdate where
  apply j := { j with status := .running, nodeID := some node, startedAt := some now }
  keeps _ := rfl

/-- Taking a job back from its node; it stays bound to the node where `keepNode` holds. -/
def unclaimRow (keepNode : Job → Bool) : JobUpdate where
  apply j :=
    { j with
      status := .queued
      nodeID := if keepNode j then j.nodeID else none
      startedAt := none }
  keeps _ := rfl

/-- Queueing a job. -/
def promoteRow : JobUpdate where
  apply j := { j with status := .queued }
  keeps _ := rfl

/-- Recording how a job ended. An empty output SHA leaves the one it has. -/
def completeRow (status : JobStatus) (repoShaOut : String) (metadata : Option JSONDocument) :
    JobUpdate where
  apply j :=
    { j with
      status
      repoShaOut := if repoShaOut = "" then j.repoShaOut else repoShaOut
      repoShaOut8 := if repoShaOut = "" then j.repoShaOut8 else substring8 repoShaOut
      metadata := metadata.getD j.metadata }
  keeps _ := rfl

/-- Handing an output SHA to a job as its input. An empty one leaves the input it has. -/
def feedRow (repoShaOut : String) : JobUpdate where
  apply j :=
    { j with
      repoShaIn := if repoShaOut = "" then j.repoShaIn else repoShaOut
      repoShaIn8 := if repoShaOut = "" then j.repoShaIn8 else substring8 repoShaOut }
  keeps _ := rfl

/-- Clearing what an execution left on a job, for another execution. -/
def resetRow (status : JobStatus) (metadata : JSONDocument) (keepInput : Bool) : JobUpdate where
  apply j :=
    { j with
      status
      startedAt := none
      repoShaOut := ""
      repoShaOut8 := ""
      metadata
      repoShaIn := if keepInput then j.repoShaIn else ""
      repoShaIn8 := if keepInput then j.repoShaIn8 else "" }
  keeps _ := rfl

/-- Setting a run to run again in the same attempt, with its stats merged. -/
def resumeRow (stats : Option StatsMarker) (count : Nat) (now : Time) : RunUpdate where
  apply r :=
    { r with
      status := .running
      stats :=
        { resumes := some count
          lastResumedAt := some now
          marker := stats <|> r.stats.marker } }
  keeps _ := rfl

/-- Setting a run to run in its next attempt, with new stats. -/
def incrementAttemptRow (stats : Option StatsMarker) : RunUpdate where
  apply r :=
    { r with
      attempt := r.attempt + 1
      status := .running
      stats := RunStats.fresh stats }
  keeps _ := rfl

@[simp] theorem attempt_setRunStatus (status : RunStatus) (r : Run) :
  ((setRunStatus status).apply r).attempt = r.attempt
  := rfl

@[simp] theorem attempt_resumeRow (stats : Option StatsMarker) (count : Nat)
    (now : Time) (r : Run) :
  ((resumeRow stats count now).apply r).attempt = r.attempt
  := rfl

@[simp] theorem resumeCount_setRunStatus (status : RunStatus) (r : Run) :
  ((setRunStatus status).apply r).stats.resumeCount = r.stats.resumeCount
  := rfl

@[simp] theorem resumeCount_resumeRow (stats : Option StatsMarker) (count : Nat) (now : Time)
    (r : Run) :
  ((resumeRow stats count now).apply r).stats.resumeCount = count
  := rfl

/-! ### Selections -/

def jobBefore (a b : Job) : Prop :=
  a.id.raw ≤ b.id.raw

instance : DecidableRel jobBefore :=
  fun a b => inferInstanceAs (Decidable (a.id.raw ≤ b.id.raw))

/-- The jobs of an attempt of a run, by identifier. -/
def jobsOfAttempt (db : DB) (run : RunID) (attempt : Nat) : List Job :=
  (db.jobs.rows.filter (Job.inAttempt run attempt)).insertionSort jobBefore

theorem jobsOfAttempt_perm (db : DB) (run : RunID) (attempt : Nat) :
  (jobsOfAttempt db run attempt).Perm (db.jobs.rows.filter (Job.inAttempt run attempt))
  := List.perm_insertionSort _ _

/-- Whether a node can be given a job: the job is queued and not bound to another node,
its run is running in a started wave, and no job of the same attempt is bound to another
node. -/
def eligible (db : DB) (n : Node) (j : Job) : Bool :=
  !n.drained && n.id.raw ≠ "" && j.status = .queued
    && (j.nodeID = none || j.nodeID = some n.id)
    && (db.runs.rows.any fun r => r.id = j.runID && r.status = .running
        && db.waves.rows.any fun w => w.id = r.waveID && w.status = .started)
    && !(db.jobs.rows.any fun owner => owner.runID = j.runID && owner.attempt = j.attempt
        && owner.nodeID.any (· ≠ n.id))

/-- The order in which jobs are given out: by run, attempt and job. -/
def claimBefore (a b : Job) : Prop :=
  a.runID.raw < b.runID.raw
    ∨ (a.runID.raw = b.runID.raw ∧ (a.attempt < b.attempt
        ∨ (a.attempt = b.attempt ∧ a.id.raw ≤ b.id.raw)))

instance : DecidableRel claimBefore :=
  fun _ _ => inferInstanceAs (Decidable (_ ∨ _))

/-- The first eligible job, rows that other transactions have locked passed over. -/
def nextClaim (db : DB) (n : Node) (skipLocked : List JobID) : Option Job :=
  ((db.jobs.rows.filter fun j => eligible db n j && j.id ∉ skipLocked).insertionSort
    claimBefore).head?

/-- Whether a job runs on a node that has not been heard from since `cutoff`. -/
def stale (db : DB) (cutoff : Time) (j : Job) : Bool :=
  j.status = .running
    && match j.nodeID.bind db.nodes.find? with
      | none => true
      | some n =>
        match n.lastHeartbeat with
        | none => true
        | some t => t < cutoff

/-- The attempt of a run that a stale job belongs to. -/
structure StaleRow where
  runID : RunID
  attempt : Nat
  deriving DecidableEq, Repr

def staleBefore (a b : StaleRow) : Prop :=
  a.runID.raw < b.runID.raw ∨ (a.runID.raw = b.runID.raw ∧ a.attempt ≤ b.attempt)

instance : DecidableRel staleBefore :=
  fun _ _ => inferInstanceAs (Decidable (_ ∨ _))

/-- The attempts that have a stale job, each once, in order. -/
def staleRows (db : DB) (cutoff : Time) : List StaleRow :=
  (((db.jobs.rows.filter (stale db cutoff)).map fun j => ⟨j.runID, j.attempt⟩).dedup).insertionSort
    staleBefore

/-- Whether every job that has `j` as its successor succeeded. -/
def unblocked (db : DB) (j : JobID) : Bool :=
  db.jobs.rows.all fun p => p.nextID ≠ some j || p.status = .success

/-- The number of runs of a wave in each status that some run of it has. -/
def runCounts (db : DB) (wave : WaveID) : List (RunStatus × Nat) :=
  let count (s : RunStatus) := (db.runs.rows.filter fun r => r.waveID = wave && r.status = s).length
  ([.queued, .running, .cancelled, .fail, .success].map fun s => (s, count s)).filter
    fun row => row.2 ≠ 0

def runBefore (a b : Run) : Prop :=
  a.createdAt < b.createdAt ∨ (a.createdAt = b.createdAt ∧ a.id.raw ≤ b.id.raw)

instance : DecidableRel runBefore :=
  fun _ _ => inferInstanceAs (Decidable (_ ∨ _))

/-- The runs of a wave, the oldest first. -/
def runsOfWave (db : DB) (wave : WaveID) : List Run :=
  (db.runs.rows.filter (·.waveID = wave)).insertionSort runBefore

theorem mem_runsOfWave {db : DB} {wave : WaveID} {r : Run} :
  r ∈ runsOfWave db wave ↔ r ∈ db.runs ∧ r.waveID = wave
  := by
  rw [runsOfWave, (List.perm_insertionSort _ _).mem_iff]
  simp [Table.mem_rows]

/-- The oldest active run of a repository, with the URL of the repository. -/
def activeRun (db : DB) (repo : RepoID) : Option (RunID × String) :=
  (db.repos.find? repo).bind fun p =>
    ((db.runs.rows.filter fun r => r.repoID = repo && r.active).insertionSort runBefore).head?.map
      fun r => (r.id, p.url)

/-! ### Statements -/

/-- The statements, each with the type of its answer. -/
inductive Query : Type → Type where
  | getRun (id : RunID) : Query (Option Run)
  | getRunForUpdate (id : RunID) : Query (Option Run)
  | lockRun (id : RunID) : Query Unit
  | getJob (id : JobID) : Query (Option Job)
  | getWave (id : WaveID) : Query (Option Wave)
  | listJobsByRunAttempt (run : RunID) (attempt : Nat) : Query (List Job)
  | listRunsByWave (wave : WaveID) : Query (List Run)
  | countRunsByWaveStatus (wave : WaveID) : Query (List (RunStatus × Nat))
  | listStaleRunningJobs (cutoff : Time) : Query (List StaleRow)
  | selectRepos (ids : List RepoID) : Query (List RepoID)
  | lockRepo (id : RepoID) : Query Unit
  | activeRepoRun (repo : RepoID) : Query (Option (RunID × String))
  | createWave (arg : CreateWaveParams) : Query Wave
  | insertRun (wave : CreateWaveParams) (arg : RunPlan) : Query Run
  | createJob (arg : CreateJobParams) : Query Job
  | updateRunStatus (id : RunID) (status : RunStatus) : Query Unit
  | updateWaveStatus (id : WaveID) (status : WaveStatus) : Query Unit
  | updateJobStatus (id : JobID) (status : JobStatus) (startedAt : Option Time) : Query Unit
  | updateJobCompletion (id : JobID) (status : JobStatus) (repoShaOut : String)
      (metadata : Option JSONDocument) : Query Unit
  | cancelActiveJobsByRun (run : RunID) : Query Unit
  | cancelActiveJobsByRunAttempt (run : RunID) (attempt : Nat) : Query Unit
  | cancelActiveRunsByWave (wave : WaveID) : Query Unit
  | claimJob (node : NodeID) (skipLocked : List JobID) : Query (Option Job)
  | unclaimJob (id : JobID) (node : NodeID) : Query Unit
  | promoteJobByIDIfUnblocked (id : JobID) : Query (Option Job)
  | resetJob (id : JobID) (status : JobStatus) (metadata : RawJSON) (keepInput : Bool) :
      Query Unit
  | resumeRun (id : RunID) (stats : Option StatsMarker) (count : Int) : Query Unit
  | incrementRunAttempt (id : RunID) (stats : Option StatsMarker) : Query Unit

def RunPlan.row (plan : RunPlan) (wave : CreateWaveParams) (now : Time) : Run where
  id := plan.id
  waveID := wave.id
  migID := wave.migID
  specID := wave.specID
  repoID := plan.repoID
  repoBaseRef := plan.repoBaseRef
  sourceCommitSha := plan.sourceCommitSha
  repoSha0 := plan.repoSha0
  status := .running
  attempt := 1
  createdAt := now
  stats := RunStats.fresh plan.stats

def CreateJobParams.row (arg : CreateJobParams) (metadata : JSONDocument) : Job where
  id := arg.id
  runID := arg.runID
  repoID := arg.repoID
  repoBaseRef := arg.repoBaseRef
  attempt := arg.attempt
  status := arg.status
  jobType := arg.jobType
  jobImage := arg.jobImage
  nextID := arg.nextID
  name := arg.name
  nodeID := none
  startedAt := none
  repoShaIn := arg.repoShaIn
  repoShaOut := ""
  repoShaIn8 := if arg.repoShaIn = "" then "" else substring8 arg.repoShaIn
  repoShaOut8 := ""
  metadata := metadata

namespace DB

def createWave (db : DB) (arg : CreateWaveParams) : Except StoreError (Wave × DB) :=
  let row : Wave := ⟨arg.id, arg.migID, arg.specID, .started⟩
  if arg.migID ∉ db.migs then .error (.foreignKeyViolation "waves_mig_id_fkey")
  else if arg.specID ∉ db.specs then .error (.foreignKeyViolation "waves_spec_id_fkey")
  else match db.waves.insert? row with
    | none => .error (.uniqueViolation "waves_pkey")
    | some waves => .ok (row, { db with waves })

def insertRun (db : DB) (wave : CreateWaveParams) (arg : RunPlan) :
    Except StoreError (Run × DB) :=
  let row := arg.row wave db.now
  if (db.waves.find? wave.id).isNone then .error (.foreignKeyViolation "runs_wave_id_fkey")
  else if (db.repos.find? arg.repoID).isNone then .error (.foreignKeyViolation "runs_repo_id_fkey")
  else if (wave.migID, arg.repoID) ∉ db.migRepos then
    .error (.foreignKeyViolation "runs_mig_repo_membership_fkey")
  else match db.runs.insert? row with
    | none => .error (.uniqueViolation "runs_pkey")
    | some runs => .ok (row, { db with runs })

def createJob (db : DB) (arg : CreateJobParams) : Except StoreError (Job × DB) :=
  match arg.metadata.column "meta" with
  | .error e => .error e
  | .ok d =>
    if (db.runs.find? arg.runID).isNone then .error (.foreignKeyViolation "jobs_run_id_fkey")
    else if (db.repos.find? arg.repoID).isNone then
      .error (.foreignKeyViolation "jobs_repo_id_fkey")
    else if arg.nextID.any (fun next => (db.jobs.find? next).isNone) then
      .error (.foreignKeyViolation "jobs_next_id_fkey")
    else match db.jobs.insert? (arg.row d) with
      | none => .error (.uniqueViolation "jobs_pkey")
      | some jobs => .ok (arg.row d, { db with jobs })

/-- Setting how a job ended and handing its output to its successor. Both rows are read
before either is written. -/
def updateJobCompletion (db : DB) (id : JobID) (status : JobStatus) (repoShaOut : String)
    (metadata : Option JSONDocument) : DB :=
  match db.jobs.find? id with
  | none => db
  | some j =>
    let completed := (completeRow status repoShaOut metadata).apply j
    (db.updateJobs ((completeRow status repoShaOut metadata).onlyIf (·.id = id))).updateJobs
      ((feedRow completed.repoShaOut).onlyIf fun next =>
        next.id ≠ id && completed.nextID = some next.id)

def claimJob (db : DB) (node : NodeID) (skipLocked : List JobID) : Option Job × DB :=
  match (db.nodes.find? node).bind (nextClaim db · skipLocked) with
  | none => (none, db)
  | some j =>
    (some ((claimRow node db.now).apply j),
      db.updateJobs ((claimRow node db.now).onlyIf (·.id = j.id)))

/-- Whether the run of a job has been resumed. -/
def resumed (db : DB) (j : Job) : Bool :=
  (db.runs.find? j.runID).any (0 < ·.stats.resumeCount)

def unclaimJob (db : DB) (id : JobID) (node : NodeID) : DB :=
  if (db.nodes.find? node).isNone || node.raw = "" then db
  else
    db.updateJobs ((unclaimRow db.resumed).onlyIf fun j =>
      j.id = id && j.nodeID = some node && j.status = .running)

def promoteJobByIDIfUnblocked (db : DB) (id : JobID) : Option Job × DB :=
  match db.jobs.find? id with
  | none => (none, db)
  | some j =>
    if j.status = .created && unblocked db id then
      (some (promoteRow.apply j), db.updateJobs (promoteRow.onlyIf (·.id = id)))
    else (none, db)

end DB

/-- What each statement does to the store. -/
def Query.exec : {β : Type} → Query β → DB → Except StoreError (β × DB)
  | _, .getRun id, db => .ok (db.runs.find? id, db)
  | _, .getRunForUpdate id, db => .ok (db.runs.find? id, db)
  | _, .lockRun _, db => .ok ((), db)
  | _, .getJob id, db => .ok (db.jobs.find? id, db)
  | _, .getWave id, db => .ok (db.waves.find? id, db)
  | _, .listJobsByRunAttempt run attempt, db =>
    .ok (jobsOfAttempt db run attempt, db)
  | _, .listRunsByWave wave, db => .ok (runsOfWave db wave, db)
  | _, .countRunsByWaveStatus wave, db => .ok (runCounts db wave, db)
  | _, .listStaleRunningJobs cutoff, db => .ok (staleRows db cutoff, db)
  | _, .selectRepos ids, db =>
    .ok ((((db.repos.rows.map Repo.id).filter (· ∈ ids)).insertionSort (·.raw ≤ ·.raw)), db)
  | _, .lockRepo _, db => .ok ((), db)
  | _, .activeRepoRun repo, db => .ok (activeRun db repo, db)
  | _, .createWave arg, db => db.createWave arg
  | _, .insertRun wave arg, db => db.insertRun wave arg
  | _, .createJob arg, db => db.createJob arg
  | _, .updateRunStatus id status, db =>
    .ok ((), db.updateRuns ((setRunStatus status).onlyIf (·.id = id)))
  | _, .updateWaveStatus id status, db =>
    .ok ((), db.updateWaves ((setWaveStatus status).onlyIf (·.id = id)))
  | _, .updateJobStatus id status startedAt, db =>
    .ok ((), db.updateJobs ((setJobStatus status startedAt db.now).onlyIf (·.id = id)))
  | _, .updateJobCompletion id status repoShaOut metadata, db =>
    .ok ((), db.updateJobCompletion id status repoShaOut metadata)
  | _, .cancelActiveJobsByRun run, db =>
    .ok ((), db.updateJobs (cancelJob.onlyIf fun j => j.runID = run && j.status.active))
  | _, .cancelActiveJobsByRunAttempt run attempt, db =>
    .ok ((), db.updateJobs (cancelJob.onlyIf fun j =>
      j.inAttempt run attempt && j.status.active))
  | _, .cancelActiveRunsByWave wave, db =>
    .ok ((), db.updateRuns ((setRunStatus .cancelled).onlyIf fun r =>
      r.waveID = wave && r.active))
  | _, .claimJob node skipLocked, db => .ok (db.claimJob node skipLocked)
  | _, .unclaimJob id node, db => .ok ((), db.unclaimJob id node)
  | _, .promoteJobByIDIfUnblocked id, db => .ok (db.promoteJobByIDIfUnblocked id)
  | _, .resetJob id status metadata keepInput, db =>
    match metadata.column "meta" with
    | .error e => .error e
    | .ok d => .ok ((), db.updateJobs ((resetRow status d keepInput).onlyIf (·.id = id)))
  | _, .resumeRun id stats count, db =>
    if (integerLimit : Int) ≤ count then .error .integerOutOfRange
    else .ok ((), db.updateRuns ((resumeRow stats count.toNat db.now).onlyIf (·.id = id)))
  | _, .incrementRunAttempt id stats, db =>
    if (db.runs.find? id).any (integerLimit ≤ ·.attempt + 1) then .error .integerOutOfRange
    else .ok ((), db.updateRuns ((incrementAttemptRow stats).onlyIf (·.id = id)))

/-- The statements that only read, or lock what they read. -/
def Query.reads : {β : Type} → Query β → Bool
  | _, .getRun _ | _, .getRunForUpdate _ | _, .lockRun _ | _, .getJob _ | _, .getWave _
  | _, .listJobsByRunAttempt _ _ | _, .listRunsByWave _ | _, .countRunsByWaveStatus _
  | _, .listStaleRunningJobs _ | _, .selectRepos _ | _, .lockRepo _ | _, .activeRepoRun _ => true
  | _, _ => false

theorem Query.exec_of_reads {β : Type} {q : Query β} (h : q.reads = true) (db : DB) :
  ∃ b, q.exec db = .ok (b, db)
  := by
  cases q <;> first
    | exact ⟨_, rfl⟩
    | cases h

def engine : Engine Query StoreError DB where
  exec := Query.exec

end Ploy
