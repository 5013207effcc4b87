import Ploy.Domain.Types
import Ploy.Foundations.Table

/-!
# The rows of the store

The tables that hold waves, runs, jobs and nodes, and what of each row can change once it
is inserted.
-/

namespace Ploy

/-! ### JSON columns -/

/-- A value in a JSON object, as far as the decoders here tell values apart. -/
inductive JSONValue where
  | null
  | int (n : Int)
  | other (text : String)
  deriving DecidableEq, Repr

/-- A document in a JSON column: an object with its members in order, or something else. -/
inductive JSONDocument where
  | object (members : List (String × JSONValue))
  | other (text : String)
  deriving DecidableEq, Repr

/-- The bytes a caller supplies for a JSON column. -/
inductive RawJSON where
  | empty
  | malformed
  | document (d : JSONDocument)
  deriving DecidableEq, Repr

/-- The object `{"metadata": {"ploy.gitlab_token_hash": …}}`, the only run stats that the
handlers supply. -/
structure StatsMarker where
  tokenHash : String
  deriving DecidableEq, Repr

/-- The stats object of a run: `resume_count`, `last_resumed_at`, and the token marker in
its `metadata`. -/
structure RunStats where
  resumes : Option Nat
  lastResumedAt : Option Time
  marker : Option StatsMarker
  deriving DecidableEq, Repr

/-- The number of times a run has been resumed. -/
def RunStats.resumeCount (stats : RunStats) : Nat :=
  stats.resumes.getD 0

/-- The stats of a run that starts with the given marker, `{}` where there is none. -/
def RunStats.fresh (marker : Option StatsMarker) : RunStats where
  resumes := none
  lastResumedAt := none
  marker := marker

/-! ### Rows -/

structure Wave where
  id : WaveID
  migID : MigID
  specID : SpecID
  status : WaveStatus
  deriving DecidableEq, Repr

structure Run where
  id : RunID
  waveID : WaveID
  migID : MigID
  specID : SpecID
  repoID : RepoID
  repoBaseRef : String
  sourceCommitSha : String
  repoSha0 : String
  status : RunStatus
  attempt : Nat
  createdAt : Time
  stats : RunStats
  deriving DecidableEq, Repr

structure Job where
  id : JobID
  runID : RunID
  repoID : RepoID
  repoBaseRef : String
  attempt : Nat
  status : JobStatus
  jobType : JobType
  jobImage : String
  nextID : Option JobID
  name : String
  nodeID : Option NodeID
  startedAt : Option Time
  repoShaIn : String
  repoShaOut : String
  repoShaIn8 : String
  repoShaOut8 : String
  metadata : JSONDocument
  deriving DecidableEq, Repr

structure Node where
  id : NodeID
  drained : Bool
  lastHeartbeat : Option Time
  deriving DecidableEq, Repr

structure Repo where
  id : RepoID
  url : String
  deriving DecidableEq, Repr

/-- What no statement changes of a wave: its identity. -/
def Wave.identity (w : Wave) : WaveID × MigID × SpecID :=
  (w.id, w.migID, w.specID)

/-- What no statement changes of a run: its identity, its wave, its repository and the
commit it starts from. -/
def Run.identity (r : Run) : RunID × WaveID × MigID × SpecID × RepoID × String × Time :=
  (r.id, r.waveID, r.migID, r.specID, r.repoID, r.repoSha0, r.createdAt)

/-- What no statement changes of a job: its identity, the attempt it belongs to, its
successor, and what it executes. -/
def Job.identity (j : Job) : JobID × RunID × Nat × Option JobID × JobType × String :=
  (j.id, j.runID, j.attempt, j.nextID, j.jobType, j.name)

abbrev WaveUpdate := RowUpdate Wave.identity
abbrev RunUpdate := RowUpdate Run.identity
abbrev JobUpdate := RowUpdate Job.identity

section Keeps

theorem WaveUpdate.id_apply (u : WaveUpdate) (w : Wave) : (u.apply w).id = w.id :=
  congrArg (·.1) (u.keeps w)

theorem RunUpdate.id_apply (u : RunUpdate) (r : Run) : (u.apply r).id = r.id :=
  congrArg (·.1) (u.keeps r)

theorem RunUpdate.waveID_apply (u : RunUpdate) (r : Run) : (u.apply r).waveID = r.waveID :=
  congrArg (·.2.1) (u.keeps r)

theorem RunUpdate.repoID_apply (u : RunUpdate) (r : Run) : (u.apply r).repoID = r.repoID :=
  congrArg (·.2.2.2.2.1) (u.keeps r)

theorem RunUpdate.repoSha0_apply (u : RunUpdate) (r : Run) :
  (u.apply r).repoSha0 = r.repoSha0
  := congrArg (·.2.2.2.2.2.1) (u.keeps r)

theorem JobUpdate.id_apply (u : JobUpdate) (j : Job) : (u.apply j).id = j.id :=
  congrArg (·.1) (u.keeps j)

theorem JobUpdate.runID_apply (u : JobUpdate) (j : Job) : (u.apply j).runID = j.runID :=
  congrArg (·.2.1) (u.keeps j)

theorem JobUpdate.attempt_apply (u : JobUpdate) (j : Job) : (u.apply j).attempt = j.attempt :=
  congrArg (·.2.2.1) (u.keeps j)

theorem JobUpdate.nextID_apply (u : JobUpdate) (j : Job) : (u.apply j).nextID = j.nextID :=
  congrArg (·.2.2.2.1) (u.keeps j)

end Keeps

/-- Whether a run counts as active on its repository. -/
def Run.active (r : Run) : Bool :=
  r.status = .queued || r.status = .running

/-- Whether a job belongs to an attempt of a run. -/
def Job.inAttempt (run : RunID) (attempt : Nat) (j : Job) : Bool :=
  j.runID = run && j.attempt = attempt

/-! ### The store -/

/-- The state of the store: its tables, the references that inserted rows are checked
against, and the time `now()` returns. -/
structure DB where
  waves : Table Wave.id
  runs : Table Run.id
  jobs : Table Job.id
  nodes : Table Node.id
  repos : Table Repo.id
  migs : List MigID
  specs : List SpecID
  migRepos : List (MigID × RepoID)
  now : Time

namespace DB

def updateWaves (db : DB) (u : WaveUpdate) : DB :=
  { db with waves := db.waves.update u.apply u.id_apply }

def updateRuns (db : DB) (u : RunUpdate) : DB :=
  { db with runs := db.runs.update u.apply u.id_apply }

def updateJobs (db : DB) (u : JobUpdate) : DB :=
  { db with jobs := db.jobs.update u.apply u.id_apply }

section Update

variable (db : DB)

@[simp] theorem updateWaves_runs (u : WaveUpdate) : (db.updateWaves u).runs = db.runs := rfl
@[simp] theorem updateWaves_jobs (u : WaveUpdate) : (db.updateWaves u).jobs = db.jobs := rfl
@[simp] theorem updateRuns_waves (u : RunUpdate) : (db.updateRuns u).waves = db.waves := rfl
@[simp] theorem updateRuns_jobs (u : RunUpdate) : (db.updateRuns u).jobs = db.jobs := rfl
@[simp] theorem updateJobs_waves (u : JobUpdate) : (db.updateJobs u).waves = db.waves := rfl
@[simp] theorem updateJobs_runs (u : JobUpdate) : (db.updateJobs u).runs = db.runs := rfl

variable {db}

theorem mem_updateWaves {u : WaveUpdate} {w : Wave} :
  w ∈ (db.updateWaves u).waves ↔ ∃ w₀ ∈ db.waves, u.apply w₀ = w
  := List.mem_map

theorem mem_updateRuns {u : RunUpdate} {r : Run} :
  r ∈ (db.updateRuns u).runs ↔ ∃ r₀ ∈ db.runs, u.apply r₀ = r
  := List.mem_map

theorem mem_updateJobs {u : JobUpdate} {j : Job} :
  j ∈ (db.updateJobs u).jobs ↔ ∃ j₀ ∈ db.jobs, u.apply j₀ = j
  := List.mem_map

theorem updateJobs_updateJobs (db : DB) (u v : JobUpdate) :
  (db.updateJobs u).updateJobs v = db.updateJobs (v.comp u)
  := by
  simp only [updateJobs, Table.update_update]
  rfl

theorem updateJobs_eq_self {u : JobUpdate} (h : ∀ j ∈ db.jobs, u.apply j = j) :
  db.updateJobs u = db
  := by
  rw [updateJobs, Table.update_eq_self h]

theorem updateJobs_congr {u v : JobUpdate} (h : ∀ j ∈ db.jobs, u.apply j = v.apply j) :
  db.updateJobs u = db.updateJobs v
  := by
  rw [updateJobs, Table.update_congr h]
  rfl

theorem updateRuns_eq_self {u : RunUpdate} (h : ∀ r ∈ db.runs, u.apply r = r) :
  db.updateRuns u = db
  := by
  rw [updateRuns, Table.update_eq_self h]

theorem updateRuns_refl (db : DB) :
  db.updateRuns (RowUpdate.refl _) = db
  := updateRuns_eq_self (fun _ _ => rfl)

theorem updateRuns_congr {u v : RunUpdate} (h : ∀ r ∈ db.runs, u.apply r = v.apply r) :
  db.updateRuns u = db.updateRuns v
  := by
  rw [updateRuns, Table.update_congr h]
  rfl

theorem updateWaves_eq_self {u : WaveUpdate} (h : ∀ w ∈ db.waves, u.apply w = w) :
  db.updateWaves u = db
  := by
  rw [updateWaves, Table.update_eq_self h]

theorem updateWaves_congr {u v : WaveUpdate} (h : ∀ w ∈ db.waves, u.apply w = v.apply w) :
  db.updateWaves u = db.updateWaves v
  := by
  rw [updateWaves, Table.update_congr h]
  rfl

end Update

end DB

/-! ### Plans and parameters -/

/-- What a job is to execute; its position in a list of plans decides its first status and
its successor. -/
structure JobPlan where
  name : String
  jobType : JobType
  jobImage : String
  metadata : RawJSON
  deriving DecidableEq, Repr

/-- A run to be created on a repository, with the plans of its jobs. -/
structure RunPlan where
  id : RunID
  repoID : RepoID
  repoBaseRef : String
  sourceCommitSha : String
  repoSha0 : String
  stats : Option StatsMarker
  jobs : List JobPlan
  deriving DecidableEq, Repr

structure CreateWaveParams where
  id : WaveID
  migID : MigID
  specID : SpecID
  deriving DecidableEq, Repr

structure CreateWaveWithRunsParams where
  wave : CreateWaveParams
  runs : List RunPlan
  deriving DecidableEq, Repr

structure RestartRunParams where
  fromFailed : Bool
  expectedResumeCount : Int
  runID : RunID
  expectedAttempt : Int
  stats : Option StatsMarker
  jobs : List JobPlan
  deriving DecidableEq, Repr

structure CreateJobParams where
  id : JobID
  runID : RunID
  repoID : RepoID
  repoBaseRef : String
  attempt : Nat
  status : JobStatus
  jobType : JobType
  jobImage : String
  nextID : Option JobID
  name : String
  metadata : RawJSON
  repoShaIn : String
  deriving DecidableEq, Repr

end Ploy
