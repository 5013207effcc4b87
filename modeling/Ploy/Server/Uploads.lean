import Ploy.Run.Executions
import Ploy.Server.Diffs
import Ploy.Server.Requests

/-!
# Uploads

A node uploads the results of a job under the identifier of the job and its own. Both stay the same
when the job is retried, so that an upload does not tell which execution it is from. The server
serves uploads statement by statement, between the other operations on the store.
-/

namespace Ploy

/-! ### Handlers -/

/-- The characters of the identifiers that stand in URLs. -/
def isURLSafe (c : Char) : Bool :=
  c.isAlphanum || c == '_' || c == '-'

/-- The node that a request names in its header. -/
def parseNodeUUIDHeader (header : String) : Except String NodeID :=
  let value := trimSpace header
  if value = "" then .error "PLOY_NODE_UUID header is required"
  else if 64 < value.utf8ByteSize ∨ value.toList.all isURLSafe = false then
    .error "invalid PLOY_NODE_UUID header"
  else .ok ⟨value⟩

def requireNodeUUIDHeader (header : String) : Except HTTPError NodeID :=
  (parseNodeUUIDHeader header).mapError (⟨400, ·, none⟩)

def assertJobAssignedToNode (job : Job) (nodeID : NodeID) : Except HTTPError Unit :=
  if job.nodeID = some nodeID then .ok ()
  else .error ⟨403, "job not assigned to this node", none⟩

def getJobOrFail (db : DB) (jobID : JobID) : Except HTTPError Job :=
  match db.jobs.find? jobID with
  | none => .error ⟨404, "job not found", none⟩
  | some job => .ok job

def getJobInRunOrFail (db : DB) (runID : RunID) (jobID : JobID) : Except HTTPError Job :=
  match db.runs.find? runID with
  | none => .error ⟨404, "run not found", none⟩
  | some _ => do
      let job ← getJobOrFail db jobID
      if job.runID = runID then .ok job
      else .error ⟨400, "job does not belong to run", none⟩

/-- The limit on the body of an upload, in bytes. -/
def ingestMaxBodySize : Nat := 16 * 2 ^ 20

/-- The limit on the data in an upload, in bytes. -/
def ingestMaxDataSize : Nat := 10 * 2 ^ 20

/-- Compressed data, with the resume count of the execution it is from, which the server is not
told. -/
structure Blob where
  data : List UInt8
  resumeCount : Nat
  deriving DecidableEq, Repr

/-- A request to store compressed data for a job. -/
structure BlobUpload where
  runID : RunID
  jobID : JobID
  nodeHeader : String
  contentLength : Int
  blob : Blob
  deriving DecidableEq, Repr

/-- The checks on an upload of compressed data. -/
def createJobBlobHandler (required tooLarge : String) (req : BlobUpload) (db : DB) :
    Except HTTPError Job :=
  if (ingestMaxBodySize : Int) < req.contentLength then
    .error ⟨413, "payload exceeds body size cap", none⟩
  else if req.blob.data.length = 0 then .error ⟨400, required, none⟩
  else if ingestMaxDataSize < req.blob.data.length then .error ⟨413, tooLarge, none⟩
  else do
    let job ← getJobInRunOrFail db req.runID req.jobID
    let nodeID ← requireNodeUUIDHeader req.nodeHeader
    assertJobAssignedToNode job nodeID
    .ok job

def createJobDiffHandler : BlobUpload → DB → Except HTTPError Job :=
  createJobBlobHandler "patch is required" "diff size exceeds 10 MiB cap"

def createJobArtifactHandler : BlobUpload → DB → Except HTTPError Job :=
  createJobBlobHandler "bundle is required" "artifact bundle size exceeds 10 MiB cap"

structure SBOMPackage where
  package : String
  version : String
  deriving DecidableEq, Repr

/-- A request to store what a gate found in the build, with the resume count of the execution it is
from, which the server is not told. -/
structure SBOMUpload where
  jobID : JobID
  nodeHeader : String
  packages : List SBOMPackage
  resumeCount : Nat
  deriving DecidableEq, Repr

def isGateJobType (jobType : JobType) : Bool :=
  jobType = .preGate || jobType = .postGate

/-- The checks on an upload of packages. -/
def saveJobSBOMHandler (req : SBOMUpload) (db : DB) : Except HTTPError Job := do
  let nodeID ← requireNodeUUIDHeader req.nodeHeader
  let job ← getJobOrFail db req.jobID
  assertJobAssignedToNode job nodeID
  if job.status ≠ .running then
    .error ⟨409, "job status is " ++ job.status.text ++ ", expected Running", none⟩
  else if isGateJobType job.jobType = false then
    .error ⟨409, "job type is " ++ job.jobType.text ++ ", expected gate", none⟩
  else .ok job

/-- The rows that are written for packages: trimmed, in lower case, without blanks and
duplicates. -/
def sbomKeys (seen : List String) : List SBOMPackage → List (String × String)
  | [] => []
  | pkg :: rest =>
    let lib := (trimSpace pkg.package).toLower
    let ver := trimSpace pkg.version
    if lib = "" ∨ ver = "" then sbomKeys seen rest
    else if lib ++ "\x00" ++ ver ∈ seen then sbomKeys seen rest
    else (lib, ver) :: sbomKeys ((lib ++ "\x00" ++ ver) :: seen) rest

/-! ### What is stored -/

inductive BlobKind where
  | diff | artifact
  deriving DecidableEq, Repr

def BlobKind.handler : BlobKind → BlobUpload → DB → Except HTTPError Job
  | .diff => createJobDiffHandler
  | .artifact => createJobArtifactHandler

/-- A package of the build of a job, with the resume count of the execution that uploaded it. -/
structure SBOMRow where
  jobID : JobID
  repoID : RepoID
  lib : String
  ver : String
  resumeCount : Nat
  deriving DecidableEq, Repr

/-- The stored results of jobs. Artifact bundles are stored as diffs are. -/
structure Results where
  blobs : BlobKind → DiffTable Blob
  sboms : List SBOMRow

namespace Results

def empty : Results :=
  ⟨fun _ => DiffTable.empty, []⟩

def deleteSBOMRowsByJob (t : Results) (jobID : JobID) : Results :=
  { t with sboms := t.sboms.filter (·.jobID ≠ jobID) }

/-- A row is inserted unless one with its key is there. -/
def upsertSBOMRow (t : Results) (row : SBOMRow) : Results :=
  if t.sboms.any fun other =>
      other.jobID = row.jobID && other.repoID = row.repoID && other.lib = row.lib
        && other.ver = row.ver
  then t
  else { t with sboms := t.sboms ++ [row] }

end Results

/-- What is left to do for an upload that passed its checks. Compressed data is stored by inserting
a row and putting the data into the object store; if this fails, the row is deleted. Packages are
stored by deleting the rows of the job and inserting the new ones. -/
inductive PendingUpload where
  | insert (kind : BlobKind) (jobID : JobID) (blob : Blob)
  | put (kind : BlobKind) (jobID : JobID) (blob : Blob) (id : Nat)
  | rollback (kind : BlobKind) (jobID : JobID) (blob : Blob) (id : Nat)
  | deleteRows (job : Job) (resumeCount : Nat) (keys : List (String × String))
  | upsertRows (job : Job) (resumeCount : Nat) (keys : List (String × String))

namespace PendingUpload

/-- The job that an upload is for, and the resume count of the execution it is from. -/
def sender : PendingUpload → JobID × Nat
  | insert _ jobID blob => (jobID, blob.resumeCount)
  | put _ jobID blob _ => (jobID, blob.resumeCount)
  | rollback _ jobID blob _ => (jobID, blob.resumeCount)
  | deleteRows job resumeCount _ => (job.id, resumeCount)
  | upsertRows job resumeCount _ => (job.id, resumeCount)

/-- The next statement of an upload, which may fail, and what is left to do after it. -/
def proceed (succeeds : Bool) : PendingUpload → Results → Results × Option PendingUpload
  | insert kind jobID blob, t =>
    if succeeds then
      ({ t with blobs := Function.update t.blobs kind ((t.blobs kind).createDiff jobID blob) },
        some (put kind jobID blob (t.blobs kind).next))
    else (t, none)
  | put kind jobID blob id, t => (t, if succeeds then none else some (rollback kind jobID blob id))
  | rollback kind _ _ id, t =>
    (if succeeds then
      { t with blobs := Function.update t.blobs kind ((t.blobs kind).deleteDiff id) }
    else t, none)
  | deleteRows job resumeCount keys, t =>
    if succeeds then (t.deleteSBOMRowsByJob job.id, some (upsertRows job resumeCount keys))
    else (t, none)
  | upsertRows _ _ [], t => (t, none)
  | upsertRows job resumeCount ((lib, ver) :: rest), t =>
    if succeeds then
      (t.upsertSBOMRow ⟨job.id, job.repoID, lib, ver, resumeCount⟩,
        some (upsertRows job resumeCount rest))
    else (t, none)

end PendingUpload

/-! ### The server -/

/-- The store, the results and the uploads that are being served; and what the server does not
record: under which resume count each job runs, since it was last reset, and the resume count of
the last completion of it that was accepted. -/
structure ResultState where
  store : DB
  results : Results
  pending : List PendingUpload
  execution : JobID → Nat
  completedBy : JobID → Option Int

inductive ResultEvent where
  | store (op : Operation)
  | upload (kind : BlobKind) (req : BlobUpload)
  | sbom (req : SBOMUpload)
  | proceed (i : Nat) (succeeds : Bool)

namespace ResultState

/-- The jobs that a retry resets lose their packages, but neither their diffs nor their
artifacts. -/
def commit (s : ResultState) (op : Operation) (db : DB) : ResultState where
  store := db
  results :=
    match op.resets s.store with
    | none => s.results
    | some (ids, _) => ids.foldl Results.deleteSBOMRowsByJob s.results
  pending := s.pending
  execution id :=
    match op.resets s.store with
    | none => s.execution id
    | some (ids, count) => if id ∈ ids then count else s.execution id
  completedBy id :=
    match op.completes with
    | none => s.completedBy id
    | some input => if id = input.jobID then some input.resumeCount else s.completedBy id

/-- Requests that are refused change nothing and are left out. -/
def step : ResultEvent → ResultState → Option ResultState
  | .store op, s => (op.step s.store).map (s.commit op)
  | .upload kind req, s =>
    match kind.handler req s.store with
    | .error _ => none
    | .ok job => some { s with pending := s.pending ++ [.insert kind job.id req.blob] }
  | .sbom req, s =>
    match saveJobSBOMHandler req s.store with
    | .error _ => none
    | .ok job =>
      some { s with
        pending := s.pending ++ [.deleteRows job req.resumeCount (sbomKeys [] req.packages)] }
  | .proceed i succeeds, s =>
    match s.pending[i]? with
    | none => none
    | some p =>
      some { s with
        results := (p.proceed succeeds s.results).1
        pending := s.pending.take i ++ (p.proceed succeeds s.results).2.toList
          ++ s.pending.drop (i + 1) }

/-- Nothing has happened yet. -/
def Initial (s : ResultState) : Prop :=
  s.store.Initial ∧ s.results = Results.empty ∧ s.pending = [] ∧ (∀ id, s.execution id = 0)
    ∧ ∀ id, s.completedBy id = none

/-- The server under operations on the store and uploads. -/
def machine : Machine ResultState ResultEvent where
  init := Initial
  step := step

/-- The execution that takes part in an event. -/
def sender : ResultState × ResultEvent → Option (JobID × Nat)
  | (_, .store _) => none
  | (_, .upload _ req) => some (req.jobID, req.blob.resumeCount)
  | (_, .sbom req) => some (req.jobID, req.resumeCount)
  | (s, .proceed i _) => s.pending[i]?.map PendingUpload.sender

def resets : ResultState × ResultEvent → Option (List JobID × Nat)
  | (s, .store op) => op.resets s.store
  | _ => none

/-- A retry has reset the job since the execution began. -/
def Superseded (past : List (ResultState × ResultEvent)) (job : JobID) (count : Nat) : Prop :=
  ∃ x ∈ past, ∃ ids later, resets x = some (ids, later) ∧ job ∈ ids ∧ count < later

/-- Uploads arrive and are served while the job has not been reset since, except that packages may
arrive later if the job is not running then; and a retry resets no job that has a diff. -/
def timely (s : ResultState) : ResultEvent → Bool
  | .store op =>
    (op.resets s.store).all fun x => (s.results.blobs .diff).rows.all fun row => row.jobID ∉ x.1
  | .upload _ req => req.blob.resumeCount = s.execution req.jobID
  | .sbom req =>
    req.resumeCount = s.execution req.jobID
      || (s.store.jobs.find? req.jobID).all fun job => job.status ≠ .running
  | .proceed i _ => s.pending[i]?.all fun p => p.sender.2 = s.execution p.sender.1

end ResultState

/-! ### What the checks let through -/

theorem getJobOrFail_ok {db : DB} {jobID : JobID} {job : Job}
    (h : getJobOrFail db jobID = .ok job) :
  db.jobs.find? jobID = some job
  := by
  unfold getJobOrFail at h
  split at h
  · cases h
  · rename_i hfind
    cases h
    apply hfind

theorem except_bind_ok {ε α β : Type} {x : Except ε α} {f : α → Except ε β} {b : β}
    (h : (x >>= f) = .ok b) :
  ∃ a, x = .ok a ∧ f a = .ok b
  := by
  cases x with
  | error e => cases h
  | ok a => exact ⟨a, rfl, h⟩

theorem saveJobSBOMHandler_ok {req : SBOMUpload} {db : DB} {job : Job}
    (h : saveJobSBOMHandler req db = .ok job) :
  db.jobs.find? req.jobID = some job ∧ job.status = .running
  := by
  unfold saveJobSBOMHandler at h
  obtain ⟨nodeID, -, h⟩ := except_bind_ok h
  obtain ⟨found, hfound, h⟩ := except_bind_ok h
  obtain ⟨_, -, h⟩ := except_bind_ok h
  split at h
  · cases h
  rename_i hrunning
  split at h
  · cases h
  cases h
  exact ⟨getJobOrFail_ok hfound, not_not.mp hrunning⟩

/-! ### Results of executions -/

namespace Results

theorem blobs_foldl_delete (t : Results) (ids : List JobID) :
  (ids.foldl deleteSBOMRowsByJob t).blobs = t.blobs
  := by
  induction ids generalizing t with
  | nil => rfl
  | cons id rest ih => apply ih

theorem mem_sboms_foldl_delete {t : Results} {ids : List JobID} {row : SBOMRow} :
  row ∈ (ids.foldl deleteSBOMRowsByJob t).sboms ↔ row ∈ t.sboms ∧ row.jobID ∉ ids
  := by
  induction ids generalizing t with
  | nil => simp
  | cons id rest ih =>
    rw [List.foldl_cons, ih]
    simp [deleteSBOMRowsByJob, and_assoc]

/-- The diffs and the packages of every job are those of one execution of it. -/
structure Of (execution : JobID → Nat) (t : Results) : Prop where
  diffs : ∀ row ∈ (t.blobs .diff).rows, row.patch.resumeCount = execution row.jobID
  sboms : ∀ row ∈ t.sboms, row.resumeCount = execution row.jobID

end Results

/-- An upload stores results of the execution that sends it. -/
theorem PendingUpload.proceed_of {execution : JobID → Nat} {t : Results} (h : t.Of execution)
    (p : PendingUpload) (hp : p.sender.2 = execution p.sender.1) (succeeds : Bool) :
  (p.proceed succeeds t).1.Of execution
  := by
  cases p with
  | insert kind jobID blob =>
    simp only [proceed]
    split
    · refine ⟨?_, h.sboms⟩
      intro row hrow
      cases kind with
      | diff =>
        simp only [Function.update_self] at hrow
        rcases List.mem_append.mp hrow with hrow | hrow
        · apply h.diffs row hrow
        · rw [List.mem_singleton.mp hrow]
          apply hp
      | artifact => apply h.diffs row hrow
    · apply h
  | put kind jobID blob id => apply h
  | rollback kind jobID blob id =>
    simp only [proceed]
    split
    · refine ⟨?_, h.sboms⟩
      intro row hrow
      cases kind with
      | diff =>
        simp only [Function.update_self] at hrow
        apply h.diffs row (List.mem_of_mem_filter hrow)
      | artifact => apply h.diffs row hrow
    · apply h
  | deleteRows job resumeCount keys =>
    simp only [proceed]
    split
    · refine ⟨h.diffs, ?_⟩
      intro row hrow
      apply h.sboms row (List.mem_of_mem_filter hrow)
    · apply h
  | upsertRows job resumeCount keys =>
    cases keys with
    | nil => apply h
    | cons key rest =>
      simp only [proceed]
      split
      · unfold Results.upsertSBOMRow
        split
        · apply h
        · refine ⟨h.diffs, ?_⟩
          intro row hrow
          rcases List.mem_append.mp hrow with hrow | hrow
          · apply h.sboms row hrow
          · rw [List.mem_singleton.mp hrow]
            apply hp
      · apply h

namespace ResultState

/-- The jobs of current attempts that have not succeeded are in the execution that their run is in,
those that succeeded were completed in theirs, and the results are of these executions. -/
structure Sound (s : ResultState) : Prop where
  wellFormed : WellFormed s.store
  current : ∀ j ∈ s.store.jobs, ∀ r ∈ s.store.runs, j.runID = r.id → j.attempt = r.attempt →
    j.status ≠ .success → s.execution j.id = r.stats.resumeCount
  unknown : ∀ id, s.execution id ≠ 0 → ∃ j ∈ s.store.jobs, j.id = id
  accepted : ∀ j ∈ s.store.jobs, j.status = .success →
    s.completedBy j.id = some (s.execution j.id : Int)
  results : s.results.Of s.execution

/-- A store without results is sound. -/
theorem Initial.sound {s : ResultState} (h : s.Initial) :
  s.Sound
  := by
  obtain ⟨hstore, hresults, -, hexecution, -⟩ := h
  have hjobs : ∀ j, j ∉ s.store.jobs := by
    intro j hj
    rw [← Table.mem_rows, hstore.2.2] at hj
    cases hj
  constructor
  · apply hstore.wellFormed
  · intro j hj
    apply absurd hj (hjobs j)
  · intro id hid
    apply absurd (hexecution id) hid
  · intro j hj
    apply absurd hj (hjobs j)
  · rw [hresults]
    constructor <;> intro row hrow <;> cases hrow

section Commit

variable {s : ResultState} {op : Operation} {db : DB}

theorem execution_commit_of_none (hresets : op.resets s.store = none) :
  (s.commit op db).execution = s.execution
  := by
  simp only [commit, hresets]

theorem execution_commit_of_some {ids : List JobID} {count : Nat}
    (hresets : op.resets s.store = some (ids, count)) (id : JobID) :
  (s.commit op db).execution id = if id ∈ ids then count else s.execution id
  := by
  simp only [commit, hresets]

/-- What a restart resets are jobs of one run that have not succeeded. -/
theorem resets_spec (h : s.Sound) (hstep : op.step s.store = some db) {ids : List JobID}
    {count : Nat} (hresets : op.resets s.store = some (ids, count)) :
  ∃ r ∈ s.store.runs, count = r.stats.resumeCount + 1
    ∧ (∀ j ∈ s.store.jobs, j.id ∈ ids → j.runID = r.id ∧ j.status ≠ .success
      ∧ s.execution j.id = r.stats.resumeCount)
    ∧ (∀ id ∈ ids, ∃ j ∈ s.store.jobs, j.id = id)
    ∧ ∀ j' ∈ db.jobs, ∀ r' ∈ db.runs, j'.runID = r'.id → j'.attempt = r'.attempt →
      j'.status ≠ .success →
      (j'.id ∈ ids ∧ r'.stats.resumeCount = count)
        ∨ (j'.id ∉ ids ∧ j' ∈ s.store.jobs ∧ r' ∈ s.store.runs)
  := by
  cases op with
  | restartRun newIDs arg =>
    cases hmode : arg.fromFailed with
    | false => simp [Operation.resets, hmode] at hresets
    | true =>
      obtain ⟨r, hr, suffix, hsuffix, hsome, u, hkeep, hjobs, hruns⟩ :=
        Operation.resets_effect hstep hmode
      rw [hresets] at hsome
      obtain ⟨rfl, rfl⟩ := Prod.mk.inj (Option.some.inj hsome)
      have hmem : ∀ j ∈ s.store.jobs, j.id ∈ suffix.map Job.id → j ∈ suffix := by
        intro j hj hid
        obtain ⟨k, hk, hkid⟩ := List.mem_map.mp hid
        obtain rfl := Table.eq_of_key_eq (mem_of_failedJobSuffix hsuffix hk).1 hj hkid
        apply hk
      refine ⟨r, hr, rfl, ?_, ?_, ?_⟩
      · intro j hj hid
        obtain ⟨-, hrun, hattempt, hne⟩ := mem_of_failedJobSuffix hsuffix (hmem j hj hid)
        exact ⟨hrun, hne, h.current j hj r hr hrun hattempt hne⟩
      · intro id hid
        obtain ⟨k, hk, rfl⟩ := List.mem_map.mp hid
        exact ⟨k, (mem_of_failedJobSuffix hsuffix hk).1, rfl⟩
      · intro j' hj' r' hr' hrun hattempt hne
        rw [hjobs, DB.mem_updateJobs] at hj'
        rw [hruns, DB.mem_updateRuns] at hr'
        obtain ⟨k, hk, rfl⟩ := hj'
        obtain ⟨r₀, hr₀, rfl⟩ := hr'
        rw [u.runID_apply, RunUpdate.id_apply] at hrun
        rw [u.id_apply]
        by_cases hid : r₀.id = r.id
        · obtain rfl := Table.eq_of_key_eq hr₀ hr hid
          rw [RowUpdate.onlyIf_pos (by simp), attempt_resumeRow, u.attempt_apply] at hattempt
          left
          rw [RowUpdate.onlyIf_pos (by simp), resumeCount_resumeRow]
          refine ⟨?_, rfl⟩
          by_contra hout
          apply hne
          rw [hkeep k hout]
          apply success_of_not_mem_failedJobSuffix hsuffix hk hrun hattempt hout
        · right
          rw [RowUpdate.onlyIf_neg (by simpa using hid)]
          have hout : k.id ∉ suffix.map Job.id := by
            intro hin
            obtain ⟨-, hrun', -, -⟩ := mem_of_failedJobSuffix hsuffix (hmem k hk hin)
            apply hid (hrun.symm.trans hrun')
          rw [hkeep k hout]
          exact ⟨hout, hk, hr₀⟩
  | _ => cases hresets

theorem execution_le_commit (h : s.Sound) (hstep : op.step s.store = some db) (id : JobID) :
  s.execution id ≤ (s.commit op db).execution id
  := by
  cases hresets : op.resets s.store with
  | none => rw [execution_commit_of_none hresets]
  | some x =>
    obtain ⟨ids, count⟩ := x
    obtain ⟨r, -, rfl, hids, hknown, -⟩ := resets_spec h hstep hresets
    rw [execution_commit_of_some hresets]
    split
    · rename_i hid
      obtain ⟨j, hj, rfl⟩ := hknown id hid
      rw [(hids j hj hid).2.2]
      apply Nat.le_succ
    · apply Nat.le_refl

/-- A job of the current attempt is in the current execution. -/
theorem current_commit (h : s.Sound) (hstep : op.step s.store = some db) :
  ∀ j ∈ db.jobs, ∀ r ∈ db.runs, j.runID = r.id → j.attempt = r.attempt → j.status ≠ .success →
    (s.commit op db).execution j.id = r.stats.resumeCount
  := by
  intro j' hj' r' hr' hrun hattempt hne
  cases hresets : op.resets s.store with
  | none =>
    rw [execution_commit_of_none hresets]
    rcases Operation.unsuccessful_of h.wellFormed hstep hresets hj' hr' hrun hattempt hne with
      ⟨hnew, hzero⟩ | ⟨j, hj, r, hr, hid, hjrun, hjattempt, hjne, hcount⟩
    · rw [hzero]
      by_contra hexecution
      obtain ⟨j, hj, hid⟩ := h.unknown j'.id hexecution
      apply hnew j hj hid
    · rw [← hid, hcount]
      apply h.current j hj r hr hjrun hjattempt hjne
  | some x =>
    obtain ⟨ids, count⟩ := x
    obtain ⟨r, -, -, -, -, hcases⟩ := resets_spec h hstep hresets
    rw [execution_commit_of_some hresets]
    rcases hcases j' hj' r' hr' hrun hattempt hne with ⟨hin, hcount⟩ | ⟨hout, hj, hr⟩
    · rw [if_pos hin, hcount]
    · rw [if_neg hout]
      apply h.current j' hj r' hr hrun hattempt hne

/-- A job that succeeded was completed by its current execution. -/
theorem accepted_commit (h : s.Sound) (hstep : op.step s.store = some db) :
  ∀ j ∈ db.jobs, j.status = .success →
    (s.commit op db).completedBy j.id = some ((s.commit op db).execution j.id : Int)
  := by
  intro j' hj' hsuccess
  cases hcompletes : op.completes with
  | none =>
    rcases Operation.success_of h.wellFormed hstep hj' hsuccess with
      ⟨j, hj, hid, hs⟩ | ⟨input, hinput, -⟩
    · have hsame : (s.commit op db).execution j'.id = s.execution j'.id := by
        cases hresets : op.resets s.store with
        | none => rw [execution_commit_of_none hresets]
        | some x =>
          obtain ⟨ids, count⟩ := x
          obtain ⟨r, -, -, hids, -, -⟩ := resets_spec h hstep hresets
          rw [execution_commit_of_some hresets, if_neg]
          intro hin
          rw [← hid] at hin
          apply (hids j hj hin).2.1 hs
      rw [hsame, ← hid]
      simp only [commit, hcompletes]
      apply h.accepted j hj hs
    · rw [hcompletes] at hinput
      cases hinput
  | some input =>
    cases op with
    | completeJob reported =>
      cases hcompletes
      have hresets : (Operation.completeJob input).resets s.store = none := rfl
      rw [execution_commit_of_none hresets]
      have ht := hstep
      obtain ⟨_, ht⟩ := committed_eq_some.mp ht
      obtain ⟨r, hr, pre, j, post, hchain, hcompletable, -⟩ :=
        completeJob_effect h.wellFormed ht
      obtain ⟨hj, hrun, hattempt⟩ := hchain.mem_iff.mp
        (List.mem_append_right pre List.mem_cons_self)
      by_cases hid : j'.id = input.jobID
      · simp only [commit, Operation.completes, if_pos hid]
        rw [hid, ← hcompletable.job,
          h.current j hj r hr hrun hattempt (by simp [hcompletable.running]),
          hcompletable.resumeCount]
      · simp only [commit, Operation.completes, if_neg hid]
        rcases Operation.success_of h.wellFormed hstep hj' hsuccess with
          ⟨k, hk, hkid, hs⟩ | ⟨other, hother, hown⟩
        · rw [← hkid]
          apply h.accepted k hk hs
        · cases hother
          apply absurd hown hid
    | _ => cases hcompletes

/-- A timely operation keeps results and executions in step. -/
theorem sound_commit (h : s.Sound) (hstep : op.step s.store = some db)
    (htimely : s.timely (.store op) = true) :
  (s.commit op db).Sound
  := by
  have hrefines := Operation.step_refines h.wellFormed hstep
  constructor
  · apply hrefines.wellFormed
  · apply current_commit h hstep
  · intro id hid
    have hknown : ∃ j ∈ s.store.jobs, j.id = id := by
      cases hresets : op.resets s.store with
      | none =>
        rw [execution_commit_of_none hresets] at hid
        apply h.unknown id hid
      | some x =>
        obtain ⟨ids, count⟩ := x
        obtain ⟨r, -, -, -, hknown, -⟩ := resets_spec h hstep hresets
        rw [execution_commit_of_some hresets] at hid
        split at hid
        · rename_i hin
          apply hknown id hin
        · apply h.unknown id hid
    obtain ⟨j, hj, rfl⟩ := hknown
    obtain ⟨j', hj', hsame, -⟩ := hrefines.evolves.job h.wellFormed hj
    exact ⟨j', hj', hsame⟩
  · apply accepted_commit h hstep
  · cases hresets : op.resets s.store with
    | none =>
      rw [execution_commit_of_none hresets]
      simp only [commit, hresets]
      apply h.results
    | some x =>
      obtain ⟨ids, count⟩ := x
      simp only [timely, hresets, Option.all_some, List.all_eq_true, decide_eq_true_eq] at htimely
      constructor
      · intro row hrow
        simp only [commit, hresets, Results.blobs_foldl_delete] at hrow
        rw [execution_commit_of_some hresets, if_neg (htimely row hrow)]
        apply h.results.diffs row hrow
      · intro row hrow
        simp only [commit, hresets, Results.mem_sboms_foldl_delete] at hrow
        rw [execution_commit_of_some hresets, if_neg hrow.2]
        apply h.results.sboms row hrow.1

end Commit

/-- Every timely event keeps results and executions in step. -/
theorem Sound.step {s s' : ResultState} (h : s.Sound) {e : ResultEvent}
    (htimely : s.timely e = true) (hstep : machine.step e s = some s') :
  s'.Sound
  := by
  cases e with
  | store op =>
    obtain ⟨db, hdb, rfl⟩ := Option.map_eq_some_iff.mp hstep
    apply sound_commit h hdb htimely
  | upload | sbom =>
    simp only [machine, ResultState.step] at hstep
    split at hstep
    · cases hstep
    · cases hstep
      exact ⟨h.wellFormed, h.current, h.unknown, h.accepted, h.results⟩
  | proceed i succeeds =>
    simp only [machine, ResultState.step] at hstep
    split at hstep
    · cases hstep
    · rename_i p hp
      cases hstep
      simp only [timely, hp, Option.all_some, decide_eq_true_eq] at htimely
      exact ⟨h.wellFormed, h.current, h.unknown, h.accepted,
        p.proceed_of h.results htimely succeeds⟩

theorem Sound.execution_le {s s' : ResultState} (h : s.Sound) {e : ResultEvent}
    (hstep : machine.step e s = some s') (id : JobID) :
  s.execution id ≤ s'.execution id
  := by
  cases e with
  | store op =>
    obtain ⟨db, hdb, rfl⟩ := Option.map_eq_some_iff.mp hstep
    apply execution_le_commit h hdb
  | _ =>
    simp only [machine, ResultState.step] at hstep
    split at hstep
    · cases hstep
    · cases hstep
      apply Nat.le_refl

/-- A timely upload comes from the current execution. -/
theorem sender_current {s s' : ResultState} {e : ResultEvent} (htimely : s.timely e = true)
    (hstep : machine.step e s = some s') {job : JobID} {count : Nat}
    (hsender : sender (s, e) = some (job, count)) :
  count = s.execution job
  := by
  cases e with
  | store op => cases hsender
  | upload kind req =>
    cases hsender
    simpa [timely] using htimely
  | sbom req =>
    cases hsender
    simp only [timely, Bool.or_eq_true, decide_eq_true_eq] at htimely
    rcases htimely with hcurrent | hidle
    · apply hcurrent
    · -- the handler refuses packages for a job that is not running
      simp only [machine, ResultState.step] at hstep
      split at hstep
      · cases hstep
      · rename_i found hok
        obtain ⟨hfind, hrunning⟩ := saveJobSBOMHandler_ok hok
        rw [hfind] at hidle
        simp [hrunning] at hidle
  | proceed i succeeds =>
    obtain ⟨p, hp, hpair⟩ := Option.map_eq_some_iff.mp hsender
    simp only [timely, hp, Option.all_some, decide_eq_true_eq, hpair] at htimely
    apply htimely

/-- A job is never in an earlier execution than one it was reset to. -/
theorem resets_le {past : List (ResultState × ResultEvent)} {s : ResultState}
    (h : machine.Execution past s) (htimely : ∀ x ∈ past, x.1.timely x.2 = true) :
  s.Sound ∧ ∀ x ∈ past, ∀ ids count, resets x = some (ids, count) → ∀ id ∈ ids,
    count ≤ s.execution id
  := by
  induction h with
  | start h =>
    use h.sound
    intro x hx
    cases hx
  | @step past s s' e hexec hstep ih =>
    obtain ⟨hsound, hle⟩ := ih fun x hx => htimely x (List.mem_cons_of_mem _ hx)
    have he := htimely (s, e) List.mem_cons_self
    use hsound.step he hstep
    intro x hx ids count hresets id hid
    rcases List.mem_cons.mp hx with rfl | hx
    · cases e with
      | store op =>
        obtain ⟨db, hdb, rfl⟩ := Option.map_eq_some_iff.mp hstep
        rw [execution_commit_of_some hresets, if_pos hid]
      | _ => cases hresets
    · apply (hle x hx ids count hresets id hid).trans (hsound.execution_le hstep id)

/-- When uploads are timely and no retry resets a job that has a diff, the diff listed for a job
that succeeded, and its packages, are from the execution whose completion was accepted, and no
upload is accepted from an execution that a retry has superseded. -/
theorem results_of_completed_execution {past : List (ResultState × ResultEvent)} {s : ResultState}
    (h : machine.Execution past s) (htimely : ∀ x ∈ past, x.1.timely x.2 = true) :
  (∀ j ∈ s.store.jobs, j.status = .success → ∃ count : Nat, s.completedBy j.id = some (count : Int)
      ∧ (∀ row, (s.results.blobs .diff).getLatestDiffByJob j.id = some row →
        row.patch.resumeCount = count)
      ∧ ∀ row ∈ s.results.sboms, row.jobID = j.id → row.resumeCount = count)
    ∧ ∀ later x earlier, past = later ++ x :: earlier → ∀ job count,
      sender x = some (job, count) → ¬ Superseded earlier job count
  := by
  constructor
  · obtain ⟨hsound, -⟩ := resets_le h htimely
    intro j hj hsuccess
    refine ⟨s.execution j.id, hsound.accepted j hj hsuccess, ?_, ?_⟩
    · intro row hrow
      obtain ⟨hmem, hjob⟩ := DiffTable.getLatestDiffByJob_some hrow
      rw [← hjob]
      apply hsound.results.diffs row hmem
    · intro row hrow hjob
      rw [← hjob]
      apply hsound.results.sboms row hrow
  · induction h with
    | start _ =>
      intro later x earlier hpast
      simp at hpast
    | @step past s s' e hexec hstep ih =>
      have hbefore : ∀ x ∈ past, x.1.timely x.2 = true :=
        fun x hx => htimely x (List.mem_cons_of_mem _ hx)
      intro later x earlier hpast job count hsender
      cases later with
      | nil =>
        obtain ⟨rfl, rfl⟩ := List.cons.inj hpast
        rintro ⟨y, hy, ids, reset, hresets, hid, hlt⟩
        have hcurrent : count = s.execution job :=
          sender_current (htimely _ List.mem_cons_self) hstep hsender
        have hle := (resets_le hexec hbefore).2 y hy ids reset hresets job hid
        omega
      | cons _ later =>
        obtain ⟨-, hpast⟩ := List.cons.inj hpast
        apply ih hbefore later x earlier hpast job count hsender

end ResultState

/-! ### Uploads of a run that is retried -/

namespace Sample

/-- The server before anything has happened. -/
def resultStart : ResultState :=
  ⟨store, Results.empty, [], fun _ => 0, fun _ => none⟩

theorem resultStart_initial : resultStart.Initial :=
  ⟨initial, rfl, rfl, fun _ => rfl, fun _ => rfl⟩

/-- A diff of the second job, from the execution with the given resume count. -/
def diffUpload (count : Nat) : ResultEvent :=
  .upload .diff ⟨⟨"r"⟩, ⟨"j1"⟩, "n1", 4, ⟨[31, 139], count⟩⟩

/-- The packages that the gate found. -/
def gateUpload : ResultEvent :=
  .sbom ⟨⟨"j0"⟩, "n1", [⟨"Lib", "1.0"⟩, ⟨"lib ", "1.0"⟩], 0⟩

/-- The run up to the retry of its second job, which is then claimed again. The gate uploads its
packages while it runs. -/
def retried : List ResultEvent :=
  [.store create, .store (.claimJob ⟨"n1"⟩ []), gateUpload, .proceed 0 true, .proceed 0 true,
    .proceed 0 true, .store (.completeJob (report "j0" .success terminal_success 0)),
    .store (.claimJob ⟨"n1"⟩ []), .store (.completeJob (report "j1" .fail terminal_fail 0)),
    .store (.restartRun (fun _ => ⟨"x"⟩) retry), .store (.claimJob ⟨"n1"⟩ [])]

/-- A diff arrives from the execution with the given resume count, and the second execution is
completed. -/
def completedAfter (count : Nat) : List ResultEvent :=
  retried ++ [diffUpload count, .proceed 0 true, .proceed 0 true,
    .store (.completeJob (report "j1" .success terminal_success 1))]

/-- The second job succeeded in its second execution, and the diff listed for it is from the
execution with the given resume count. -/
def listed (count : Nat) (s : ResultState) : Bool :=
  s.store.jobs.rows.any fun j =>
    j.status = .success && s.completedBy j.id = some 1
      && ((s.results.blobs .diff).getLatestDiffByJob j.id).any (·.patch.resumeCount = count)

theorem listed_spec {count : Nat} {s : ResultState} (h : listed count s = true) :
  ∃ j ∈ s.store.jobs, j.status = .success ∧ s.completedBy j.id = some 1
    ∧ ∃ row, (s.results.blobs .diff).getLatestDiffByJob j.id = some row
      ∧ row.patch.resumeCount = count
  := by
  simp only [listed, List.any_eq_true, Bool.and_eq_true, decide_eq_true_eq, Option.any_eq_true,
    Table.mem_rows] at h
  obtain ⟨j, hj, ⟨hs, hc⟩, row, hrow, hcount⟩ := h
  exact ⟨j, hj, hs, hc, row, hrow, hcount⟩

end Sample

namespace ResultState

/-- The second execution uploads its diff in time: it is the one that is listed. -/
theorem results_of_completed_execution_sample :
  ∃ past s, machine.Execution past s ∧ (∀ x ∈ past, x.1.timely x.2 = true)
    ∧ ∃ j ∈ s.store.jobs, j.status = .success
      ∧ ∃ count : Nat, s.completedBy j.id = some (count : Int)
      ∧ ∃ row, (s.results.blobs .diff).getLatestDiffByJob j.id = some row
        ∧ row.patch.resumeCount = count
  := by
  have hrun : ((machine.restrict timely).follow Sample.resultStart
      (Sample.completedAfter 1)).any (Sample.listed 1) = true := by
    decide +kernel
  obtain ⟨s, hfollow, hlisted⟩ := (Option.any_eq_true _ _).mp hrun
  obtain ⟨past, hexec, htimely⟩ :=
    Machine.Execution.of_follow_restrict Sample.resultStart_initial hfollow
  obtain ⟨j, hj, hsuccess, -, row, hrow, -⟩ := Sample.listed_spec hlisted
  obtain ⟨count, hcount, hdiff, -⟩ :=
    (results_of_completed_execution hexec htimely).1 j hj hsuccess
  exact ⟨past, s, hexec, htimely, j, hj, hsuccess, count, hcount, row, hrow, hdiff row hrow⟩

/-- The diff of the first execution arrives after the retry, and is the one listed for the job when
the second execution, which uploads none, is completed. -/
theorem late_diff_listed :
  ∃ past s, machine.Execution past s
    ∧ ∃ j ∈ s.store.jobs, j.status = .success ∧ s.completedBy j.id = some 1
      ∧ ∃ row, (s.results.blobs .diff).getLatestDiffByJob j.id = some row
        ∧ row.patch.resumeCount = 0
  := by
  have hrun : (machine.follow Sample.resultStart (Sample.completedAfter 0)).any (Sample.listed 0)
      = true := by
    decide +kernel
  obtain ⟨s, hfollow, hlisted⟩ := (Option.any_eq_true _ _).mp hrun
  obtain ⟨past, hexec, -⟩ :=
    (Machine.Execution.start Sample.resultStart_initial).follow hfollow
  exact ⟨_, s, hexec, Sample.listed_spec hlisted⟩

end ResultState

end Ploy
