import Ploy.Foundations.Calls
import Ploy.Domain.Types

/-!
# A claimed job on its node

What a node does with a job that it claimed, from the claim to the release of the slot that it took
for it: the claim loop, the start of the execution, and the executions of gates and migration
steps. Everything outside of this logic is a call, which may also panic.
-/

namespace Ploy

namespace NodeAgent

open Program

/-! ### What is passed around -/

/-- An error; `cancelled` tells whether it wraps the end of a context. -/
structure GoError where
  text : String
  cancelled : Bool
  deriving DecidableEq, Repr

def GoError.wrap (context : String) (e : GoError) : GoError :=
  ⟨context ++ ": " ++ e.text, e.cancelled⟩

/-- Two errors joined into one, where there are two. -/
def joinErrors : Option GoError → Option GoError → Option GoError
  | some a, some b => some ⟨a.text ++ "\n" ++ b.text, a.cancelled || b.cancelled⟩
  | some a, none => some a
  | none, b => b

structure StackExpectation where
  language : String
  tool : String
  release : String
  deriving DecidableEq, Repr

structure StackGatePhaseSpec where
  enabled : Bool
  expect : Option StackExpectation
  deriving DecidableEq, Repr

structure StackGateSpec where
  inbound : Option StackGatePhaseSpec
  outbound : Option StackGatePhaseSpec
  deriving DecidableEq, Repr

/-- A specification, as far as it is read here: the stack gates of its steps, and whether it has a
build gate that is disabled. -/
structure ClaimSpec where
  steps : List (Option StackGateSpec)
  buildGateDisabled : Bool
  deriving DecidableEq, Repr

/-- The response to a claim, as far as it is read here. The job type is text. -/
structure ClaimResponse where
  runID : RunID
  jobID : JobID
  resumeCount : Nat
  jobType : String
  jobName : String
  nextID : Option JobID
  stepIndex : Option Int
  spec : String
  deriving DecidableEq, Repr

/-- A request to execute a job. -/
structure StartRunRequest where
  runID : RunID
  jobID : JobID
  resumeCount : Nat
  jobType : String
  jobName : String
  nextID : Option JobID
  stepIndex : Option Int
  migSpec : Option ClaimSpec
  deriving DecidableEq, Repr

/-- The statistics that go with a status, as far as they are read: without a resume count, it is
taken to be zero. -/
structure Stats where
  error : Option String
  exitCode : Option Int
  resumeCount : Option Nat
  deriving DecidableEq, Repr

structure HTTPResponse where
  statusCode : Nat
  body : String
  deriving DecidableEq, Repr

/-! ### Calls -/

/-- What can fail with an error. -/
inductive Attempt where
  | acquireSlot | ensureUploader | newClaimRequest
  | ensureRunDirectories | ensureJobDirectories | jobMounts | cleanupJobRuntime
  | initExecutionContext | newArtifactLogWriter | prepareStickyWorkspace
  | buildGateManifest | clearGateOutcomes | persistGateOutcomes
  | saveJobImageName (image : String) | computeWorkspaceTreeSHA | materializeJobResources
  | advanceWorkspaceBaseline (diffUploaded : Bool)
  deriving DecidableEq, Repr

/-- What has nothing to report. -/
inductive Effect where
  | releaseSlot | cancelContext
  | addJob (id : JobID) | deleteJob (id : JobID) | startRemoteCancellationWatch
  | emitRunEvent (runID : RunID) (jobID : JobID) (level message : String)
  | cleanupExecutionContext | closeArtifactLogs | uploadRepoArtifactsIfPresent
  | persistGateStack | persistFirstGateFailureLog | buildStats
  | loadPersistedStack | persistContainerInspectArtifact
  deriving DecidableEq, Repr

/-- The calls, with what they return. -/
inductive Call : Type → Type where
  | attempt (a : Attempt) : Call (Except GoError Unit)
  | perform (e : Effect) : Call Unit
  | sendClaim : Call (Except GoError HTTPResponse)
  | decodeClaim : Call (Except GoError ClaimResponse)
  | parseSpec (spec : String) : Call (Except GoError (Option ClaimSpec))
  | jobInMap (id : JobID) : Call Bool
  | runGate : Call (Option Bool × Option GoError)
  | runContainer : Call (Int × Option GoError)
  | buildMigManifest (stepIndex : Int) : Call (Except GoError String)
  | computeRepoSHAOut : Call (Except GoError String)
  | uploadDiff : Call (Except GoError Bool)
  | deriveContainerExitError : Call String
  | uploadJobStatus (jobID : JobID) (status : JobStatus) (exitCode : Option Int) (stats : Stats)
      (repoSHAOut : String) : Call (Except GoError Unit)

/-- The value of a panic. -/
structure Panic where
  value : String
  deriving DecidableEq, Repr

abbrev Go := Program Call Panic

def attempt (a : Attempt) : Go (Except GoError Unit) :=
  issue (.attempt a)

def perform (e : Effect) : Go Unit :=
  issue (.perform e)

/-! ### Reporting -/

def jobStatusFromRunError (e : GoError) : JobStatus :=
  if e.cancelled then .cancelled else .error

def jobStatusFromExitCode (exitCode : Int) : JobStatus :=
  if exitCode = 0 then .success
  else if exitCode = 1 then .fail
  else .error

def eventLevelFromErr (e : GoError) : String :=
  if e.cancelled then "warn" else "error"

/-- The event of an error of a run; a run without identifier has no events. -/
def emitRunException (runID : RunID) (jobID : JobID) (message : String) (e : GoError) : Go Unit :=
  Program.when (runID.isZero = false)
    (perform (.emitRunEvent runID jobID (eventLevelFromErr e) message))

/-- A retried execution names its resume count in the statistics. -/
def Stats.forRequest (stats : Stats) (req : StartRunRequest) : Stats :=
  if 0 < req.resumeCount then { stats with resumeCount := some req.resumeCount } else stats

def uploadStatus (req : StartRunRequest) (status : JobStatus) (exitCode : Option Int)
    (stats : Stats) (repoSHAOut : String) : Go (Except GoError Unit) :=
  issue (.uploadJobStatus req.jobID status exitCode (stats.forRequest req) (trimSpace repoSHAOut))

/-- The upload of the status of an execution that ended with an error. -/
def uploadFailureStatus (req : StartRunRequest) (e : GoError) : Go Unit := do
  let status := jobStatusFromRunError e
  let exitCode := if status = .error then some (-1) else none
  emitRunException req.runID req.jobID "node failed before container execution" e
  perform .buildStats
  let _ ← uploadStatus req status exitCode ⟨some e.text, none, none⟩ ""
  pure ()

/-- The upload of the status of an execution that ran its container. -/
def reportTerminalStatus (req : StartRunRequest) (runErr : Option GoError) (exitCode : Int)
    (stats : Stats) (repoSHAOut : String) : Go Unit :=
  match runErr with
  | some e => do
      let status := jobStatusFromRunError e
      emitRunException req.runID req.jobID "node runtime execution error" e
      let _ ← uploadStatus req status (if status = .error then some (-1) else none) stats repoSHAOut
      pure ()
  | none => do
      let _ ← uploadStatus req (jobStatusFromExitCode exitCode) (some exitCode) stats repoSHAOut
      pure ()

/-! ### Gates -/

/-- What the deferred calls of a gate find: whether the runtime and the logs are open, and whether
the artifacts are wanted. -/
structure GateDefers where
  runtime : Bool
  logs : Bool
  artifacts : Bool
  deriving DecidableEq, Repr

/-- The deferred calls of a gate. -/
def gateExit (d : GateDefers) : Go Unit := do
  Program.when (d.runtime = true) (perform .cleanupExecutionContext)
  Program.when (d.logs = true) (perform .closeArtifactLogs)
  Program.when (d.artifacts = true) (perform .uploadRepoArtifactsIfPresent)

/-- The end of a gate that failed to run: its artifacts are wanted. -/
def failGate (d : GateDefers) (req : StartRunRequest) (e : GoError) : Go Unit :=
  (uploadFailureStatus req e).deferred (gateExit { d with artifacts := true })

/-- The upload of the status of a gate that ran. -/
def reportGate (d : GateDefers) (req : StartRunRequest) (passed : Bool) : Go Unit := do
  let guarded {α : Type} (p : Go α) : Go α := p.onPanic (gateExit d)
  guarded (perform .persistGateStack)
  Program.when (passed = false) (guarded (perform .persistFirstGateFailureLog))
  if passed then
    match ← guarded (issue .computeRepoSHAOut) with
    | .error _ =>
      Program.deferred (do
        perform .buildStats
        let _ ← uploadStatus req .error (some (-1)) ⟨none, none, none⟩ ""
        pure ()) (gateExit { d with artifacts := true })
    | .ok repoSHAOut =>
      Program.deferred (do
        perform .buildStats
        let _ ← uploadStatus req .success (some 0) ⟨none, none, none⟩ repoSHAOut
        pure ()) (gateExit { d with artifacts := req.jobType = JobType.postGate.text })
  else
    Program.deferred (do
      perform .buildStats
      let _ ← uploadStatus req .fail (some 1) ⟨none, none, none⟩ ""
      pure ()) (gateExit { d with artifacts := true })

/-- Running a gate, once its runtime and its logs are open. -/
def runGateJob (d : GateDefers) (req : StartRunRequest) : Go Unit := do
  let guarded {α : Type} (p : Go α) : Go α := p.onPanic (gateExit d)
  match ← guarded (attempt .buildGateManifest) with
  | .error e => failGate d req e
  | .ok () =>
  match ← guarded (attempt .prepareStickyWorkspace) with
  | .error e => failGate d req e
  | .ok () =>
  match ← guarded (attempt .clearGateOutcomes) with
  | .error e => failGate d req e
  | .ok () =>
  let (gateResult, gateErr) ← guarded (issue .runGate)
  let outcomes ← guarded (attempt .persistGateOutcomes)
  let outcomeErr :=
    match outcomes with
    | .error e => some e
    | .ok () => none
  match joinErrors gateErr outcomeErr, gateResult with
  | some e, _ => failGate d req e
  | none, none => failGate d req ⟨"gate returned nil result with nil error", false⟩
  | none, some passed => reportGate d req passed

def executeGateJob (req : StartRunRequest) : Go Unit := do
  match ← (attempt .initExecutionContext).onPanic (gateExit ⟨false, false, false⟩) with
  | .error e => failGate ⟨false, false, false⟩ req e
  | .ok () =>
  match ← (attempt .newArtifactLogWriter).onPanic (gateExit ⟨true, false, false⟩) with
  | .error e => failGate ⟨true, false, false⟩ req e
  | .ok () => runGateJob ⟨true, true, false⟩ req

/-! ### Migration steps -/

def quoted (s : String) : String :=
  "\"" ++ s ++ "\""

/-- The integer that a text shows. -/
def atoi (s : String) : Option Int :=
  let digits (l : Str) : Option Nat :=
    if l ≠ [] ∧ l.all Char.isDigit then some (l.foldl (fun n c => 10 * n + (c.toNat - 48)) 0)
    else none
  match s.toList with
  | '-' :: rest => (digits rest).map fun n => -(n : Int)
  | '+' :: rest => (digits rest).map Int.ofNat
  | l => (digits l).map Int.ofNat

def migStepIndexFromJobName (jobName : String) (stepsLen : Nat) : Except GoError Int :=
  let name := trimSpace jobName
  if stepsLen ≤ 1 then .ok 0
  else if "mig-".toList.isPrefixOf name.toList = false then
    .error ⟨"mig job_name must start with mig- for multi-step runs, got " ++ quoted name, false⟩
  else
    let raw := String.ofList (name.toList.drop 4)
    match atoi raw with
    | none =>
      .error ⟨"parse mig index from job_name " ++ quoted name ++ ": strconv.Atoi: parsing "
        ++ quoted raw ++ ": invalid syntax", false⟩
    | some i =>
      if i < 0 ∨ stepsLen ≤ i then
        .error ⟨"mig index out of range for job_name " ++ quoted name ++ ": idx=" ++ toString i
          ++ " steps_len=" ++ toString stepsLen, false⟩
      else .ok i

/-- The step that a job executes. -/
def migStepIndex (req : StartRunRequest) : Except GoError Int :=
  match req.migSpec with
  | none => .ok 0
  | some spec =>
    if spec.steps = [] then .ok 0
    else
      let derived : Except GoError Int :=
        match req.stepIndex with
        | some i => .ok i
        | none => (migStepIndexFromJobName req.jobName spec.steps.length).mapError
            (GoError.wrap "derive mig step index from job_name")
      match derived with
      | .error e => .error e
      | .ok i =>
        if i < 0 ∨ spec.steps.length ≤ i then
          .error ⟨"derived mig step index out of range: derived=" ++ toString i ++ " steps_len="
            ++ toString spec.steps.length, false⟩
        else .ok i

/-- How a migration step ended: the error of its run and the exit code. -/
structure MigJobOutcome where
  runErr : Option GoError
  exitCode : Int
  deriving DecidableEq, Repr

/-- Whether the container ran and exited well. -/
def MigJobOutcome.fine (o : MigJobOutcome) : Bool :=
  o.runErr.isNone && o.exitCode = 0

/-- An attempt whose error becomes the error of a run that was fine so far. -/
def MigJobOutcome.andThen (o : MigJobOutcome) (context : String) (p : Go (Except GoError Unit)) :
    Go MigJobOutcome :=
  if o.fine then do
    match ← p with
    | .error e => pure { o with runErr := some (e.wrap context) }
    | .ok () => pure o
  else pure o

/-- The output of a run that was fine so far. -/
def MigJobOutcome.withOutput (o : MigJobOutcome) : Go (MigJobOutcome × String) :=
  if o.fine then do
    match ← issue .computeRepoSHAOut with
    | .error e => pure ({ o with runErr := some e }, "")
    | .ok sha => pure (o, sha)
  else pure (o, "")

/-- The error that the statistics show. -/
def MigJobOutcome.shownError (o : MigJobOutcome) : Go (Option String) :=
  match o.runErr with
  | some e => pure (some e.text)
  | none =>
    if o.exitCode ≠ 0 then do
      let text ← issue .deriveContainerExitError
      pure (some text)
    else pure none

/-- After the container: the diff is uploaded, the baseline advanced, the output computed, and the
status reported. -/
def finishMigContainerJob (req : StartRunRequest) (exitCode : Int) (runErr : Option GoError) :
    Go MigJobOutcome := do
  Program.when (MigJobOutcome.fine ⟨runErr, exitCode⟩ = false)
    (perform .persistContainerInspectArtifact)
  let diff ← issue .uploadDiff
  let uploaded : MigJobOutcome :=
    match diff with
    | .error e =>
      if MigJobOutcome.fine ⟨runErr, exitCode⟩ then ⟨some (e.wrap "upload job diff"), exitCode⟩
      else ⟨runErr, exitCode⟩
    | .ok _ => ⟨runErr, exitCode⟩
  let diffUploaded :=
    match diff with
    | .error _ => false
    | .ok b => b
  let advanced ← uploaded.andThen "advance workspace baseline"
    (attempt (.advanceWorkspaceBaseline diffUploaded))
  let (outcome, repoSHAOut) ← advanced.withOutput
  let error ← outcome.shownError
  perform .buildStats
  reportTerminalStatus req outcome.runErr outcome.exitCode ⟨error, some outcome.exitCode, none⟩
    repoSHAOut
  pure outcome

/-- The container of a migration step, and its report; errors before the container runs are left to
the caller. -/
def runMigContainerJob (req : StartRunRequest) (image : String) :
    Go (Except GoError MigJobOutcome) := do
  if trimSpace image = "" then pure (.error ⟨"resolved job image is empty", false⟩)
  else
  match ← attempt (.saveJobImageName (trimSpace image)) with
  | .error e => pure (.error (e.wrap "save job image name"))
  | .ok () =>
  match ← attempt .computeWorkspaceTreeSHA with
  | .error e => pure (.error (e.wrap "compute pre-execution workspace tree"))
  | .ok () =>
  match ← attempt .materializeJobResources with
  | .error e => pure (.error e)
  | .ok () => do
      let (exitCode, runErr) ← issue .runContainer
      let outcome ← finishMigContainerJob req exitCode runErr
      pure (.ok outcome)

def executeMigContainerWithOutcome (req : StartRunRequest) (image : String) :
    Go (Except GoError MigJobOutcome) := do
  match ← attempt .initExecutionContext with
  | .error e => pure (.error (e.wrap "initialize runtime"))
  | .ok () =>
  match ← (attempt .newArtifactLogWriter).onPanic (perform .cleanupExecutionContext) with
  | .error e =>
    Program.deferred (pure (.error (e.wrap "prepare job artifact logs")))
      (perform .cleanupExecutionContext)
  | .ok () =>
    (Program.deferred (do
      match ← attempt .prepareStickyWorkspace with
      | .error e => pure (.error (e.wrap "prepare sticky workspace"))
      | .ok () => runMigContainerJob req image)
      (perform .cleanupExecutionContext)).deferred (perform .closeArtifactLogs)

def shouldUploadRepoArtifactsAfterMigJob (req : StartRunRequest) (outcome : MigJobOutcome) : Bool :=
  if outcome.fine then
    (req.migSpec.any fun spec => spec.buildGateDisabled) && (req.nextID.all fun id => id.isZero)
  else true

def executeMigContainerJob (req : StartRunRequest) (image : String) : Go Unit := do
  match ← executeMigContainerWithOutcome req image with
  | .ok outcome =>
    Program.when (shouldUploadRepoArtifactsAfterMigJob req outcome = true)
      (perform .uploadRepoArtifactsIfPresent)
  | .error e => do
      perform .uploadRepoArtifactsIfPresent
      uploadFailureStatus req e

/-- The execution of a migration step. -/
def executeMigJob (req : StartRunRequest) : Go Unit := do
  perform .loadPersistedStack
  match migStepIndex req with
  | .error e => uploadFailureStatus req e
  | .ok i =>
  match ← issue (.buildMigManifest i) with
  | .error e => uploadFailureStatus req e
  | .ok image => executeMigContainerJob req image

/-! ### Executions -/

/-- A job type is checked without the white space around it. -/
def validateJobType (jobType : String) : Except GoError Unit :=
  if trimSpace jobType ∈ [JobType.preGate.text, JobType.mig.text, JobType.postGate.text] then .ok ()
  else .error ⟨"invalid job_type " ++ quoted (trimSpace jobType), false⟩

/-- The body of an execution. The dispatch is on the text of the job type as it came. -/
def executeJob (req : StartRunRequest) : Go Unit := do
  match ← attempt .ensureRunDirectories with
  | .error e => uploadFailureStatus req (e.wrap "prepare run directories")
  | .ok () =>
  match ← attempt .ensureJobDirectories with
  | .error e => uploadFailureStatus req (e.wrap "prepare job directories")
  | .ok () =>
  match validateJobType req.jobType with
  | .error e => uploadFailureStatus req e
  | .ok () =>
  match ← attempt .jobMounts with
  | .error e => uploadFailureStatus req (e.wrap "prepare job mounts")
  | .ok () =>
  if req.jobType = JobType.preGate.text ∨ req.jobType = JobType.postGate.text then
    executeGateJob req
  else if req.jobType = JobType.mig.text then executeMigJob req
  else pure ()

/-- An execution: the runtime directories are removed when it ends, a panic becomes an event, and
the job is deleted from the map. -/
def executeRun (req : StartRunRequest) : Go Unit := do
  Program.recover
    (fun _ => Program.when (req.runID.isZero = false)
      (perform (.emitRunEvent req.runID req.jobID "error"
        "node panic recovered during job execution")))
    ((executeJob req).deferred (do
      let _ ← attempt .cleanupJobRuntime
      pure ()))
  perform (.deleteJob req.jobID)

/-- The goroutine of an execution. -/
def runGoroutine (req : StartRunRequest) : Go Unit :=
  ((executeRun req).deferred (perform .releaseSlot)).deferred (perform .cancelContext)

/-- Starting an execution: one job is executed once at a time. -/
def startRun (req : StartRunRequest) : Go (Except GoError Unit) := do
  if ← issue (.jobInMap req.jobID) then
    pure (.error ⟨"job " ++ req.jobID.raw ++ " already exists", false⟩)
  else do
    perform (.addJob req.jobID)
    perform .startRemoteCancellationWatch
    pure (.ok ())

/-! ### Claims -/

def StackExpectation.shown (x : StackExpectation) : String :=
  "language=" ++ quoted x.language ++ " tool=" ++ quoted x.tool ++ " release=" ++ quoted x.release

/-- The stack gates of the steps, each with what the step before it hands on, or the mismatch. -/
def chainStackGates : Nat → Option StackGateSpec → List (Option StackGateSpec) →
    Except GoError (List (Option StackGateSpec))
  | _, _, [] => .ok []
  | i, prev, curr :: rest =>
    match prev.bind fun s => s.outbound.filter (·.enabled) with
    | none => (chainStackGates (i + 1) curr rest).map (curr :: ·)
    | some outbound =>
      match curr with
      | none =>
        let derived : Option StackGateSpec := some ⟨some ⟨outbound.enabled, outbound.expect⟩, none⟩
        (chainStackGates (i + 1) derived rest).map (derived :: ·)
      | some stack =>
        match stack.inbound with
        | none =>
          let derived : Option StackGateSpec :=
            some { stack with inbound := some ⟨outbound.enabled, outbound.expect⟩ }
          (chainStackGates (i + 1) derived rest).map (derived :: ·)
        | some inbound =>
          match inbound.enabled, inbound.expect, outbound.expect with
          | true, some x, some y =>
            if x = y then (chainStackGates (i + 1) curr rest).map (curr :: ·)
            else .error ⟨"steps[" ++ toString i ++ "].stack.inbound: mismatch with steps["
              ++ toString (i - 1) ++ "].stack.outbound (inbound: " ++ x.shown
              ++ ", outbound: " ++ y.shown ++ ")", false⟩
          | _, _, _ => (chainStackGates (i + 1) curr rest).map (curr :: ·)

def validateAndDeriveStackGateChaining (steps : List (Option StackGateSpec)) :
    Except GoError (List (Option StackGateSpec)) :=
  match steps with
  | [] => .ok []
  | first :: rest => (chainStackGates 1 first rest).map (first :: ·)

/-- What came of a claim: whether a job was claimed, the error, and the execution that was
started. -/
structure ClaimOutcome where
  claimed : Bool
  error : Option GoError
  started : Option StartRunRequest
  deriving DecidableEq, Repr

/-- Starting the job of a claim response, whose specification was read. -/
def startClaimed (claim : ClaimResponse) (migSpec : Option ClaimSpec) : Go ClaimOutcome := do
  let req : StartRunRequest :=
    ⟨claim.runID, claim.jobID, claim.resumeCount, claim.jobType, claim.jobName, claim.nextID,
      claim.stepIndex, migSpec⟩
  match ← startRun req with
  | .error e => do
      emitRunException claim.runID claim.jobID "failed to start claimed job execution" e
      pure ⟨true, some (e.wrap "start run"), none⟩
  | .ok () => pure ⟨true, none, some req⟩

def startClaim (claim : ClaimResponse) : Go ClaimOutcome := do
  match ← issue (.parseSpec claim.spec) with
  | .error e => do
      emitRunException claim.runID claim.jobID "failed to parse claimed job spec" e
      pure ⟨true, some (e.wrap "parse spec"), none⟩
  | .ok none => startClaimed claim none
  | .ok (some spec) =>
  match validateAndDeriveStackGateChaining spec.steps with
  | .error e => do
      emitRunException claim.runID claim.jobID "failed to validate stack-gate chaining" e
      pure ⟨true, some (e.wrap "validate stack gate chaining"), none⟩
  | .ok steps => startClaimed claim (some { spec with steps })

def claimWithSlot : Go ClaimOutcome := do
  match ← attempt .ensureUploader with
  | .error e => pure ⟨false, some (e.wrap "create http client"), none⟩
  | .ok () =>
  match ← attempt .newClaimRequest with
  | .error e => pure ⟨false, some (e.wrap "create claim request"), none⟩
  | .ok () =>
  match ← issue .sendClaim with
  | .error e => pure ⟨false, some (e.wrap "send claim request"), none⟩
  | .ok response =>
  if response.statusCode = 204 then pure ⟨false, none, none⟩
  else if response.statusCode ≠ 200 then
    pure ⟨false, some ⟨"claim failed: status " ++ toString response.statusCode ++ ": "
      ++ response.body, false⟩, none⟩
  else
  match ← issue .decodeClaim with
  | .error e => pure ⟨false, some (e.wrap "decode claim response"), none⟩
  | .ok claim => startClaim claim

/-- A claim: the slot is released unless an execution was started, which takes it over. -/
def claimAndExecute : Go ClaimOutcome := do
  match ← attempt .acquireSlot with
  | .error e => pure ⟨false, some e, none⟩
  | .ok () =>
    claimWithSlot.onExit fun
      | .ok ⟨_, _, some _⟩ => pure ()
      | _ => perform .releaseSlot

/-- A claim and the execution that it starts. -/
def claimedJob : Go Unit := do
  let outcome ← claimAndExecute
  match outcome.started with
  | none => pure ()
  | some req => runGoroutine req

end NodeAgent

end Ploy
