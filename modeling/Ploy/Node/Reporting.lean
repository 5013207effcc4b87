import Ploy.Node.Agent

/-!
# Claimed jobs are reported

A slot that was taken for a claimed job is released after the final status of the job was uploaded,
as long as the claim can be started and nothing panics.
-/

namespace Ploy

namespace NodeAgent

open Program

/-! ### What is seen on a path -/

/-- Whether a call releases the slot. -/
def isRelease : {β : Type} → Call β → Bool
  | _, .perform .releaseSlot => true
  | _, _ => false

/-- Whether a call executes the job. -/
def executes : {β : Type} → Call β → Bool
  | _, .runGate | _, .runContainer => true
  | _, _ => false

/-- The job, the status and the resume count of an upload of a final status. -/
def uploads : {β : Type} → Call β → Option (JobID × JobStatus × Nat)
  | _, .uploadJobStatus jobID status _ stats _ => some (jobID, status, stats.resumeCount.getD 0)
  | _, _ => none

/-- The claim response that a call decodes. -/
def decoded : {β : Type} → Call β → Except Panic β → Option ClaimResponse
  | _, .decodeClaim, .ok (.ok claim) => some claim
  | _, _, _ => none

/-- Whether a call brings a claim response with status 200. -/
def claims : {β : Type} → Call β → Except Panic β → Bool
  | _, .sendClaim, .ok (.ok response) => response.statusCode = 200
  | _, _, _ => false

/-- The final status of a job was uploaded under a resume count. It is success only if the job was
executed before, on the path or, where `ran` holds, before the path. -/
def Reported (ran : Prop) (jobID : JobID) (count : Nat) (t : List (Called Call Panic)) : Prop :=
  ∃ before c after status, t = before ++ c :: after ∧ uploads c.call = some (jobID, status, count)
    ∧ status.terminal = true
    ∧ (status = .success → ran ∨ ∃ e ∈ before, executes e.call = true)

/-- The slot is not released. -/
def Quiet (t : List (Called Call Panic)) : Prop :=
  ∀ c ∈ t, isRelease c.call = false

/-! ### Jobs that can be started -/

/-- An answer that lets a claimed job go on: no panic, a claim response that can be decoded, with a
job type without white space around it, a specification that can be read and whose stack gates
match, and no execution of the job in the map. -/
def regularAnswer : {β : Type} → Call β → Except Panic β → Bool
  | _, .decodeClaim, r =>
    match r with
    | .ok (.ok claim) => trimSpace claim.jobType = claim.jobType
    | _ => false
  | _, .parseSpec _, r =>
    match r with
    | .ok (.ok none) => true
    | .ok (.ok (some spec)) => (validateAndDeriveStackGateChaining spec.steps).toOption.isSome
    | _ => false
  | _, .jobInMap _, r =>
    match r with
    | .ok found => !found
    | _ => false
  | _, _, r => r.toOption.isSome

def regular (c : Called Call Panic) : Bool :=
  regularAnswer c.call c.answer

/-- A program that does not release the slot. -/
def Silent {α : Type} (p : Go α) : Prop :=
  p.Returns (regular · = true) fun t _ => Quiet t

/-- A program that executes the job, and does not release the slot. -/
def Executing {α : Type} (p : Go α) : Prop :=
  p.Returns (regular · = true) fun t _ => Quiet t ∧ ∃ e ∈ t, executes e.call = true

/-- A program that uploads the final status of the job of a request, and does not release the
slot. -/
def Reporting {α : Type} (ran : Prop) (req : StartRunRequest) (p : Go α) : Prop :=
  p.Returns (regular · = true) fun t _ => Quiet t ∧ Reported ran req.jobID req.resumeCount t

/-- A program that uploads the final status of the job of a request or returns an error. -/
def Settling {α : Type} (req : StartRunRequest) (p : Go (Except GoError α)) : Prop :=
  p.Returns (regular · = true) fun t r =>
    Quiet t ∧ ∀ a, r = .ok a → Reported False req.jobID req.resumeCount t

/-! ### Rules -/

theorem Quiet.append {s t : List (Called Call Panic)} (hs : Quiet s) (ht : Quiet t) :
  Quiet (s ++ t)
  := by
  intro c hc
  rcases List.mem_append.mp hc with hc | hc
  · apply hs c hc
  · apply ht c hc

variable {jobID : JobID}

theorem Reported.append_left {ran : Prop} {count : Nat}
    {t : List (Called Call Panic)} (h : Reported ran jobID count t)
    (s : List (Called Call Panic)) :
  Reported ran jobID count (s ++ t)
  := by
  obtain ⟨before, c, after, status, rfl, hup, hterminal, hran⟩ := h
  refine ⟨s ++ before, c, after, status, by simp, hup, hterminal, ?_⟩
  intro hs
  rcases hran hs with hran | ⟨e, he, hexecutes⟩
  · apply Or.inl hran
  · exact Or.inr ⟨e, List.mem_append_right s he, hexecutes⟩

theorem Reported.append_right {ran : Prop} {count : Nat}
    {t : List (Called Call Panic)} (h : Reported ran jobID count t)
    (s : List (Called Call Panic)) :
  Reported ran jobID count (t ++ s)
  := by
  obtain ⟨before, c, after, status, rfl, hup⟩ := h
  exact ⟨before, c, after ++ s, status, by simp, hup⟩

theorem Reported.of_ran {count : Nat} {s t : List (Called Call Panic)}
    (h : Reported True jobID count t) (hs : ∃ e ∈ s, executes e.call = true) (ran : Prop) :
  Reported ran jobID count (s ++ t)
  := by
  obtain ⟨before, c, after, status, rfl, hup, hterminal, -⟩ := h
  refine ⟨s ++ before, c, after, status, by simp, hup, hterminal, ?_⟩
  intro _
  obtain ⟨e, he, hexecutes⟩ := hs
  exact Or.inr ⟨e, List.mem_append_left before he, hexecutes⟩

section Rules

variable {α β : Type} {ran : Prop} {req : StartRunRequest}

theorem returns_call {q : Call α} {post : List (Called Call Panic) → α → Prop}
    (h : ∀ a, regularAnswer q (.ok a) = true → post [⟨q, .ok a⟩] a) :
  (issue q : Go α).Returns (regular · = true) post
  := by
  apply returns_issue
  intro answer hregular
  cases answer with
  | error e => cases q <;> cases hregular
  | ok a => exact ⟨a, rfl, h a hregular⟩

theorem silent_pure (a : α) :
  Silent (pure a : Go α)
  := returns_pure (by simp [Quiet])

theorem silent_issue {q : Call α} (h : isRelease q = false) :
  Silent (issue q)
  := by
  apply returns_call
  intro a _
  simpa [Quiet] using h

theorem silent_attempt (a : Attempt) :
  Silent (attempt a)
  := silent_issue rfl

theorem silent_perform {e : Effect} (h : e ≠ .releaseSlot) :
  Silent (perform e)
  := by
  apply silent_issue
  cases e <;> first | rfl | apply absurd rfl h

variable {p : Go α} {f : α → Go β}

theorem Silent.bind (hp : Silent p) (hf : ∀ a, Silent (f a)) :
  Silent (p >>= f)
  := by
  apply Returns.bind hp
  intro t a ht
  apply (hf a).mono
  intro t' b ht'
  apply ht.append ht'

theorem Silent.when {c : Prop} [Decidable c] {p : Go Unit} (hp : Silent p) :
  Silent (Program.when c p)
  := by
  unfold Program.when
  split
  · apply hp
  · apply silent_pure

variable {d : Go Unit}

theorem Silent.onPanic (hp : Silent p) :
  Silent (p.onPanic d)
  := Returns.onPanic hp

theorem Silent.reporting (hp : Silent p)
    (hf : ∀ a, Reporting ran req (f a)) :
  Reporting ran req (p >>= f)
  := by
  apply Returns.bind hp
  intro t a ht
  apply (hf a).mono
  rintro t' b ⟨ht', hreported⟩
  exact ⟨ht.append ht', hreported.append_left t⟩

theorem Reporting.silent (hp : Reporting ran req p)
    (hf : ∀ a, Silent (f a)) :
  Reporting ran req (p >>= f)
  := by
  apply Returns.bind hp
  rintro t a ⟨ht, hreported⟩
  apply (hf a).mono
  intro t' b ht'
  exact ⟨ht.append ht', hreported.append_right t'⟩

theorem Reporting.deferred (hp : Reporting ran req p) (hd : Silent d) :
  Reporting ran req (p.deferred d)
  := by
  apply Returns.onExit hp
  rintro t a ⟨ht, hreported⟩
  apply hd.mono
  intro t' _ ht'
  exact ⟨ht.append ht', hreported.append_right t'⟩

theorem executing_issue {q : Call α} (hq : executes q = true) :
  Executing (issue q)
  := by
  have hquiet : isRelease q = false := by
    cases q <;> first | rfl | cases hq
  apply returns_call
  intro a _
  exact ⟨by simpa [Quiet] using hquiet, ⟨_, List.mem_singleton.mpr rfl, hq⟩⟩

theorem Executing.onPanic (hp : Executing p) :
  Executing (p.onPanic d)
  := Returns.onPanic hp

theorem Executing.reporting (hp : Executing p)
    (hf : ∀ a, Reporting True req (f a)) :
  Reporting ran req (p >>= f)
  := by
  apply Returns.bind hp
  rintro t a ⟨ht, hran⟩
  apply (hf a).mono
  rintro t' b ⟨ht', hreported⟩
  exact ⟨ht.append ht', hreported.of_ran hran ran⟩

theorem settling_error (e : GoError) :
  Settling req (pure (.error e) : Go (Except GoError α))
  := by
  apply returns_pure
  refine ⟨by simp [Quiet], ?_⟩
  intro a ha
  cases ha

theorem Silent.settling {f : α → Go (Except GoError β)} (hp : Silent p)
    (hf : ∀ a, Settling req (f a)) :
  Settling req (p >>= f)
  := by
  apply Returns.bind hp
  intro t a ht
  apply (hf a).mono
  rintro t' b ⟨ht', hreported⟩
  exact ⟨ht.append ht', fun b hb => (hreported b hb).append_left t⟩

theorem Reporting.settling {p : Go (Except GoError α)} (hp : Reporting False req p) :
  Settling req p
  := by
  apply Returns.mono hp
  rintro t r ⟨ht, hreported⟩
  exact ⟨ht, fun _ _ => hreported⟩

theorem Settling.deferred {p : Go (Except GoError α)} (hp : Settling req p)
    (hd : Silent d) :
  Settling req (p.deferred d)
  := by
  apply Returns.onExit hp
  rintro t r ⟨ht, hreported⟩
  apply hd.mono
  intro t' _ ht'
  exact ⟨ht.append ht', fun a ha => (hreported a ha).append_right t'⟩

end Rules

/-! ### Executions -/

variable {ran : Prop} (req : StartRunRequest)

variable {stats : Stats}

theorem resumeCount_forRequest (h : stats.resumeCount = none) :
  (stats.forRequest req).resumeCount.getD 0 = req.resumeCount
  := by
  unfold Stats.forRequest
  split
  · rfl
  · rw [h]
    simp only [Option.getD_none]
    omega

theorem uploadStatus_reporting {status : JobStatus} {exitCode : Option Int}
    {repoSHAOut : String} (hstats : stats.resumeCount = none) (hterminal : status.terminal = true)
    (hran : status = .success → ran) :
  Reporting ran req (uploadStatus req status exitCode stats repoSHAOut)
  := by
  apply returns_call
  intro a _
  refine ⟨by simp [Quiet, isRelease], [], _, [], status, rfl, ?_, hterminal, ?_⟩
  · simp only [uploads, resumeCount_forRequest req hstats]
  · intro hs
    apply Or.inl (hran hs)

theorem terminal_jobStatusFromRunError (e : GoError) :
  (jobStatusFromRunError e).terminal = true ∧ jobStatusFromRunError e ≠ .success
  := by
  unfold jobStatusFromRunError
  split <;> simp [JobStatus.terminal, JobStatus.active]

theorem terminal_jobStatusFromExitCode (exitCode : Int) :
  (jobStatusFromExitCode exitCode).terminal = true
  := by
  unfold jobStatusFromExitCode
  split
  · rfl
  split <;> rfl

theorem silent_emitRunException (runID : RunID) (jobID : JobID) (message : String) (e : GoError) :
  Silent (emitRunException runID jobID message e)
  := Silent.when (silent_perform (by simp))

theorem uploadFailureStatus_reporting (e : GoError) :
  Reporting ran req (uploadFailureStatus req e)
  := by
  obtain ⟨hterminal, hne⟩ := terminal_jobStatusFromRunError e
  unfold uploadFailureStatus
  apply (silent_emitRunException _ _ _ _).reporting
  intro _
  apply (silent_perform (by simp)).reporting
  intro _
  apply (uploadStatus_reporting req rfl hterminal fun h => absurd h hne).silent
  intro _
  apply silent_pure

theorem reportTerminalStatus_reporting {runErr : Option GoError} {exitCode : Int}
    {repoSHAOut : String} (hstats : stats.resumeCount = none) :
  Reporting True req (reportTerminalStatus req runErr exitCode stats repoSHAOut)
  := by
  cases runErr with
  | some e =>
    obtain ⟨hterminal, -⟩ := terminal_jobStatusFromRunError e
    apply (silent_emitRunException _ _ _ _).reporting
    intro _
    apply (uploadStatus_reporting req hstats hterminal fun _ => trivial).silent
    intro _
    apply silent_pure
  | none =>
    have hterminal := terminal_jobStatusFromExitCode exitCode
    apply (uploadStatus_reporting req hstats hterminal fun _ => trivial).silent
    intro _
    apply silent_pure

theorem silent_gateExit (d : GateDefers) :
  Silent (gateExit d)
  := by
  apply (Silent.when (silent_perform (by simp))).bind
  intro _
  apply (Silent.when (silent_perform (by simp))).bind
  intro _
  apply Silent.when (silent_perform (by simp))

theorem failGate_reporting (d : GateDefers) (e : GoError) :
  Reporting ran req (failGate d req e)
  := (uploadFailureStatus_reporting req e).deferred (silent_gateExit _)

theorem gateStatus_reporting {status : JobStatus} (hterminal : status.terminal = true)
    (exitCode : Option Int) (repoSHAOut : String) (d : GateDefers) :
  Reporting True req (Program.deferred (do
    perform .buildStats
    let _ ← uploadStatus req status exitCode ⟨none, none, none⟩ repoSHAOut
    pure ()) (gateExit d))
  := by
  apply Reporting.deferred _ (silent_gateExit d)
  apply (silent_perform (by simp)).reporting
  intro _
  apply (uploadStatus_reporting req rfl hterminal fun _ => trivial).silent
  intro _
  apply silent_pure

theorem reportGate_reporting (d : GateDefers) (passed : Bool) :
  Reporting True req (reportGate d req passed)
  := by
  unfold reportGate
  apply (silent_perform (by simp)).onPanic.reporting
  intro _
  apply (Silent.when (silent_perform (by simp)).onPanic).reporting
  intro _
  split
  · apply (silent_issue rfl).onPanic.reporting
    intro r
    cases r with
    | error | ok => apply gateStatus_reporting req rfl
  · apply gateStatus_reporting req rfl

/-- A gate job reports its end. -/
theorem runGateJob_reporting (d : GateDefers) :
  Reporting ran req (runGateJob d req)
  := by
  unfold runGateJob
  apply (silent_attempt _).onPanic.reporting
  intro manifest
  cases manifest with
  | error e => apply failGate_reporting
  | ok _ =>
  apply (silent_attempt _).onPanic.reporting
  intro workspace
  cases workspace with
  | error e => apply failGate_reporting
  | ok _ =>
  apply (silent_attempt _).onPanic.reporting
  intro cleared
  cases cleared with
  | error e => apply failGate_reporting
  | ok _ =>
  apply (executing_issue rfl).onPanic.reporting
  intro result
  apply (silent_attempt _).onPanic.reporting
  intro outcomes
  dsimp only
  split
  · apply failGate_reporting
  · apply failGate_reporting
  · apply reportGate_reporting

theorem executeGateJob_reporting :
  Reporting ran req (executeGateJob req)
  := by
  unfold executeGateJob
  apply (silent_attempt _).onPanic.reporting
  intro runtime
  cases runtime with
  | error e => apply failGate_reporting
  | ok _ =>
  apply (silent_attempt _).onPanic.reporting
  intro logs
  cases logs with
  | error e => apply failGate_reporting
  | ok _ => apply runGateJob_reporting

theorem silent_andThen (o : MigJobOutcome) (context : String) {p : Go (Except GoError Unit)}
    (hp : Silent p) :
  Silent (o.andThen context p)
  := by
  unfold MigJobOutcome.andThen
  split
  · apply hp.bind
    intro r
    cases r with
    | error | ok => apply silent_pure
  · apply silent_pure

theorem silent_withOutput (o : MigJobOutcome) :
  Silent o.withOutput
  := by
  unfold MigJobOutcome.withOutput
  split
  · apply (silent_issue rfl).bind
    intro r
    cases r with
    | error | ok => apply silent_pure
  · apply silent_pure

theorem silent_shownError (o : MigJobOutcome) :
  Silent o.shownError
  := by
  unfold MigJobOutcome.shownError
  split
  · apply silent_pure
  · split
    · apply (silent_issue rfl).bind
      intro text
      apply silent_pure
    · apply silent_pure

/-- The end of a step is reported. -/
theorem finishMigContainerJob_reporting (exitCode : Int) (runErr : Option GoError) :
  Reporting True req (finishMigContainerJob req exitCode runErr)
  := by
  unfold finishMigContainerJob
  apply (Silent.when (silent_perform (by simp))).reporting
  intro _
  apply (silent_issue rfl).reporting
  intro diff
  apply (silent_andThen _ _ (silent_attempt _)).reporting
  intro advanced
  apply (silent_withOutput advanced).reporting
  rintro ⟨outcome, repoSHAOut⟩
  apply (silent_shownError outcome).reporting
  intro error
  apply (silent_perform (by simp)).reporting
  intro _
  apply (reportTerminalStatus_reporting req rfl).silent
  intro _
  apply silent_pure

/-- A step reports, or returns an error to be reported. -/
theorem runMigContainerJob_settling (image : String) :
  Settling req (runMigContainerJob req image)
  := by
  unfold runMigContainerJob
  split
  · apply settling_error
  apply (silent_attempt _).settling
  intro saved
  cases saved with
  | error e => apply settling_error
  | ok _ =>
  apply (silent_attempt _).settling
  intro tree
  cases tree with
  | error e => apply settling_error
  | ok _ =>
  apply (silent_attempt _).settling
  intro resources
  cases resources with
  | error e => apply settling_error
  | ok _ =>
  apply Reporting.settling
  apply (executing_issue rfl).reporting
  intro result
  apply (finishMigContainerJob_reporting req _ _).silent
  intro outcome
  apply silent_pure

/-- A step that is executed reports, or returns an error. -/
theorem executeMigContainerWithOutcome_settling (image : String) :
  Settling req (executeMigContainerWithOutcome req image)
  := by
  unfold executeMigContainerWithOutcome
  apply (silent_attempt _).settling
  intro runtime
  cases runtime with
  | error e => apply settling_error
  | ok _ =>
  apply (silent_attempt _).onPanic.settling
  intro logs
  cases logs with
  | error e => apply (settling_error _).deferred (silent_perform (by simp))
  | ok _ =>
  apply Settling.deferred _ (silent_perform (by simp))
  apply Settling.deferred _ (silent_perform (by simp))
  apply (silent_attempt _).settling
  intro workspace
  cases workspace with
  | error e => apply settling_error
  | ok _ => apply runMigContainerJob_settling

/-- A step that is executed reports its end. -/
theorem executeMigContainerJob_reporting (image : String) :
  Reporting False req (executeMigContainerJob req image)
  := by
  unfold executeMigContainerJob
  apply Returns.bind (executeMigContainerWithOutcome_settling req image)
  rintro t r ⟨ht, hreported⟩
  cases r with
  | ok outcome =>
    apply Returns.mono (Silent.when (silent_perform (by simp)))
    intro t' _ ht'
    exact ⟨ht.append ht', (hreported outcome rfl).append_right t'⟩
  | error e =>
    -- the caller reports what was left to it
    have hfailure : Reporting False req (do
        perform .uploadRepoArtifactsIfPresent
        uploadFailureStatus req e) := by
      apply (silent_perform (by simp)).reporting
      intro _
      apply uploadFailureStatus_reporting
    apply hfailure.mono
    rintro t' _ ⟨ht', hreported'⟩
    exact ⟨ht.append ht', hreported'.append_left t⟩

theorem executeMigJob_reporting :
  Reporting False req (executeMigJob req)
  := by
  unfold executeMigJob
  apply (silent_perform (by simp)).reporting
  intro _
  cases migStepIndex req with
  | error e => apply uploadFailureStatus_reporting
  | ok i =>
  apply (silent_issue rfl).reporting
  intro manifest
  cases manifest with
  | error e => apply uploadFailureStatus_reporting
  | ok image => apply executeMigContainerJob_reporting

/-- Every job that is executed reports its end, under its own execution. -/
theorem executeJob_reporting (htype : trimSpace req.jobType = req.jobType) :
  Reporting False req (executeJob req)
  := by
  unfold executeJob
  apply (silent_attempt _).reporting
  intro runDirectories
  cases runDirectories with
  | error e => apply uploadFailureStatus_reporting
  | ok _ =>
  apply (silent_attempt _).reporting
  intro jobDirectories
  cases jobDirectories with
  | error e => apply uploadFailureStatus_reporting
  | ok _ =>
  cases hvalid : validateJobType req.jobType with
  | error e => apply uploadFailureStatus_reporting
  | ok _ =>
  apply (silent_attempt _).reporting
  intro mounts
  cases mounts with
  | error e => apply uploadFailureStatus_reporting
  | ok _ =>
  dsimp only
  split
  · apply executeGateJob_reporting
  split
  · apply executeMigJob_reporting
  · -- a type that passed the check is one of the three
    rename_i hgate hmig
    unfold validateJobType at hvalid
    rw [htype] at hvalid
    rw [not_or] at hgate
    simp [hgate.1, hgate.2, hmig] at hvalid

theorem executeRun_reporting (htype : trimSpace req.jobType = req.jobType) :
  Reporting False req (executeRun req)
  := by
  unfold executeRun
  apply Reporting.silent
  · apply Returns.recover
    apply (executeJob_reporting req htype).deferred
    apply (silent_attempt _).bind
    intro _
    apply silent_pure
  · intro _
    apply silent_perform
    simp

theorem runGoroutine_returns (htype : trimSpace req.jobType = req.jobType) :
  (runGoroutine req).Returns (regular · = true) fun t _ => ∃ before c after,
    t = before ++ c :: after ∧ isRelease c.call = true ∧ Quiet before ∧ Quiet after
      ∧ Reported False req.jobID req.resumeCount before
  := by
  have hrelease : ((executeRun req).deferred (perform .releaseSlot)).Returns (regular · = true)
      fun t _ => ∃ before c, t = before ++ [c] ∧ isRelease c.call = true ∧ Quiet before
        ∧ Reported False req.jobID req.resumeCount before := by
    apply Returns.onExit (executeRun_reporting req htype)
    rintro before _ ⟨hquiet, hreported⟩
    apply returns_call
    intro _ _
    exact ⟨before, _, rfl, rfl, hquiet, hreported⟩
  apply hrelease.onExit
  rintro t _ ⟨before, c, rfl, hc, hquiet, hreported⟩
  apply Returns.mono (silent_perform (e := .cancelContext) (by simp))
  intro after _ hafter
  exact ⟨before, c, after, by simp, hc, hquiet, hafter, hreported⟩

/-! ### Claims -/

/-- The request is for the job of a claim response that was decoded on the path. -/
def StartsClaimed (t : List (Called Call Panic)) (req : StartRunRequest) : Prop :=
  ∃ claim, (∃ c ∈ t, decoded c.call c.answer = some claim) ∧ req.jobID = claim.jobID
    ∧ req.resumeCount = claim.resumeCount ∧ trimSpace req.jobType = req.jobType

/-- No claim response has come. -/
def Unclaimed (t : List (Called Call Panic)) : Prop :=
  ∀ c ∈ t, claims c.call c.answer = false

/-- A claim that got a response started the execution of its job, and kept the slot. -/
def ClaimPost (t : List (Called Call Panic)) (o : ClaimOutcome) : Prop :=
  Quiet t ∧ match o.started with
    | some req => StartsClaimed t req
    | none => Unclaimed t

/-- A run is started without an error, and the slot is kept. -/
theorem startRun_returns :
  (startRun req).Returns (regular · = true) fun t r => Quiet t ∧ r = .ok ()
  := by
  unfold startRun
  have hmap : (issue (.jobInMap req.jobID) : Go Bool).Returns (regular · = true)
      fun t found => Quiet t ∧ found = false := by
    apply returns_call
    intro found hregular
    exact ⟨by simp [Quiet, isRelease], by simpa [regularAnswer] using hregular⟩
  apply hmap.bind
  rintro t found ⟨ht, rfl⟩
  have hadd : (do
      perform (.addJob req.jobID)
      perform .startRemoteCancellationWatch
      pure (.ok ()) : Go (Except GoError Unit)).Returns (regular · = true)
        fun t r => Quiet t ∧ r = .ok () := by
    apply Returns.bind (silent_perform (by simp))
    intro t₁ _ ht₁
    apply Returns.bind (silent_perform (by simp))
    intro t₂ _ ht₂
    apply returns_pure
    exact ⟨by simpa using ht₁.append ht₂, rfl⟩
  apply hadd.mono
  rintro t' r ⟨ht', rfl⟩
  exact ⟨ht.append ht', rfl⟩

theorem startClaimed_returns (claim : ClaimResponse) (migSpec : Option ClaimSpec) :
  (startClaimed claim migSpec).Returns (regular · = true) fun t o => Quiet t
    ∧ ∃ req, o.started = some req ∧ req.jobID = claim.jobID ∧ req.resumeCount = claim.resumeCount
      ∧ req.jobType = claim.jobType
  := by
  unfold startClaimed
  apply (startRun_returns _).bind
  rintro t r ⟨ht, rfl⟩
  apply returns_pure
  exact ⟨by simpa using ht, _, rfl, rfl, rfl, rfl⟩

/-- A claimed job is started under the names of its claim. -/
theorem startClaim_returns (claim : ClaimResponse) :
  (startClaim claim).Returns (regular · = true) fun t o => Quiet t
    ∧ ∃ req, o.started = some req ∧ req.jobID = claim.jobID ∧ req.resumeCount = claim.resumeCount
      ∧ req.jobType = claim.jobType
  := by
  unfold startClaim
  have hspec : (issue (.parseSpec claim.spec) : Go _).Returns (regular · = true) fun t r => Quiet t
      ∧ (r = .ok none ∨ ∃ spec, r = .ok (some spec)
        ∧ (validateAndDeriveStackGateChaining spec.steps).toOption.isSome = true) := by
    apply returns_call
    intro r hregular
    refine ⟨by simp [Quiet, isRelease], ?_⟩
    rcases r with e | _ | spec
    · cases hregular
    · apply Or.inl rfl
    · exact Or.inr ⟨spec, rfl, hregular⟩
  apply hspec.bind
  rintro t r ⟨ht, rfl | ⟨spec, rfl, hchained⟩⟩
  · apply (startClaimed_returns claim none).mono
    rintro t' o ⟨ht', hstarted⟩
    exact ⟨ht.append ht', hstarted⟩
  · cases hsteps : validateAndDeriveStackGateChaining spec.steps with
    | error e =>
      rw [hsteps] at hchained
      cases hchained
    | ok steps =>
      simp only [hsteps]
      apply (startClaimed_returns claim _).mono
      rintro t' o ⟨ht', hstarted⟩
      exact ⟨ht.append ht', hstarted⟩

/-- What gets no claim response and keeps the slot may go before. -/
theorem ClaimPost.of_silent {α : Type} {p : Go α} {f : α → Go ClaimOutcome}
    (hp : p.Returns (regular · = true) fun t _ => Quiet t ∧ Unclaimed t)
    (hf : ∀ a, (f a).Returns (regular · = true) ClaimPost) :
  (p >>= f).Returns (regular · = true) ClaimPost
  := by
  apply hp.bind
  rintro t a ⟨ht, hunclaimed⟩
  apply (hf a).mono
  rintro t' o ⟨ht', ho⟩
  refine ⟨ht.append ht', ?_⟩
  cases hstarted : o.started with
  | none =>
    rw [hstarted] at ho
    intro c hc
    rcases List.mem_append.mp hc with hc | hc
    · apply hunclaimed c hc
    · apply ho c hc
  | some req =>
    rw [hstarted] at ho
    obtain ⟨claim, ⟨c, hc, hdecoded⟩, hreq⟩ := ho
    exact ⟨claim, ⟨c, List.mem_append_right t hc, hdecoded⟩, hreq⟩

theorem unclaimed_attempt (a : Attempt) :
  (attempt a).Returns (regular · = true) fun t _ => Quiet t ∧ Unclaimed t
  := by
  apply returns_call
  intro r _
  simp [Quiet, Unclaimed, isRelease, claims]

theorem claimPost_pure (claimed : Bool) (e : Option GoError) :
  (pure ⟨claimed, e, none⟩ : Go ClaimOutcome).Returns (regular · = true) ClaimPost
  := by
  apply returns_pure
  simp [ClaimPost, Quiet, Unclaimed]

/-- A claim that is read is started. -/
theorem decodeClaim_returns :
  (do match ← issue .decodeClaim with
      | .error e => pure ⟨false, some (e.wrap "decode claim response"), none⟩
      | .ok claim => startClaim claim : Go ClaimOutcome).Returns (regular · = true) fun t o =>
    Quiet t ∧ ∃ req, o.started = some req ∧ StartsClaimed t req
  := by
  have hdecode : (issue .decodeClaim : Go _).Returns (regular · = true) fun t r => Quiet t
      ∧ ∃ claim, r = .ok claim ∧ trimSpace claim.jobType = claim.jobType
        ∧ ∃ c ∈ t, decoded c.call c.answer = some claim := by
    apply returns_call
    intro r hregular
    refine ⟨by simp [Quiet, isRelease], ?_⟩
    cases r with
    | error e => cases hregular
    | ok claim =>
      refine ⟨claim, rfl, of_decide_eq_true hregular, _, List.mem_singleton.mpr rfl, rfl⟩
  apply hdecode.bind
  rintro t r ⟨ht, claim, rfl, htype, c, hc, hdecoded⟩
  apply (startClaim_returns claim).mono
  rintro t' o ⟨ht', req, hstarted, hjob, hcount, hreq⟩
  refine ⟨ht.append ht', req, hstarted, claim, ⟨c, List.mem_append_left t' hc, hdecoded⟩, hjob,
    hcount, ?_⟩
  rw [hreq, htype]

/-- A claim starts the job that it claimed, or none was claimed. -/
theorem claimWithSlot_returns :
  claimWithSlot.Returns (regular · = true) ClaimPost
  := by
  unfold claimWithSlot
  apply ClaimPost.of_silent (unclaimed_attempt _)
  intro uploader
  cases uploader with
  | error e => apply claimPost_pure
  | ok _ =>
  apply ClaimPost.of_silent (unclaimed_attempt _)
  intro request
  cases request with
  | error e => apply claimPost_pure
  | ok _ =>
  have hsend : (issue .sendClaim : Go _).Returns (regular · = true) fun t r => Quiet t
      ∧ (Unclaimed t ∨ ∃ response, r = .ok response ∧ response.statusCode = 200) := by
    apply returns_call
    intro r _
    refine ⟨by simp [Quiet, isRelease], ?_⟩
    cases r with
    | error e =>
      left
      simp [Unclaimed, claims]
    | ok response =>
      by_cases h200 : response.statusCode = 200
      · exact Or.inr ⟨response, rfl, h200⟩
      · left
        simp [Unclaimed, claims, h200]
  apply hsend.bind
  rintro t r ⟨ht, hr⟩
  -- either no claim response came, or it has to be read
  have hnone : ∀ e, Unclaimed t → (pure ⟨false, e, none⟩ : Go ClaimOutcome).Returns
      (regular · = true) fun later o => ClaimPost (t ++ later) o := by
    intro e hunclaimed
    apply returns_pure
    simpa [ClaimPost] using And.intro ht hunclaimed
  have hread : (do
      match ← issue .decodeClaim with
      | .error e => pure ⟨false, some (e.wrap "decode claim response"), none⟩
      | .ok claim => startClaim claim : Go ClaimOutcome).Returns (regular · = true)
        fun later o => ClaimPost (t ++ later) o := by
    apply decodeClaim_returns.mono
    rintro t' o ⟨ht', req, hstarted, claim, ⟨c, hc, hdecoded⟩, hreq⟩
    refine ⟨ht.append ht', ?_⟩
    rw [hstarted]
    exact ⟨claim, ⟨c, List.mem_append_right t hc, hdecoded⟩, hreq⟩
  cases r with
  | error e =>
    rcases hr with hunclaimed | ⟨response, hresponse, -⟩
    · apply hnone _ hunclaimed
    · cases hresponse
  | ok response =>
    rcases hr with hunclaimed | ⟨response', hresponse, h200⟩
    · dsimp only
      split
      · apply hnone _ hunclaimed
      split
      · apply hnone _ hunclaimed
      · apply hread
    · cases hresponse
      simp only [h200]
      apply hread

/-- A job is started exactly when one is claimed. -/
theorem claimAndExecute_returns :
  claimAndExecute.Returns (regular · = true) fun t o =>
    match o.started with
    | some req => Quiet t ∧ StartsClaimed t req
    | none => Unclaimed t
  := by
  unfold claimAndExecute
  apply (unclaimed_attempt _).bind
  rintro t r ⟨ht, hunclaimed⟩
  cases r with
  | error e =>
    apply returns_pure
    simpa using hunclaimed
  | ok _ =>
    apply claimWithSlot_returns.onExit
    rintro t₁ ⟨claimed, e, started⟩ ⟨ht₁, ho⟩
    cases started with
    | none =>
      apply returns_call
      intro _ _ c hc
      rcases List.mem_append.mp hc with hc | hc
      · apply hunclaimed c hc
      rcases List.mem_append.mp hc with hc | hc
      · apply ho c hc
      · rw [List.mem_singleton.mp hc]
        rfl
    | some req =>
      apply returns_pure
      obtain ⟨claim, ⟨c, hc, hdecoded⟩, hreq⟩ := ho
      refine ⟨by simpa using ht.append ht₁, claim, ⟨c, by simp [hc], hdecoded⟩, hreq⟩

/-- On every path on which a claim response with status 200 comes, the response can be started and
nothing panics, the slot is released once, after the final status of the job was uploaded with the
resume count of the claim. -/
theorem claimed_job_reported {trace : List (Called Call Panic)} {result : Except Panic Unit}
    (h : claimedJob.Path trace result) (hregular : ∀ c ∈ trace, regular c = true)
    (hclaim : ∃ c ∈ trace, claims c.call c.answer = true) :
  ∃ claim, (∃ c ∈ trace, decoded c.call c.answer = some claim)
    ∧ ∃ before c after, trace = before ++ c :: after ∧ isRelease c.call = true
      ∧ Quiet before ∧ Quiet after ∧ Reported False claim.jobID claim.resumeCount before
  := by
  have hreturns : claimedJob.Returns (regular · = true) fun t _ =>
      (∃ c ∈ t, claims c.call c.answer = true) → ∃ claim,
        (∃ c ∈ t, decoded c.call c.answer = some claim)
        ∧ ∃ before c after, t = before ++ c :: after ∧ isRelease c.call = true
          ∧ Quiet before ∧ Quiet after ∧ Reported False claim.jobID claim.resumeCount before := by
    apply claimAndExecute_returns.bind
    intro t o ho
    cases hstarted : o.started with
    | none =>
      rw [hstarted] at ho
      apply returns_pure
      rintro ⟨c, hc, hclaims⟩
      rw [ho c (by simpa using hc)] at hclaims
      cases hclaims
    | some req =>
      rw [hstarted] at ho
      obtain ⟨ht, claim, ⟨d, hd, hdecoded⟩, hjob, hcount, htype⟩ := ho
      apply (runGoroutine_returns req htype).mono
      rintro t' _ ⟨before, c, after, rfl, hc, hbefore, hafter, hreported⟩ _
      refine ⟨claim, ⟨d, List.mem_append_left _ hd, hdecoded⟩, t ++ before, c, after, by simp, hc,
        ht.append hbefore, hafter, ?_⟩
      rw [← hjob, ← hcount]
      apply hreported.append_left
  obtain ⟨_, -, hpost⟩ := hreturns trace result h hregular
  apply hpost hclaim

/-! ### Jobs that are dropped -/

/-- A job that goes well, of the given type. -/
def smooth (jobType : String) : {γ : Type} → Call γ → Except Panic γ
  | _, .attempt _ => .ok (.ok ())
  | _, .perform _ => .ok ()
  | _, .sendClaim => .ok (.ok ⟨200, ""⟩)
  | _, .decodeClaim =>
    .ok (.ok ⟨⟨"r"⟩, ⟨"j"⟩, 1, jobType, "mig-0", none, none, "spec"⟩)
  | _, .parseSpec _ => .ok (.ok none)
  | _, .jobInMap _ => .ok false
  | _, .runGate => .ok (some true, none)
  | _, .runContainer => .ok (0, none)
  | _, .buildMigManifest _ => .ok (.ok "image")
  | _, .computeRepoSHAOut => .ok (.ok "0123456789abcdef0123456789abcdef01234567")
  | _, .uploadDiff => .ok (.ok true)
  | _, .deriveContainerExitError => .ok ""
  | _, .uploadJobStatus _ _ _ _ _ => .ok (.ok ())

/-- What can go wrong with a claimed job. -/
inductive Fault where
  | undecodable | unreadableSpec | mismatchedStacks | alreadyExecuting | paddedJobType
  | gatePanics | containerPanics
  deriving DecidableEq, Repr

def Fault.answers : Fault → {γ : Type} → Call γ → Except Panic γ
  | .undecodable, _, .decodeClaim => .ok (.error ⟨"unexpected EOF", false⟩)
  | .unreadableSpec, _, .parseSpec _ => .ok (.error ⟨"invalid spec", false⟩)
  | .mismatchedStacks, _, .parseSpec _ =>
    .ok (.ok (some ⟨[some ⟨none, some ⟨true, some ⟨"java", "maven", "17"⟩⟩⟩,
      some ⟨some ⟨true, some ⟨"java", "maven", "11"⟩⟩, none⟩], false⟩))
  | .alreadyExecuting, _, .jobInMap _ => .ok true
  | .gatePanics, _, .runGate => .error ⟨"nil map"⟩
  | .containerPanics, _, .runContainer => .error ⟨"nil map"⟩
  | .paddedJobType, _, q => smooth "mig " q
  | .gatePanics, _, q => smooth "pre_gate" q
  | _, _, q => smooth "mig" q

/-- A claim response came and the slot was released, but no status was uploaded. -/
def isDropped (t : List (Called Call Panic)) : Bool :=
  t.any (fun c => claims c.call c.answer) && t.any (fun c => isRelease c.call)
    && t.all fun c => (uploads c.call).isNone

/-- With the fault a job is claimed and its slot is released without a report. -/
def Fault.Drops (fault : Fault) : Prop :=
  ∃ trace result, claimedJob.Path trace result
    ∧ (∀ c ∈ trace, c.answer = fault.answers c.call)
    ∧ (∃ c ∈ trace, claims c.call c.answer = true) ∧ (∃ c ∈ trace, isRelease c.call = true)
    ∧ ∀ c ∈ trace, uploads c.call = none

theorem Fault.drops_of_isDropped
    {fault : Fault} (h : isDropped (claimedJob.answered fault.answers).1 = true) :
  fault.Drops
  := by
  simp only [isDropped, Bool.and_eq_true, List.any_eq_true, List.all_eq_true,
    Option.isNone_iff_eq_none] at h
  exact ⟨_, _, path_answered fault.answers claimedJob, fun c hc => answer_of_answered hc, h.1.1,
    h.1.2, h.2⟩

/-- Each of the faults drops a claimed job: its slot is released without a report. -/
theorem claimed_job_dropped :
  Fault.undecodable.Drops ∧ Fault.unreadableSpec.Drops ∧ Fault.mismatchedStacks.Drops
    ∧ Fault.alreadyExecuting.Drops ∧ Fault.paddedJobType.Drops ∧ Fault.gatePanics.Drops
    ∧ Fault.containerPanics.Drops
  := by
  refine ⟨?_, ?_, ?_, ?_, ?_, ?_, ?_⟩
  all_goals
    apply Fault.drops_of_isDropped
    decide +kernel

/-- A migration step that goes well is reported before its slot is released. -/
theorem claimed_job_reported_smooth :
  ∃ trace result, claimedJob.Path trace result ∧ (∀ c ∈ trace, regular c = true)
    ∧ (∃ c ∈ trace, claims c.call c.answer = true)
    ∧ ∃ claim, (∃ c ∈ trace, decoded c.call c.answer = some claim)
      ∧ ∃ before c after, trace = before ++ c :: after ∧ isRelease c.call = true
        ∧ Quiet before ∧ Quiet after ∧ Reported False claim.jobID claim.resumeCount before
  := by
  have hpath := path_answered (smooth "mig") claimedJob
  have hregular : ∀ c ∈ (claimedJob.answered (smooth "mig")).1, regular c = true := by
    rw [← List.all_eq_true]
    decide +kernel
  have hclaim : ∃ c ∈ (claimedJob.answered (smooth "mig")).1, claims c.call c.answer = true := by
    rw [← List.any_eq_true]
    decide +kernel
  exact ⟨_, _, hpath, hregular, hclaim, claimed_job_reported hpath hregular hclaim⟩

end NodeAgent

end Ploy
