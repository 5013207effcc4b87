import Ploy.Isolation.RunLock
import Ploy.Server.Completion

/-!
# Cancelling a run while others complete and restart it

The cancellation of a run reads the row of the run, writes it if the run had not ended, and then
cancels the active jobs of the run, in three statements. Completions and restarts hold the row from
their first read on, so that what they have seen stays true until they commit.
-/

namespace Ploy

open Program Protocol

section Rules

variable {guard : (β : Type) → Query β → DB → Bool} {π : Option (Run → Prop)}
  {ρ : Option (RunID → Nat → Prop)}

/-! ### Statements -/

theorem sameJobs_after {β : Type} {q : Query β} {p : Writes} {s w : DB} {b : β}
    (h : s.SameJobs (p.view s)) (hexec : q.exec (p.view s) = .ok (b, w)) :
  s.SameJobs w
  := h.trans (Extends.view p s) (Query.sameJobs_exec hexec)

theorem keeps_securing {β : Type} {q : Query β} (hq : q.calm = true) :
  runProtocol.Keeps guard (securing π ρ) q
  := by
  apply leads_of
  rintro L L' p p' s b v hL - - - - h hexec rfl
  apply h.calm hL (Query.calm_exec hq hexec) (sameJobs_after h.same hexec)

theorem issues_calm {α : Type} {x : Tx α} (h : CalmProgram x) :
  x.Issues fun q => runProtocol.Keeps guard (securing π ρ) q
  := Issues.mono h fun _ hq => keeps_securing hq

theorem keeps_securing_seen {β : Type} {q : Query β} (hq : q.calm = true) (run : Run) :
  runProtocol.Keeps guard (securing π ρ ⊓ seenRun runProtocol run) q
  := Leads.inf (keeps_securing hq) (keeps_seenRun (Query.writesRuns_of_calm hq) run)

theorem issues_calm_seen {α : Type} {x : Tx α} (h : CalmProgram x) (run : Run) :
  x.Issues fun q => runProtocol.Keeps guard (securing π ρ ⊓ seenRun runProtocol run) q
  := Issues.mono h fun _ hq => keeps_securing_seen hq run

theorem keeps_knownJob {β : Type} (q : Query β) (id : JobID) (run : RunID) (attempt : Nat) :
  runProtocol.Keeps guard (knownJob id run attempt) q
  := by
  apply leads_of
  rintro L L' p p' s b v - - - - - ⟨j, hj, rfl, rfl, rfl⟩ hexec rfl
  obtain ⟨j', hj', hid⟩ := (Query.exec_extends hexec).job hj
  obtain ⟨hrun, hattempt⟩ := Query.sameJobs_exec hexec j' hj' j hj hid.symm
  exact ⟨j', hj', hid, hrun.symm, hattempt.symm⟩

/-! ### Transactions that end runs -/

/-- What a transaction that opens no job and has ended all that it ends knows. -/
abbrev closed : runProtocol.Assertion := securing quieted none

theorem RunGuarantee.fits_closed {L : List RowKey} {s v : DB} (h : RunGuarantee quieted none L s v)
    (hinv : runProtocol.invariant s) :
  ∀ j ∈ v.jobs, j.Fits v
  := h.opensNone.fits hinv

theorem leads_getJob (id : JobID) :
  runProtocol.Leads guard closed (.getJob id) (fun o =>
    match o with
    | some j => closed ⊓ knownJob id j.runID j.attempt
    | none => ⊤)
  := by
  apply leads_of
  rintro L L' p p' s b v hL - - - - h hexec hview
  cases hexec
  cases hj : (p.view s).jobs.find? id with
  | none => trivial
  | some j =>
    obtain ⟨hj, hid⟩ := Table.find?_eq_some.mp hj
    refine ⟨?_, j, hview ▸ hj, hid, rfl, rfl⟩
    change RunGuarantee _ _ L' s (p'.view s)
    rw [hview]
    apply RunGuarantee.more h hL

theorem leads_getJob_known (id : JobID) (run : RunID) (attempt : Nat) :
  runProtocol.Leads guard (knownJob id run attempt) (.getJob id) (fun o =>
    match o with
    | some j => Assertion.pure runProtocol (j.runID = run ∧ j.attempt = attempt)
    | none => ⊤)
  := by
  apply leads_of
  rintro L L' p p' s b v - - - - - ⟨k, hk, hid, hrun, hattempt⟩ hexec -
  cases hexec
  cases hj : (p.view s).jobs.find? id with
  | none => trivial
  | some j =>
    obtain ⟨hj, hid'⟩ := Table.find?_eq_some.mp hj
    change j.runID = run ∧ j.attempt = attempt
    rw [Table.eq_of_key_eq hj hk (hid'.trans hid.symm)]
    exact ⟨hrun, hattempt⟩

theorem leads_lockRun (id : JobID) (run : RunID) (attempt : Nat) :
  runProtocol.Leads guard (closed ⊓ knownJob id run attempt) (.lockRun run)
    (fun _ => Assertion.locked runProtocol (.run run))
  := by
  apply leads_of
  rintro L L' p p' s b v - hselects - - hinv ⟨h, j, hj, -, rfl, -⟩ - -
  obtain ⟨r, hr, hid, -⟩ := h.fits_closed hinv j hj
  apply hselects
  change .run j.runID ∈ (p.view s).runKey j.runID
  rw [← hid]
  apply mem_runKey hr

/-- A listing of jobs that have all ended shows that the attempt is quiet. -/
theorem leads_listJobs (run : Run) :
  runProtocol.Leads guard (closed ⊓ seenRun runProtocol run)
    (.listJobsByRunAttempt run.id run.attempt) (fun jobs =>
      match evaluateRunAttemptTerminalStatus jobs with
      | .ok (some _) => quietRun run.id run.attempt
      | _ => ⊤)
  := by
  apply leads_of
  rintro L L' p p' s b v hL - - - hinv ⟨h, hlocked, hrun⟩ hexec hview
  cases hexec
  rcases evaluateRunAttemptTerminalStatus_cases (jobsOfAttempt (p.view s) run.id run.attempt) with
    ⟨hnone, -⟩ | ⟨status, hsome, -, -, hall⟩
  · simp only [hnone]
    trivial
  · simp only [hsome]
    refine ⟨hL hlocked, ?_⟩
    rw [hview]
    intro j hj hid hle
    cases hactive : j.status.active with
    | false => rfl
    | true =>
      obtain ⟨r, hr, hr', hfits⟩ := h.fits_closed hinv j hj
      have hsame : r = run := Table.eq_of_key_eq hr hrun (hr'.trans hid)
      have hattempt : j.attempt = run.attempt := by
        rw [hsame] at hfits
        rcases hfits hactive with hlater | ⟨hstays, -⟩
        · apply absurd hlater hle.not_gt
        · apply hstays
      have hlisted : j ∈ jobsOfAttempt (p.view s) run.id run.attempt := by
        rw [(jobsOfAttempt_perm _ _ _).mem_iff, List.mem_filter]
        refine ⟨hj, ?_⟩
        simp [Job.inAttempt, hid, hattempt]
      apply absurd hactive (inactive_of_terminal (hall j hlisted))

/-- A run whose attempt is quiet may be ended. -/
theorem leads_updateRunStatus (run : Run) (status : RunStatus) :
  runProtocol.Leads guard
    (closed ⊓ (seenRun runProtocol run ⊓ quietRun run.id run.attempt))
    (.updateRunStatus run.id status) (fun _ => closed)
  := by
  apply leads_of
  rintro L L' p p' s b v - - - - - ⟨h, ⟨-, hrun⟩, -, hquiet⟩ hexec hview
  cases hexec
  change RunGuarantee _ _ L' s (p'.view s)
  rw [hview]
  apply RunGuarantee.endRuns h
  intro r hr
  by_cases hid : r.id = run.id
  · right
    rw [Table.eq_of_key_eq hr hrun hid, RowUpdate.onlyIf_pos (by simp)]
    exact ⟨rfl, Or.inr hquiet⟩
  · left
    apply RowUpdate.onlyIf_neg
    simpa using hid

/-- A run is only ended when its attempt is quiet. -/
theorem triple_reconcileRepoRun (run : Run) (job : Job) (hrun : job.runID = run.id)
    (hattempt : job.attempt = run.attempt) :
  runProtocol.Triple guard (closed ⊓ seenRun runProtocol run) (reconcileRepoRun job)
    (fun _ => closed)
  := by
  unfold reconcileRepoRun maybeUpdateRunStatus
  rw [hrun, hattempt]
  apply Triple.bind (A := fun _ => closed)
  · apply Triple.recover_issue
      (Leads.and (Leads.inf (keeps_securing rfl) (keeps_seenRun rfl run)) (leads_listJobs run))
    intro jobs
    cases heval : evaluateRunAttemptTerminalStatus jobs with
    | error e => exact Triple.pure fun _ _ _ _ h => h.1.1
    | ok o =>
      cases o with
      | none => exact Triple.pure fun _ _ _ _ h => h.1.1
      | some status =>
        apply Triple.recover_issue (A := fun _ => closed)
        · rintro L p s howns hinv ⟨⟨h, hseen⟩, hquiet⟩
          apply leads_updateRunStatus run status L p s howns hinv ⟨h, hseen, hquiet⟩
        · intro _
          exact Triple.pure fun _ _ _ _ h => h
  · intro updated
    apply Triple.keep
    split
    · apply issues_calm (calm_loadRunForPostCompletion _)
    · apply issues_pure

/-- Completing a job of the run that is locked has ended all that it ends. -/
theorem triple_complete (input : CompletionInput) (run : Run) (job : Job)
    (hrun : job.runID = run.id) (hattempt : job.attempt = run.attempt) :
  runProtocol.Triple guard (closed ⊓ seenRun runProtocol run) (complete input job) (fun _ => closed)
  := by
  have hcomplete : runProtocol.Keeps guard (closed ⊓ seenRun runProtocol run)
      (.updateJobCompletion job.id input.status (input.recordedOutput job) input.jobMeta) := by
    apply keeps_securing_seen
    apply input.terminal
  apply Triple.after (issues_rejectIf _ _)
  intro _
  apply Triple.after (issues_rejectIf _ _)
  intro _
  apply Triple.after (issues_rejectIf _ _)
  intro _
  apply Triple.after (issues_rejectIf _ _)
  intro _
  apply Triple.after (Issues.mapError (issues_issue hcomplete) _)
  intro _
  apply Triple.after (issues_calm_seen (calm_onFail _ _) run)
  intro _
  apply Triple.after (issues_calm_seen (calm_onCancelled _ _) run)
  intro _
  apply Triple.after (issues_calm_seen (calm_onSuccess _ _) run)
  intro _
  apply triple_reconcileRepoRun run job hrun hattempt

/-- A completion opens no job and leaves no run that it ends unquiet. -/
theorem triple_completeJob (input : CompletionInput) :
  runProtocol.Triple guard closed (completeJob input) (fun _ => closed)
  := by
  apply Triple.bind (triple_one (leads_getJob input.jobID))
  intro job
  apply Triple.bind (Triple.issue (Leads.and
    (Leads.inf (keeps_securing rfl) (keeps_knownJob _ _ _ _)) (leads_lockRun _ _ _)))
  intro _
  apply Triple.bind (triple_one (Leads.inf
    (Leads.inf (keeps_securing rfl) (keeps_knownJob _ _ _ _)) (leads_getRun job.runID)))
  intro run
  apply Triple.bind Triple.rejectIf
  intro _
  apply Triple.bind (triple_one (Leads.inf (Leads.inf
    (Leads.inf (keeps_securing rfl) (leads_getJob_known _ _ _))
    (Leads.inf (keeps_seenRun rfl run) (keeps_pure _ _))) (keeps_pure _ _)))
  -- the job is where it was at first, and its attempt is the current one
  intro job'
  constructor
  rintro L p s howns hinv ⟨⟨⟨h, hrun', hattempt'⟩, hseen, hid⟩, hcurrent⟩
  have hattempt : job.attempt = run.attempt := by
    by_contra hne
    exact hcurrent (Or.inr hne)
  apply (triple_complete input run job' (hrun'.trans hid.symm) (hattempt'.trans hattempt)).wp L p s
    howns hinv ⟨h, hseen⟩

/-- The runs of the wave are ended before their jobs. -/
theorem leads_cancelActiveRunsByWave (wave : WaveID) :
  runProtocol.Leads guard closed (.cancelActiveRunsByWave wave)
    (fun _ => securing (some (·.waveID = wave)) none)
  := by
  apply leads_of
  rintro L L' p p' s b v - - - - - h hexec hview
  cases hexec
  change RunGuarantee _ _ L' s (p'.view s)
  rw [hview]
  apply RunGuarantee.endRuns h
  intro r hr
  by_cases hc : r.waveID = wave ∧ r.active = true
  · right
    rw [RowUpdate.onlyIf_pos (by simpa using hc)]
    exact ⟨rfl, Or.inl hc.1⟩
  · left
    apply RowUpdate.onlyIf_neg
    simpa using hc

theorem leads_listRunsByWave (wave : WaveID) :
  runProtocol.Leads guard (securing (some (·.waveID = wave)) none) (.listRunsByWave wave)
    (fun runs => securing (some (·.id ∈ runs.map Run.id)) none)
  := by
  apply leads_of
  rintro L L' p p' s b v hL - - - - h hexec hview
  cases hexec
  change RunGuarantee _ _ L' s (p'.view s)
  rw [hview]
  apply RunGuarantee.narrow (RunGuarantee.more h hL)
  intro r hr hwave
  left
  apply List.mem_map_of_mem
  apply mem_runsOfWave.mpr ⟨hr, hwave⟩

/-- Cancelling the jobs of a run makes it quiet. -/
theorem leads_cancelActiveJobsByRun {π : Run → Prop} (π' : Run → Prop) (run : RunID)
    (hπ : ∀ r, π r → r.id = run ∨ π' r) :
  runProtocol.Leads guard (securing (some π) none) (.cancelActiveJobsByRun run)
    (fun _ => securing (some π') none)
  := by
  apply leads_of
  rintro L L' p p' s b v hL - - - - h hexec hview
  have hkept := h.calm hL (Query.calm_exec rfl hexec) (sameJobs_after h.same hexec)
  cases hexec
  change RunGuarantee _ _ L' s (p'.view s)
  rw [hview]
  apply RunGuarantee.narrow hkept
  intro r hr hr'
  rcases hπ r hr' with rfl | hr'
  · right
    intro j hj hrun _
    obtain ⟨j₀, hj₀, rfl⟩ := DB.mem_updateJobs.mp hj
    rw [JobUpdate.runID_apply] at hrun
    by_cases hactive : j₀.status.active = true
    · rw [RowUpdate.onlyIf_pos (by simp [hrun, hactive])]
      rfl
    · rw [RowUpdate.onlyIf_neg (by simp [hactive])]
      simpa using hactive
  · exact Or.inl hr'

/-- All runs that were ended are quiet when their jobs are cancelled. -/
theorem triple_cancelJobsOfRuns (runs : List Run) :
  runProtocol.Triple guard (securing (some (·.id ∈ runs.map Run.id)) none) (cancelJobsOfRuns runs)
    (fun _ => closed)
  := by
  induction runs with
  | nil =>
    apply Triple.pure
    intro L p s _ h
    apply RunGuarantee.narrow h
    intro r _ hr
    cases hr
  | cons run rest ih =>
    apply Triple.bind _ fun _ => ih
    apply Triple.mapError
    apply Triple.issue
    apply leads_cancelActiveJobsByRun
    intro r hr
    apply List.mem_cons.mp hr

theorem triple_cancelWave (waveID : WaveID) :
  runProtocol.Triple guard closed (cancelWave waveID) (fun _ => closed)
  := by
  apply Triple.after (issues_calm (Issues.mapError (calm_one rfl) _))
  intro wave
  apply Triple.after (issues_calm (Issues.when fun _ => Issues.mapError (issues_issue rfl) _))
  intro _
  apply Triple.bind (Triple.mapError (Triple.issue (leads_cancelActiveRunsByWave waveID)))
  intro _
  apply Triple.bind (Triple.mapError (Triple.issue (leads_listRunsByWave waveID)))
  intro runs
  apply triple_cancelJobsOfRuns

/-! ### Transactions that open runs -/

/-- What a transaction that ends no run and has opened all that it opens knows. -/
abbrev opened : runProtocol.Assertion := securing none fitting

/-- A new run is open. -/
theorem leads_insertRun_opened (wave : CreateWaveParams) (plan : RunPlan) :
  runProtocol.Leads guard opened (.insertRun wave plan) (fun run =>
    opened ⊓ seenRun runProtocol run
      ⊓ Assertion.pure runProtocol (isTerminalRunStatus run.status = false))
  := by
  apply leads_of
  rintro L L' p p' s b v hL - howns - - h hexec hview
  obtain ⟨hjobs, hruns, hfresh, hopen, -⟩ := insertRun_ok hexec
  have hb : b ∈ (p'.view s).runs := by
    rw [hview, hruns]
    exact Or.inr rfl
  refine ⟨⟨?_, ?_, hb⟩, hopen⟩
  · change RunGuarantee none fitting L' s (p'.view s)
    rw [hview]
    apply h.insertRun hL (fun r hr => (hruns r).mpr (Or.inl hr)) hjobs (sameJobs_after h.same hexec)
  · rcases own_or_committed (x := .run b) hb with hwritten | hcommitted
    · apply howns _ hwritten.mem_rows
    · obtain ⟨r, hr, hid⟩ := (Extends.view p s).run (r := b) hcommitted
      apply absurd hid (hfresh r hr)

theorem leads_createJob (run : Run) (hopen : isTerminalRunStatus run.status = false)
    (arg : CreateJobParams) (hrun : arg.runID = run.id) (hattempt : arg.attempt = run.attempt) :
  runProtocol.Leads guard (opened ⊓ seenRun runProtocol run) (.createJob arg)
    (fun _ => opened ⊓ seenRun runProtocol run)
  := by
  apply leads_of
  rintro L L' p p' s b v hL - - - - ⟨h, hlocked, hseen⟩ hexec rfl
  obtain ⟨hruns, -, hjobs, hrun', hattempt'⟩ := createJob_ok hexec
  rw [← hruns] at hseen
  refine ⟨?_, hL hlocked, hseen⟩
  apply h.openJobs hL hruns (sameJobs_after h.same hexec)
  intro j hj
  apply ((hjobs j).mp hj).imp_right
  rintro rfl
  rw [hrun', hrun]
  refine ⟨hL hlocked, Or.inr ⟨run, hseen, (hrun'.trans hrun).symm, ?_⟩⟩
  intro _
  exact Or.inr ⟨hattempt'.trans hattempt, hopen⟩

theorem triple_insertPlannedJobs (ids : Nat → JobID) (run : Run)
    (hopen : isTerminalRunStatus run.status = false) (i : Nat) (plans : List JobPlan) :
  runProtocol.Triple guard (opened ⊓ seenRun runProtocol run) (insertPlannedJobs ids run i plans)
    (fun _ => opened ⊓ seenRun runProtocol run)
  := by
  induction plans generalizing i with
  | nil => exact Triple.pure fun _ _ _ _ h => h
  | cons plan rest ih =>
    apply Triple.bind (ih (i + 1))
    intro later
    apply Triple.bind (Triple.mapError (Triple.issue (leads_createJob run hopen _ rfl rfl)))
    intro created
    exact Triple.pure fun _ _ _ _ h => h

theorem triple_createPlannedJobs (ids : Nat → JobID) (run : Run)
    (hopen : isTerminalRunStatus run.status = false) (jobs : List JobPlan) :
  runProtocol.Triple guard (opened ⊓ seenRun runProtocol run) (createPlannedJobs ids run jobs)
    (fun _ => opened ⊓ seenRun runProtocol run)
  := by
  apply Triple.after (issues_rejectIf _ _)
  intro _
  apply Triple.after (issues_validatePlans _ _)
  intro _
  apply triple_insertPlannedJobs ids run hopen

/-- Creating runs opens only jobs that fit. -/
theorem triple_createRuns_opened (ids : Nat → Nat → JobID) (wave : CreateWaveParams) (k : Nat)
    (plans : List RunPlan) :
  runProtocol.Triple guard opened (createRuns ids wave k plans) (fun _ => opened)
  := by
  induction plans generalizing k with
  | nil => exact Triple.pure fun _ _ _ _ h => h
  | cons plan rest ih =>
    apply Triple.after (issues_calm (calm_requireRepoWithoutActiveRun _))
    intro _
    apply Triple.bind (Triple.mapError (Triple.issue (leads_insertRun_opened wave plan)))
    intro run
    apply Triple.of_pure
    intro hopen
    apply Triple.bind (Triple.mapError (triple_createPlannedJobs (ids k) run hopen plan.jobs))
    intro jobs
    apply Triple.weaken (A := opened)
    · apply Triple.bind (ih (k + 1))
      intro later
      exact Triple.pure fun _ _ _ _ h => h
    · intro L p s _ h
      apply h.1

theorem triple_createWaveWithRuns_opened (ids : Nat → Nat → JobID)
    (arg : CreateWaveWithRunsParams) :
  runProtocol.Triple guard opened (createWaveWithRuns ids arg) (fun _ => opened)
  := by
  apply Triple.after (issues_rejectIf _ _)
  intro _
  apply Triple.after (issues_calm (Issues.mapError (calm_lockRunRepositories _) _))
  intro _
  apply Triple.after (issues_calm (Issues.mapError (issues_issue rfl) _))
  intro wave
  apply Triple.bind (triple_createRuns_opened ids arg.wave 0 arg.runs)
  intro materialized
  exact Triple.pure fun _ _ _ _ h => h

/-- What is known while jobs of a run wait for it to be opened. -/
def reopening (run : Run) : runProtocol.Assertion :=
  securing none (some fun id attempt => id = run.id ∧ attempt = run.attempt)
    ⊓ seenRun runProtocol run

/-- A job that is reset waits for its run to be opened. -/
theorem leads_resetJob (run : Run) (id : JobID) (status : JobStatus) (metadata : RawJSON)
    (keepInput : Bool) :
  runProtocol.Leads guard (reopening run ⊓ knownJob id run.id run.attempt)
    (.resetJob id status metadata keepInput) (fun _ => reopening run)
  := by
  apply leads_of
  rintro L L' p p' s b v hL - - - - ⟨⟨h, hlocked, hrun⟩, k, hk, hid, hrun', hattempt⟩ hexec hview
  have hsame := sameJobs_after h.same hexec
  simp only [Query.exec] at hexec
  split at hexec
  · cases hexec
  · cases hexec
    refine ⟨?_, hL hlocked, hview ▸ hrun⟩
    change RunGuarantee _ _ L' s (p'.view s)
    rw [hview]
    apply h.openJobs hL (DB.updateJobs_runs _ _) hsame
    intro j hj
    obtain ⟨j₀, hj₀, rfl⟩ := DB.mem_updateJobs.mp hj
    by_cases hj' : j₀.id = id
    · right
      rw [JobUpdate.runID_apply, Table.eq_of_key_eq hj₀ hk (hj'.trans hid.symm), hrun']
      refine ⟨hL hlocked, Or.inl ?_⟩
      rw [JobUpdate.runID_apply, JobUpdate.attempt_apply]
      exact ⟨hrun', hattempt⟩
    · left
      rw [RowUpdate.onlyIf_neg (by simpa using hj')]
      apply hj₀

/-- A run is open, and locked. -/
def openRun (id : RunID) : runProtocol.Assertion where
  holds L p s := ∃ r, (seenRun runProtocol r).holds L p s ∧ r.id = id
    ∧ isTerminalRunStatus r.status = false
  stable := by
    rintro L p s s' howns hrely ⟨r, hseen, hr⟩
    exact ⟨r, (seenRun runProtocol r).stable howns hrely hseen, hr⟩

/-- Opening the run lets the jobs that wait for it fit. -/
theorem leads_openRun {β : Type} {q : Query β} (run : Run) (u : DB → RunUpdate)
    (hq : ∀ {db w : DB} {b : β}, q.exec db = .ok (b, w) →
      w = db.updateRuns ((u db).onlyIf (·.id = run.id)))
    (hu : ∀ db, run.attempt ≤ ((u db).apply run).attempt
      ∧ isTerminalRunStatus ((u db).apply run).status = false) :
  runProtocol.Leads guard (reopening run) q (fun _ => opened ⊓ openRun run.id)
  := by
  apply leads_of
  rintro L L' p p' s b v hL - - - - ⟨h, hlocked, hrun⟩ hexec hview
  rw [hq hexec] at hview
  obtain ⟨hattempt, hopen⟩ := hu (p.view s)
  have hpos : ((u (p.view s)).onlyIf (·.id = run.id)).apply run = (u (p.view s)).apply run :=
    RowUpdate.onlyIf_pos (by simp)
  have hmem : (u (p.view s)).apply run ∈ (p'.view s).runs := by
    rw [hview, ← hpos]
    exact DB.mem_updateRuns.mpr ⟨run, hrun, rfl⟩
  have hid : ((u (p.view s)).apply run).id = run.id := RunUpdate.id_apply _ _
  refine ⟨?_, _, ⟨?_, hmem⟩, hid, hopen⟩
  · change RunGuarantee none fitting L' s (p'.view s)
    rw [hview]
    apply h.openRuns hL
    · intro r hr
      by_cases hr' : r.id = run.id
      · right
        rw [Table.eq_of_key_eq hr hrun hr', hpos]
        exact ⟨hattempt, hopen⟩
      · left
        apply RowUpdate.onlyIf_neg
        simpa using hr'
    · rintro j - ⟨hrun', hattempt'⟩
      rw [← hview]
      refine ⟨_, hmem, hid.trans hrun'.symm, fun _ => ?_⟩
      rcases hattempt.lt_or_eq with hlater | hstays
      · left
        rw [hattempt']
        apply hlater
      · right
        exact ⟨hattempt'.trans hstays, hopen⟩
  · rw [hid]
    apply hL hlocked

theorem keeps_openRun {β : Type} {q : Query β} (hq : q.writesRuns = false) (id : RunID) :
  runProtocol.Keeps guard (openRun id) q
  := by
  rintro L p s howns hinv ⟨r, hseen, hr⟩ hguard b w hexec
  exact ⟨r, keeps_seenRun hq r L p s howns hinv hseen hguard b w hexec, hr⟩

theorem leads_getRun_open (id : RunID) :
  runProtocol.Leads guard (opened ⊓ openRun id) (.getRun id) (fun o =>
    match o with
    | some r => opened ⊓ seenRun runProtocol r
        ⊓ Assertion.pure runProtocol (isTerminalRunStatus r.status = false)
    | none => ⊤)
  := by
  apply leads_of
  rintro L L' p p' s b v hL - - - - ⟨h, r, ⟨hlocked, hr⟩, rfl, hopen⟩ hexec hview
  cases hexec
  rw [Table.find?_of_mem hr]
  refine ⟨⟨?_, hL hlocked, hview ▸ hr⟩, hopen⟩
  change RunGuarantee _ _ L' s (p'.view s)
  rw [hview]
  apply RunGuarantee.more h hL

def knownJobs (ids : List JobID) (run : RunID) (attempt : Nat) : runProtocol.Assertion where
  holds L p s := ∀ id ∈ ids, (knownJob id run attempt).holds L p s
  stable howns hrely h id hid := (knownJob id run attempt).stable howns hrely (h id hid)

theorem keeps_knownJobs {β : Type} (q : Query β) (ids : List JobID) (run : RunID) (attempt : Nat) :
  runProtocol.Keeps guard (knownJobs ids run attempt) q
  := by
  intro L p s howns hinv h hguard b w hexec id hid
  apply keeps_knownJob q id run attempt L p s howns hinv (h id hid) hguard b w hexec

theorem leads_listJobs_known (pre : runProtocol.Assertion) (run : RunID) (attempt : Nat) :
  runProtocol.Leads guard pre (.listJobsByRunAttempt run attempt)
    (fun jobs => knownJobs (jobs.map Job.id) run attempt)
  := by
  apply leads_of
  rintro L L' p p' s b v - - - - - - hexec hview id hid
  cases hexec
  obtain ⟨j, hj, rfl⟩ := List.mem_map.mp hid
  rw [(jobsOfAttempt_perm _ _ _).mem_iff, List.mem_filter] at hj
  obtain ⟨hj, hattempt⟩ := hj
  simp only [Job.inAttempt, Bool.and_eq_true, decide_eq_true_eq] at hattempt
  exact ⟨j, hview ▸ hj, rfl, hattempt⟩

/-- All jobs that are reset wait for the run. -/
theorem triple_resetJobs (run : Run) (ids : List JobID) (plans : List JobPlan) (first : Bool)
    (jobs : List Job) (hjobs : ∀ j ∈ jobs, j.id ∈ ids) :
  runProtocol.Triple guard (reopening run ⊓ knownJobs ids run.id run.attempt)
    (resetJobs plans first jobs) (fun _ => reopening run)
  := by
  induction jobs generalizing first with
  | nil => exact Triple.pure fun _ _ _ _ h => h.1
  | cons job rest ih =>
    apply Triple.after (issues_orFail _ _)
    intro plan
    apply Triple.bind (A := fun _ => reopening run ⊓ knownJobs ids run.id run.attempt)
    · apply Triple.issue
      rintro L p s howns hinv ⟨h, hknown⟩ hguard b w hexec
      constructor
      · have hjob := hknown job.id (hjobs job List.mem_cons_self)
        apply leads_resetJob run job.id _ _ _ L p s howns hinv ⟨h, hjob⟩ hguard b w hexec
      · apply keeps_knownJobs _ _ _ _ L p s howns hinv hknown hguard b w hexec
    · intro _
      apply ih false fun j hj => hjobs j (List.mem_cons_of_mem _ hj)

/-- After a run is reopened its jobs fit. -/
theorem triple_reopenRun_opened (run : Run) (arg : RestartRunParams) (hid : run.id = arg.runID) :
  runProtocol.Triple guard (opened ⊓ seenRun runProtocol run) (reopenRun run arg)
    (fun _ => opened ⊓ openRun arg.runID)
  := by
  rw [← hid]
  have hawait : ∀ L p s, runProtocol.invariant s → (opened ⊓ seenRun runProtocol run).holds L p s →
      (reopening run).holds L p s := fun L p s _ h => ⟨h.1.awaiting, h.2⟩
  apply Triple.weaken _ hawait
  unfold reopenRun
  split
  · apply Triple.after (issues_rejectIf _ _)
    intro _
    apply Triple.bind (Triple.issue (Leads.and (keeps_securing_seen rfl run)
      (leads_listJobs_known _ _ _)))
    intro jobs
    apply Triple.bind Triple.orFail
    intro suffix
    apply Triple.of_pure
    intro hsuffix
    obtain ⟨pre, j, post, hperm, -, rfl, -⟩ := failedJobSuffix_spec hsuffix
    have hlisted : ∀ k ∈ j :: post, k.id ∈ jobs.map Job.id := by
      intro k hk
      apply List.mem_map_of_mem
      apply hperm.subset (List.mem_append_right _ hk)
    apply Triple.bind (triple_resetJobs run _ arg.jobs true (j :: post) hlisted)
    intro _
    apply Triple.issue
    apply leads_openRun run fun db =>
      resumeRow arg.stats (arg.expectedResumeCount + 1).toNat db.now
    · intro db w b hexec
      simp only [Query.exec] at hexec
      split at hexec
      · cases hexec
      · cases hexec
        rfl
    · intro db
      exact ⟨le_rfl, rfl⟩
  · apply Triple.after (Issues.mapError (issues_issue (keeps_securing_seen rfl run)) _)
    intro _
    apply Triple.mapError
    apply Triple.issue
    apply leads_openRun run fun _ => incrementAttemptRow arg.stats
    · intro db w b hexec
      simp only [Query.exec] at hexec
      split at hexec
      · cases hexec
      · cases hexec
        rw [hid]
    · intro db
      exact ⟨Nat.le_succ _, rfl⟩

/-- A restart ends no run, and opens only jobs that fit. -/
theorem triple_restartRun_opened (ids : Nat → JobID) (arg : RestartRunParams) :
  runProtocol.Triple guard opened (restartRun ids arg) (fun _ => opened)
  := by
  apply Triple.bind
  · apply Triple.mapError
    exact triple_one (Leads.and (keeps_securing rfl) (leads_getRunForUpdate arg.runID))
  intro run
  apply Triple.weaken (A := opened ⊓ seenRun runProtocol run
    ⊓ Assertion.pure runProtocol (run.id = arg.runID))
  swap
  · rintro L p s - ⟨h, hseen, hid⟩
    exact ⟨⟨h, hseen⟩, hid⟩
  apply Triple.of_pure
  intro hid
  apply Triple.after (issues_rejectIf _ _)
  intro _
  apply Triple.after (issues_calm_seen (Issues.mapError (calm_one rfl) _) run)
  intro wave
  apply Triple.after (issues_rejectIf _ _)
  intro _
  apply Triple.after (issues_calm_seen (Issues.mapError (calm_lockRunRepositories _) _) run)
  intro _
  apply Triple.after (issues_calm_seen (calm_requireRepoWithoutActiveRun _) run)
  intro _
  apply Triple.bind (triple_reopenRun_opened run arg hid)
  intro _
  apply Triple.after
  · apply Issues.when
    intro _
    apply Issues.mapError
    exact issues_issue (Leads.inf (keeps_securing rfl) (keeps_openRun rfl _))
  intro _
  apply Triple.bind (Triple.mapError (triple_one (leads_getRun_open arg.runID)))
  intro updated
  apply Triple.of_pure
  intro hopen
  apply Triple.bind (A := fun _ => opened ⊓ seenRun runProtocol updated)
  · apply Triple.when
    · intro _
      apply Triple.mapError
      apply Triple.bind (triple_createPlannedJobs ids updated hopen arg.jobs)
      intro _
      exact Triple.pure fun _ _ _ _ h => h
    · intro _ _ _ _ _ h
      apply h
  · intro _
    exact Triple.pure fun _ _ _ _ h => h.1

end Rules

/-! ### Cancelling a run -/

/-- The statements of a cancellation find what it has decided on: the run that it sets to cancelled
has not ended, and the run whose jobs it cancels has. -/
def decidedOnCurrent (runID : RunID) : (β : Type) → Query β → DB → Bool
  | _, .updateRunStatus _ _, db =>
    (db.runs.find? runID).any fun r => !isTerminalRunStatus r.status
  | _, .cancelActiveJobsByRun _, db =>
    (db.runs.find? runID).any fun r => isTerminalRunStatus r.status
  | _, _, _ => true

/-- A cancellation has set its run, which had not ended, to cancelled, and has written no other run
and no job of another one. -/
def cancelledRun (id : RunID) : runProtocol.Assertion where
  holds L p s := .run id ∈ L
    ∧ (∀ r ∈ (p.view s).runs, r.id = id → r.status = .cancelled)
    ∧ (∀ r ∈ s.runs, r.id = id → isTerminalRunStatus r.status = false)
    ∧ (∀ r ∈ (p.view s).runs, r.id ≠ id → r ∈ s.runs)
    ∧ ∀ j ∈ (p.view s).jobs, j.runID ≠ id → j ∈ s.jobs
  stable := by
    rintro L p s s' howns hrely ⟨hlocked, hcancelled, hopen, hruns, hjobs⟩
    have hkey : ∀ {r : Run}, r.id = id → (Row.run r).key ∈ L := by
      intro r hid
      rw [Row.key, hid]
      apply hlocked
    refine ⟨hlocked, ?_, ?_, ?_, ?_⟩
    · intro r hr hid
      apply hcancelled r ((rely_view_locked (x := .run r) hrely (hkey hid)).mp hr) hid
    · intro r hr hid
      apply hopen r ((rely_locked (x := .run r) hrely (hkey hid)).mp hr) hid
    · intro r hr hid
      rcases own_or_committed (x := .run r) hr with hwritten | hcommitted
      · apply (rely_locked (x := .run r) hrely (howns _ hwritten.mem_rows)).mpr
        apply hruns r (written_seen hwritten) hid
      · apply hcommitted
    · intro j hj hid
      rcases own_or_committed (x := .job j) hj with hwritten | hcommitted
      · apply (rely_locked (x := .job j) hrely (howns _ hwritten.mem_rows)).mpr
        apply hjobs j (written_seen hwritten) hid
      · apply hcommitted

/-- A cancellation has written no run, and has cancelled only jobs of attempts that are over. -/
def outdatedJobs : runProtocol.Assertion where
  holds _ p s := (∀ r ∈ (p.view s).runs, r ∈ s.runs)
    ∧ ∀ j ∈ (p.view s).jobs, j ∈ s.jobs ∨ ∃ r ∈ s.runs, r.id = j.runID ∧ j.attempt < r.attempt
  stable := by
    rintro L p s s' howns hrely ⟨hruns, hjobs⟩
    constructor
    · intro r hr
      rcases own_or_committed (x := .run r) hr with hwritten | hcommitted
      · apply (rely_locked (x := .run r) hrely (howns _ hwritten.mem_rows)).mpr
        apply hruns r (written_seen hwritten)
      · apply hcommitted
    · intro j hj
      rcases own_or_committed (x := .job j) hj with hwritten | hcommitted
      · rcases hjobs j (written_seen hwritten) with hj | ⟨r, hr, hid, hlater⟩
        · left
          apply (rely_locked (x := .job j) hrely (howns _ hwritten.mem_rows)).mpr hj
        · obtain ⟨r', hr', hid', hle⟩ := rely_run hrely hr
          exact Or.inr ⟨r', hr', hid'.trans hid, hlater.trans_le hle⟩
      · exact Or.inl hcommitted

/-- What a cancellation has done. -/
def cancelledOrOutdated (id : RunID) : runProtocol.Assertion :=
  closed ⊓ (cancelledRun id ⊔ outdatedJobs)

section CancelRun

variable {runID : RunID}

theorem view_clean {p : Writes} (h : p = isolation.clean) (s : DB) :
  p.view s = s
  := by
  rw [h]
  apply isolation.view_clean

theorem keeps_clean_getRun {guard : (β : Type) → Query β → DB → Bool} (id : RunID) :
  runProtocol.Keeps guard (Assertion.clean runProtocol) (.getRun id)
  := by
  intro L p s howns hinv hclean hguard b w hexec
  have hview : p.view s = w := congrArg Prod.snd (Except.ok.inj hexec)
  rw [view_clean hclean] at hview
  subst hview
  change s.writes s = ⟨Table.empty _, Table.empty _, Table.empty _⟩
  simp only [DB.writes, Table.diff_self]

/-- The run is set to cancelled before its jobs are. -/
theorem leads_cancelRun :
  runProtocol.Leads (decidedOnCurrent runID) (Assertion.clean runProtocol)
    (.updateRunStatus runID .cancelled)
    (fun _ => securing (some (·.id = runID)) none ⊓ cancelledRun runID)
  := by
  apply leads_of
  rintro L L' p p' s b v - hselects - hguard - hclean hexec hview
  change ((p.view s).runs.find? runID).any (fun r => !isTerminalRunStatus r.status) = true at hguard
  rw [view_clean hclean] at hexec hguard hselects
  obtain ⟨run, hfind, hopen⟩ := (Option.any_eq_true _ _).mp hguard
  obtain ⟨hrun, hid⟩ := Table.find?_eq_some.mp hfind
  cases hexec
  have hupdated : ∀ r ∈ s.runs, (r.id = runID
      ∧ ((setRunStatus .cancelled).onlyIf (·.id = runID)).apply r = { r with status := .cancelled })
      ∨ (r.id ≠ runID ∧ ((setRunStatus .cancelled).onlyIf (·.id = runID)).apply r = r) := by
    intro r _
    by_cases hr : r.id = runID
    · exact Or.inl ⟨hr, RowUpdate.onlyIf_pos (by simpa using hr)⟩
    · exact Or.inr ⟨hr, RowUpdate.onlyIf_neg (by simpa using hr)⟩
  constructor
  · change RunGuarantee _ _ L' s (p'.view s)
    rw [hview]
    apply RunGuarantee.endRuns (L := L) (RunGuarantee.refl s).endsNone
    intro r hr
    rcases hupdated r hr with ⟨hr', heq⟩ | ⟨-, heq⟩
    · right
      rw [heq]
      exact ⟨rfl, Or.inl hr'⟩
    · exact Or.inl heq
  · refine ⟨?_, ?_, ?_, ?_, ?_⟩
    · apply hselects
      change .run runID ∈ s.runKey runID
      rw [← hid]
      apply mem_runKey hrun
    · intro r' hr' hid'
      rw [hview] at hr'
      obtain ⟨r, hr, rfl⟩ := DB.mem_updateRuns.mp hr'
      rcases hupdated r hr with ⟨-, heq⟩ | ⟨hr', -⟩
      · rw [heq]
      · rw [RunUpdate.id_apply] at hid'
        apply absurd hid' hr'
    · intro r hr hr'
      rw [Table.eq_of_key_eq hr hrun (hr'.trans hid.symm)]
      simpa using hopen
    · intro r' hr' hid'
      rw [hview] at hr'
      obtain ⟨r, hr, rfl⟩ := DB.mem_updateRuns.mp hr'
      rcases hupdated r hr with ⟨hr', -⟩ | ⟨-, heq⟩
      · rw [RunUpdate.id_apply] at hid'
        apply absurd hr' hid'
      · rw [heq]
        apply hr
    · intro j hj _
      rw [hview] at hj
      apply hj

theorem jobs_cancelActiveJobsByRun {p : Writes} {s w : DB} {b : Unit}
    (hexec : (Query.cancelActiveJobsByRun runID).exec (p.view s) = .ok (b, w)) {j : Job}
    (hj : j ∈ w.jobs) :
  j ∈ (p.view s).jobs ∨ ∃ j₀ ∈ (p.view s).jobs, j₀.runID = runID ∧ j₀.status.active = true
    ∧ j = { j₀ with status := .cancelled }
  := by
  cases hexec
  obtain ⟨j₀, hj₀, rfl⟩ := DB.mem_updateJobs.mp hj
  by_cases hc : j₀.runID = runID ∧ j₀.status.active = true
  · right
    rw [RowUpdate.onlyIf_pos (by simpa using hc)]
    exact ⟨j₀, hj₀, hc.1, hc.2, rfl⟩
  · left
    rw [RowUpdate.onlyIf_neg (by simpa using hc)]
    apply hj₀

theorem leads_cancelJobs_cancelled {guard : (β : Type) → Query β → DB → Bool} :
  runProtocol.Leads guard (securing (some (·.id = runID)) none ⊓ cancelledRun runID)
    (.cancelActiveJobsByRun runID) (fun _ => closed ⊓ cancelledRun runID)
  := by
  apply Leads.and
  · rintro L p s howns hinv ⟨h, -⟩
    apply leads_cancelActiveJobsByRun (fun _ => False) runID (fun _ hr => Or.inl hr) L p s
      howns hinv h
  · apply leads_of
    rintro L L' p p' s b v hL - - - - ⟨-, hlocked, hcancelled, hopen, hruns, hjobs⟩ hexec rfl
    rw [← Query.runs_exec rfl hexec] at hcancelled hruns
    refine ⟨hL hlocked, hcancelled, hopen, hruns, ?_⟩
    intro j hj hrun
    rcases jobs_cancelActiveJobsByRun hexec hj with hj | ⟨j₀, hj₀, hrun₀, -, rfl⟩
    · apply hjobs j hj hrun
    · apply absurd hrun₀ hrun

/-- If the run has ended, only jobs of earlier attempts are cancelled. -/
theorem leads_cancelJobs_outdated :
  runProtocol.Leads (decidedOnCurrent runID) (Assertion.clean runProtocol)
    (.cancelActiveJobsByRun runID) (fun _ => closed ⊓ outdatedJobs)
  := by
  apply leads_of
  rintro L L' p p' s b v hL - - hguard hinv hclean hexec rfl
  have hstart : RunGuarantee quieted none L s (p.view s) := by
    rw [view_clean hclean]
    apply (RunGuarantee.refl s).endsNone
  have hclosed := hstart.calm hL (Query.calm_exec rfl hexec) (sameJobs_after hstart.same hexec)
  change ((p.view s).runs.find? runID).any (fun r => isTerminalRunStatus r.status) = true at hguard
  have hsame := Query.runs_exec rfl hexec
  rw [view_clean hclean] at hguard hsame
  obtain ⟨run, hfind, hended⟩ := (Option.any_eq_true _ _).mp hguard
  obtain ⟨hrun, hid⟩ := Table.find?_eq_some.mp hfind
  refine ⟨hclosed, ?_, ?_⟩
  · rw [hsame]
    exact fun _ hr => hr
  · intro j hj
    rcases jobs_cancelActiveJobsByRun hexec hj with hj | ⟨j₀, hj₀, hrun₀, hactive, rfl⟩
    · left
      rw [view_clean hclean] at hj
      apply hj
    · right
      rw [view_clean hclean] at hj₀
      obtain ⟨r, hr, hr', hfits⟩ := hinv j₀ hj₀
      refine ⟨r, hr, hr', ?_⟩
      apply (hfits hactive).resolve_right
      rintro ⟨-, hopen⟩
      rw [Table.eq_of_key_eq hr hrun (hr'.trans (hrun₀.trans hid.symm)), hended] at hopen
      cases hopen

/-- A cancellation cancels its run, or only jobs of attempts that are over. -/
theorem triple_cancelRun :
  runProtocol.Triple (decidedOnCurrent runID) (Assertion.clean runProtocol) (cancelRun runID)
    (fun _ => cancelledOrOutdated runID)
  := by
  apply Triple.after (Issues.mapError ((issues_issue (keeps_clean_getRun runID)).bind
    (issues_orFail _)) _)
  intro run
  apply Triple.bind (A := fun _ =>
    (securing (some (·.id = runID)) none ⊓ cancelledRun runID) ⊔ Assertion.clean runProtocol)
  · apply Triple.when
    · intro _
      apply Triple.mapError
      apply Triple.issue
      intro L p s howns hinv hclean hguard b w hexec
      exact Or.inl (leads_cancelRun L p s howns hinv hclean hguard b w hexec)
    · intro _ L p s _ hclean
      exact Or.inr hclean
  · intro _
    apply Triple.mapError
    apply Triple.issue
    rintro L p s howns hinv (hcancelled | hclean) hguard b w hexec
    · obtain ⟨hclosed, hdone⟩ :=
        leads_cancelJobs_cancelled L p s howns hinv hcancelled hguard b w hexec
      exact ⟨hclosed, Or.inl hdone⟩
    · obtain ⟨hclosed, hdone⟩ :=
        leads_cancelJobs_outdated L p s howns hinv hclean hguard b w hexec
      exact ⟨hclosed, Or.inr hdone⟩

end CancelRun

/-! ### Executions -/

theorem closed_of_clean {L : List RowKey} {p : Writes} {s : DB} (h : p = isolation.clean) :
  closed.holds L p s
  := by
  change RunGuarantee quieted none L s (p.view s)
  rw [view_clean h]
  apply (RunGuarantee.refl s).endsNone

theorem opened_of_clean {L : List RowKey} {p : Writes} {s : DB} (h : p = isolation.clean) :
  opened.holds L p s
  := by
  change RunGuarantee none fitting L s (p.view s)
  rw [view_clean h]
  apply (RunGuarantee.refl s).opensNone

/-- What the transactions of each kind know when they commit. -/
def TransactionRequest.secures : TransactionRequest → runProtocol.Assertion
  | .createWaveWithRuns _ _ | .restartRun _ _ => opened
  | .cancelRun runID => cancelledOrOutdated runID
  | _ => closed

/-- What the statements of a transaction must find. Only those of cancellations are restricted. -/
def TransactionRequest.finds : TransactionRequest → (β : Type) → Query β → DB → Bool
  | .cancelRun runID => decidedOnCurrent runID
  | _ => fun _ _ _ => true

section Secures

variable {guard : (β : Type) → Query β → DB → Bool} {α : Type} {x : Tx α}

theorem triple_closed (h : runProtocol.Triple guard closed x (fun _ => closed)) :
  runProtocol.Triple guard (Assertion.clean runProtocol) x (fun _ => closed)
  := h.weaken fun _ _ _ _ hclean => closed_of_clean hclean

theorem triple_opened (h : runProtocol.Triple guard opened x (fun _ => opened)) :
  runProtocol.Triple guard (Assertion.clean runProtocol) x (fun _ => opened)
  := h.weaken fun _ _ _ _ hclean => opened_of_clean hclean

theorem triple_unit {pre post : runProtocol.Assertion}
    (h : runProtocol.Triple guard pre x (fun _ => post)) :
  runProtocol.Triple guard pre (x >>= fun _ => pure ()) (fun _ => post)
  := h.bind fun _ => Triple.pure fun _ _ _ _ h => h

end Secures

theorem triple_secures (l : TransactionRequest) :
  runProtocol.Triple l.finds (Assertion.clean runProtocol) l.program (fun _ => l.secures)
  := by
  cases l with
  | createWaveWithRuns ids arg =>
    exact triple_unit (triple_opened (triple_createWaveWithRuns_opened ids arg))
  | claimJob nodeID skipLocked =>
    exact triple_unit (triple_closed (Triple.keep (issues_calm (calm_claim nodeID skipLocked))))
  | unclaimJob id nodeID =>
    exact triple_closed (Triple.keep (issues_calm (calm_unclaim id nodeID)))
  | completeJob input => exact triple_unit (triple_closed (triple_completeJob input))
  | cancelRun runID => exact triple_cancelRun
  | cancelWave waveID => exact triple_closed (triple_cancelWave waveID)
  | restartRun ids arg => exact triple_unit (triple_opened (triple_restartRun_opened ids arg))

/-- The transactions keep to the protocol of the run locks. -/
def runContracts : Contracts runProtocol TransactionRequest.program where
  guard := TransactionRequest.finds
  post := TransactionRequest.secures
  keeps := triple_secures
  guarantees l L p s _ h := by
    cases l with
    | createWaveWithRuns | restartRun => exact RunGuarantee.endsNone h
    | cancelRun runID => exact RunGuarantee.opensNone h.1
    | claimJob | unclaimJob | completeJob | cancelWave => exact RunGuarantee.opensNone h

/-- The next statement of a cancellation finds the run as the cancellation has decided on it. -/
def cancelsCurrent (c : ClientState) : ClientEvent → Bool
  | .statement i =>
    match c.sessions[i]? with
    | some ⟨.cancelRun runID, .statement q _, p, _⟩ => decidedOnCurrent runID _ q (p.view c.store)
    | _ => true
  | _ => true

theorem passes_of_cancelsCurrent {c : ClientState} {e : ClientEvent}
    (h : cancelsCurrent c e = true) :
  runContracts.passes c e = true
  := by
  cases e with
  | statement i =>
    simp only [Contracts.passes]
    split
    · rename_i l β q next p L hi
      cases l with
      | cancelRun runID =>
        simp only [cancelsCurrent, hi] at h
        apply h
      | _ => rfl
    · rfl
  | _ => rfl

/-- No run that had succeeded or failed is cancelled. -/
def DB.KeepsFinal (s s' : DB) : Prop :=
  ∀ r ∈ s.runs, r.status = .success ∨ r.status = .fail →
    ∀ r' ∈ s'.runs, r'.id = r.id → r'.status ≠ .cancelled

/-- No active job of the current attempt of a run that is left running is cancelled. -/
def DB.KeepsRunning (s s' : DB) : Prop :=
  ∀ r ∈ s'.runs, r.status = .running → ∀ j ∈ s.jobs, j.runID = r.id → j.attempt = r.attempt →
    j.status.active = true → ∀ j' ∈ s'.jobs, j'.id = j.id → j'.status ≠ .cancelled

theorem Run.terminal_of_final {r : Run} (h : r.status = .success ∨ r.status = .fail) :
  isTerminalRunStatus r.status = true ∧ r.status ≠ .cancelled
  := by
  rcases h with h | h <;> simp [h, isTerminalRunStatus]

/-- A cancellation of a run that had not ended keeps what is asked of it. -/
theorem cancelledRun_keeps {L : List RowKey} {p : Writes} {s : DB} {id : RunID}
    (hsame : s.SameJobs (p.view s)) (h : (cancelledRun id).holds L p s) :
  s.KeepsFinal (p.view s) ∧ s.KeepsRunning (p.view s)
  := by
  obtain ⟨-, hcancelled, hopen, hruns, hjobs⟩ := h
  constructor
  · intro r hr hfinal r' hr' hid
    obtain ⟨hterminal, hne⟩ := Run.terminal_of_final hfinal
    by_cases hrun : r.id = id
    · rw [hopen r hr hrun] at hterminal
      cases hterminal
    · have hsame : r' = r := by
        apply Table.eq_of_key_eq (hruns r' hr' _) hr hid
        rw [hid]
        apply hrun
      rw [hsame]
      apply hne
  · intro r hr hrunning j hj hrun _ hactive j' hj' hid hstatus
    by_cases hid' : r.id = id
    · rw [hcancelled r hr hid'] at hrunning
      cases hrunning
    · have hj₀ : j' ∈ s.jobs := by
        apply hjobs j' hj'
        rw [← (hsame j' hj' j hj hid.symm).1, hrun]
        apply hid'
      rw [← Table.eq_of_key_eq hj₀ hj hid, hstatus] at hactive
      cases hactive

theorem outdatedJobs_keeps {L : List RowKey} {p : Writes} {s : DB}
    (hsame : s.SameJobs (p.view s)) (h : outdatedJobs.holds L p s) :
  s.KeepsFinal (p.view s) ∧ s.KeepsRunning (p.view s)
  := by
  obtain ⟨hruns, hjobs⟩ := h
  constructor
  · intro r hr hfinal r' hr' hid
    rw [Table.eq_of_key_eq (hruns r' hr') hr hid]
    apply (Run.terminal_of_final hfinal).2
  · intro r hr _ j hj hrun hattempt hactive j' hj' hid hstatus
    rcases hjobs j' hj' with hj₀ | ⟨r', hr', hid', hlater⟩
    · rw [← Table.eq_of_key_eq hj₀ hj hid, hstatus] at hactive
      cases hactive
    · obtain ⟨hrun', hattempt'⟩ := hsame j' hj' j hj hid.symm
      have hr₀ : r' = r := Table.eq_of_key_eq hr' (hruns r hr) (hid'.trans (hrun'.symm.trans hrun))
      rw [hr₀, ← hattempt', hattempt] at hlater
      apply absurd hlater (lt_irrefl _)

/-- In every interleaving in which the statements of cancellations find what they were decided on, a
cancellation that commits cancels no run that had succeeded or failed, and no active job of the
current attempt of a run that it leaves running. -/
theorem cancel_run_isolated {past : List (ClientState × ClientEvent)} {c c' : ClientState}
    (h : clientMachine.Execution past c) (hcurrent : ∀ x ∈ past, cancelsCurrent x.1 x.2 = true)
    {i : Nat} {x : ClientSession} {runID : RunID} (hx : c.sessions[i]? = some x)
    (hrequest : x.request = .cancelRun runID)
    (hcommit : clientMachine.step (.commit i) c = some c') :
  c.store.KeepsFinal c'.store ∧ c.store.KeepsRunning c'.store
  := by
  have hsound : runContracts.Sound c := by
    apply Contracts.sound_of_execution _ h
    · intro y hy
      apply passes_of_cancelsCurrent (hcurrent y hy)
    · rintro s ⟨-, -, hjobs⟩ j hj
      change j ∈ s.jobs.rows at hj
      rw [hjobs] at hj
      cases hj
  cases client_moves hcommit with
  | @commit s before after l p L =>
    rw [Interleaved.getElem?_place] at hx
    cases hx
    cases hrequest
    have hpost := hsound.postcondition (x := ⟨.cancelRun runID, .done (.ok ()), p, L⟩) (by simp) rfl
    obtain ⟨hclosed, hdone⟩ := hpost
    rcases hdone with hcancelled | houtdated
    · apply cancelledRun_keeps hclosed.same hcancelled
    · apply outdatedJobs_keeps hclosed.same houtdated
  | ended event => rcases event with event | event <;> cases event

namespace Sample

/-- A run with one job, which is claimed. -/
def claimed : List ClientEvent :=
  .begin (creating "w" "r" (plans.take 1)) :: List.replicate 6 (.statement 0)
    ++ [.commit 0, .begin (.claimJob ⟨"n1"⟩ []), .statement 0, .commit 0]

/-- The job fails, in the session at an index. -/
def jobFails (i : Nat) : List ClientEvent :=
  .begin (.completeJob (report "r0" .fail terminal_fail 0)) :: List.replicate 9 (.statement i)
    ++ [.commit i]

/-- The job is retried, in the session at an index. -/
def jobRetried (i : Nat) : List ClientEvent :=
  .begin (.restartRun (fun _ => ⟨"x"⟩) ⟨true, 0, ⟨"r"⟩, 1, none, plans.take 1⟩)
    :: List.replicate 9 (.statement i) ++ [.commit i]

end Sample

/-- The first session is a cancellation, and what is committed before and after it commits passes a
test. -/
def cancelCommits (test : DB → DB → Bool) (c : ClientState) : Bool :=
  match c.sessions.head?, clientMachine.step (.commit 0) c with
  | some ⟨.cancelRun _, _, _, _⟩, some c' => test c.store c'.store
  | _, _ => false

theorem cancelCommits_spec {test : DB → DB → Bool} {c : ClientState}
    (h : cancelCommits test c = true) :
  ∃ c' x runID, c.sessions[0]? = some x ∧ x.request = .cancelRun runID
    ∧ clientMachine.step (.commit 0) c = some c' ∧ test c.store c'.store = true
  := by
  simp only [cancelCommits] at h
  split at h
  · rename_i runID program p L c' hx hcommit
    rw [List.head?_eq_getElem?] at hx
    exact ⟨c', _, runID, hx, rfl, hcommit, h⟩
  · cases h

/-- A job is claimed, and its run cancelled. -/
theorem cancel_run_isolated_sample :
  ∃ past c c' x runID, clientMachine.Execution past c
    ∧ (∀ y ∈ past, cancelsCurrent y.1 y.2 = true) ∧ c.sessions[0]? = some x
    ∧ x.request = .cancelRun runID ∧ clientMachine.step (.commit 0) c = some c'
    ∧ (∃ j ∈ c.store.jobs, j.status = .running)
    ∧ c.store.KeepsFinal c'.store ∧ c.store.KeepsRunning c'.store
  := by
  have hrun : (((clientMachine.restrict cancelsCurrent).follow Sample.clients
      (Sample.claimed ++ .begin (.cancelRun ⟨"r"⟩) :: List.replicate 3 (.statement 0))).map
        (cancelCommits fun s _ => decide (∃ j ∈ s.jobs.rows, j.status = .running)))
            = some true := by
    decide
  obtain ⟨c, hfollow, hc⟩ := Option.map_eq_some_iff.mp hrun
  obtain ⟨past, hexec, hcurrent⟩ := Machine.Execution.of_follow_restrict Sample.clients_init hfollow
  obtain ⟨c', x, runID, hx, hrequest, hcommit, htest⟩ := cancelCommits_spec hc
  exact ⟨past, c, c', x, runID, hexec, hcurrent, hx, hrequest, hcommit, of_decide_eq_true htest,
    cancel_run_isolated hexec hcurrent hx hrequest hcommit⟩

/-- A run fails between the first statement of its cancellation and the second, and is set to
cancelled. A run is restarted between the first statement of its cancellation and the last, and is
left running with its jobs cancelled. -/
theorem cancel_run_overtaken :
  (∃ past c c' x runID, clientMachine.Execution past c ∧ c.sessions[0]? = some x
      ∧ x.request = .cancelRun runID ∧ clientMachine.step (.commit 0) c = some c'
      ∧ ¬ c.store.KeepsFinal c'.store)
    ∧ ∃ past c c' x runID, clientMachine.Execution past c ∧ c.sessions[0]? = some x
      ∧ x.request = .cancelRun runID ∧ clientMachine.step (.commit 0) c = some c'
      ∧ ¬ c.store.KeepsRunning c'.store
  := by
  constructor
  · have hrun : ((clientMachine.follow Sample.clients
        (Sample.claimed ++ [.begin (.cancelRun ⟨"r"⟩), .statement 0] ++ Sample.jobFails 1
          ++ [.statement 0, .statement 0])).map
          (cancelCommits fun s s' => decide (∃ r ∈ s.runs.rows,
            (r.status = .success ∨ r.status = .fail)
            ∧ ∃ r' ∈ s'.runs.rows, r'.id = r.id ∧ r'.status = .cancelled))) = some true := by
      decide
    obtain ⟨c, hfollow, hc⟩ := Option.map_eq_some_iff.mp hrun
    obtain ⟨past, hexec, -⟩ := (Machine.Execution.start Sample.clients_init).follow hfollow
    obtain ⟨c', x, runID, hx, hrequest, hcommit, htest⟩ := cancelCommits_spec hc
    refine ⟨_, c, c', x, runID, hexec, hx, hrequest, hcommit, ?_⟩
    obtain ⟨r, hr, hfinal, r', hr', hid, hcancelled⟩ := of_decide_eq_true htest
    intro hkeeps
    apply hkeeps r hr hfinal r' hr' hid hcancelled
  · have hrun : ((clientMachine.follow Sample.clients
        (Sample.claimed ++ Sample.jobFails 0 ++ [.begin (.cancelRun ⟨"r"⟩), .statement 0]
          ++ Sample.jobRetried 1 ++ [.statement 0])).map
          (cancelCommits fun s s' => decide (∃ r ∈ s'.runs.rows, r.status = .running
            ∧ ∃ j ∈ s.jobs.rows, j.runID = r.id ∧ j.attempt = r.attempt ∧ j.status.active = true
            ∧ ∃ j' ∈ s'.jobs.rows, j'.id = j.id ∧ j'.status = .cancelled))) = some true := by
      decide
    obtain ⟨c, hfollow, hc⟩ := Option.map_eq_some_iff.mp hrun
    obtain ⟨past, hexec, -⟩ := (Machine.Execution.start Sample.clients_init).follow hfollow
    obtain ⟨c', x, runID, hx, hrequest, hcommit, htest⟩ := cancelCommits_spec hc
    refine ⟨_, c, c', x, runID, hexec, hx, hrequest, hcommit, ?_⟩
    obtain ⟨r, hr, hrunning, j, hj, hrun', hattempt, hactive, j', hj', hid, hcancelled⟩ :=
      of_decide_eq_true htest
    intro hkeeps
    apply hkeeps r hr hrunning j hj hrun' hattempt hactive j' hj' hid hcancelled

end Ploy
