import Ploy.Store.Transactions

/-!
# What transactions commit

For each transaction that only rewrites rows, the rewriting that it commits; for those that
insert rows, the rows.
-/

namespace Ploy

open RowUpdate
open Program

variable {α : Type} {db db' : DB}

@[simp] theorem engine_exec {β : Type} (q : Query β) (db : DB) :
  engine.exec q db = q.exec db
  := rfl

@[simp] theorem transaction_within_ok {context : String} {p : Tx α} {a : α} :
  (within context p).transaction engine db = .ok (a, db')
    ↔ p.transaction engine db = .ok (a, db')
  := transaction_mapError_ok

@[simp] theorem transaction_one_ok {q : Query (Option α)} {a : α} :
  (one q).transaction engine db = .ok (a, db') ↔ q.exec db = .ok (some a, db')
  := by
  simp [one]

/-! ### Claiming -/

variable {j : Job}

theorem nextClaim_spec {n : Node} {skipLocked : List JobID}
    (h : nextClaim db n skipLocked = some j) :
  j ∈ db.jobs ∧ eligible db n j = true
  := by
  have hmem := List.mem_of_mem_head? (Option.mem_def.mpr h)
  rw [(List.perm_insertionSort _ _).mem_iff] at hmem
  simp only [List.mem_filter, Bool.and_eq_true] at hmem
  apply And.intro hmem.1 hmem.2.1

structure Eligible (db : DB) (n : Node) (j : Job) : Prop where
  accepting : n.drained = false
  queued : j.status = .queued
  running : ∃ r ∈ db.runs, r.id = j.runID ∧ r.status = .running
    ∧ ∃ w ∈ db.waves, w.id = r.waveID ∧ w.status = .started
  unbound : j.nodeID = none ∨ j.nodeID = some n.id
  owner : ∀ k ∈ db.jobs, k.runID = j.runID → k.attempt = j.attempt →
    k.nodeID = none ∨ k.nodeID = some n.id

/-- What is known of a job that may be claimed. -/
theorem eligible_spec {n : Node} (h : eligible db n j = true) :
  Eligible db n j
  := by
  simp only [eligible, Bool.and_eq_true, Bool.not_eq_true', decide_eq_true_eq, Bool.or_eq_true,
    List.any_eq_true] at h
  obtain ⟨⟨⟨⟨⟨hdrained, -⟩, hqueued⟩, hunbound⟩, r, hr, ⟨hid, hrunning⟩, w, hw, hwid, hstarted⟩,
      howner⟩ :=
    h
  refine ⟨hdrained, hqueued, ⟨r, hr, hid, hrunning, w, hw, hwid, hstarted⟩, hunbound, ?_⟩
  intro k hk hrun hattempt
  cases hn : k.nodeID with
  | none => apply Or.inl rfl
  | some m =>
    right
    rw [← Bool.not_eq_true, List.any_eq_true] at howner
    by_contra hne
    apply howner
    use k, hk
    simpa [hrun, hattempt, hn] using hne

/-- A claim gives one eligible job to the node. -/
theorem claimJob_effect {nodeID : NodeID} {skipLocked : List JobID} {claimed : Job}
    (h : (claimJob nodeID skipLocked).transaction engine db = .ok (claimed, db')) :
  ∃ n ∈ db.nodes, n.id = nodeID ∧ ∃ j ∈ db.jobs, eligible db n j = true
    ∧ claimed = (claimRow nodeID db.now).apply j
    ∧ db' = db.updateJobs ((claimRow nodeID db.now).onlyIf (·.id = j.id))
  := by
  simp only [claimJob, transaction_bind_ok, transaction_rejectIf_ok, transaction_one_ok] at h
  obtain ⟨-, db₁, ⟨-, rfl⟩, h⟩ := h
  simp only [Query.exec, DB.claimJob] at h
  cases hn : db.nodes.find? nodeID with
  | none => simp [hn] at h
  | some n =>
    obtain ⟨hnode, hid⟩ := Table.find?_eq_some.mp hn
    simp only [hn, Option.bind_some] at h
    cases hj : nextClaim db n skipLocked with
    | none => simp [hj] at h
    | some j =>
      obtain ⟨hjob, heligible⟩ := nextClaim_spec hj
      simp only [hj] at h
      cases h
      exact ⟨n, hnode, hid, j, hjob, heligible, rfl, rfl⟩

/-- The rewriting of an unclaim: of the job named, if it runs on the node named. -/
def unclaimUpdate (db : DB) (id : JobID) (nodeID : NodeID) : JobUpdate :=
  (unclaimRow db.resumed).onlyIf fun j => j.id = id && j.nodeID = some nodeID && j.status = .running

variable {u : Unit}

theorem unclaimJob_effect {id : JobID} {nodeID : NodeID}
    (h : (unclaimJob id nodeID).transaction engine db = .ok (u, db')) :
  db' = db ∨ db' = db.updateJobs (unclaimUpdate db id nodeID)
  := by
  simp only [unclaimJob, transaction_bind_ok, transaction_rejectIf_ok, transaction_within_ok,
    transaction_issue] at h
  obtain ⟨-, db₁, ⟨-, rfl⟩, -, db₂, ⟨-, rfl⟩, h⟩ := h
  simp only [engine_exec, Query.exec, DB.unclaimJob] at h
  split at h
  · cases h
    apply Or.inl rfl
  · cases h
    apply Or.inr rfl

/-! ### Cancelling -/

def cancelRunUpdate (p : Run → Bool) : RunUpdate :=
  (setRunStatus .cancelled).onlyIf fun r => p r && r.active

def cancelJobsUpdate (p : Job → Bool) : JobUpdate :=
  cancelJob.onlyIf fun j => p j && j.status.active

variable {r : Run}

theorem cancelRunUpdate_pos {p : Run → Bool} (h : p r = true) :
  (cancelRunUpdate p).apply r = ((setRunStatus .cancelled).onlyIf Run.active).apply r
  := by
  simp only [cancelRunUpdate, onlyIf, h, Bool.true_and]

theorem cancelRunUpdate_neg {p : Run → Bool} (h : p r = false) :
  (cancelRunUpdate p).apply r = r
  := by
  apply onlyIf_neg
  simp [h]

theorem cancelJobsUpdate_neg {p : Job → Bool} (h : p j = false) :
  (cancelJobsUpdate p).apply j = j
  := by
  apply onlyIf_neg
  simp [h]

theorem cancelJobsUpdate_congr {p q : Job → Bool} (h : p j = q j) :
  (cancelJobsUpdate p).apply j = (cancelJobsUpdate q).apply j
  := by
  simp only [cancelJobsUpdate, onlyIf, h]

theorem active_iff :
  r.active = true ↔ r.status ≠ .success ∧ r.status ≠ .fail ∧ r.status ≠ .cancelled
  := by
  unfold Run.active
  cases r.status <;> simp

theorem active_iff_not_terminal :
  r.active = true ↔ isTerminalRunStatus r.status = false
  := by
  unfold Run.active
  cases r.status <;> simp [isTerminalRunStatus]

/-- A cancellation ends the run if it is active, and cancels its active jobs. -/
theorem cancelRun_effect {runID : RunID}
    (h : (cancelRun runID).transaction engine db = .ok (u, db')) :
  (∃ r ∈ db.runs, r.id = runID)
    ∧ db' = (db.updateRuns (cancelRunUpdate (·.id = runID))).updateJobs
        (cancelJobsUpdate (·.runID = runID))
  := by
  simp only [cancelRun, transaction_bind_ok, transaction_within_ok, transaction_one_ok,
    transaction_when_ok, transaction_issue, engine_exec, Query.exec, Except.ok.injEq,
    Prod.mk.injEq, true_and] at h
  obtain ⟨r, db₁, ⟨hr, rfl⟩, ⟨⟩, db₂, hstatus, -, rfl⟩ := h
  obtain ⟨hmem, rfl⟩ := Table.find?_eq_some.mp hr
  constructor
  · use r
  · -- the status is written without a guard, after the row was read
    have hruns : db₂ = db.updateRuns (cancelRunUpdate (·.id = r.id)) := by
      rcases hstatus with ⟨hactive, rfl⟩ | ⟨hterminal, rfl⟩
      · apply DB.updateRuns_congr
        intro r' hr'
        by_cases hid : r'.id = r.id
        · obtain rfl := Table.eq_of_key_eq hr' hmem hid
          rw [cancelRunUpdate, onlyIf_pos (by simp),
            onlyIf_pos (by simp [active_iff.mpr hactive])]
        · rw [cancelRunUpdate, onlyIf_neg (by simpa using hid),
            onlyIf_neg (by simp [hid])]
      · symm
        apply DB.updateRuns_eq_self
        intro r' hr'
        apply onlyIf_neg
        intro hguard
        simp only [Bool.and_eq_true, decide_eq_true_eq] at hguard
        obtain rfl := Table.eq_of_key_eq hr' hmem hguard.1
        apply hterminal (active_iff.mp hguard.2)
    rw [hruns]
    rfl

/-- The active jobs of the runs are cancelled. -/
theorem cancelJobsOfRuns_effect {runs : List Run}
    (h : (cancelJobsOfRuns runs).transaction engine db = .ok (u, db')) :
  db' = db.updateJobs (cancelJobsUpdate fun j => j.runID ∈ runs.map Run.id)
  := by
  induction runs generalizing db with
  | nil =>
    cases h
    symm
    apply DB.updateJobs_eq_self
    intro j _
    apply onlyIf_neg
    simp
  | cons run rest ih =>
    simp only [cancelJobsOfRuns, transaction_bind_ok, transaction_within_ok, transaction_issue,
      engine_exec, Query.exec, Except.ok.injEq, Prod.mk.injEq, true_and] at h
    obtain ⟨⟨⟩, db₁, rfl, h⟩ := h
    rw [ih h, DB.updateJobs_updateJobs]
    apply DB.updateJobs_congr
    intro j _
    -- a job is cancelled by the first statement, by a later one, or not at all
    simp only [comp, cancelJobsUpdate, onlyIf, cancelJob, List.map_cons,
      List.mem_cons]
    by_cases hactive : j.status.active = true <;> by_cases hrun : j.runID = run.id <;>
      by_cases hrest : j.runID ∈ rest.map Run.id <;> simp_all [JobStatus.active]

def cancelWaveUpdate (waveID : WaveID) : WaveUpdate :=
  (setWaveStatus .cancelled).onlyIf fun w => w.id = waveID && w.status = .started

/-- Whether a job belongs to a run of a wave. -/
def jobOfWave (db : DB) (waveID : WaveID) (j : Job) : Bool :=
  db.runs.rows.any fun r => r.waveID = waveID && r.id = j.runID

theorem jobOfWave_iff {waveID : WaveID} :
  jobOfWave db waveID j = true ↔ ∃ r ∈ db.runs, r.waveID = waveID ∧ r.id = j.runID
  := by
  simp [jobOfWave, Table.mem_rows]

/-- Cancelling a wave ends its active runs and cancels their active jobs. -/
theorem cancelWave_effect {waveID : WaveID}
    (h : (cancelWave waveID).transaction engine db = .ok (u, db')) :
  (∃ w ∈ db.waves, w.id = waveID)
    ∧ db' = ((db.updateWaves (cancelWaveUpdate waveID)).updateRuns
        (cancelRunUpdate (·.waveID = waveID))).updateJobs
        (cancelJobsUpdate (jobOfWave db waveID))
  := by
  simp only [cancelWave, transaction_bind_ok, transaction_within_ok, transaction_one_ok,
    transaction_when_ok, transaction_issue, engine_exec, Query.exec, Except.ok.injEq,
    Prod.mk.injEq, true_and] at h
  obtain ⟨w, db₁, ⟨hw, rfl⟩, ⟨⟩, db₂, hstatus, ⟨⟩, db₃, rfl, runs, db₄, ⟨rfl, rfl⟩, h⟩ := h
  obtain ⟨hmem, rfl⟩ := Table.find?_eq_some.mp hw
  constructor
  · use w
  · have hwaves : db₂ = db.updateWaves (cancelWaveUpdate w.id) := by
      rcases hstatus with ⟨hopen, rfl⟩ | ⟨hended, rfl⟩
      · have hstarted : w.status = .started := by
          cases hs : w.status <;> simp_all
        apply DB.updateWaves_congr
        intro w' hw'
        by_cases hid : w'.id = w.id
        · obtain rfl := Table.eq_of_key_eq hw' hmem hid
          rw [cancelWaveUpdate, onlyIf_pos (by simp),
            onlyIf_pos (by simp [hstarted])]
        · rw [cancelWaveUpdate, onlyIf_neg (by simpa using hid),
            onlyIf_neg (by simp [hid])]
      · symm
        apply DB.updateWaves_eq_self
        intro w' hw'
        apply onlyIf_neg
        intro hguard
        simp only [Bool.and_eq_true, decide_eq_true_eq] at hguard
        obtain rfl := Table.eq_of_key_eq hw' hmem hguard.1
        apply hended
        rw [hguard.2]
        simp
    rw [cancelJobsOfRuns_effect h, hwaves]
    apply DB.updateJobs_congr
    intro j _
    -- the runs listed after the update are the runs of the wave, by identifier
    have hlisted : j.runID ∈ (runsOfWave ((db.updateWaves (cancelWaveUpdate w.id)).updateRuns
          (cancelRunUpdate (·.waveID = w.id))) w.id).map Run.id
        ↔ jobOfWave db w.id j = true := by
      simp only [List.mem_map, mem_runsOfWave, DB.mem_updateRuns, jobOfWave_iff]
      constructor
      · rintro ⟨r', ⟨⟨r, hr, rfl⟩, hwave⟩, hid⟩
        use r, hr
        rw [RunUpdate.waveID_apply] at hwave
        rw [RunUpdate.id_apply] at hid
        apply And.intro hwave hid
      · rintro ⟨r, hr, hwave, hid⟩
        use (cancelRunUpdate (·.waveID = w.id)).apply r
        rw [RunUpdate.waveID_apply, RunUpdate.id_apply]
        exact ⟨⟨⟨r, hr, rfl⟩, hwave⟩, hid⟩
    apply cancelJobsUpdate_congr
    rw [Bool.eq_iff_iff, decide_eq_true_eq]
    apply hlisted

/-! ### Planned jobs -/

/-- A job as it is planned: nothing has happened to it, and only the first of a chain has an
input and is queued. -/
structure PlannedJob (run : Run) (first : Bool) (j : Job) : Prop where
  runID : j.runID = run.id
  attempt : j.attempt = run.attempt
  status : j.status = if first then .queued else .created
  nodeID : j.nodeID = none
  repoShaIn : j.repoShaIn = if first then run.repoSha0 else ""
  repoShaIn8 : j.repoShaIn8 = substring8 j.repoShaIn
  repoShaOut : j.repoShaOut = ""
  repoShaOut8 : j.repoShaOut8 = ""

/-- A chain as it is planned. -/
def PlannedChain (run : Run) (first : Bool) : List Job → Prop
  | [] => True
  | j :: rest => PlannedJob run first j ∧ ∀ k ∈ rest, PlannedJob run false k

variable {run : Run}

theorem PlannedChain.mem {first : Bool} {l : List Job} (h : PlannedChain run first l)
    {k : Job} (hk : k ∈ l) :
  ∃ first, PlannedJob run first k
  := by
  cases l with
  | nil => cases hk
  | cons j rest =>
    rcases List.mem_cons.mp hk with rfl | hk
    · exact ⟨_, h.1⟩
    · exact ⟨_, h.2 k hk⟩

/-- A job is inserted with the row of its arguments. -/
theorem createJob_effect {arg : CreateJobParams}
    (h : db.createJob arg = .ok (j, db')) :
  ∃ d jobs, j = arg.row d ∧ db.jobs.insert? j = some jobs ∧ db' = { db with jobs }
    ∧ (∃ r ∈ db.runs, r.id = arg.runID) ∧ arg.metadata.column "meta" = .ok d
  := by
  unfold DB.createJob at h
  split at h
  · cases h
  · rename_i d hd
    split at h
    · cases h
    · rename_i hrun
      split at h
      · cases h
      · split at h
        · cases h
        · split at h
          · cases h
          · rename_i jobs hinsert
            cases h
            obtain ⟨r, hr⟩ := Option.ne_none_iff_exists'.mp (by simpa using hrun)
            obtain ⟨hmem, hid⟩ := Table.find?_eq_some.mp hr
            exact ⟨d, jobs, rfl, hinsert, rfl, ⟨r, hmem, hid⟩, hd⟩

/-- The first planned job is queued, and the others are created. -/
theorem plannedJob_row (ids : Nat → JobID) (run : Run) (i : Nat) (plan : JobPlan)
    (rest : List JobPlan) (d : JSONDocument) :
  PlannedJob run (i = 0) ((plannedJob ids run i plan rest).row d)
  := by
  constructor
  · rfl
  · rfl
  · simp [CreateJobParams.row, plannedJob]
  · rfl
  · simp [CreateJobParams.row, plannedJob]
  · simp only [CreateJobParams.row]
    split
    · rename_i hempty
      rw [hempty]
      rfl
    · rfl
  · rfl
  · rfl

variable {ids : Nat → JobID} {plans : List JobPlan}

/-- The planned jobs are inserted as a chain, the last first. -/
theorem insertPlannedJobs_effect
    {i : Nat} {created : List Job}
    (h : (insertPlannedJobs ids run i plans).transaction engine db = .ok (created, db')) :
  (∃ jobs, db' = { db with jobs } ∧ jobs.rows = db.jobs.rows ++ created.reverse)
    ∧ Linked Job.id Job.nextID created ∧ PlannedChain run (i = 0) created
    ∧ created.head?.map Job.id = if plans.isEmpty then none else some (ids i)
  := by
  induction plans generalizing i created db' with
  | nil =>
    cases h
    exact ⟨⟨db.jobs, rfl, by simp⟩, trivial, trivial, rfl⟩
  | cons plan rest ih =>
    simp only [insertPlannedJobs, transaction_bind_ok, transaction_mapError_ok,
      transaction_issue, engine_exec, Query.exec, transaction_pure, Except.ok.injEq,
      Prod.mk.injEq] at h
    obtain ⟨later, db₁, hlater, j, db₂, hj, rfl, rfl⟩ := h
    obtain ⟨⟨jobs₁, rfl, hrows⟩, hlinked, hplanned, hhead⟩ := ih hlater
    obtain ⟨d, jobs, rfl, hinsert, rfl, -⟩ := createJob_effect hj
    refine ⟨⟨jobs, rfl, ?_⟩, ⟨?_, hlinked⟩, ⟨plannedJob_row _ _ _ _ _ _, ?_⟩, rfl⟩
    · rw [(Table.insert?_eq_some.mp hinsert).2, hrows]
      simp
    · rw [hhead]
      rfl
    · intro k hk
      cases later with
      | nil => cases hk
      | cons first more =>
        rcases List.mem_cons.mp hk with rfl | hk
        · simpa using hplanned.1
        · apply hplanned.2 k hk

theorem validatePlans_effect {i : Nat}
    (h : (validatePlans i plans).transaction engine db = .ok (u, db')) :
  db' = db
  := by
  induction plans generalizing i with
  | nil =>
    cases h
    rfl
  | cons plan rest ih =>
    simp only [validatePlans, transaction_bind_ok, transaction_rejectIf_ok] at h
    obtain ⟨-, db₁, ⟨-, rfl⟩, h⟩ := h
    apply ih h

theorem createPlannedJobs_effect
    {created : List Job}
    (h : (createPlannedJobs ids run plans).transaction engine db = .ok (created, db')) :
  (∃ jobs, db' = { db with jobs } ∧ jobs.rows = db.jobs.rows ++ created.reverse)
    ∧ Linked Job.id Job.nextID created ∧ PlannedChain run true created ∧ created ≠ []
  := by
  simp only [createPlannedJobs, transaction_bind_ok, transaction_rejectIf_ok] at h
  obtain ⟨-, db₁, ⟨hne, rfl⟩, _, db₂, hvalid, h⟩ := h
  rw [validatePlans_effect hvalid] at h
  obtain ⟨hrows, hlinked, hplanned, hhead⟩ := insertPlannedJobs_effect h
  refine ⟨hrows, hlinked, hplanned, ?_⟩
  rintro rfl
  cases plans with
  | nil => apply hne rfl
  | cons plan rest => cases hhead

/-! ### Creating waves -/

theorem createWave_effect {arg : CreateWaveParams} {w : Wave}
    (h : db.createWave arg = .ok (w, db')) :
  ∃ waves, w = ⟨arg.id, arg.migID, arg.specID, .started⟩ ∧ db.waves.insert? w = some waves
    ∧ db' = { db with waves }
  := by
  simp only [DB.createWave] at h
  split at h
  · cases h
  · split at h
    · cases h
    · split at h
      · cases h
      · rename_i waves hinsert
        cases h
        exact ⟨waves, rfl, hinsert, rfl⟩

/-- A run is inserted with the row of its plan. -/
theorem insertRun_effect {wave : CreateWaveParams} {plan : RunPlan}
    (h : db.insertRun wave plan = .ok (r, db')) :
  ∃ runs, r = plan.row wave db.now ∧ db.runs.insert? r = some runs ∧ db' = { db with runs }
    ∧ (∃ w ∈ db.waves, w.id = wave.id) ∧ ∃ p ∈ db.repos, p.id = plan.repoID
  := by
  simp only [DB.insertRun] at h
  split at h
  · cases h
  · rename_i hwave
    split at h
    · cases h
    · rename_i hrepo
      split at h
      · cases h
      · split at h
        · cases h
        · rename_i runs hinsert
          cases h
          obtain ⟨w, hw⟩ := Option.ne_none_iff_exists'.mp (by simpa using hwave)
          obtain ⟨p, hp⟩ := Option.ne_none_iff_exists'.mp (by simpa using hrepo)
          obtain ⟨hwmem, hwid⟩ := Table.find?_eq_some.mp hw
          obtain ⟨hpmem, hpid⟩ := Table.find?_eq_some.mp hp
          exact ⟨runs, rfl, hinsert, rfl, ⟨w, hwmem, hwid⟩, p, hpmem, hpid⟩

/-! ### Locks and guards -/

theorem lockRepos_effect {ids : List RepoID}
    (h : (lockRepos ids).transaction engine db = .ok (u, db')) :
  db' = db
  := by
  induction ids with
  | nil =>
    cases h
    rfl
  | cons id rest ih =>
    simp only [lockRepos, transaction_bind_ok, transaction_issue, engine_exec, Query.exec] at h
    obtain ⟨-, db₁, ⟨⟩, h⟩ := h
    apply ih h

theorem lockRunRepositories_effect {ids : List RepoID}
    (h : (lockRunRepositories ids).transaction engine db = .ok (u, db')) :
  db' = db
  := by
  simp only [lockRunRepositories, transaction_bind_ok, transaction_issue, engine_exec,
    Query.exec] at h
  obtain ⟨_, db₁, ⟨⟩, h⟩ := h
  apply lockRepos_effect h

theorem requireRepoWithoutActiveRun_effect {repoID : RepoID}
    (h : (requireRepoWithoutActiveRun repoID).transaction engine db = .ok (u, db')) :
  activeRun db repoID = none ∧ db' = db
  := by
  simp only [requireRepoWithoutActiveRun, transaction_bind_ok, transaction_issue, engine_exec,
    Query.exec, Except.ok.injEq, Prod.mk.injEq] at h
  obtain ⟨found, db₁, ⟨rfl, rfl⟩, h⟩ := h
  cases hfound : activeRun db repoID with
  | none =>
    rw [hfound] at h
    cases h
    apply And.intro rfl rfl
  | some x =>
    rw [hfound] at h
    cases h

/-! ### Adding runs -/

/-- The runs of plans are added one after another, each with its chain of jobs, to a
repository without an active run. -/
inductive AddsRuns (wave : CreateWaveParams) : List RunPlan → DB → DB → Prop where
  | nil (db : DB) : AddsRuns wave [] db db
  | cons {plan : RunPlan} {plans : List RunPlan} {db db' : DB} {runs : Table Run.id}
      {jobs : Table Job.id} {created : List Job}
      (alone : activeRun db plan.repoID = none)
      (known : ∃ p ∈ db.repos, p.id = plan.repoID)
      (run : db.runs.insert? (plan.row wave db.now) = some runs)
      (rows : jobs.rows = db.jobs.rows ++ created.reverse)
      (linked : Linked Job.id Job.nextID created)
      (planned : PlannedChain (plan.row wave db.now) true created)
      (nonempty : created ≠ [])
      (later : AddsRuns wave plans { db with runs, jobs } db') :
      AddsRuns wave (plan :: plans) db db'

theorem createRuns_effect
    {ids : Nat → Nat → JobID} {wave : CreateWaveParams} {k : Nat} {plans : List RunPlan}
    {materialized : List (Run × List Job)}
    (h : (createRuns ids wave k plans).transaction engine db = .ok (materialized, db')) :
  AddsRuns wave plans db db'
  := by
  induction plans generalizing k db materialized with
  | nil =>
    cases h
    apply AddsRuns.nil
  | cons plan rest ih =>
    simp only [createRuns, transaction_bind_ok, transaction_within_ok, transaction_issue,
      engine_exec, Query.exec, transaction_pure, Except.ok.injEq, Prod.mk.injEq] at h
    obtain ⟨_, db₁, halone, r, db₂, hrun, created, db₃, hjobs, later, db₄, hlater, -, rfl⟩ := h
    obtain ⟨halone, rfl⟩ := requireRepoWithoutActiveRun_effect halone
    obtain ⟨runs, rfl, hinsert, rfl, -, hrepo⟩ := insertRun_effect hrun
    obtain ⟨⟨jobs, rfl, hrows⟩, hlinked, hplanned, hne⟩ := createPlannedJobs_effect hjobs
    apply AddsRuns.cons halone hrepo hinsert hrows hlinked hplanned hne (ih hlater)

theorem createWaveWithRuns_effect
    {ids : Nat → Nat → JobID} {arg : CreateWaveWithRunsParams}
    {result : Wave × List (Run × List Job)}
    (h : (createWaveWithRuns ids arg).transaction engine db = .ok (result, db')) :
  arg.runs ≠ [] ∧ ∃ waves,
    db.waves.insert? ⟨arg.wave.id, arg.wave.migID, arg.wave.specID, .started⟩ = some waves
      ∧ AddsRuns arg.wave arg.runs { db with waves } db'
  := by
  simp only [createWaveWithRuns, transaction_bind_ok, transaction_rejectIf_ok,
    transaction_within_ok, transaction_issue, engine_exec, Query.exec, transaction_pure,
    Except.ok.injEq, Prod.mk.injEq] at h
  obtain ⟨_, db₁, ⟨hne, rfl⟩, _, db₂, hlock, w, db₃, hwave, materialized, db₄, hruns, -, rfl⟩ := h
  obtain rfl := lockRunRepositories_effect hlock
  obtain ⟨waves, rfl, hinsert, rfl⟩ := createWave_effect hwave
  exact ⟨hne, waves, hinsert, createRuns_effect hruns⟩

/-! ### Restarting -/

def ResetTo (first : Bool) (k k' : Job) : Prop :=
  ∃ d, k' = (resetRow (if first then .queued else .created) d first).apply k

variable {x : Unit}

/-- The first job is queued again and the others are created again. -/
theorem resetJobs_effect
    {first : Bool} {suffix : List Job}
    (hnodup : (suffix.map Job.id).Nodup)
    (h : (resetJobs plans first suffix).transaction engine db = .ok (x, db')) :
  ∃ u : JobUpdate, db' = db.updateJobs u ∧ (∀ k, k.id ∉ suffix.map Job.id → u.apply k = k)
    ∧ (∀ k ∈ suffix.head?, ResetTo first k (u.apply k))
    ∧ ∀ k ∈ suffix.tail, ResetTo false k (u.apply k)
  := by
  induction suffix generalizing first db with
  | nil =>
    cases h
    use refl _
    refine ⟨?_, fun _ _ => rfl, by simp, by simp⟩
    symm
    apply DB.updateJobs_eq_self
    intro _ _
    rfl
  | cons job rest ih =>
    simp only [resetJobs, transaction_bind_ok, transaction_orFail_ok, transaction_issue,
      engine_exec, Query.exec] at h
    obtain ⟨plan, db₁, ⟨-, rfl⟩, ⟨⟩, db₂, hreset, h⟩ := h
    obtain ⟨hfresh, hnodup⟩ := List.nodup_cons.mp hnodup
    split at hreset
    · cases hreset
    · rename_i d _
      cases hreset
      obtain ⟨u, rfl, hother, hfirst, hrest⟩ := ih hnodup h
      have hown : ∀ k : Job, k.id ∈ rest.map Job.id → k.id ≠ job.id := by
        rintro k hk heq
        rw [heq] at hk
        apply hfresh hk
      have hafter : ∀ k ∈ rest, (u.comp ((resetRow (if first then .queued else .created) d
          first).onlyIf (·.id = job.id))).apply k = u.apply k := by
        intro k hk
        have hne := hown k (List.mem_map_of_mem hk)
        rw [comp_apply, onlyIf_neg (by simpa using hne)]
      use u.comp ((resetRow (if first then .queued else .created) d first).onlyIf (·.id = job.id))
      refine ⟨DB.updateJobs_updateJobs _ _ _, ?_, ?_, ?_⟩
      · intro k hk
        rw [List.map_cons, List.mem_cons, not_or] at hk
        rw [comp_apply, onlyIf_neg (by simpa using hk.1)]
        apply hother k hk.2
      · rintro k ⟨⟩
        use d
        rw [comp_apply, onlyIf_pos (by simp)]
        apply hother
        rw [JobUpdate.id_apply]
        apply hfresh
      · intro k hk
        rw [List.tail_cons] at hk
        rw [hafter k hk]
        cases rest with
        | nil => cases hk
        | cons k₀ rest =>
          rcases List.mem_cons.mp hk with rfl | hk
          · apply hfirst k rfl
          · apply hrest k hk

theorem nodup_of_failedJobSuffix {run : RunID} {attempt : Nat} {suffix : List Job}
    (h : failedJobSuffix (jobsOfAttempt db run attempt) = some suffix) :
  (suffix.map Job.id).Nodup
  := by
  obtain ⟨pre, j, post, hperm, -, rfl, -⟩ := failedJobSuffix_spec h
  have hrows := hperm.trans (jobsOfAttempt_perm db run attempt)
  have hnodup : ((pre ++ j :: post).map Job.id).Nodup := by
    rw [(hrows.map Job.id).nodup_iff]
    apply db.jobs.nodup.sublist (List.filter_sublist.map _)
  rw [List.map_append] at hnodup
  apply (List.nodup_append.mp hnodup).2.1

variable {arg : RestartRunParams}

/-- What is known when a run was resumed from a failed job. -/
theorem resumeFailedJobs_effect
    (h : (resumeFailedJobs run arg).transaction engine db = .ok (x, db')) :
  (run.status = .fail ∨ run.status = .cancelled)
    ∧ (run.stats.resumeCount : Int) = arg.expectedResumeCount
    ∧ ∃ suffix, failedJobSuffix (jobsOfAttempt db run.id run.attempt) = some suffix
    ∧ ∃ u : JobUpdate, (∀ k, k.id ∉ suffix.map Job.id → u.apply k = k)
    ∧ (∀ k ∈ suffix.head?, ResetTo true k (u.apply k))
    ∧ (∀ k ∈ suffix.tail, ResetTo false k (u.apply k))
    ∧ db' = (db.updateJobs u).updateRuns
        ((resumeRow arg.stats (run.stats.resumeCount + 1) db.now).onlyIf (·.id = run.id))
  := by
  simp only [resumeFailedJobs, transaction_bind_ok, transaction_rejectIf_ok, transaction_issue,
    transaction_orFail_ok, engine_exec, Query.exec, Except.ok.injEq, Prod.mk.injEq] at h
  obtain ⟨_, db₁, ⟨hguard, rfl⟩, jobs, db₂, ⟨rfl, rfl⟩, suffix, db₃, ⟨hsuffix, rfl⟩, _, db₄,
    hreset, h⟩ := h
  rw [not_or, not_and_or, not_not, not_not, not_not] at hguard
  obtain ⟨u, rfl, hother, hfirst, hrest⟩ := resetJobs_effect
    (nodup_of_failedJobSuffix hsuffix) hreset
  split at h
  · cases h
  · cases h
    refine ⟨hguard.1, hguard.2, suffix, hsuffix, u, hother, hfirst, hrest, ?_⟩
    have hcount : (arg.expectedResumeCount + 1).toNat = run.stats.resumeCount + 1 := by omega
    rw [hcount]
    rfl

theorem startNextAttempt_effect
    (h : (startNextAttempt run arg).transaction engine db = .ok (x, db')) :
  db' = (db.updateJobs (cancelJobsUpdate (Job.inAttempt arg.runID run.attempt))).updateRuns
    ((incrementAttemptRow arg.stats).onlyIf (·.id = arg.runID))
  := by
  simp only [startNextAttempt, transaction_bind_ok, transaction_within_ok, transaction_issue,
    engine_exec, Query.exec, Except.ok.injEq, Prod.mk.injEq, true_and] at h
  obtain ⟨_, db₁, rfl, h⟩ := h
  split at h
  · cases h
  · cases h
    rfl

theorem reopenRun_waves
    (h : (reopenRun run arg).transaction engine db = .ok (x, db')) :
  db'.waves = db.waves
  := by
  unfold reopenRun at h
  split at h
  · obtain ⟨-, -, -, -, u, -, -, -, rfl⟩ := resumeFailedJobs_effect h
    rfl
  · rw [startNextAttempt_effect h]
    rfl

/-- What a restart finds: a terminal run in a wave that is not cancelled, on a repository
without an active run. -/
structure Restartable (db : DB) (arg : RestartRunParams) (r : Run) (w : Wave) : Prop where
  run : r ∈ db.runs
  id : r.id = arg.runID
  attempt : (r.attempt : Int) = arg.expectedAttempt
  terminal : isTerminalRunStatus r.status = true
  wave : w ∈ db.waves
  waveID : w.id = r.waveID
  open_ : w.status ≠ .cancelled
  alone : activeRun db r.repoID = none

def reviveWaveUpdate (waveID : WaveID) : WaveUpdate :=
  (setWaveStatus .started).onlyIf fun w => w.id = waveID && w.status = .finished

/-- What is known when a run was restarted. -/
theorem restartRun_effect {updated : Run}
    (h : (restartRun ids arg).transaction engine db = .ok (updated, db')) :
  ∃ r w db₁, Restartable db arg r w ∧ (reopenRun r arg).transaction engine db = .ok ((), db₁)
    ∧ db₁.runs.find? arg.runID = some updated
    ∧ ((arg.fromFailed = true ∧ db' = db₁.updateWaves (reviveWaveUpdate r.waveID))
      ∨ (arg.fromFailed = false ∧ ∃ created,
        (createPlannedJobs ids updated arg.jobs).transaction engine
          (db₁.updateWaves (reviveWaveUpdate r.waveID)) = .ok (created, db')))
  := by
  simp only [restartRun, transaction_bind_ok, transaction_within_ok, transaction_one_ok,
    transaction_rejectIf_ok, transaction_when_ok, transaction_issue, engine_exec, Query.exec,
    transaction_pure, Except.ok.injEq, Prod.mk.injEq, true_and] at h
  obtain ⟨r, db₁, ⟨hr, rfl⟩, _, db₂, ⟨hguard, rfl⟩, w, db₃, ⟨hw, rfl⟩, _, db₄, ⟨hopen, rfl⟩, _, db₅,
    hlock, _, db₆, hactive, ⟨⟩, db₇, hreopen, _, db₈, hrevive, updated', db₉,
      ⟨hreload, rfl⟩, _, db₁₀,
    hcreate, rfl, rfl⟩ := h
  obtain rfl := lockRunRepositories_effect hlock
  obtain ⟨halone, rfl⟩ := requireRepoWithoutActiveRun_effect hactive
  obtain ⟨hmem, hid⟩ := Table.find?_eq_some.mp hr
  obtain ⟨hwmem, hwid⟩ := Table.find?_eq_some.mp hw
  rw [not_or, not_not] at hguard
  have hterminal : isTerminalRunStatus r.status = true := by
    have := mt active_iff.mp hguard.2
    rw [active_iff_not_terminal, Bool.not_eq_false] at this
    apply this
  have hwaves := reopenRun_waves hreopen
  -- the wave is revived by a statement without a guard, after its status was read
  have hrevived : db₈ = db₇.updateWaves (reviveWaveUpdate r.waveID) := by
    have hkey : ∀ w' ∈ db₇.waves, w'.id = w.id → w' = w := by
      intro w' hw' hid
      rw [hwaves] at hw'
      apply Table.eq_of_key_eq hw' hwmem hid
    rcases hrevive with ⟨hfinished, rfl⟩ | ⟨hnot, rfl⟩
    · apply DB.updateWaves_congr
      intro w' hw'
      by_cases hid' : w'.id = w.id
      · obtain rfl := hkey w' hw' hid'
        rw [reviveWaveUpdate, onlyIf_pos (by simp),
          onlyIf_pos (by simp [hwid, hfinished])]
      · rw [reviveWaveUpdate, onlyIf_neg (by simpa using hid'),
          onlyIf_neg (by simp [← hwid, hid'])]
    · symm
      apply DB.updateWaves_eq_self
      intro w' hw'
      apply onlyIf_neg
      intro hguard'
      simp only [Bool.and_eq_true, decide_eq_true_eq, ← hwid] at hguard'
      obtain rfl := hkey w' hw' hguard'.1
      apply hnot hguard'.2
  subst hrevived
  refine ⟨r, w, db₇, ⟨hmem, hid, hguard.1, hterminal, hwmem, hwid, hopen, halone⟩, hreopen, hreload,
    ?_⟩
  rcases hcreate with ⟨hfull, created, db₁₁, hcreated, ⟨⟩⟩ | ⟨hresume, rfl⟩
  · apply Or.inr ⟨hfull, created, hcreated⟩
  · apply Or.inl ⟨by simpa using hresume, rfl⟩

end Ploy
