import Ploy.Store.Transactions

/-!
# Reconciling runs and waves

The status of a run follows from the jobs of an attempt once all of them are terminal, and
a wave is finished once all of its runs are terminal.
-/

namespace Ploy

open Program

/-! ### The status of an attempt -/

/-- The member `next_id` of job metadata, as the decoder of the metadata reads it: keys are
compared without regard to case, and a value of another type rejects the document. -/
def nextIDFromMeta : JSONDocument → Option Int
  | .other _ => none
  | .object members =>
    let values := (members.filter fun m => m.1.toList.map Char.toLower = "next_id".toList).map (·.2)
    let decodes : JSONValue → Bool
      | .null => true
      | .int n => -2 ^ 63 ≤ n && n < 2 ^ 63
      | .other _ => false
    if !values.all decodes then none
    else match values.getLast? with
      | some (.int n) => some n
      | _ => none

/-- The jobs that may count as the last one of an attempt, each the best of its kind so
far. -/
structure LastJobs where
  byNextIDMeta : Option (Int × Job)
  bestTail : Option Job
  bestFallback : Option Job

/-- The job with the greater identifier; the later one only when it is greater. -/
def laterByID (best : Option Job) (job : Job) : Job :=
  match best with
  | none => job
  | some b => if b.id.raw < job.id.raw then job else b

/-- Taking one more job into account. -/
def LastJobs.add (c : LastJobs) (job : Job) : LastJobs where
  byNextIDMeta :=
    match nextIDFromMeta job.metadata with
    | none => c.byNextIDMeta
    | some n =>
      match c.byNextIDMeta with
      | none => some (n, job)
      | some (m, b) =>
        if m < n ∨ (n = m ∧ b.id.raw < job.id.raw) then some (n, job) else some (m, b)
  bestTail :=
    match job.nextID with
    | none => some (laterByID c.bestTail job)
    | some next => if next.isZero then some (laterByID c.bestTail job) else c.bestTail
  bestFallback := some (laterByID c.bestFallback job)

/-- The last job of an attempt: by metadata, else the tail, else by identifier. -/
def LastJobs.last (c : LastJobs) : Option Job :=
  match c.bestFallback with
  | none => none
  | some fallback => some ((c.byNextIDMeta.map (·.2)).getD (c.bestTail.getD fallback))

/-- The last job of an attempt all of whose jobs are terminal. -/
def lastTerminalJob (c : LastJobs) : List Job → Option Job
  | [] => c.last
  | job :: rest => if job.status.terminal then lastTerminalJob (c.add job) rest else none

/-- The final status that the jobs of an attempt give to their run, if they are all
terminal. -/
def evaluateRunAttemptTerminalStatus (jobs : List Job) : Except StoreError (Option RunStatus) :=
  match lastTerminalJob ⟨none, none, none⟩ jobs with
  | none => .ok none
  | some last =>
    match last.status with
    | .success => .ok (some .success)
    | .fail | .error => .ok (some .fail)
    | .cancelled => .ok (some .cancelled)
    | status => .error (.message ("unexpected last job status \"" ++ status.text
        ++ "\" for job_id=" ++ last.id.raw))

/-- Setting the status of a run from the jobs of an attempt, if they are all terminal. -/
def maybeUpdateRunStatus (runID : RunID) (attempt : Nat) : Tx Bool := do
  let jobs ← within "list jobs by run attempt" (issue (.listJobsByRunAttempt runID attempt))
  match evaluateRunAttemptTerminalStatus jobs with
  | .error e => fail e
  | .ok none => pure false
  | .ok (some status) => do
      within "update run status" (issue (.updateRunStatus runID status))
      pure true

section Evaluate

theorem lastTerminalJob_spec {c : LastJobs} {jobs : List Job} {last : Job}
    (h : lastTerminalJob c jobs = some last) :
  ∀ j ∈ jobs, j.status.terminal = true
  := by
  induction jobs generalizing c with
  | nil => simp
  | cons job rest ih =>
    simp only [lastTerminalJob] at h
    split at h
    · rename_i hjob
      intro j hj
      rcases List.mem_cons.mp hj with rfl | hj
      · apply hjob
      · apply ih h j hj
    · cases h

/-- The candidates for the last job satisfy `P`, and there is one if any job was looked
at. -/
def LastJobs.Among (P : Job → Prop) (c : LastJobs) : Prop :=
  (∀ n j, c.byNextIDMeta = some (n, j) → P j) ∧ (∀ j, c.bestTail = some j → P j)
    ∧ ∀ j, c.bestFallback = some j → P j

theorem laterByID_among {P : Job → Prop} {best : Option Job} {job : Job}
    (hbest : ∀ j, best = some j → P j) (hjob : P job) :
  P (laterByID best job)
  := by
  cases best with
  | none => apply hjob
  | some b =>
    simp only [laterByID]
    split
    · apply hjob
    · apply hbest b rfl

/-- What holds of all jobs holds of the last ones. -/
theorem LastJobs.Among.add {P : Job → Prop} {c : LastJobs} {job : Job} (h : c.Among P)
    (hjob : P job) :
  (c.add job).Among P
  := by
  obtain ⟨hmeta, htail, hfallback⟩ := h
  refine ⟨?_, ?_, ?_⟩
  · intro n j hj
    simp only [LastJobs.add] at hj
    split at hj
    · apply hmeta n j hj
    · split at hj
      · cases hj
        apply hjob
      · rename_i m b hb
        split at hj
        · cases hj
          apply hjob
        · cases hj
          apply hmeta _ _ hb
  · intro j hj
    simp only [LastJobs.add] at hj
    split at hj
    · cases hj
      apply laterByID_among htail hjob
    · split at hj
      · cases hj
        apply laterByID_among htail hjob
      · apply htail j hj
  · intro j hj
    cases hj
    apply laterByID_among hfallback hjob

theorem LastJobs.Among.last {P : Job → Prop} {c : LastJobs} (h : c.Among P) {j : Job}
    (hj : c.last = some j) :
  P j
  := by
  obtain ⟨hmeta, htail, hfallback⟩ := h
  simp only [LastJobs.last] at hj
  split at hj
  · cases hj
  · rename_i fallback hf
    cases hj
    cases hb : c.byNextIDMeta with
    | some x => apply hmeta x.1 x.2 hb
    | none =>
      cases ht : c.bestTail with
      | some t => apply htail t ht
      | none => apply hfallback fallback hf

theorem lastTerminalJob_of_terminal
    {c : LastJobs} {jobs : List Job} (hjobs : ∀ j ∈ jobs, j.status.terminal = true)
    (hc : c.Among (·.status.terminal = true)) (hne : jobs ≠ [] ∨ c.bestFallback ≠ none) :
  ∃ last, lastTerminalJob c jobs = some last ∧ last.status.terminal = true
  := by
  induction jobs generalizing c with
  | nil =>
    have hf : c.bestFallback ≠ none := hne.resolve_left (fun h => h rfl)
    obtain ⟨fallback, hf⟩ := Option.ne_none_iff_exists'.mp hf
    have hlast : c.last = some ((c.byNextIDMeta.map (·.2)).getD (c.bestTail.getD fallback)) := by
      simp [LastJobs.last, hf]
    exact ⟨_, hlast, hc.last hlast⟩
  | cons job rest ih =>
    have hjob := hjobs job List.mem_cons_self
    simp only [lastTerminalJob, hjob, if_true]
    apply ih (fun j hj => hjobs j (List.mem_cons_of_mem _ hj)) (hc.add hjob)
    right
    simp [LastJobs.add]

/-- An attempt has a status exactly if it has jobs and all have ended. -/
theorem evaluateRunAttemptTerminalStatus_cases (jobs : List Job) :
  (evaluateRunAttemptTerminalStatus jobs = .ok none
      ∧ (jobs = [] ∨ ∃ j ∈ jobs, j.status.active = true))
    ∨ ∃ status, evaluateRunAttemptTerminalStatus jobs = .ok (some status)
      ∧ isTerminalRunStatus status = true ∧ jobs ≠ [] ∧ ∀ j ∈ jobs, j.status.terminal = true
  := by
  by_cases hall : ∀ j ∈ jobs, j.status.terminal = true
  · by_cases hne : jobs = []
    · subst hne
      apply Or.inl ⟨rfl, Or.inl rfl⟩
    · obtain ⟨last, hlast, hterminal⟩ :=
        lastTerminalJob_of_terminal (c := ⟨none, none, none⟩) hall (by simp [LastJobs.Among])
          (Or.inl hne)
      right
      simp only [evaluateRunAttemptTerminalStatus, hlast]
      cases hs : last.status with
      | success | fail | error | cancelled => exact ⟨_, rfl, rfl, hne, hall⟩
      | created | queued | running => simp [hs, JobStatus.terminal, JobStatus.active] at hterminal
  · left
    have hnone : lastTerminalJob ⟨none, none, none⟩ jobs = none := by
      cases h : lastTerminalJob ⟨none, none, none⟩ jobs with
      | none => rfl
      | some last => apply absurd (lastTerminalJob_spec h) hall
    constructor
    · simp [evaluateRunAttemptTerminalStatus, hnone]
    · right
      simpa [JobStatus.terminal] using hall

/-- No job counts as the last one by its metadata, and none but `last` by having no successor. -/
structure LastJobs.Toward (last : Job) (c : LastJobs) : Prop where
  plain : c.byNextIDMeta = none
  tail : ∀ j, c.bestTail = some j → j = last
  fallback : c.bestTail ≠ none → c.bestFallback ≠ none

/-- The last job of a chain is found whatever comes before it. -/
theorem LastJobs.Toward.add {last job : Job} {c : LastJobs} (h : c.Toward last)
    (hplain : nextIDFromMeta job.metadata = none)
    (htail : (∀ next, job.nextID = some next → next.isZero = true) → job = last) :
  (c.add job).Toward last
  := by
  have hlater : ∀ j, some (laterByID c.bestTail job) = some j → job = last → j = last := by
    rintro j ⟨⟩ hjob
    apply laterByID_among h.tail hjob
  constructor
  · simp only [LastJobs.add, hplain]
    apply h.plain
  · intro j hj
    simp only [LastJobs.add] at hj
    split at hj
    · rename_i hnext
      apply hlater j hj
      apply htail
      simp [hnext]
    · rename_i next hnext
      split at hj
      · rename_i hzero
        apply hlater j hj
        apply htail
        simpa [hnext] using hzero
      · apply h.tail j hj
  · simp [LastJobs.add]

/-- The job without a successor is the last one. -/
theorem lastTerminalJob_of_tail {last : Job} {c : LastJobs} {jobs : List Job}
    (hjobs : ∀ j ∈ jobs, j.status.terminal = true) (hc : c.Toward last)
    (hplain : ∀ j ∈ jobs, nextIDFromMeta j.metadata = none)
    (htail : ∀ j ∈ jobs, (∀ next, j.nextID = some next → next.isZero = true) → j = last)
    (hnext : last.nextID = none) (hlast : last ∈ jobs ∨ c.bestTail = some last) :
  lastTerminalJob c jobs = some last
  := by
  induction jobs generalizing c with
  | nil =>
    have htail := hlast.resolve_left List.not_mem_nil
    obtain ⟨fallback, hf⟩ := Option.ne_none_iff_exists'.mp (hc.fallback (by simp [htail]))
    simp [lastTerminalJob, LastJobs.last, hf, hc.plain, htail]
  | cons job rest ih =>
    have hjob := hjobs job List.mem_cons_self
    have hadd : (c.add job).Toward last :=
      hc.add (hplain job List.mem_cons_self) (htail job List.mem_cons_self)
    simp only [lastTerminalJob, hjob, if_true]
    apply ih _ hadd
    · intro j hj
      apply hplain j (List.mem_cons_of_mem _ hj)
    · intro j hj
      apply htail j (List.mem_cons_of_mem _ hj)
    · rcases hlast with hlast | hlast
      · rcases List.mem_cons.mp hlast with rfl | hlast
        · -- the job itself: whatever was the best before, it is this job
          right
          have hsome : (c.add last).bestTail = some (laterByID c.bestTail last) := by
            simp [LastJobs.add, hnext]
          rw [hsome, hadd.tail _ hsome]
        · apply Or.inl hlast
      · right
        cases hbest : (c.add job).bestTail with
        | some best => rw [hadd.tail best hbest]
        | none =>
          simp only [LastJobs.add, hlast] at hbest
          split at hbest
          · cases hbest
          · split at hbest <;> cases hbest
    · intro j hj
      apply hjobs j (List.mem_cons_of_mem _ hj)

end Evaluate

/-! ### The completion of a wave -/

/-- The outcome of the runs of a finished wave. -/
inductive RunState where
  | succeeded | failed | cancelled
  deriving DecidableEq, Repr

/-- The outcome of a wave from the number of its runs in each status, once all of its runs
are terminal. -/
def evaluateWaveCompletionFromRunCounts (counts : List (RunStatus × Nat)) : Option RunState :=
  let total : Nat := (counts.map (·.2)).sum
  let terminal : Nat := ((counts.filter fun row => isTerminalRunStatus row.1).map (·.2)).sum
  let anyFail := counts.any fun row => row.1 = .fail && 0 < row.2
  let anyCancelled := counts.any fun row => row.1 = .cancelled && 0 < row.2
  if total = 0 ∨ terminal < total then none
  else some (if anyFail then .failed else if anyCancelled then .cancelled else .succeeded)

/-- Finishing the wave of a run when all of its runs are terminal. -/
def maybeCompleteRunIfAllReposTerminal (run : Run) : Tx Bool := do
  let wave ← within "get wave" (one (.getWave run.waveID))
  if isTerminalWaveStatus wave.status then pure false
  else do
    let counts ← within "count wave runs" (issue (.countRunsByWaveStatus run.waveID))
    if (evaluateWaveCompletionFromRunCounts counts).isNone then pure false
    else do
      let currentWave ← within "get wave for completion check" (one (.getWave run.waveID))
      if isTerminalWaveStatus currentWave.status then pure false
      else do
        within "update wave status" (issue (.updateWaveStatus run.waveID .finished))
        pure true

theorem sum_filter_ne_zero (counts : List (RunStatus × Nat)) :
  ((counts.filter fun row => row.2 ≠ 0).map (·.2)).sum = (counts.map (·.2)).sum
  := by
  induction counts with
  | nil => rfl
  | cons row rest ih =>
    by_cases h : row.2 = 0
    · simp_all
    · simp_all

def runCount (db : DB) (wave : WaveID) (status : RunStatus) : Nat :=
  (db.runs.rows.filter fun r => r.waveID = wave && r.status = status).length

theorem runCount_eq_zero {db : DB} {wave : WaveID} {status : RunStatus} :
  runCount db wave status = 0 ↔ ∀ r ∈ db.runs, r.waveID = wave → r.status ≠ status
  := by
  simp [runCount, List.filter_eq_nil_iff, Table.mem_rows]

theorem runCounts_total (db : DB) (wave : WaveID) :
  ((runCounts db wave).map (·.2)).sum
    = runCount db wave .queued + runCount db wave .running + runCount db wave .cancelled
      + runCount db wave .fail + runCount db wave .success
  := by
  simp only [runCounts, sum_filter_ne_zero]
  simp [runCount]
  omega

theorem runCounts_terminal (db : DB) (wave : WaveID) :
  (((runCounts db wave).filter fun row => isTerminalRunStatus row.1).map (·.2)).sum
    = runCount db wave .cancelled + runCount db wave .fail + runCount db wave .success
  := by
  simp only [runCounts]
  rw [List.filter_comm, sum_filter_ne_zero]
  simp [isTerminalRunStatus, runCount]
  omega

/-- A wave is complete if it has runs and all have ended. -/
theorem evaluateWaveCompletion_isNone {db : DB} {wave : WaveID} :
  (evaluateWaveCompletionFromRunCounts (runCounts db wave)).isNone = false
    ↔ (∃ r ∈ db.runs, r.waveID = wave)
      ∧ ∀ r ∈ db.runs, r.waveID = wave → isTerminalRunStatus r.status = true
  := by
  have hzero : ∀ status, runCount db wave status = 0
      ↔ ∀ r ∈ db.runs, r.waveID = wave → r.status ≠ status := fun _ => runCount_eq_zero
  have heval : (evaluateWaveCompletionFromRunCounts (runCounts db wave)).isNone = false
      ↔ ¬ (((runCounts db wave).map (·.2)).sum = 0
        ∨ (((runCounts db wave).filter fun row => isTerminalRunStatus row.1).map (·.2)).sum
          < ((runCounts db wave).map (·.2)).sum) := by
    simp only [evaluateWaveCompletionFromRunCounts]
    split <;> simp_all
  rw [heval, runCounts_total, runCounts_terminal]
  constructor
  · intro h
    have hq := (hzero .queued).mp (by omega)
    have hr := (hzero .running).mp (by omega)
    constructor
    · by_contra hnone
      push Not at hnone
      have hvacuous : ∀ status, runCount db wave status = 0 := by
        intro status
        apply (hzero status).mpr
        intro r hr' hw
        apply absurd hw (hnone r hr')
      have := hvacuous .cancelled
      have := hvacuous .fail
      have := hvacuous .success
      have := hvacuous .queued
      have := hvacuous .running
      omega
    · intro r hmem hw
      have hnq := hq r hmem hw
      have hnr := hr r hmem hw
      cases hs : r.status <;> simp_all [isTerminalRunStatus]
  · rintro ⟨⟨r, hmem, hw⟩, hall⟩
    have hq : runCount db wave .queued = 0 := by
      apply (hzero _).mpr
      intro r' hr' hw' hs
      simpa [hs, isTerminalRunStatus] using hall r' hr' hw'
    have hr : runCount db wave .running = 0 := by
      apply (hzero _).mpr
      intro r' hr' hw' hs
      simpa [hs, isTerminalRunStatus] using hall r' hr' hw'
    have hsome : runCount db wave r.status ≠ 0 := by
      intro h
      apply (hzero _).mp h r hmem hw rfl
    cases hs : r.status <;> rw [hs] at hsome <;> omega

end Ploy
