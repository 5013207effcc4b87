import Ploy.Run.Affinity
import Ploy.Run.Regular
import Ploy.Run.Sha
import Ploy.Run.Shape
import Ploy.Server.Finality
import Ploy.Server.Requests

/-!
# Retrying from the failed job

An attempt that ended because a node reported that a job failed can be retried from that job, and
one that was cancelled cannot. A retry looks at the rows only, so this rests on what the rows are
after every way in which an attempt ends.
-/

namespace Ploy

open Program

/-! ### The status of a failed attempt -/

/-- Whether a job ended with a failure. -/
def JobStatus.failed : JobStatus → Bool
  | fail | error => true
  | _ => false

theorem JobStatus.failed_iff {s : JobStatus} :
  s.failed = true ↔ s = .fail ∨ s = .error
  := by
  cases s <;> simp [JobStatus.failed]

theorem tail_of_regular {front : List Job} {last : Job}
    (hlinked : Linked Job.id Job.nextID (front ++ [last]))
    (hregular : ∀ k ∈ front ++ [last], k.Regular) {k : Job} (hk : k ∈ front ++ [last])
    (hnext : ∀ next, k.nextID = some next → next.isZero = true) :
  k = last
  := by
  obtain ⟨pre, post, hsplit⟩ := List.append_of_mem hk
  rw [hsplit] at hlinked hregular
  cases post with
  | nil =>
    have hlast := (List.append_inj' hsplit rfl).2
    simpa using hlast.symm
  | cons b post =>
    have hzero := hnext b.id hlinked.next_eq
    rw [(hregular b (by simp)).named] at hzero
    cases hzero

variable {j : Job}

/-- A chain that failed at a job gives a run that failed or was cancelled. -/
theorem evaluate_failed {rows pre post : List Job} (hperm : rows.Perm (pre ++ j :: post))
    (hlinked : Linked Job.id Job.nextID (pre ++ j :: post))
    (hregular : ∀ k ∈ pre ++ j :: post, k.Regular) (hpre : ∀ k ∈ pre, k.status = .success)
    (hj : j.status = .fail ∨ j.status = .error) (hpost : ∀ k ∈ post, k.status = .cancelled) :
  ∃ status, evaluateRunAttemptTerminalStatus rows = .ok (some status)
    ∧ (status = .fail ∨ status = .cancelled)
  := by
  have hterminal : ∀ k ∈ rows, k.status.terminal = true := by
    intro k hk
    have hk := hperm.subset hk
    simp only [List.mem_append, List.mem_cons] at hk
    rcases hk with hk | rfl | hk
    · rw [hpre k hk]
      rfl
    · rcases hj with hj | hj <;> rw [hj] <;> rfl
    · rw [hpost k hk]
      rfl
  -- the last job of the chain is the one that failed or one that was cancelled
  obtain ⟨front, last, hsplit, hlast⟩ : ∃ front last, pre ++ j :: post = front ++ [last]
      ∧ (last.status = .fail ∨ last.status = .error ∨ last.status = .cancelled) := by
    rcases List.eq_nil_or_concat post with rfl | ⟨middle, last, rfl⟩
    · exact ⟨pre, j, rfl, by tauto⟩
    · refine ⟨pre ++ j :: middle, last, by simp, ?_⟩
      exact Or.inr (Or.inr (hpost last (by simp)))
  rw [hsplit] at hperm hlinked hregular
  have heval : lastTerminalJob ⟨none, none, none⟩ rows = some last := by
    apply lastTerminalJob_of_tail hterminal
    · exact ⟨rfl, fun _ hnone => (by cases hnone), fun hne => absurd rfl hne⟩
    · intro k hk
      apply (hregular k (hperm.subset hk)).plain
    · intro k hk hnext
      apply tail_of_regular hlinked hregular (hperm.subset hk) hnext
    · apply hlinked.next_eq
    · apply Or.inl (hperm.symm.subset (by simp))
  simp only [evaluateRunAttemptTerminalStatus, heval]
  rcases hlast with h | h | h
  · exact ⟨.fail, by rw [h], Or.inl rfl⟩
  · exact ⟨.fail, by rw [h], Or.inl rfl⟩
  · exact ⟨.cancelled, by rw [h], Or.inr rfl⟩

/-! ### Attempts that ended -/

/-- An attempt that ended at a job that failed: its run is in it and has ended without success, all
jobs before the failed one succeeded, and none after it started. -/
structure Attempt.FailedAt (id : JobID) (s : Attempt) : Prop where
  current : s.number = s.run.attempt
  ended : s.run.status = .fail ∨ s.run.status = .cancelled
  failed : ∃ pre j post, s.jobs = pre ++ j :: post ∧ j.id = id
    ∧ (∀ k ∈ pre, k.status = .success) ∧ Retryable j ∧ ∀ k ∈ post, NeverStarted k

/-- An attempt that its run is in, whose jobs have all ended, none with a failure. -/
structure Attempt.Unfailed (s : Attempt) : Prop where
  current : s.number = s.run.attempt
  ended : ∀ j ∈ s.jobs, j.status.terminal = true
  unfailed : ∀ j ∈ s.jobs, j.status.failed = false

variable {id : JobID}

theorem Attempt.FailedAt.terminal {s : Attempt} (h : s.FailedAt id) :
  ∀ j ∈ s.jobs, j.status.terminal = true
  := by
  obtain ⟨pre, j, post, hjobs, -, hpre, hj, hpost⟩ := h.failed
  intro k hk
  rw [hjobs, List.mem_append, List.mem_cons] at hk
  rcases hk with hk | rfl | hk
  · rw [hpre k hk]
    rfl
  · rcases hj.failed with hj | hj <;> rw [hj] <;> rfl
  · rw [(hpost k hk).cancelled]
    rfl

theorem cancelIfActive_of_terminal {l : List Job} (h : ∀ j ∈ l, j.status.terminal = true) :
  l.map cancelIfActive.apply = l
  := by
  apply map_eq_self
  intro j hj
  apply RowUpdate.onlyIf_neg
  simpa [JobStatus.terminal] using h j hj

variable {s s' : Attempt}

/-- Nothing happens to jobs that have ended, within one execution. -/
theorem Attempt.Step.still {whole : Bool} (h : Attempt.Step whole s s')
    (hended : ∀ j ∈ s.jobs, j.status.terminal = true) (hattempt : s'.run.attempt = s.run.attempt)
    (hcount : s'.run.stats.resumeCount = s.run.stats.resumeCount) :
  s'.jobs = s.jobs
    ∧ (s.number = s.run.attempt → isTerminalRunStatus s.run.status = true → s'.run = s.run)
  := by
  cases h with
  | idle => exact ⟨rfl, fun _ _ => rfl⟩
  | @claim r a pre post j n now running queued owner =>
    have hj := hended j (by simp)
    rw [queued] at hj
    cases hj
  | @unclaim r a pre post j running =>
    have hj := hended j (by simp)
    rw [running] at hj
    cases hj
  | @complete r a pre post j input rows accepted order =>
    have hj := hended j (by simp)
    rw [accepted.running] at hj
    cases hj
  | settle status terminal other => exact ⟨rfl, fun hcurrent => absurd hcurrent other⟩
  | cancelJobs => exact ⟨cancelIfActive_of_terminal hended, fun _ _ => rfl⟩
  | @cancelRun r a l =>
    use cancelIfActive_of_terminal hended
    intro _ hterminal
    apply RowUpdate.onlyIf_neg
    rw [active_iff_not_terminal]
    simpa using hterminal
  | leave | enter => exact absurd hattempt (Nat.succ_ne_self _)
  | resume | stay => simp at hcount

theorem Attempt.FailedAt.step {whole : Bool} (h : s.FailedAt id)
    (hstep : Attempt.Step whole s s') (hattempt : s'.run.attempt = s.run.attempt)
    (hcount : s'.run.stats.resumeCount = s.run.stats.resumeCount) :
  s'.FailedAt id
  := by
  have hterminal : isTerminalRunStatus s.run.status = true := by
    rcases h.ended with hs | hs <;> rw [hs] <;> rfl
  obtain ⟨hjobs, hrun⟩ := hstep.still h.terminal hattempt hcount
  have hnumber := hstep.counters.1
  rw [show s' = ⟨s.run, s.number, s.jobs⟩ by
    rw [← hrun h.current hterminal, ← hnumber, ← hjobs]]
  exact ⟨h.current, h.ended, h.failed⟩

theorem Attempt.Unfailed.step {whole : Bool} (h : s.Unfailed)
    (hstep : Attempt.Step whole s s') (hattempt : s'.run.attempt = s.run.attempt)
    (hcount : s'.run.stats.resumeCount = s.run.stats.resumeCount) :
  s'.Unfailed
  := by
  obtain ⟨hjobs, -⟩ := hstep.still h.ended hattempt hcount
  refine ⟨?_, ?_, ?_⟩
  · rw [hstep.counters.1, hattempt]
    apply h.current
  · rw [hjobs]
    apply h.ended
  · rw [hjobs]
    apply h.unfailed

/-! ### How an attempt ends -/

variable {input : CompletionInput}

/-- The jobs after one that failed are cancelled before they start. -/
theorem neverStarted_after {post : List Job}
    (hfailed : input.status = .fail ∨ input.status = .error)
    (hpost : ∀ k ∈ post, k.status = .created) (hregular : ∀ k ∈ post, k.Regular) :
  ∀ k ∈ input.after j post, NeverStarted k
  := by
  have hstatus : input.status ≠ .success := by
    rcases hfailed with h | h <;> rw [h] <;> simp
  have hwaiting : ∀ k ∈ post, k.startedAt = none ∧ k.nodeID = none := by
    intro k hk
    apply (hregular k hk).waiting (hpost k hk)
  have hfed : ∀ k ∈ feed (input.completed j).repoShaOut post,
      k.status = .created ∧ k.startedAt = none ∧ k.nodeID = none := by
    intro k hk
    cases post with
    | nil => cases hk
    | cons k₀ rest =>
      rcases List.mem_cons.mp hk with rfl | hk
      · exact ⟨hpost k₀ List.mem_cons_self, hwaiting k₀ List.mem_cons_self⟩
      · exact ⟨hpost k (List.mem_cons_of_mem _ hk), hwaiting k (List.mem_cons_of_mem _ hk)⟩
  rw [CompletionInput.after, if_neg hstatus]
  intro k hk
  obtain ⟨k₀, hk₀, rfl⟩ := List.mem_map.mp hk
  obtain ⟨hcreated, hstarted, hnode⟩ := hfed k₀ hk₀
  have hactive : k₀.status.active = true := by
    rw [hcreated]
    rfl
  rw [cancelIfActive, RowUpdate.onlyIf_pos (by simpa using hactive)]
  exact ⟨rfl, hstarted, hnode⟩

variable {r : Run}

/-- After a failed completion the attempt has failed at that job. -/
theorem failedAt_of_completed {a : Nat} {pre post rows : List Job}
    (hshaped : Attempt.Shaped ⟨r, a, pre ++ j :: post⟩)
    (hhanded : Attempt.Handed ⟨r, a, pre ++ j :: post⟩)
    (hsource : isCanonicalFullCommitSHA r.repoSha0 = true)
    (hregular : ∀ k ∈ pre ++ j :: post, k.Regular) (haccepted : Completable input r a j)
    (hfailed : input.status = .fail ∨ input.status = .error) (hplain : input.plain = true)
    (hlinked' : Linked Job.id Job.nextID (pre ++ input.completed j :: input.after j post))
    (horder : rows.Perm (pre ++ input.completed j :: input.after j post)) :
  Attempt.FailedAt j.id ⟨settledRun r rows, a, pre ++ input.completed j :: input.after j post⟩
  := by
  obtain ⟨hpre, hpost⟩ := hshaped.around (Or.inr haccepted.running)
  have hpost' : ∀ k ∈ input.after j post, NeverStarted k :=
    neverStarted_after hfailed hpost (fun k hk => hregular k (by simp [hk]))
  have hregular' : ∀ k ∈ pre ++ input.completed j :: input.after j post, k.Regular := by
    intro k hk
    simp only [List.mem_append, List.mem_cons] at hk
    rcases hk with hk | rfl | hk
    · apply hregular k (by simp [hk])
    · apply (hregular j (by simp)).completed
      intro d hd
      simpa [CompletionInput.plain, hd] using hplain
    · apply regular_after _ _ hk
      intro k hk
      apply hregular k (by simp [hk])
  obtain ⟨status, heval, hstatus⟩ := evaluate_failed horder hlinked' hregular' hpre hfailed
    (fun k hk => (hpost' k hk).cancelled)
  constructor
  · rw [attempt_settledRun]
    apply haccepted.attempt
  · rw [settledRun, heval]
    apply hstatus
  · refine ⟨pre, input.completed j, input.after j post, rfl, rfl, hpre, ⟨hfailed, ?_, ?_⟩, hpost'⟩
    · exact ⟨input.nodeID, haccepted.owner⟩
    · apply ((hhanded hsource).1.2 j (by simp)) (Or.inr haccepted.running)

/-- While a run is open, no job of the attempt that it is in has failed. -/
def Attempt.Unbroken (s : Attempt) : Prop :=
  s.number = s.run.attempt → isTerminalRunStatus s.run.status = false →
    ∀ j ∈ s.jobs, j.status.failed = false

theorem failed_cancelIfActive (h : j.status.failed = false) :
  (cancelIfActive.apply j).status.failed = false
  := by
  simp only [cancelIfActive, RowUpdate.onlyIf]
  split
  · rfl
  · apply h

theorem failed_after {post : List Job}
    (h : ∀ k ∈ post, k.status.failed = false) :
  ∀ k ∈ input.after j post, k.status.failed = false
  := by
  apply input.forall_after (fun _ _ hk => hk) _ _ h
  · intro _ _ _
    rfl
  · intro _ _ _
    rfl

theorem Attempt.Unbroken.replace {a : Nat} {pre post : List Job} {j' : Job}
    (h : Attempt.Unbroken ⟨r, a, pre ++ j :: post⟩) (hj' : j'.status.failed = false) :
  Attempt.Unbroken ⟨r, a, pre ++ j' :: post⟩
  := by
  intro hcurrent hopen k hk
  have hall := h hcurrent hopen
  simp only [List.mem_append, List.mem_cons] at hall hk
  rcases hk with hk | rfl | hk
  · apply hall k (Or.inl hk)
  · apply hj'
  · apply hall k (Or.inr (Or.inr hk))

/-- After a job that failed nothing is active. -/
theorem inactive_after {post : List Job} (h : input.status = .fail ∨ input.status = .error) :
  ∀ k ∈ input.after j post, k.status.active = false
  := by
  intro k hk
  rw [CompletionInput.after, if_neg (by rcases h with h | h <;> simp [h])] at hk
  simpa [JobStatus.terminal] using terminal_cancelIfActive hk

/-- A completion that leaves the run open is not that of a job that failed: then nothing would be
active. -/
theorem Attempt.Unbroken.complete {a : Nat} {pre post rows : List Job}
    (h : Attempt.Unbroken ⟨r, a, pre ++ j :: post⟩)
    (hshaped : Attempt.Shaped ⟨r, a, pre ++ j :: post⟩) (haccepted : Completable input r a j)
    (horder : rows.Perm (pre ++ input.completed j :: input.after j post)) :
  Attempt.Unbroken ⟨settledRun r rows, a, pre ++ input.completed j :: input.after j post⟩
  := by
  intro hcurrent hopen k hk
  rw [attempt_settledRun] at hcurrent
  rcases evaluateRunAttemptTerminalStatus_cases rows with
    ⟨heval, hactive⟩ | ⟨status, heval, hterminal, -⟩
  · rw [settledRun, heval] at hopen
    have hall := h hcurrent hopen
    obtain ⟨hpre, hpost⟩ := hshaped.around (Or.inr haccepted.running)
    simp only [List.mem_append, List.mem_cons] at hall hk
    rcases hk with hk | rfl | hk
    · apply hall k (Or.inl hk)
    · by_contra hfailed
      rw [Bool.not_eq_false, JobStatus.failed_iff] at hfailed
      rcases hactive with hnil | ⟨k, hk, hactive⟩
      · rw [hnil] at horder
        simpa using List.nil_perm.mp horder
      · have hk := horder.subset hk
        simp only [List.mem_append, List.mem_cons] at hk
        rcases hk with hk | rfl | hk
        · rw [hpre k hk] at hactive
          cases hactive
        · have hterminal := input.terminal
          rw [JobStatus.terminal, show input.status.active = true from hactive] at hterminal
          cases hterminal
        · rw [inactive_after hfailed k hk] at hactive
          cases hactive
    · apply failed_after _ k hk
      intro k hk
      rw [hpost k hk]
      rfl
  · rw [settledRun, heval, show ((setRunStatus status).apply r).status = status from rfl,
      hterminal] at hopen
    cases hopen

theorem Attempt.Unbroken.cancelJobs {a : Nat} {l : List Job} {r' : Run}
    (h : Attempt.Unbroken ⟨r, a, l⟩) (hattempt : r'.attempt = r.attempt)
    (hstatus : isTerminalRunStatus r'.status = false → isTerminalRunStatus r.status = false) :
  Attempt.Unbroken ⟨r', a, l.map cancelIfActive.apply⟩
  := by
  intro hcurrent hopen k hk
  obtain ⟨k₀, hk₀, rfl⟩ := List.mem_map.mp hk
  exact failed_cancelIfActive (h (hcurrent.trans hattempt) (hstatus hopen) k₀ hk₀)

/-- An open run has no failed job in its attempt. -/
theorem unbroken_invariant :
  Attempt.Invariant fun s => s.Shaped ∧ s.Unbroken
  := by
  apply shaped_invariant.and
  · rintro ⟨r, a, l⟩ ⟨-, -, -, ⟨-, hplanned, -⟩ | ⟨-, hnil⟩⟩ _ _ j hj
    · obtain ⟨first, hj⟩ := hplanned.mem hj
      rw [hj.status]
      cases first <;> rfl
    · dsimp only at hnil
      subst hnil
      cases hj
  · intro whole s s' _ hshaped h hstep
    cases hstep with
    | idle => apply h
    | claim => exact h.replace rfl
    | unclaim => exact h.replace rfl
    | complete input rows accepted order => exact h.complete hshaped accepted order
    | settle status terminal other => exact fun hcurrent => absurd hcurrent other
    | cancelJobs => exact h.cancelJobs rfl id
    | @cancelRun r a l =>
      apply h.cancelJobs
      · simp only [RowUpdate.onlyIf]
        split <;> rfl
      · intro hopen
        simp only [RowUpdate.onlyIf] at hopen
        split at hopen
        · cases hopen
        · exact hopen
    | leave stats terminal reached => exact fun hcurrent => absurd hcurrent reached
    | @enter r created stats terminal planned nonempty =>
      intro _ _ k hk
      obtain ⟨first, hk⟩ := planned.mem hk
      rw [hk.status]
      cases first <;> rfl
    | @resume r pre post j stats now u terminal succeeded failed cancelled first rest =>
      intro _ _ k hk
      simp only [List.mem_append, List.mem_cons] at hk
      rcases hk with hk | rfl | hk
      · rw [succeeded k hk]
        rfl
      · obtain ⟨d, hd⟩ := first
        rw [hd]
        rfl
      · obtain ⟨k₀, hk₀, rfl⟩ := List.mem_map.mp hk
        obtain ⟨d, hd⟩ := rest k₀ hk₀
        rw [hd]
        rfl
    | stay stats now terminal other => exact fun hcurrent => absurd hcurrent other

/-! ### The execution of a run -/

def Operation.restarts : Operation → Option RunID
  | .restartRun _ arg => some arg.runID
  | _ => none

def restartedRun : ServerEvent → Option RunID
  | .act (.request op) => op.restarts
  | _ => none

/-- A run of `db` is in `db'`, in the same execution of the same attempt. -/
def SameExecution (db' : DB) (r : Run) : Prop :=
  ∃ r' ∈ db'.runs, r'.id = r.id ∧ r'.attempt = r.attempt
    ∧ r'.stats.resumeCount = r.stats.resumeCount

variable {db : DB}

theorem sameExecution_updateRuns {v : RunUpdate} (hr : r ∈ db.runs)
    (hattempt : (v.apply r).attempt = r.attempt)
    (hcount : (v.apply r).stats.resumeCount = r.stats.resumeCount) :
  SameExecution (db.updateRuns v) r
  := ⟨v.apply r, DB.mem_updateRuns.mpr ⟨r, hr, rfl⟩, v.id_apply r, hattempt, hcount⟩

theorem sameExecution_setRunStatus {p : Run → Bool} {status : RunStatus}
    (hr : r ∈ db.runs) :
  SameExecution (db.updateRuns ((setRunStatus status).onlyIf p)) r
  := by
  apply sameExecution_updateRuns hr
  · simp only [RowUpdate.onlyIf]
    split <;> rfl
  · simp only [RowUpdate.onlyIf]
    split <;> rfl

/-- Only a restart leads to another execution. -/
theorem Operation.keeps_execution {op : Operation} {db db' : DB} (hdb : WellFormed db)
    (hstep : op.step db = some db') (hr : r ∈ db.runs) (hne : op.restarts ≠ some r.id) :
  SameExecution db' r
  := by
  cases op with
  | createWaveWithRuns ids arg =>
    obtain ⟨_, ht⟩ := committed_eq_some.mp hstep
    obtain ⟨-, waves, -, hadds⟩ := createWaveWithRuns_effect ht
    obtain ⟨-, hkept, -⟩ := addsRuns_adds hadds ⟨hdb.referenced, hdb.chained⟩
    exact ⟨r, (hkept r hr).1, rfl, rfl, rfl⟩
  | claimJob nodeID skipLocked =>
    obtain ⟨_, ht⟩ := committed_eq_some.mp hstep
    obtain ⟨n, -, -, j, -, -, -, rfl⟩ := claimJob_effect ht
    exact ⟨r, hr, rfl, rfl, rfl⟩
  | unclaimJob id nodeID =>
    obtain ⟨_, ht⟩ := committed_eq_some.mp hstep
    rcases unclaimJob_effect ht with rfl | rfl <;> exact ⟨r, hr, rfl, rfl, rfl⟩
  | completeJob input =>
    obtain ⟨_, ht⟩ := committed_eq_some.mp hstep
    obtain ⟨r₀, hr₀, _, _, _, -, -, u, rows, -, -, -, rfl, -⟩ := completeJob_effect hdb ht
    by_cases hid : r.id = r₀.id
    · obtain rfl := Table.eq_of_key_eq hr hr₀ hid
      apply sameExecution_updateRuns hr
      · rw [settleUpdate_self, attempt_settledRun]
      · rw [settleUpdate_self, resumeCount_settledRun]
    · apply sameExecution_updateRuns hr
      · rw [settleUpdate_other hid]
      · rw [settleUpdate_other hid]
  | cancelRun runID =>
    obtain ⟨_, ht⟩ := committed_eq_some.mp hstep
    obtain ⟨-, rfl⟩ := cancelRun_effect ht
    apply sameExecution_setRunStatus hr
  | cancelWave waveID =>
    obtain ⟨_, ht⟩ := committed_eq_some.mp hstep
    obtain ⟨-, rfl⟩ := cancelWave_effect ht
    have hr' : r ∈ (db.updateWaves (cancelWaveUpdate waveID)).runs := hr
    apply sameExecution_setRunStatus hr'
  | restartRun ids arg =>
    obtain ⟨_, ht⟩ := committed_eq_some.mp hstep
    obtain ⟨r₀, w, db₁, hrestartable, hreopen, -, hmode⟩ := restartRun_effect ht
    have hother : r.id ≠ arg.runID := fun hid => hne (by rw [hid]; rfl)
    have hreopened : r ∈ db₁.runs := by
      unfold reopenRun at hreopen
      split at hreopen
      · obtain ⟨-, -, -, -, u, -, -, -, rfl⟩ := resumeFailedJobs_effect hreopen
        apply DB.mem_updateRuns.mpr ⟨r, hr, RowUpdate.onlyIf_neg _⟩
        simpa [hrestartable.id] using hother
      · rw [startNextAttempt_effect hreopen]
        apply DB.mem_updateRuns.mpr ⟨r, hr, RowUpdate.onlyIf_neg _⟩
        simpa using hother
    rcases hmode with ⟨-, rfl⟩ | ⟨-, created, hcreated⟩
    · exact ⟨r, hreopened, rfl, rfl, rfl⟩
    · obtain ⟨⟨jobs, rfl, -⟩, -⟩ := createPlannedJobs_effect hcreated
      exact ⟨r, hreopened, rfl, rfl, rfl⟩
  | cancelActiveJobsByRunAttempt | outside =>
    cases hstep
    exact ⟨r, hr, rfl, rfl, rfl⟩

variable {e : ServerEvent} {c c' : ServerState}

theorem ServerMoves.keeps_execution
    (h : ServerMoves e c c') (hdb : WellFormed c.store) (hr : r ∈ c.store.runs)
    (hne : restartedRun e ≠ some r.id) :
  SameExecution c'.store r
  := by
  cases h with
  | request whole step spawned => apply Operation.keeps_execution hdb step hr hne
  | recovery | read | cancelJobs | writeWave | lost => exact ⟨r, hr, rfl, rfl, rfl⟩
  | writeRun terminal => apply sameExecution_setRunStatus hr

/-! ### What recovery writes -/

/-- The final status that the jobs of the attempt that a run is in give it, if they have all
ended. -/
def attemptStatus (db : DB) (r : Run) : Option RunStatus :=
  (evaluateRunAttemptTerminalStatus (jobsOfAttempt db r.id r.attempt)).toOption.join

/-- A status is written to a run only while the jobs of the attempt that the run is in give it. -/
def writesCurrent (c : ServerState) : ServerEvent → Bool
  | .issue i =>
    match c.processes[i]? with
    | some (.statement (.updateRunStatus runID status) _) =>
      c.store.runs.rows.all fun r => r.id ≠ runID || attemptStatus c.store r = some status
    | _ => true
  | _ => true

/-- What is written from current jobs is written of finished ones. -/
theorem writesFinished_of_current {c : ServerState}
    (h : writesCurrent c e = true) :
  writesFinished c e = true
  := by
  unfold writesCurrent at h
  unfold writesFinished
  split
  · rename_i i
    dsimp only at h
    split
    · rename_i runID status next hstatement
      rw [hstatement] at h
      simp only [List.all_eq_true, Bool.or_eq_true, decide_eq_true_eq] at h ⊢
      intro r hr
      rcases h r hr with hne | hcurrent
      · apply Or.inl hne
      · right
        rw [attemptFinished, settles, ← attemptStatus, hcurrent]
        rfl
    · rfl
  · rfl

/-- The condition under which a retry is there when it should be: requests to create and restart
runs are as the handlers make them, no report names a successor in its metadata, and recovery
writes a status only while it is the current one. -/
def dependable (specs : SpecID → MigSpec) (c : ServerState) (e : ServerEvent) : Bool :=
  (match e with
    | .act (.request op) => op.submitted specs c.store && op.plain
    | _ => true)
  && writesCurrent c e

variable {specs : SpecID → MigSpec}

/-- The store of a dependable history is regular. -/
theorem regular_of_dependable
    {past : List (ServerState × ServerEvent)} {c : ServerState} (h : serverMachine.Execution past c)
    (hwhen : ∀ x ∈ past, dependable specs x.1 x.2 = true) :
  c.store.Regular specs
  := by
  apply server_invariant (dependable specs) _ _ h hwhen
  · intro db hdb
    constructor
    · intro j hj
      rw [← Table.mem_rows, hdb.2.2] at hj
      cases hj
    · intro j hj
      rw [← Table.mem_rows, hdb.2.2] at hj
      cases hj
    · intro r hr
      rw [← Table.mem_rows, hdb.2.1] at hr
      cases hr
  · intro c e c' hdb hregular hall hmove
    cases hmove with
    | request whole step spawned =>
      simp only [dependable, Bool.and_eq_true] at hall
      apply Operation.step_regular hdb hregular hall.1.1 hall.1.2 step
    | recovery | read | lost => apply hregular
    | cancelJobs settles =>
      apply hregular.updateJobs
      intro j _ hj
      apply hj.cancelledIf
    | writeRun terminal => apply hregular.updateRuns
    | writeWave => apply hregular.updateWaves

/-- What one attempt keeps, the moves of the server keep. -/
theorem OnAttempt.move {I : Attempt → Prop} {run : RunID} {a : Nat}
    (hstep : ∀ whole s s', I s → Attempt.Step whole s s' → s'.run.attempt = s.run.attempt →
      s'.run.stats.resumeCount = s.run.stats.resumeCount → I s')
    (hwrite : ∀ r l status, IsChain c.store r.id a l → attemptStatus c.store r = some status →
      I ⟨r, a, l⟩ → I ⟨(setRunStatus status).apply r, a, l⟩)
    (hmove : ServerMoves e c c') (hdb : WellFormed c.store)
    (hwhen : dependable specs c e = true) (hne : restartedRun e ≠ some run)
    (h : OnAttempt run a I c.store) :
  OnAttempt run a I c'.store
  := by
  obtain ⟨r, hr, rfl, l, hl, hI⟩ := h
  rcases hmove.evolves hdb with ⟨whole, hevolves⟩ |
    ⟨before, after, runID, status, next, -, rfl, hprocesses, hstore⟩
  · obtain ⟨r', hr', hid, hsteps⟩ := hevolves.kept r hr
    obtain ⟨r'', hr'', hid'', hattempt, hcount⟩ := hmove.keeps_execution hdb hr hne
    obtain rfl := Table.eq_of_key_eq hr'' hr' (hid''.trans hid.symm)
    obtain ⟨l', hl', hs⟩ := hsteps a l hl
    exact ⟨r'', hr', hid, l', hl', hstep whole _ _ hI hs hattempt hcount⟩
  · rw [hstore]
    refine ⟨_, DB.mem_updateRuns.mpr ⟨r, hr, rfl⟩, RunUpdate.id_apply _ r, l, hl.of_jobs_eq rfl, ?_⟩
    simp only [dependable, writesCurrent, hprocesses, Interleaved.getElem?_place, Bool.true_and,
      List.all_eq_true, Bool.or_eq_true, decide_eq_true_eq] at hwhen
    by_cases hid : r.id = runID
    · rw [RowUpdate.onlyIf_pos (by simpa using hid)]
      apply hwrite r l status hl ((hwhen r hr).resolve_left (absurd hid)) hI
    · rw [RowUpdate.onlyIf_neg (by simpa using hid)]
      apply hI

/-- An attempt that failed at a job stays so until it is restarted. -/
theorem failedAt_moves {run : RunID} {a : Nat}
    (hmove : ServerMoves e c c') (hdb : WellFormed c.store)
    (hregular : c.store.Regular specs) (hwhen : dependable specs c e = true)
    (hne : restartedRun e ≠ some run) (h : OnAttempt run a (Attempt.FailedAt id) c.store) :
  OnAttempt run a (Attempt.FailedAt id) c'.store
  := by
  apply h.move _ _ hmove hdb hwhen hne
  · intro whole s s' hs hstep hattempt hcount
    apply hs.step hstep hattempt hcount
  · intro r l status hl hstatus hs
    obtain ⟨hcurrent, hended, pre, j, post, rfl, hid, hpre, hj, hpost⟩ := hs
    dsimp only at hcurrent
    subst hcurrent
    refine ⟨rfl, ?_, pre, j, post, rfl, hid, hpre, hj, hpost⟩
    have hperm := (jobsOfAttempt_perm c.store r.id r.attempt).trans hl.1.symm
    obtain ⟨status', heval, hstatus'⟩ := evaluate_failed hperm hl.2
      (fun k hk => hregular.jobs k (hl.mem_iff.mp hk).1) hpre hj.failed
      (fun k hk => (hpost k hk).cancelled)
    rw [attemptStatus, heval] at hstatus
    obtain rfl : status' = status := by simpa [Except.toOption] using hstatus
    apply hstatus'

theorem unfailed_moves {run : RunID} {a : Nat}
    (hmove : ServerMoves e c c') (hdb : WellFormed c.store)
    (hwhen : dependable specs c e = true) (hne : restartedRun e ≠ some run)
    (h : OnAttempt run a Attempt.Unfailed c.store) :
  OnAttempt run a Attempt.Unfailed c'.store
  := by
  apply h.move _ _ hmove hdb hwhen hne
  · intro whole s s' hs hstep hattempt hcount
    apply hs.step hstep hattempt hcount
  · intro r l status _ _ hs
    exact ⟨hs.current, hs.ended, hs.unfailed⟩

/-! ### The retry -/

theorem resetJobs_ok {plans : List JobPlan} {suffix : List Job}
    (hplans : ∀ k ∈ suffix, ∃ plan d,
      (planByName plans k.name).filter (·.jobType = k.jobType) = some plan
        ∧ plan.metadata = .document d) (first : Bool) (db : DB) :
  ∃ db', (resetJobs plans first suffix).transaction engine db = .ok ((), db')
  := by
  induction suffix generalizing first db with
  | nil => exact ⟨db, rfl⟩
  | cons job rest ih =>
    obtain ⟨plan, d, hplan, hd⟩ := hplans job List.mem_cons_self
    obtain ⟨db', hrest⟩ := ih (fun k hk => hplans k (List.mem_cons_of_mem _ hk)) false
      (db.updateJobs ((resetRow (if first then .queued else .created) d first).onlyIf
        (·.id = job.id)))
    use db'
    simp only [resetJobs, transaction_bind_ok, transaction_orFail_ok, transaction_issue,
      engine_exec, Query.exec]
    exact ⟨plan, db, ⟨hplan, rfl⟩, (), _, by rw [hd]; rfl, hrest⟩

variable {arg : RestartRunParams}

theorem resumeFailedJobs_ok {suffix : List Job}
    (hstatus : r.status = .fail ∨ r.status = .cancelled)
    (hcount : (r.stats.resumeCount : Int) = arg.expectedResumeCount)
    (hlimit : r.stats.resumeCount + 1 < integerLimit)
    (hsuffix : failedJobSuffix (jobsOfAttempt db r.id r.attempt) = some suffix)
    (hplans : ∀ k ∈ suffix, ∃ plan d,
      (planByName arg.jobs k.name).filter (·.jobType = k.jobType) = some plan
        ∧ plan.metadata = .document d) :
  ∃ db', (resumeFailedJobs r arg).transaction engine db = .ok ((), db')
  := by
  obtain ⟨db₁, hreset⟩ := resetJobs_ok hplans true db
  have hfits : ¬ ((integerLimit : Int) ≤ arg.expectedResumeCount + 1) := by omega
  simp only [resumeFailedJobs, transaction_bind_ok, transaction_rejectIf_ok, transaction_issue,
    transaction_orFail_ok, engine_exec, Query.exec, Except.ok.injEq, Prod.mk.injEq]
  refine ⟨_, (), db, ⟨?_, rfl⟩, _, db, ⟨rfl, rfl⟩, suffix, db, ⟨hsuffix, rfl⟩, (), db₁, hreset,
    by rw [if_neg hfits]⟩
  rw [not_or, not_and_or, not_not, not_not, not_not]
  exact ⟨hstatus, hcount⟩

/-- A restart from a failed job succeeds if it may and the reopening does. -/
theorem restartRun_ok {db db₁ : DB} (ids : Nat → JobID) {w : Wave}
    (h : Restartable db arg r w) (hfrom : arg.fromFailed = true)
    (hreopen : (reopenRun r arg).transaction engine db = .ok ((), db₁))
    (hkept : ∃ updated, db₁.runs.find? arg.runID = some updated) :
  ∃ updated db', (restartRun ids arg).transaction engine db = .ok (updated, db')
  := by
  obtain ⟨updated, hupdated⟩ := hkept
  have hfound : db.runs.find? arg.runID = some r := by
    rw [← h.id]
    apply Table.find?_of_mem h.run
  have hwave : db.waves.find? r.waveID = some w := by
    rw [← h.waveID]
    apply Table.find?_of_mem h.wave
  have hended : ¬ (r.status ≠ .success ∧ r.status ≠ .fail ∧ r.status ≠ .cancelled) := by
    intro hactive
    have hactive := active_iff_not_terminal.mp (active_iff.mpr hactive)
    rw [h.terminal] at hactive
    cases hactive
  have hlock : ∀ ids : List RepoID, (lockRepos ids).transaction engine db = .ok ((), db) := by
    intro ids
    induction ids with
    | nil => rfl
    | cons id rest ih =>
      simp only [lockRepos, transaction_bind_ok, transaction_issue, engine_exec, Query.exec]
      exact ⟨(), db, rfl, ih⟩
  have hguard : (requireRepoWithoutActiveRun r.repoID).transaction engine db = .ok ((), db) := by
    simp only [requireRepoWithoutActiveRun, transaction_bind_ok, transaction_issue, engine_exec,
      Query.exec]
    exact ⟨none, db, by rw [h.alone], rfl⟩
  have hrevive : ∃ db₂, ((when (w.status = .finished)
      (within "restart run: revive wave" (issue (.updateWaveStatus w.id .started))))
        : Tx Unit).transaction engine db₁ = .ok ((), db₂)
        ∧ db₂.runs.find? arg.runID = some updated := by
    simp only [transaction_when_ok, transaction_within_ok, transaction_issue, engine_exec,
      Query.exec, Except.ok.injEq, Prod.mk.injEq, true_and]
    by_cases hfinished : w.status = .finished
    · exact ⟨_, Or.inl ⟨hfinished, rfl⟩, hupdated⟩
    · exact ⟨db₁, Or.inr ⟨hfinished, rfl⟩, hupdated⟩
  obtain ⟨db₂, hrevived, hreload⟩ := hrevive
  use updated, db₂
  simp only [restartRun, transaction_bind_ok, transaction_within_ok, transaction_one_ok,
    transaction_rejectIf_ok, transaction_pure, Query.exec, Except.ok.injEq, Prod.mk.injEq]
  refine ⟨r, db, ⟨hfound, rfl⟩, (), db, ⟨?_, rfl⟩, w, db, ⟨hwave, rfl⟩, (), db, ⟨h.open_, rfl⟩, (),
    db, ?_, (), db, hguard, (), db₁, hreopen, (), db₂, hrevived, updated, db₂, ⟨hreload, rfl⟩, (),
    db₂, ?_, rfl, rfl⟩
  · rw [not_or, not_not]
    exact ⟨h.attempt, hended⟩
  · simp only [lockRunRepositories, transaction_bind_ok, transaction_issue, engine_exec, Query.exec]
    exact ⟨_, db, rfl, hlock _⟩
  · rw [transaction_when_ok]
    exact Or.inr ⟨by simp [hfrom], rfl⟩

/-- A retry of the attempt that the run `r` is in, from the job `id` on: the jobs before it
succeeded and stay as they are, the job itself is queued, the jobs after it wait again in their
order, and the run runs in its next execution. -/
def Resumes (db db' : DB) (r : Run) (id : JobID) : Prop :=
  ∃ pre j post j' post', IsChain db r.id r.attempt (pre ++ j :: post) ∧ j.id = id
    ∧ (∀ k ∈ pre, k.status = .success)
    ∧ IsChain db' r.id r.attempt (pre ++ j' :: post')
    ∧ j'.id = id ∧ j'.status = .queued
    ∧ post'.map Job.id = post.map Job.id ∧ (∀ k ∈ post', k.status = .created)
    ∧ ∃ r' ∈ db'.runs, r'.id = r.id ∧ r'.attempt = r.attempt ∧ r'.status = .running
      ∧ r'.stats.resumeCount = r.stats.resumeCount + 1

/-- A restart from a failed job resumes exactly there. -/
theorem resumes_of_restartRun {db db' : DB} {ids : Nat → JobID}
    {updated r : Run} (hr : r ∈ db.runs) (hrun : r.id = arg.runID)
    (hfrom : arg.fromFailed = true) {l : List Job} (hl : IsChain db r.id r.attempt l)
    (hfailed : Attempt.FailedAt id ⟨r, r.attempt, l⟩)
    (ht : (restartRun ids arg).transaction engine db = .ok (updated, db')) :
  Resumes db db' r id
  := by
  obtain ⟨r₀, w, db₁, hrestartable, hreopen, -, hmode⟩ := restartRun_effect ht
  obtain rfl := Table.eq_of_key_eq hrestartable.run hr (hrestartable.id.trans hrun.symm)
  rw [reopenRun, if_pos hfrom] at hreopen
  obtain ⟨pre, j, post, hchain, hpre, hretry, hpost, u, hother, ⟨d, hfirst⟩, hrest, rfl⟩ :=
    resumeFailedJobs_chain hreopen
  obtain ⟨-, -, pre', j', post', hjobs, rfl, hpre', hretry', -⟩ := hfailed
  obtain rfl := hl.unique hchain
  have hne : ∀ {k : Job}, Retryable k → ¬ k.status = .success := by
    intro k hk hsuccess
    rcases hk.failed with h | h <;> rw [h] at hsuccess <;> cases hsuccess
  obtain ⟨rfl, rfl, rfl⟩ := first_unique hpre (hne hretry) hpre' (hne hretry') hjobs
  have hkept : ∀ k ∈ pre, u.apply k = k := by
    intro k hk
    apply hother
    have hnodup := hchain.nodup
    rw [List.map_append, List.nodup_append] at hnodup
    intro hin
    apply hnodup.2.2 _ (List.mem_map_of_mem hk) _ hin rfl
  have hchain' := hchain.updateJobs u
  rw [List.map_append, List.map_cons, map_eq_self hkept] at hchain'
  rcases hmode with ⟨-, rfl⟩ | ⟨hfull, -⟩
  · refine ⟨pre, j, post, u.apply j, post.map u.apply, hchain, rfl, hpre, hchain'.of_jobs_eq rfl,
      u.id_apply j, by rw [hfirst]; rfl, ?_, ?_, _, DB.mem_updateRuns.mpr ⟨r₀, hr, rfl⟩,
      RunUpdate.id_apply _ _, ?_⟩
    · rw [List.map_map]
      apply List.map_congr_left
      intro k _
      apply u.id_apply
    · intro k hk
      obtain ⟨k₀, hk₀, rfl⟩ := List.mem_map.mp hk
      obtain ⟨d', hd'⟩ := hrest k₀ hk₀
      rw [hd']
      rfl
    · rw [RowUpdate.onlyIf_pos (by simp)]
      exact ⟨rfl, rfl, rfl⟩
  · rw [hfrom] at hfull
    cases hfull

/-- An attempt that failed at a job can be restarted from it. -/
theorem restartRun_of_failedAt (hregular : db.Regular specs)
    (hbound : OnAttempts Attempt.Bound db) (hr : r ∈ db.runs) {l : List Job}
    (hl : IsChain db r.id r.attempt l) (hfailed : Attempt.FailedAt id ⟨r, r.attempt, l⟩)
    (ids : Nat → JobID) {w : Wave} (hrestartable : Restartable db arg r w)
    (hfrom : arg.fromFailed = true) (hcount : (r.stats.resumeCount : Int) = arg.expectedResumeCount)
    (hlimit : r.stats.resumeCount + 1 < integerLimit)
    (hjobs : arg.jobs = planJobsFromSpec (specs r.specID)) :
  ∃ updated db', (restartRun ids arg).transaction engine db = .ok (updated, db')
    ∧ Resumes db db' r id
  := by
  have hfailed' := hfailed
  obtain ⟨-, hended, pre, j, post, hsplit, -, hpre, hj, hpost⟩ := hfailed
  dsimp only at hsplit hended
  subst hsplit
  have hperm : (pre ++ j :: post).Perm (jobsOfAttempt db r.id r.attempt) :=
    hl.1.trans (jobsOfAttempt_perm _ _ _).symm
  have hmem : ∀ k ∈ pre ++ j :: post, k ∈ db.jobs := fun k hk => (hl.mem_iff.mp hk).1
  obtain ⟨n, hn⟩ := hbound r hr _ _ hl
  have hsuffix : failedJobSuffix (jobsOfAttempt db r.id r.attempt) = some (j :: post) := by
    apply failedJobSuffix_of _ _ hperm hl.2 hn hpre hj _ hpost
    · rw [← (hperm.map Job.id).nodup_iff]
      apply hl.nodup
    · intro k hk
      apply (hregular.jobs k (hmem k (hperm.symm.subset hk))).named
    · apply (hregular.jobs j (hmem j (by simp))).owner
  have hplans : ∀ k ∈ j :: post, ∃ plan d,
      (planByName arg.jobs k.name).filter (·.jobType = k.jobType) = some plan
        ∧ plan.metadata = .document d := by
    intro k hk
    have hk := List.mem_append_right pre hk
    obtain ⟨r', hr', hid, planned, hplanned, hname, htype⟩ := hregular.planned k (hmem k hk)
    obtain rfl := Table.eq_of_key_eq hr' hr (hid.trans (hl.mem_iff.mp hk).2.1)
    obtain ⟨found, hfound, hfind⟩ := planByName_planned hplanned
    obtain ⟨d, hd, -⟩ := metadata_planned hfound
    rw [hname, htype, ← hjobs] at hfind
    exact ⟨found, d, hfind, hd⟩
  obtain ⟨db₁, hreopen⟩ := resumeFailedJobs_ok hended hcount hlimit hsuffix hplans
  have hkept : ∃ updated, db₁.runs.find? arg.runID = some updated := by
    obtain ⟨_, _, _, _, _, _, _, _, _, _, _, rfl⟩ := resumeFailedJobs_chain hreopen
    rw [DB.updateRuns, Table.find?_update, ← hrestartable.id, DB.updateJobs_runs,
      Table.find?_of_mem hr]
    exact ⟨_, rfl⟩
  have hreopen' : (reopenRun r arg).transaction engine db = .ok ((), db₁) := by
    rw [reopenRun, if_pos hfrom, hreopen]
  obtain ⟨updated, db', ht⟩ := restartRun_ok ids hrestartable hfrom hreopen' hkept
  exact ⟨updated, db', ht, resumes_of_restartRun hr hrestartable.id hfrom hl hfailed' ht⟩

/-! ### When a retry is there -/

/-- The events by which a run ends without a report: a cancellation of the run or of its wave, or a
statement of recovery. -/
inductive ServerEvent.Cancels : ServerEvent → Prop where
  | run (runID : RunID) : Cancels (.act (.request (.cancelRun runID)))
  | wave (waveID : WaveID) : Cancels (.act (.request (.cancelWave waveID)))
  | recovery (i : Nat) : Cancels (.issue i)

theorem mem_of_failed_cancelled {p : Job → Bool}
    (hj : j ∈ (db.updateJobs (cancelJobsUpdate p)).jobs) (hfailed : j.status.failed = true) :
  j ∈ db.jobs
  := by
  obtain ⟨j₀, hj₀, rfl⟩ := DB.mem_updateJobs.mp hj
  simp only [cancelJobsUpdate, RowUpdate.onlyIf] at hfailed ⊢
  split at hfailed
  · cases hfailed
  · rename_i hnot
    rw [if_neg hnot]
    apply hj₀

theorem ServerEvent.Cancels.failed (he : e.Cancels)
    (h : ServerMoves e c c') (hj : j ∈ c'.store.jobs) (hfailed : j.status.failed = true) :
  j ∈ c.store.jobs
  := by
  cases h with
  | request whole step spawned =>
    cases he with
    | run runID =>
      obtain ⟨_, ht⟩ := committed_eq_some.mp step
      obtain ⟨-, rfl⟩ := cancelRun_effect ht
      apply mem_of_failed_cancelled hj hfailed
    | wave waveID =>
      obtain ⟨_, ht⟩ := committed_eq_some.mp step
      obtain ⟨-, rfl⟩ := cancelWave_effect ht
      apply mem_of_failed_cancelled hj hfailed
  | recovery | read | writeRun | writeWave | lost => apply hj
  | cancelJobs settles => apply mem_of_failed_cancelled hj hfailed

theorem ServerEvent.Cancels.restarts (he : e.Cancels) (run : RunID) :
  restartedRun e ≠ some run
  := by
  cases he <;> rintro ⟨⟩

/-- In a dependable history a failed completion leaves the attempt failed at it. -/
theorem failedAt_of_complete {earlier : List (ServerState × ServerEvent)}
    {c₀ c₁ : ServerState} (h : serverMachine.Execution earlier c₀)
    (hwhen : ∀ x ∈ earlier, dependable specs x.1 x.2 = true)
    (hfailed : input.status = .fail ∨ input.status = .error) (hplain : input.plain = true)
    (hj : j ∈ c₀.store.jobs) (hjob : j.id = input.jobID)
    (hstep : serverMachine.step (.act (.request (.completeJob input))) c₀ = some c₁) :
  OnAttempt j.runID j.attempt (Attempt.FailedAt j.id) c₁.store
  := by
  have hdb := (server_reachable h).1
  have hregular := regular_of_dependable h hwhen
  have hshaped := onAttempts_of_server shaped_invariant (fun _ _ _ _ _ h => h) h
  have hhanded := onAttempts_of_server handed_invariant (fun _ _ _ _ _ h => h) h
  have hmoves := server_moves h hstep
  cases hmoves with
  | request whole step spawned =>
    obtain ⟨_, ht⟩ := committed_eq_some.mp step
    obtain ⟨r, hr, pre, j', post, hchain, haccepted, u, rows, -, hmap, horder, rfl, -⟩ :=
      completeJob_effect hdb ht
    obtain ⟨hj', hrun, hattempt⟩ := hchain.mem_iff.mp
      (show j' ∈ pre ++ j' :: post by simp)
    obtain rfl := Table.eq_of_key_eq hj hj' (hjob.trans haccepted.job.symm)
    have hchain' := hchain.updateJobs u
    rw [hmap] at hchain'
    rw [hrun, hattempt]
    refine ⟨_, DB.mem_updateRuns.mpr ⟨r, hr, rfl⟩, RunUpdate.id_apply _ r, _,
      hchain'.of_jobs_eq rfl, ?_⟩
    rw [settleUpdate_self]
    apply failedAt_of_completed (hshaped r hr _ _ hchain) (hhanded r hr _ _ hchain)
      (hregular.source r hr) _ haccepted hfailed hplain hchain'.2 horder
    intro k hk
    apply hregular.jobs k (hchain.mem_iff.mp hk).1
  | lost event =>
    rcases event with ⟨err, hevent⟩ | hevent <;> cases hevent

/-- In a dependable history a cancellation leaves no failed job. -/
theorem unfailed_of_cancelled
    {earlier : List (ServerState × ServerEvent)} {c₀ c₁ : ServerState}
    (h : serverMachine.Execution earlier c₀)
    (hwhen : ∀ x ∈ (c₀, e) :: earlier, dependable specs x.1 x.2 = true) (he : e.Cancels)
    (hstep : serverMachine.step e c₀ = some c₁) {r₀ r₁ : Run} (hr₀ : r₀ ∈ c₀.store.runs)
    (hactive : r₀.active = true) (hr₁ : r₁ ∈ c₁.store.runs) (hid : r₁.id = r₀.id)
    (hended : r₁.active = false) :
  OnAttempt r₀.id r₀.attempt Attempt.Unfailed c₁.store
  := by
  have hdb := (server_reachable h).1
  have hmoves := server_moves h hstep
  have hunbroken : OnAttempts (fun s => s.Shaped ∧ s.Unbroken) c₀.store := by
    apply onAttempts_of_server unbroken_invariant _ h
    rintro r a l status hterminal ⟨hshaped, -⟩
    use hshaped
    intro _ hopen
    apply absurd hopen
    simpa [setRunStatus] using hterminal
  have hsettled : OnAttempts Attempt.Settled c₁.store := by
    apply settled_of_execution (h.step hstep)
    intro x hx
    have hx := hwhen x hx
    simp only [dependable, Bool.and_eq_true] at hx
    apply writesFinished_of_current hx.2
  obtain ⟨r, hr, hrid, hattempt, -⟩ := hmoves.keeps_execution hdb hr₀ (he.restarts r₀.id)
  obtain rfl := Table.eq_of_key_eq hr hr₁ (hrid.trans hid.symm)
  obtain ⟨l₀, hl₀⟩ := hdb.chained r₀.id r₀.attempt
  obtain ⟨l₁, hl₁⟩ := (hmoves.wellFormed hdb).chained r.id r.attempt
  have hterminal : isTerminalRunStatus r.status = true := by
    by_contra hnot
    rw [Bool.not_eq_true] at hnot
    rw [active_iff_not_terminal.mpr hnot] at hended
    cases hended
  have hopen : isTerminalRunStatus r₀.status = false := active_iff_not_terminal.mp hactive
  rw [← hid, ← hattempt]
  refine ⟨r, hr, rfl, l₁, hl₁, rfl, ?_, ?_⟩
  · intro j hj
    apply hsettled r hr _ _ hl₁ rfl hterminal j hj
  · intro j hj
    by_contra hfailed
    rw [Bool.not_eq_false] at hfailed
    obtain ⟨hmem, hrun, hnumber⟩ := hl₁.mem_iff.mp hj
    have hj₀ := he.failed hmoves hmem hfailed
    have hin : j ∈ l₀ := hl₀.mem_iff.mpr ⟨hj₀, hrun.trans hid, hnumber.trans hattempt⟩
    have hsound := (hunbroken r₀ hr₀ _ _ hl₀).2 rfl hopen j hin
    rw [hfailed] at hsound
    cases hsound

/-- In a server where requests are as the handlers make them, no report names a successor in its
metadata, and recovery writes a status only while it is the current one: an attempt that ended
because a node reported a failure of a job, and was not restarted since, can be retried from that
job; one that ended by a cancellation or by recovery cannot, and asking for it changes nothing. -/
theorem restart_from_failed {specs : SpecID → MigSpec}
    {later earlier : List (ServerState × ServerEvent)} {c₀ c₁ c : ServerState} {e : ServerEvent}
    (h : serverMachine.Execution (later ++ (c₀, e) :: earlier) c)
    (hwhen : ∀ x ∈ later ++ (c₀, e) :: earlier, dependable specs x.1 x.2 = true)
    (hstep : serverMachine.step e c₀ = some c₁) {run : RunID}
    (hsince : ∀ x ∈ later, restartedRun x.2 ≠ some run) (ids : Nat → JobID)
    (arg : RestartRunParams) (hfrom : arg.fromFailed = true) (hrun : arg.runID = run) :
  (∀ input j, e = .act (.request (.completeJob input)) →
      (input.status = .fail ∨ input.status = .error) →
      j ∈ c₀.store.jobs → j.id = input.jobID → j.runID = run →
      ∀ r ∈ c.store.runs, r.id = run → ∀ w ∈ c.store.waves, w.id = r.waveID →
        w.status ≠ .cancelled →
        (∀ k ∈ c.store.runs, k.id ≠ run → k.repoID = r.repoID → k.active = false) →
        (r.attempt : Int) = arg.expectedAttempt →
        (r.stats.resumeCount : Int) = arg.expectedResumeCount →
        r.stats.resumeCount + 1 < integerLimit →
        arg.jobs = planJobsFromSpec (specs r.specID) →
        ∃ updated db', (restartRun ids arg).transaction engine c.store = .ok (updated, db')
          ∧ Resumes c.store db' r j.id)
    ∧ (∀ r₀ ∈ c₀.store.runs, ∀ r₁ ∈ c₁.store.runs, e.Cancels → r₀.id = run → r₁.id = run →
      r₀.active = true → r₁.active = false →
        (∃ err, (restartRun ids arg).transaction engine c.store = .error err)
          ∧ (Operation.restartRun ids arg).attempted c.store = c.store)
  := by
  have hdb := (server_reachable h).1
  constructor
  · rintro input j rfl hfailed hj hjob rfl r hr hid w hw hwave hopen halone hattempt hcount hlimit
      hjobs
    have hplain : input.plain = true := by
      have := hwhen (c₀, .act (.request (.completeJob input))) (by simp)
      simp only [dependable, Bool.and_eq_true] at this
      apply this.1.2
    have hlater : OnAttempt j.runID j.attempt (Attempt.FailedAt j.id) c.store := by
      apply h.since_of (P := fun c e => dependable specs c e = true)
        (Q := fun _ e => restartedRun e ≠ some j.runID) hwhen hsince
      · intro c₁ hexec hstep
        apply failedAt_of_complete hexec (fun x hx => hwhen x (by simp [hx])) hfailed hplain hj hjob
          hstep
      · intro past c l c' hexec hpast hnow hne hI hstep
        apply failedAt_moves (server_moves hexec hstep) (server_reachable hexec).1
          (regular_of_dependable hexec hpast) hnow hne hI
    obtain ⟨r', hr', hid', l, hl, hfailedAt⟩ := hlater
    obtain rfl := Table.eq_of_key_eq hr' hr (hid'.trans hid.symm)
    have hcurrent : j.attempt = r'.attempt := hfailedAt.current
    rw [hcurrent, ← hid'] at hl
    rw [hcurrent] at hfailedAt
    have hbound := onAttempts_of_server bound_invariant (fun _ _ _ _ _ h => h) h
    have hterminal : isTerminalRunStatus r'.status = true := by
      rcases hfailedAt.ended with hs | hs <;> rw [hs] <;> rfl
    have hactive : r'.active = false := by
      rw [← Bool.not_eq_true, active_iff_not_terminal, hterminal]
      simp
    have hnone : activeRun c.store r'.repoID = none := by
      have hfilter : c.store.runs.rows.filter (fun k => k.repoID = r'.repoID && k.active) = [] := by
        rw [List.filter_eq_nil_iff]
        intro k hk
        by_cases hkid : k.id = r'.id
        · rw [Table.eq_of_key_eq hk hr hkid, hactive]
          simp
        · simp only [Bool.and_eq_true, decide_eq_true_eq, not_and, Bool.not_eq_true]
          apply halone k hk
          rw [← hid]
          apply hkid
      rw [activeRun, hfilter]
      cases c.store.repos.find? r'.repoID <;> rfl
    apply restartRun_of_failedAt (regular_of_dependable h hwhen) hbound hr hl hfailedAt ids
      ⟨hr, hid.trans hrun.symm, hattempt, hterminal, hw, hwave, hopen, hnone⟩ hfrom hcount hlimit
      hjobs
  · rintro r₀ hr₀ r₁ hr₁ he rfl hid₁ hactive hended
    have hlater : OnAttempt r₀.id r₀.attempt Attempt.Unfailed c.store := by
      apply h.since_of (P := fun c e => dependable specs c e = true)
        (Q := fun _ e => restartedRun e ≠ some r₀.id) hwhen hsince
      · intro c₁' hexec hstep'
        obtain rfl : c₁ = c₁' := Option.some.inj (hstep.symm.trans hstep')
        apply unfailed_of_cancelled hexec (fun x hx => hwhen x (List.mem_append_right _ hx)) he
          hstep hr₀ hactive hr₁ hid₁ hended
      · intro past c l c' hexec hpast hnow hne hI hstep
        apply unfailed_moves (server_moves hexec hstep) (server_reachable hexec).1 hnow hne hI
    have herror : ∃ err, (restartRun ids arg).transaction engine c.store = .error err := by
      cases ht : (restartRun ids arg).transaction engine c.store with
      | error err => exact ⟨err, rfl⟩
      | ok x =>
        obtain ⟨updated, db'⟩ := x
        obtain ⟨r, w, db₁, hrestartable, hreopen, -⟩ := restartRun_effect ht
        rw [reopenRun, if_pos hfrom] at hreopen
        obtain ⟨pre, j, post, hchain, -, hretry, -⟩ := resumeFailedJobs_chain hreopen
        obtain ⟨r', hr', hid', l, hl, hunfailed⟩ := hlater
        obtain rfl := Table.eq_of_key_eq hr' hrestartable.run
          (hid'.trans (hrun.symm.trans hrestartable.id.symm))
        have hcurrent : r₀.attempt = r'.attempt := hunfailed.current
        rw [hcurrent, ← hid'] at hl
        obtain rfl := hl.unique hchain
        have hj := hunfailed.unfailed j (by simp)
        rw [JobStatus.failed_iff.mpr hretry.failed] at hj
        cases hj
    use herror
    obtain ⟨err, herr⟩ := herror
    simp [Operation.attempted, Operation.step, herr, committed]

namespace Sample

/-- Two steps without gates. -/
def spec : MigSpec :=
  ⟨true, [⟨"", ""⟩, ⟨"", ""⟩]⟩

/-- Creating a wave with one run, as planned from the specification. -/
def createPlanned : ServerEvent :=
  .act (.request (.createWaveWithRuns (fun _ i => ⟨if i = 0 then "j0" else "j1"⟩)
    ⟨⟨⟨"w"⟩, ⟨"m"⟩, ⟨"s"⟩⟩, [⟨⟨"r"⟩, ⟨"p"⟩, "main", sha0, sha0, none, planJobsFromSpec spec⟩]⟩))

def claim : ServerEvent :=
  .act (.request (.claimJob ⟨"n1"⟩ []))

def complete (job : String) (status : JobStatus) (h : status.terminal = true) : ServerEvent :=
  .act (.request (.completeJob (report job status h 0)))

/-- A retry from the failed job, with the plan of the specification. -/
def retryPlanned : RestartRunParams :=
  ⟨true, 0, ⟨"r"⟩, 1, none, planJobsFromSpec spec⟩

/-- What a retry needs besides a failed job. -/
def asked (c : ServerState) : Bool :=
  c.store.runs.rows.any fun r => r.id = ⟨"r"⟩ && r.attempt = 1 && r.stats.resumeCount = 0
    && (c.store.waves.rows.any fun w => w.id = r.waveID && w.status ≠ .cancelled)
    && c.store.runs.rows.all fun k => k.id = ⟨"r"⟩

theorem follow_last {allowed : ServerState → ServerEvent → Bool} {events : List ServerEvent}
    {e : ServerEvent} {p : ServerState → ServerState → Bool}
    (h : (((serverMachine.restrict allowed).follow server events).bind fun c₀ =>
      ((serverMachine.restrict allowed).step e c₀).map (p c₀)) = some true) :
  ∃ earlier c₀ c, serverMachine.Execution ([] ++ (c₀, e) :: earlier) c
    ∧ (∀ x ∈ [] ++ (c₀, e) :: earlier, allowed x.1 x.2 = true) ∧ serverMachine.step e c₀ = some c
    ∧ p c₀ c = true
  := by
  obtain ⟨earlier, c₀, c, hexec, hall, hp⟩ := Machine.Execution.of_follow_last server_init h
  cases hexec with
  | step hbefore hstep => exact ⟨earlier, c₀, c, hbefore.step hstep, hall, hstep, hp⟩

end Sample

/-- A run whose second step fails is retried from it. A run that is cancelled while its second step
runs is not. -/
theorem restart_from_failed_sample :
  (∃ c : ServerState, ∃ updated db', ∃ r ∈ c.store.runs,
      (restartRun (fun _ => ⟨""⟩) Sample.retryPlanned).transaction engine c.store
        = .ok (updated, db')
        ∧ Resumes c.store db' r ⟨"j1"⟩)
    ∧ ∃ c : ServerState, ∃ err,
      (restartRun (fun _ => ⟨""⟩) Sample.retryPlanned).transaction engine c.store = .error err
  := by
  constructor
  · have hrun : ((((serverMachine.restrict (dependable fun _ => Sample.spec)).follow Sample.server
        [Sample.createPlanned, Sample.claim, Sample.complete "j0" .success rfl, Sample.claim]).bind
        fun c₀ => ((serverMachine.restrict (dependable fun _ => Sample.spec)).step
          (Sample.complete "j1" .fail rfl) c₀).map fun c =>
            (c₀.store.jobs.rows.any fun j => j.id = ⟨"j1"⟩ && j.runID = ⟨"r"⟩)
              && Sample.asked c)) = some true := by
      decide +kernel
    obtain ⟨earlier, c₀, c, hexec, hwhen, hstep, hp⟩ := Sample.follow_last hrun
    simp only [Bool.and_eq_true, List.any_eq_true, decide_eq_true_eq] at hp
    obtain ⟨⟨j, hj, hjob, hjrun⟩, hasked⟩ := hp
    simp only [Sample.asked, List.any_eq_true, List.all_eq_true, Bool.and_eq_true,
      decide_eq_true_eq] at hasked
    obtain ⟨r, hr, ⟨⟨⟨hid, hattempt⟩, hcount⟩, w, hw, hwave, hopen⟩, halone⟩ := hasked
    have htheorem := (restart_from_failed hexec hwhen hstep (fun _ hx => by cases hx)
      (fun _ => ⟨""⟩) Sample.retryPlanned rfl rfl).1 _ j rfl (Or.inl rfl) hj hjob hjrun r hr
      hid w hw hwave (by simpa using hopen) (fun k hk hne => absurd (halone k hk) hne)
      (by simp [hattempt, Sample.retryPlanned]) (by simp [hcount, Sample.retryPlanned])
      (by simp [hcount, integerLimit]) rfl
    obtain ⟨updated, db', ht, hresumes⟩ := htheorem
    rw [hjob] at hresumes
    exact ⟨c, updated, db', r, hr, ht, hresumes⟩
  · have hrun : ((((serverMachine.restrict (dependable fun _ => Sample.spec)).follow Sample.server
        [Sample.createPlanned, Sample.claim, Sample.complete "j0" .success rfl, Sample.claim]).bind
        fun c₀ => ((serverMachine.restrict (dependable fun _ => Sample.spec)).step
          (.act (.request (.cancelRun ⟨"r"⟩))) c₀).map fun c =>
            (c₀.store.runs.rows.any fun r => r.id = ⟨"r"⟩ && r.active)
              && (c.store.runs.rows.any fun r => r.id = ⟨"r"⟩ && !r.active))) = some true := by
      decide +kernel
    obtain ⟨earlier, c₀, c, hexec, hwhen, hstep, hp⟩ := Sample.follow_last hrun
    simp only [Bool.and_eq_true, List.any_eq_true, decide_eq_true_eq, Bool.not_eq_true'] at hp
    obtain ⟨⟨r₀, hr₀, hid₀, hactive⟩, r₁, hr₁, hid₁, hended⟩ := hp
    have htheorem := (restart_from_failed hexec hwhen hstep (fun _ hx => by cases hx)
      (fun _ => ⟨""⟩) Sample.retryPlanned rfl rfl).2 r₀ hr₀ r₁ hr₁ (.run _) hid₀ hid₁ hactive
      hended
    exact ⟨c, htheorem.1⟩

/-- A node reports that the first step succeeded, with a successor in the metadata, and then that
the second step failed. The attempt is taken to have succeeded, and a retry from the failed step is
refused. -/
theorem failure_behind_reported_successor :
  ∃ earlier c₀ c, ∃ input : CompletionInput,
    serverMachine.Execution ((c₀, .act (.request (.completeJob input))) :: earlier) c
      ∧ input.status = .fail ∧ (∃ r ∈ c.store.runs, r.id = ⟨"r"⟩ ∧ r.status = .success)
      ∧ Sample.asked c = true
      ∧ (restartRun (fun _ => ⟨""⟩) Sample.retryPlanned).transaction engine c.store
        = .error .runResumeInvalid
  := by
  have hrun : ((((serverMachine.restrict fun _ _ => true).follow Sample.server
      [Sample.createPlanned, Sample.claim, .act (.request (.completeJob
        ⟨⟨"j0"⟩, ⟨"n1"⟩, .success, 0, some (.object [("kind", .other "mig"), ("next_id", .int 1)]),
          Sample.sha1, rfl, Or.inr (by decide +kernel)⟩)), Sample.claim]).bind
      fun c₀ => ((serverMachine.restrict fun _ _ => true).step
        (Sample.complete "j1" .fail rfl) c₀).map fun c =>
          (c.store.runs.rows.any fun r => r.id = ⟨"r"⟩ && r.status = .success)
            && Sample.asked c
            && match (restartRun (fun _ => ⟨""⟩) Sample.retryPlanned).transaction engine
              c.store with
              | .error err => err = .runResumeInvalid
              | .ok _ => false)) = some true := by
    decide +kernel
  obtain ⟨earlier, c₀, c, hexec, -, -, hp⟩ := Sample.follow_last hrun
  simp only [Bool.and_eq_true, List.any_eq_true, decide_eq_true_eq] at hp
  obtain ⟨⟨⟨r, hr, hid, hsuccess⟩, hasked⟩, herror⟩ := hp
  refine ⟨earlier, c₀, c, _, hexec, rfl, ⟨r, hr, hid, hsuccess⟩, hasked, ?_⟩
  split at herror
  · rename_i err herr
    rw [herr, of_decide_eq_true herror]
  · cases herror

end Ploy
