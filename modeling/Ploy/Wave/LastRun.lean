import Ploy.Server.Requests
import Ploy.Wave.Effects

/-!
# The last run of a wave

When requests are served one at a time, a wave ends with its last run, whether the run ends by a
completion, with its wave, or by recovery. The cancellation of a run does not see to it.
-/

namespace Ploy

open Program

variable {db db' : DB}

/-- A wave has a run that has not ended. -/
def WaveLive (db : DB) (waveID : WaveID) : Prop :=
  ∃ r ∈ db.runs, r.waveID = waveID ∧ isTerminalRunStatus r.status = false

/-- Every started wave has a run that has not ended. -/
def StartedLive (db : DB) : Prop :=
  ∀ w ∈ db.waves, w.status = .started → WaveLive db w.id

/-- Every started wave other than one has a run that has not ended. -/
def StartedLiveBut (waveID : WaveID) (db : DB) : Prop :=
  ∀ w ∈ db.waves, w.id ≠ waveID → w.status = .started → WaveLive db w.id

theorem StartedLive.of_eq (h : StartedLive db) (hwaves : db'.waves = db.waves)
    (hruns : db'.runs = db.runs) :
  StartedLive db'
  := by
  rw [StartedLive, hwaves]
  intro w hw hstarted
  rw [WaveLive, hruns]
  apply h w hw hstarted

theorem StartedLive.but (h : StartedLive db) {r : Run} (hr : r ∈ db.runs) {v : RunUpdate}
    (hwaves : db'.waves = db.waves) (hruns : db'.runs = (db.updateRuns v).runs)
    (hothers : ∀ k ∈ db.runs, k.id ≠ r.id → v.apply k = k) :
  StartedLiveBut r.waveID db'
  := by
  intro w hw hne hstarted
  rw [hwaves] at hw
  obtain ⟨k, hk, hwave, hlive⟩ := h w hw hstarted
  rw [WaveLive, hruns]
  refine ⟨k, DB.mem_updateRuns.mpr ⟨k, hk, hothers k hk ?_⟩, hwave, hlive⟩
  intro hid
  obtain rfl := Table.eq_of_key_eq hk hr hid
  apply hne hwave.symm

/-- A wave that has started has a live run while no run ends. -/
theorem WaveEffect.startedLive (heffect : WaveEffect false db db') (h : StartedLive db) :
  StartedLive db'
  := by
  cases heffect with
  | idle waves runs => apply h.of_eq waves runs
  | settle ending => cases ending
  | cancel waveID waves runs =>
    intro w' hw' hstarted
    rw [waves] at hw'
    obtain ⟨w, hw, rfl⟩ := DB.mem_updateWaves.mp hw'
    by_cases hcancelled : w.id = waveID ∧ w.status = .started
    · rw [cancelWaveUpdate, RowUpdate.onlyIf_pos (by simpa using hcancelled)] at hstarted
      cases hstarted
    · rw [cancelWaveUpdate, RowUpdate.onlyIf_neg (by simpa using hcancelled)] at hstarted ⊢
      obtain ⟨r, hr, hwave, hlive⟩ := h w hw hstarted
      have hother : ¬ w.id = waveID := fun hid => hcancelled ⟨hid, hstarted⟩
      rw [WaveLive, runs]
      refine ⟨r, DB.mem_updateRuns.mpr ⟨r, hr, cancelRunUpdate_neg ?_⟩, hwave, hlive⟩
      simpa [hwave] using hother
  | @restart r w v run wave waveID uncancelled waves runs running others =>
    intro w' hw' hstarted
    rw [waves] at hw'
    obtain ⟨w₀, hw₀, rfl⟩ := DB.mem_updateWaves.mp hw'
    rw [WaveUpdate.id_apply, WaveLive, runs]
    by_cases hid : w₀.id = r.waveID
    · refine ⟨v.apply r, DB.mem_updateRuns.mpr ⟨r, run, rfl⟩, ?_, ?_⟩
      · rw [RunUpdate.waveID_apply, hid]
      · rw [running]
        rfl
    · rw [reviveWaveUpdate, RowUpdate.onlyIf_neg (by simp [hid])] at hstarted
      obtain ⟨k, hk, hwave, hlive⟩ := h w₀ hw₀ hstarted
      refine ⟨k, DB.mem_updateRuns.mpr ⟨k, hk, others k hk ?_⟩, hwave, hlive⟩
      intro hk'
      obtain rfl := Table.eq_of_key_eq hk run hk'
      apply hid hwave.symm
  | @create w started waves kept created nonempty =>
    intro w' hw' hstarted
    rcases (Table.mem_insert? waves).mp hw' with hw' | rfl
    · obtain ⟨r, hr, hwave, hlive⟩ := h w' hw' hstarted
      exact ⟨r, kept r hr, hwave, hlive⟩
    · obtain ⟨r, hr, hwave, hrunning⟩ := nonempty
      refine ⟨r, hr, hwave, ?_⟩
      rw [hrunning]
      rfl

theorem StartedLive.attempted {op : Operation} (hdb : WellFormed db) (h : StartedLive db)
    (hends : op.endsRun = false) :
  StartedLive (op.attempted db)
  := by
  unfold Operation.attempted
  cases hstep : op.step db with
  | none => apply h
  | some db' =>
    have heffect := Operation.step_waveEffect hdb hstep
    rw [hends] at heffect
    apply heffect.startedLive h

/-! ### Finishing the wave of a run -/

/-- What finishing a wave changes: at most that the wave is finished, which it is when the program
says so. -/
structure Finishes (waveID : WaveID) (db : DB) (result : Except StoreError Bool) (db' : DB) :
    Prop where
  runs : db'.runs = db.runs
  waves : ∀ w' ∈ db'.waves, ∃ w ∈ db.waves, w'.id = w.id ∧ (w' = w ∨ w'.status = .finished)
  finished : result = .ok true → ∀ w' ∈ db'.waves, w'.id = waveID → w'.status = .finished

/-- Finishing the wave of a run leaves every started wave with a live run. -/
theorem finish_spec (run : Run) (hrun : ∃ r ∈ db.runs, r.waveID = run.waveID)
    (h : StartedLiveBut run.waveID db) {result : Except StoreError Bool}
    (hfinish : (maybeCompleteRunIfAllReposTerminal run).autocommit engine db = (result, db')) :
  Finishes run.waveID db result db' ∧ StartedLive db'
  := by
  have hsame : Finishes run.waveID db result db ∨ result = .ok true := by
    by_cases hresult : result = .ok true
    · apply Or.inr hresult
    · left
      constructor
      · rfl
      · intro w hw
        exact ⟨w, hw, rfl, Or.inl rfl⟩
      · intro hresult'
        apply absurd hresult' hresult
  rw [maybeCompleteRunIfAllReposTerminal_autocommit] at hfinish
  split at hfinish
  · -- there is no such wave
    rename_i hnone
    cases hfinish
    use hsame.resolve_right nofun
    intro w hw hstarted
    apply h w hw _ hstarted
    apply Table.find?_eq_none.mp hnone w hw
  · rename_i wave hwave
    obtain ⟨hwave, hid⟩ := Table.find?_eq_some.mp hwave
    split at hfinish
    · -- the wave has ended, or a run of it has not
      rename_i hopen
      cases hfinish
      use hsame.resolve_right nofun
      intro w hw hstarted
      by_cases hw' : w.id = run.waveID
      · obtain rfl := Table.eq_of_key_eq hw hwave (hw'.trans hid.symm)
        have hnone : (evaluateWaveCompletionFromRunCounts (runCounts db run.waveID)).isNone ≠ false
            := by
          simpa [hstarted, isTerminalWaveStatus] using hopen
        rw [ne_eq, evaluateWaveCompletion_isNone] at hnone
        push Not at hnone
        obtain ⟨r, hr, hwaveID, hlive⟩ := hnone hrun
        exact ⟨r, hr, hwaveID.trans hw'.symm, by simpa using hlive⟩
      · apply h w hw hw' hstarted
    · cases hfinish
      refine ⟨⟨rfl, ?_, ?_⟩, ?_⟩
      · intro w' hw'
        obtain ⟨w, hw, rfl⟩ := DB.mem_updateWaves.mp hw'
        use w, hw, WaveUpdate.id_apply _ _
        simp only [RowUpdate.onlyIf]
        split
        · exact Or.inr rfl
        · exact Or.inl rfl
      · intro _ w' hw' hid'
        obtain ⟨w, hw, rfl⟩ := DB.mem_updateWaves.mp hw'
        rw [WaveUpdate.id_apply] at hid'
        rw [RowUpdate.onlyIf_pos (by simpa using hid')]
        rfl
      · intro w' hw' hstarted
        obtain ⟨w, hw, rfl⟩ := DB.mem_updateWaves.mp hw'
        by_cases hid' : w.id = run.waveID
        · rw [RowUpdate.onlyIf_pos (by simpa using hid')] at hstarted
          cases hstarted
        · rw [RowUpdate.onlyIf_neg (by simpa using hid')] at hstarted ⊢
          apply h w hw hid' hstarted

/-! ### Recovery -/

/-- What holds between the attempts that a recovery cycle goes through: every started wave has a
run that has not ended, and the waves of the runs it finished the wave of are finished. -/
structure Recovering (finalizedRuns : List RunID) (db : DB) : Prop where
  live : StartedLive db
  finalized : ∀ r ∈ db.runs, r.id ∈ finalizedRuns → ∀ w ∈ db.waves, w.id = r.waveID →
    w.status = .finished

theorem recoverStaleRow_autocommit (finalizedRuns : List RunID) (stale : StaleRow) (db : DB) :
  ∃ db₁, db₁.waves = db.waves ∧ db₁.runs = db.runs
    ∧ ((∃ result, result ≠ .ok true
        ∧ (recoverStaleRow finalizedRuns stale).autocommit engine db = (result, db₁))
      ∨ ∃ status, (recoverStaleRow finalizedRuns stale).autocommit engine db
          = let db₂ := db₁.updateRuns ((setRunStatus status).onlyIf (·.id = stale.runID))
            if stale.runID ∈ finalizedRuns then (.ok false, db₂)
            else match db₂.runs.find? stale.runID with
              | none => (.error .noRows, db₂)
              | some run => (maybeCompleteRunIfAllReposTerminal run).autocommit engine db₂)
  := by
  refine ⟨db.updateJobs (cancelJobsUpdate (Job.inAttempt stale.runID stale.attempt)), rfl, rfl, ?_⟩
  have hcancel : (issue (.cancelActiveJobsByRunAttempt stale.runID stale.attempt) : Tx
    Unit).autocommit
      engine db
      = (.ok (), db.updateJobs (cancelJobsUpdate (Job.inAttempt stale.runID stale.attempt))) := rfl
  generalize db.updateJobs (cancelJobsUpdate (Job.inAttempt stale.runID stale.attempt)) = db₁
    at hcancel ⊢
  rw [recoverStaleRow, autocommit_bind, hcancel]
  simp only [autocommit_bind, maybeUpdateRunStatus_autocommit]
  rcases evaluateRunAttemptTerminalStatus_cases (jobsOfAttempt db₁ stale.runID stale.attempt) with
    ⟨heval, -⟩ | ⟨status, heval, -⟩
  · left
    refine ⟨.ok false, by simp, ?_⟩
    simp only [heval]
    rfl
  · right
    use status
    simp only [heval]
    by_cases hdone : stale.runID ∈ finalizedRuns
    · simp only [hdone, if_true]
      rfl
    · simp only [hdone, if_false, Bool.not_true, Bool.false_eq_true, autocommit_bind, one]
      generalize db₁.updateRuns ((setRunStatus status).onlyIf (·.id = stale.runID)) = db₂
      have hget : (issue (.getRun stale.runID) : Tx (Option Run)).autocommit engine db₂
          = (.ok (db₂.runs.find? stale.runID), db₂) := rfl
      simp only [hget]
      cases db₂.runs.find? stale.runID <;> rfl

section Write

variable {finalizedRuns : List RunID} {v : RunUpdate} {db₂ : DB}

theorem Recovering.finalized_write (h : Recovering finalizedRuns db)
    (hwaves : db₂.waves = db.waves) (hruns : db₂.runs = (db.updateRuns v).runs) :
  ∀ r ∈ db₂.runs, r.id ∈ finalizedRuns → ∀ w ∈ db₂.waves, w.id = r.waveID → w.status = .finished
  := by
  intro r' hr'
  rw [hruns] at hr'
  obtain ⟨r, hr, rfl⟩ := DB.mem_updateRuns.mp hr'
  rw [RunUpdate.id_apply, RunUpdate.waveID_apply, hwaves]
  apply h.finalized r hr

theorem Recovering.write (h : Recovering finalizedRuns db) {runID : RunID}
    (hwaves : db₂.waves = db.waves) (hruns : db₂.runs = (db.updateRuns v).runs)
    (hothers : ∀ k ∈ db.runs, k.id ≠ runID → v.apply k = k)
    (hdone : ∀ r ∈ db.runs, r.id = runID → ∀ w ∈ db.waves, w.id = r.waveID → w.status = .finished) :
  Recovering finalizedRuns db₂
  := by
  refine ⟨?_, h.finalized_write hwaves hruns⟩
  intro w hw hstarted
  rw [hwaves] at hw
  obtain ⟨k, hk, hwave, hlive⟩ := h.live w hw hstarted
  rw [WaveLive, hruns]
  refine ⟨k, DB.mem_updateRuns.mpr ⟨k, hk, hothers k hk ?_⟩, hwave, hlive⟩
  intro hid
  have hfinished := hdone k hk hid w hw hwave.symm
  rw [hstarted] at hfinished
  cases hfinished

theorem Recovering.finish (h : Recovering finalizedRuns db) {r : Run} (hr : r ∈ db.runs)
    (hwaves : db₂.waves = db.waves) (hruns : db₂.runs = (db.updateRuns v).runs)
    (hothers : ∀ k ∈ db.runs, k.id ≠ r.id → v.apply k = k) {result : Except StoreError Bool}
    (hfinish : (maybeCompleteRunIfAllReposTerminal (v.apply r)).autocommit engine db₂
      = (result, db')) :
  Recovering (if result = .ok true then r.id :: finalizedRuns else finalizedRuns) db'
  := by
  have hrun : v.apply r ∈ db₂.runs := by
    rw [hruns]
    exact DB.mem_updateRuns.mpr ⟨r, hr, rfl⟩
  have hbut : StartedLiveBut (v.apply r).waveID db₂ := by
    rw [RunUpdate.waveID_apply]
    apply h.live.but hr hwaves hruns hothers
  obtain ⟨hfinishes, hlive⟩ := finish_spec _ ⟨_, hrun, rfl⟩ hbut hfinish
  refine ⟨hlive, ?_⟩
  intro k hk hk' w' hw' hwave
  rw [hfinishes.runs] at hk
  by_cases hknown : k.id ∈ finalizedRuns
  · obtain ⟨w, hw, hwid, rfl | hfinished⟩ := hfinishes.waves w' hw'
    · apply h.finalized_write hwaves hruns k hk hknown w' hw hwave
    · apply hfinished
  · split at hk'
    · rename_i hresult
      have hid : k.id = r.id := (List.mem_cons.mp hk').resolve_right hknown
      obtain rfl := Table.eq_of_key_eq hk hrun (by rw [hid, RunUpdate.id_apply])
      apply hfinishes.finished hresult w' hw' hwave
    · apply absurd hk' hknown

end Write

theorem Recovering.row {finalizedRuns : List RunID} (h : Recovering finalizedRuns db)
    {stale : StaleRow} {result : Except StoreError Bool}
    (hrow : (recoverStaleRow finalizedRuns stale).autocommit engine db = (result, db')) :
  Recovering (if result = .ok true then stale.runID :: finalizedRuns else finalizedRuns) db'
  := by
  obtain ⟨db₁, hwaves, hruns, ⟨result', hresult, heq⟩ | ⟨status, heq⟩⟩ :=
    recoverStaleRow_autocommit finalizedRuns stale db
  · rw [heq] at hrow
    cases hrow
    rw [if_neg hresult]
    constructor
    · apply h.live.of_eq hwaves hruns
    · rw [hwaves, hruns]
      apply h.finalized
  · rw [heq] at hrow
    have hothers : ∀ k ∈ db.runs, k.id ≠ stale.runID →
        ((setRunStatus status).onlyIf (·.id = stale.runID)).apply k = k := by
      intro k _ hid
      apply RowUpdate.onlyIf_neg
      simpa using hid
    generalize (setRunStatus status).onlyIf (·.id = stale.runID) = v at hrow hothers
    have hwaves₂ : (db₁.updateRuns v).waves = db.waves := hwaves
    have hruns₂ : (db₁.updateRuns v).runs = (db.updateRuns v).runs := by
      simp only [DB.updateRuns, hruns]
    generalize db₁.updateRuns v = db₂ at hrow hwaves₂ hruns₂
    dsimp only at hrow
    split at hrow
    · -- the wave of the run was finished for an earlier attempt
      rename_i hdone
      cases hrow
      rw [if_neg (by simp)]
      apply h.write hwaves₂ hruns₂ hothers
      intro r hr hid
      apply h.finalized r hr
      rw [hid]
      apply hdone
    · split at hrow
      · -- there is no such run
        rename_i hnone
        cases hrow
        rw [if_neg (by simp)]
        apply h.write hwaves₂ hruns₂ hothers
        intro r hr hid
        apply absurd _ (Table.find?_eq_none.mp hnone (v.apply r) _)
        · rw [RunUpdate.id_apply, hid]
        · rw [hruns₂]
          exact DB.mem_updateRuns.mpr ⟨r, hr, rfl⟩
      · rename_i run hrun
        obtain ⟨hrun, hid⟩ := Table.find?_eq_some.mp hrun
        rw [hruns₂] at hrun
        obtain ⟨r, hr, rfl⟩ := DB.mem_updateRuns.mp hrun
        rw [RunUpdate.id_apply] at hid
        rw [← hid] at hothers ⊢
        apply h.finish hr hwaves₂ hruns₂ hothers hrow

theorem Recovering.rows {finalizedRuns : List RunID} (h : Recovering finalizedRuns db)
    (rows : List StaleRow) :
  StartedLive ((recoverStaleRows finalizedRuns rows).autocommit engine db).2
  := by
  induction rows generalizing finalizedRuns db with
  | nil => apply h.live
  | cons stale rest ih =>
    rw [recoverStaleRows, autocommit_bind, autocommit_recover]
    rcases hrow : (recoverStaleRow finalizedRuns stale).autocommit engine db with ⟨result, db₁⟩
    have hnext := h.row hrow
    cases result with
    | error e =>
      rw [if_neg (by simp)] at hnext
      apply ih hnext
    | ok finalized =>
      simp only [Except.ok.injEq] at hnext
      apply ih hnext

theorem StartedLive.recover (h : StartedLive db) (cutoff : Time) :
  StartedLive ((staleJobRecovery cutoff).autocommit engine db).2
  := by
  have hlist : (issue (.listStaleRunningJobs cutoff) : Tx (List StaleRow)).autocommit engine db
      = (.ok (staleRows db cutoff), db) := rfl
  have hrows : Recovering [] db := ⟨h, fun _ _ hr => nomatch hr⟩
  have hlive := hrows.rows (staleRows db cutoff)
  rw [staleJobRecovery, autocommit_recover, autocommit_bind, hlist]
  dsimp only
  rcases hend : (recoverStaleRows [] (staleRows db cutoff)).autocommit engine db with ⟨_ | _, db'⟩
  · rw [hend] at hlive
    apply hlive
  · rw [hend] at hlive
    apply hlive

/-! ### Requests -/

theorem StartedLive.complete (hdb : WellFormed db) (h : StartedLive db) (input : CompletionInput) :
  StartedLive (serveCompletion input db).2
  := by
  simp only [serveCompletion]
  split
  · apply h
  · rename_i db' hcomplete
    rcases completeJob_waveEffect hdb hcomplete with ⟨-, hwaves, hruns⟩ | ⟨_, _, _, hresult, _⟩
    · apply h.of_eq hwaves hruns
    · cases hresult
  · rename_i run db' hcomplete
    rcases completeJob_waveEffect hdb hcomplete with
      ⟨hresult, _⟩ | ⟨r, hr, v, hresult, hwaves, hruns, -, hothers⟩
    · cases hresult
    · cases hresult
      rw [reconcileWave_autocommit]
      apply (finish_spec (v.apply r) _ _ rfl).2
      · refine ⟨v.apply r, ?_, rfl⟩
        rw [hruns]
        exact DB.mem_updateRuns.mpr ⟨r, hr, rfl⟩
      · rw [RunUpdate.waveID_apply]
        apply h.but hr hwaves hruns hothers

/-- A run of a wave that has not ended is cancelled only while another run of the wave has not
ended. -/
def cancelsNotLast (db : DB) : Request → Bool
  | .cancelRun runID =>
    db.runs.rows.all fun r => r.id ≠ runID || isTerminalRunStatus r.status
      || (db.waves.rows.all fun w => w.id ≠ r.waveID || isTerminalWaveStatus w.status)
      || db.runs.rows.any fun other => other.waveID = r.waveID && other.id ≠ runID
          && !isTerminalRunStatus other.status
  | _ => true

theorem StartedLive.cancelRun (h : StartedLive db) {runID : RunID}
    (hwhen : cancelsNotLast db (.cancelRun runID) = true) :
  StartedLive (cancelRunHandlerV1 runID db).2
  := by
  rcases cancelRunHandlerV1_cases runID db with hsame | hcancel
  · rw [hsame]
    apply h
  · obtain ⟨-, heffect⟩ := cancelRun_effect hcancel
    rw [heffect]
    intro w hw hstarted
    obtain ⟨k, hk, hwave, hlive⟩ := h w hw hstarted
    have hother : ∃ other ∈ db.runs, other.waveID = w.id ∧ other.id ≠ runID
        ∧ isTerminalRunStatus other.status = false := by
      by_cases hid : k.id = runID
      · simp only [cancelsNotLast, List.all_eq_true, List.any_eq_true, Bool.or_eq_true,
          Bool.and_eq_true, decide_eq_true_eq, Bool.not_eq_true'] at hwhen
        rcases hwhen k hk with ((hne | hended) | hwaves) | ⟨other, hmem, ⟨hotherWave, hne⟩, hopen⟩
        · apply absurd hid hne
        · rw [hlive] at hended
          cases hended
        · rcases hwaves w hw with hne | hended
          · apply absurd hwave.symm hne
          · rw [hstarted] at hended
            cases hended
        · exact ⟨other, hmem, hotherWave.trans hwave, hne, hopen⟩
      · exact ⟨k, hk, hwave, hid, hlive⟩
    obtain ⟨other, hmem, hotherWave, hne, hopen⟩ := hother
    refine ⟨other, DB.mem_updateRuns.mpr ⟨other, hmem, cancelRunUpdate_neg ?_⟩, hotherWave, hopen⟩
    simpa using hne

/-- If a run of a wave that has not ended is cancelled only while another run of the wave has not
ended, then after every request a wave all of whose runs have ended is finished or cancelled. -/
theorem wave_ends_with_last_run {past : List (DB × Request)} {db : DB}
    (h : requestMachine.Execution past db) (hwhen : ∀ x ∈ past, cancelsNotLast x.1 x.2 = true) :
  ∀ w ∈ db.waves, (∀ r ∈ db.runs, r.waveID = w.id → isTerminalRunStatus r.status = true) →
    w.status = .finished ∨ w.status = .cancelled
  := by
  have hinv : ServerReaches db ∧ StartedLive db := by
    apply h.invariant_of_allowed cancelsNotLast _ _ hwhen
    · intro db hinit
      use ⟨[], [], Machine.Execution.start ⟨hinit, rfl⟩⟩
      intro w hw
      rw [← Table.mem_rows, hinit.1] at hw
      cases hw
    · rintro db request db' ⟨hreaches, hlive⟩ hallowed ⟨⟩
      use hreaches.request request
      have hdb := hreaches.wellFormed
      cases request with
      | createWave | claim | unclaim | cancelWave | restartRun | outside =>
        apply hlive.attempted hdb rfl
      | complete input => apply hlive.complete hdb
      | cancelRun runID => apply hlive.cancelRun hallowed
      | recover cutoff => apply hlive.recover
  intro w hw hended
  cases hstatus : w.status with
  | started =>
    obtain ⟨r, hr, hwave, hlive⟩ := hinv.2 w hw hstatus
    rw [hended r hr hwave] at hlive
    cases hlive
  | finished => exact Or.inl rfl
  | cancelled => exact Or.inr rfl

/-- A wave of one run that recovery ends. -/
theorem wave_ends_with_last_run_sample :
  ∃ past db, requestMachine.Execution past db ∧ (∀ x ∈ past, cancelsNotLast x.1 x.2 = true)
    ∧ ∃ w ∈ db.waves, (∃ r ∈ db.runs, r.waveID = w.id)
      ∧ (∀ r ∈ db.runs, r.waveID = w.id → isTerminalRunStatus r.status = true)
      ∧ (w.status = .finished ∨ w.status = .cancelled)
  := by
  have hrun : (((requestMachine.restrict cancelsNotLast).follow Sample.store
      [Sample.createRequest, .claim ⟨"n1"⟩ [], .recover 1]).map fun db =>
        decide (∃ w ∈ db.waves.rows, (∃ r ∈ db.runs.rows, r.waveID = w.id)
          ∧ ∀ r ∈ db.runs.rows, r.waveID = w.id → isTerminalRunStatus r.status = true))
      = some true := by
    decide
  obtain ⟨db, hfollow, hdb⟩ := Option.map_eq_some_iff.mp hrun
  obtain ⟨w, hw, hrun, hended⟩ := of_decide_eq_true hdb
  obtain ⟨past, hexec, hwhen⟩ := Machine.Execution.of_follow_restrict Sample.initial hfollow
  have hwave := wave_ends_with_last_run hexec hwhen w hw hended
  exact ⟨_, db, hexec, hwhen, w, hw, hrun, hended, hwave⟩

/-- The only run of a wave is cancelled, and the wave stays started. -/
theorem last_run_cancelled :
  ∃ past db, requestMachine.Execution past db
    ∧ ∃ w ∈ db.waves, (∃ r ∈ db.runs, r.waveID = w.id)
      ∧ (∀ r ∈ db.runs, r.waveID = w.id → isTerminalRunStatus r.status = true)
      ∧ w.status = .started
  := by
  have hrun : ((requestMachine.follow Sample.store
      [Sample.createRequest, .cancelRun ⟨"r"⟩]).map fun db =>
        decide (∃ w ∈ db.waves.rows, (∃ r ∈ db.runs.rows, r.waveID = w.id)
          ∧ (∀ r ∈ db.runs.rows, r.waveID = w.id → isTerminalRunStatus r.status = true)
          ∧ w.status = .started)) = some true := by
    decide
  obtain ⟨db, hfollow, hdb⟩ := Option.map_eq_some_iff.mp hrun
  obtain ⟨past, hexec, -⟩ := (Machine.Execution.start Sample.initial).follow hfollow
  exact ⟨_, db, hexec, of_decide_eq_true hdb⟩

end Ploy
