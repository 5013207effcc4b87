import Ploy.Run.Machine

/-!
# Waves and their runs

What operations do to waves and to the status of their runs, whatever they do to jobs.
-/

namespace Ploy

open Program

variable {db db' : DB}

/-- What an operation does to waves and runs; it can end a run of a wave only if `ends` holds. -/
inductive WaveEffect (ends : Bool) : DB → DB → Prop where
  | idle {db db' : DB} (waves : db'.waves = db.waves) (runs : db'.runs = db.runs) :
      WaveEffect ends db db'
  | settle {db db' : DB} {r : Run} (ending : ends = true) (v : RunUpdate) (run : r ∈ db.runs)
      (waves : db'.waves = db.waves) (runs : db'.runs = (db.updateRuns v).runs)
      (settled : isTerminalRunStatus (v.apply r).status = true)
      (others : ∀ k ∈ db.runs, k.id ≠ r.id → v.apply k = k) : WaveEffect ends db db'
  | cancel {db db' : DB} (waveID : WaveID)
      (waves : db'.waves = (db.updateWaves (cancelWaveUpdate waveID)).waves)
      (runs : db'.runs = (db.updateRuns (cancelRunUpdate (·.waveID = waveID))).runs) :
      WaveEffect ends db db'
  | restart {db db' : DB} {r : Run} {w : Wave} (v : RunUpdate) (run : r ∈ db.runs)
      (wave : w ∈ db.waves) (waveID : w.id = r.waveID) (uncancelled : w.status ≠ .cancelled)
      (waves : db'.waves = (db.updateWaves (reviveWaveUpdate r.waveID)).waves)
      (runs : db'.runs = (db.updateRuns v).runs) (running : (v.apply r).status = .running)
      (others : ∀ k ∈ db.runs, k.id ≠ r.id → v.apply k = k) : WaveEffect ends db db'
  | create {db db' : DB} {w : Wave} (started : w.status = .started)
      (waves : db.waves.insert? w = some db'.waves) (kept : ∀ r ∈ db.runs, r ∈ db'.runs)
      (created : ∀ r' ∈ db'.runs, r' ∈ db.runs ∨ (r'.waveID = w.id ∧ r'.status = .running))
      (nonempty : ∃ r' ∈ db'.runs, r'.waveID = w.id ∧ r'.status = .running) :
      WaveEffect ends db db'

/-- What cancelling a run means for its wave. -/
theorem cancelRun_waveEffect {runID : RunID} {u : Unit}
    (h : (cancelRun runID).transaction engine db = .ok (u, db')) :
  WaveEffect true db db'
  := by
  obtain ⟨⟨r, hr, rfl⟩, rfl⟩ := cancelRun_effect h
  apply WaveEffect.settle rfl (cancelRunUpdate (·.id = r.id)) hr
  · rfl
  · rfl
  · rw [cancelRunUpdate_pos (by simp)]
    by_cases hactive : r.active = true
    · rw [RowUpdate.onlyIf_pos hactive]
      rfl
    · rw [RowUpdate.onlyIf_neg hactive]
      rw [active_iff_not_terminal, Bool.not_eq_false] at hactive
      apply hactive
  · intro k _ hid
    apply cancelRunUpdate_neg
    simpa using hid

/-- What a completion means for the wave of its run. -/
theorem completeJob_waveEffect (hdb : WellFormed db) {input : CompletionInput}
    {result : Option Run} (h : (completeJob input).transaction engine db = .ok (result, db')) :
  (result = none ∧ db'.waves = db.waves ∧ db'.runs = db.runs)
    ∨ ∃ r ∈ db.runs, ∃ v : RunUpdate, result = some (v.apply r) ∧ db'.waves = db.waves
      ∧ db'.runs = (db.updateRuns v).runs ∧ isTerminalRunStatus (v.apply r).status = true
      ∧ ∀ k ∈ db.runs, k.id ≠ r.id → v.apply k = k
  := by
  obtain ⟨r, hr, pre, j, post, -, -, u, rows, -, -, -, rfl, rfl⟩ := completeJob_effect hdb h
  rcases evaluateRunAttemptTerminalStatus_cases rows with ⟨heval, -⟩ | ⟨status, heval, hterminal, -⟩
  · left
    refine ⟨by simp [settles, heval, Except.toOption], rfl, ?_⟩
    rw [settleUpdate, heval, DB.updateRuns_refl]
    rfl
  · right
    refine ⟨r, hr, settleUpdate r.id rows, ?_, rfl, rfl, ?_, ?_⟩
    · rw [settleUpdate_self]
      simp [settles, heval, Except.toOption]
    · rw [settleUpdate_self, settledRun, heval]
      apply hterminal
    · intro k _ hid
      apply settleUpdate_other hid

/-- What a restart means for the wave of its run. -/
theorem restartRun_waveEffect {ends : Bool} {ids : Nat → JobID} {arg : RestartRunParams}
    {updated : Run}
    (h : (restartRun ids arg).transaction engine db = .ok (updated, db')) :
  WaveEffect ends db db'
  := by
  obtain ⟨r, w, db₁, hr, hreopen, -, hmode⟩ := restartRun_effect h
  have hwaves := reopenRun_waves hreopen
  -- what reopening does to runs
  have hruns : ∃ v : RunUpdate, db₁.runs = (db.updateRuns v).runs ∧ (v.apply r).status = .running
      ∧ ∀ k ∈ db.runs, k.id ≠ r.id → v.apply k = k := by
    unfold reopenRun at hreopen
    split at hreopen
    · obtain ⟨-, -, -, -, u, -, -, -, rfl⟩ := resumeFailedJobs_effect hreopen
      refine ⟨_, rfl, ?_, ?_⟩
      · rw [RowUpdate.onlyIf_pos (by simp)]
        rfl
      · intro k _ hid
        apply RowUpdate.onlyIf_neg
        simpa using hid
    · rw [startNextAttempt_effect hreopen]
      refine ⟨_, rfl, ?_, ?_⟩
      · rw [RowUpdate.onlyIf_pos (by simp [hr.id])]
        rfl
      · intro k _ hid
        apply RowUpdate.onlyIf_neg
        simpa [← hr.id] using hid
  obtain ⟨v, hv, hrunning, hothers⟩ := hruns
  have hafter : db'.waves = (db₁.updateWaves (reviveWaveUpdate r.waveID)).waves
      ∧ db'.runs = db₁.runs := by
    rcases hmode with ⟨-, rfl⟩ | ⟨-, created, hcreated⟩
    · exact ⟨rfl, rfl⟩
    · obtain ⟨⟨jobs, rfl, -⟩, -⟩ := createPlannedJobs_effect hcreated
      exact ⟨rfl, rfl⟩
  apply WaveEffect.restart v hr.run hr.wave hr.waveID hr.open_ _ (hafter.2.trans hv)
    hrunning hothers
  rw [hafter.1, DB.updateWaves, DB.updateWaves, hwaves]

/-- New runs start in their wave. -/
theorem addsRuns_waveEffect {wave : CreateWaveParams} {plans : List RunPlan}
    (h : AddsRuns wave plans db db') :
  db'.waves = db.waves ∧ (∀ r ∈ db.runs, r ∈ db'.runs)
    ∧ (∀ r' ∈ db'.runs, r' ∈ db.runs ∨ (r'.waveID = wave.id ∧ r'.status = .running))
    ∧ (plans ≠ [] → ∃ r' ∈ db'.runs, r'.waveID = wave.id ∧ r'.status = .running)
  := by
  induction h with
  | nil db =>
    refine ⟨rfl, fun _ hr => hr, fun _ hr => Or.inl hr, fun hne => absurd rfl hne⟩
  | @cons plan plans db db' runs jobs created alone known run rows linked planned
    nonempty later ih =>
    obtain ⟨hwaves, hkept, hcreated, -⟩ := ih
    have hmem : ∀ r, r ∈ runs ↔ r ∈ db.runs ∨ r = plan.row wave db.now := by
      intro r
      apply Table.mem_insert? run
    refine ⟨hwaves, ?_, ?_, ?_⟩
    · intro r hr
      apply hkept r ((hmem r).mpr (Or.inl hr))
    · intro r' hr'
      rcases hcreated r' hr' with hr' | hnew
      · rcases (hmem r').mp hr' with hr' | rfl
        · apply Or.inl hr'
        · exact Or.inr ⟨rfl, rfl⟩
      · apply Or.inr hnew
    · intro _
      exact ⟨plan.row wave db.now, hkept _ ((hmem _).mpr (Or.inr rfl)), rfl, rfl⟩

theorem createWaveWithRuns_waveEffect {ends : Bool} {ids : Nat → Nat → JobID}
    {arg : CreateWaveWithRunsParams} {result : Wave × List (Run × List Job)}
    (h : (createWaveWithRuns ids arg).transaction engine db = .ok (result, db')) :
  WaveEffect ends db db'
  := by
  obtain ⟨hne, waves, hinsert, hadds⟩ := createWaveWithRuns_effect h
  obtain ⟨hwaves, hkept, hcreated, hnonempty⟩ := addsRuns_waveEffect hadds
  have hinsert' : db.waves.insert? ⟨arg.wave.id, arg.wave.migID, arg.wave.specID, .started⟩
      = some db'.waves := by
    rw [hwaves]
    apply hinsert
  exact WaveEffect.create rfl hinsert' hkept hcreated (hnonempty hne)

/-- Whether an operation can end a run of a wave that it does not end. -/
def Operation.endsRun : Operation → Bool
  | .completeJob _ | .cancelRun _ => true
  | _ => false

/-- What an operation means for waves. -/
theorem Operation.step_waveEffect {op : Operation} (hdb : WellFormed db)
    (h : op.step db = some db') :
  WaveEffect op.endsRun db db'
  := by
  cases op with
  | createWaveWithRuns ids arg =>
    obtain ⟨_, h⟩ := committed_eq_some.mp h
    apply createWaveWithRuns_waveEffect h
  | claimJob nodeID skipLocked =>
    obtain ⟨_, h⟩ := committed_eq_some.mp h
    obtain ⟨n, -, -, j, -, -, -, rfl⟩ := claimJob_effect h
    exact WaveEffect.idle rfl rfl
  | unclaimJob id nodeID =>
    obtain ⟨_, h⟩ := committed_eq_some.mp h
    rcases unclaimJob_effect h with rfl | rfl
    · exact WaveEffect.idle rfl rfl
    · exact WaveEffect.idle rfl rfl
  | completeJob input =>
    obtain ⟨_, h⟩ := committed_eq_some.mp h
    rcases completeJob_waveEffect hdb h with
      ⟨-, hwaves, hruns⟩ | ⟨r, hr, v, -, hwaves, hruns, hsettled, hothers⟩
    · apply WaveEffect.idle hwaves hruns
    · apply WaveEffect.settle rfl v hr hwaves hruns hsettled hothers
  | cancelRun runID =>
    obtain ⟨_, h⟩ := committed_eq_some.mp h
    apply cancelRun_waveEffect h
  | cancelWave waveID =>
    obtain ⟨_, h⟩ := committed_eq_some.mp h
    obtain ⟨-, rfl⟩ := cancelWave_effect h
    exact WaveEffect.cancel waveID rfl rfl
  | restartRun ids arg =>
    obtain ⟨_, h⟩ := committed_eq_some.mp h
    apply restartRun_waveEffect h
  | cancelActiveJobsByRunAttempt | outside =>
    cases h
    exact WaveEffect.idle rfl rfl

end Ploy
