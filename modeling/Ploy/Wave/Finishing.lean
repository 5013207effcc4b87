import Ploy.Server.Machine
import Ploy.Wave.Effects

/-!
# Finishing waves

A wave that is finished has no run that runs, and a wave that is cancelled stays cancelled, if a
wave is only finished while it has not ended and all its runs have.
-/

namespace Ploy

open Program

variable {ends : Bool} {db db' : DB}

/-- The runs of a finished wave have all ended. -/
def FinishedEnded (db : DB) : Prop :=
  ∀ w ∈ db.waves, w.status = .finished →
    ∀ r ∈ db.runs, r.waveID = w.id → isTerminalRunStatus r.status = true

def WaveCancelled (waveID : WaveID) (db : DB) : Prop :=
  ∃ w ∈ db.waves, w.id = waveID ∧ w.status = .cancelled

theorem FinishedEnded.settle (h : FinishedEnded db) (v : RunUpdate)
    (hwaves : db'.waves = db.waves) (hruns : db'.runs = (db.updateRuns v).runs)
    (hv : ∀ r ∈ db.runs, v.apply r = r ∨ isTerminalRunStatus (v.apply r).status = true) :
  FinishedEnded db'
  := by
  intro w hw hfinished r' hr' hwave
  rw [hwaves] at hw
  rw [hruns] at hr'
  obtain ⟨r, hr, rfl⟩ := DB.mem_updateRuns.mp hr'
  rcases hv r hr with hsame | hended
  · rw [hsame] at hwave ⊢
    apply h w hw hfinished r hr hwave
  · apply hended

/-- A finished wave has only runs that have ended. -/
theorem WaveEffect.finishedEnded (heffect : WaveEffect ends db db') (h : FinishedEnded db) :
  FinishedEnded db'
  := by
  cases heffect with
  | idle waves runs =>
    rw [FinishedEnded, waves, runs]
    apply h
  | @settle r ending v run waves runs settled others =>
    apply h.settle v waves runs
    intro k hk
    by_cases hid : k.id = r.id
    · obtain rfl := Table.eq_of_key_eq hk run hid
      apply Or.inr settled
    · apply Or.inl (others k hk hid)
  | cancel waveID waves runs =>
    intro w' hw' hfinished r' hr' hwave
    rw [waves] at hw'
    obtain ⟨w, hw, rfl⟩ := DB.mem_updateWaves.mp hw'
    rw [runs] at hr'
    obtain ⟨r, hr, rfl⟩ := DB.mem_updateRuns.mp hr'
    by_cases hstarted : w.id = waveID ∧ w.status = .started
    · rw [cancelWaveUpdate, RowUpdate.onlyIf_pos (by simpa using hstarted)] at hfinished
      cases hfinished
    · rw [cancelWaveUpdate, RowUpdate.onlyIf_neg (by simpa using hstarted)] at hfinished hwave
      rw [RunUpdate.waveID_apply] at hwave
      have hended := h w hw hfinished r hr hwave
      simp only [cancelRunUpdate, RowUpdate.onlyIf]
      split
      · rfl
      · apply hended
  | @restart r w v run wave waveID uncancelled waves runs running others =>
    intro w' hw' hfinished r' hr' hwave
    rw [waves] at hw'
    obtain ⟨w₀, hw₀, rfl⟩ := DB.mem_updateWaves.mp hw'
    rw [runs] at hr'
    obtain ⟨r₀, hr₀, rfl⟩ := DB.mem_updateRuns.mp hr'
    -- the wave of the run that restarts is not finished any more
    by_cases hrevived : w₀.id = r.waveID ∧ w₀.status = .finished
    · rw [reviveWaveUpdate, RowUpdate.onlyIf_pos (by simpa using hrevived)] at hfinished
      cases hfinished
    · rw [reviveWaveUpdate, RowUpdate.onlyIf_neg (by simpa using hrevived)] at hfinished hwave
      rw [RunUpdate.waveID_apply] at hwave
      have hother : r₀.id ≠ r.id := by
        intro hid
        obtain rfl := Table.eq_of_key_eq hr₀ run hid
        apply hrevived ⟨hwave.symm, hfinished⟩
      rw [others r₀ hr₀ hother]
      apply h w₀ hw₀ hfinished r₀ hr₀ hwave
  | @create w started waves kept created nonempty =>
    intro w' hw' hfinished r' hr' hwave
    rcases (Table.mem_insert? waves).mp hw' with hw' | rfl
    · rcases created r' hr' with hr' | ⟨hnew, -⟩
      · apply h w' hw' hfinished r' hr' hwave
      · apply absurd (hwave.symm.trans hnew) ((Table.insert?_eq_some.mp waves).1 w' hw')
    · rw [started] at hfinished
      cases hfinished

/-- A cancelled wave stays so. -/
theorem WaveEffect.waveCancelled (heffect : WaveEffect ends db db') {waveID : WaveID}
    (h : WaveCancelled waveID db) :
  WaveCancelled waveID db'
  := by
  obtain ⟨w, hw, hid, hcancelled⟩ := h
  cases heffect with
  | idle waves runs =>
    rw [WaveCancelled, waves]
    use w
  | settle ending v run waves runs settled others =>
    rw [WaveCancelled, waves]
    use w
  | cancel waveID' waves runs =>
    rw [WaveCancelled, waves]
    refine ⟨w, DB.mem_updateWaves.mpr ⟨w, hw, RowUpdate.onlyIf_neg ?_⟩, hid, hcancelled⟩
    simp [hcancelled]
  | restart v run wave waveID' uncancelled waves runs running others =>
    rw [WaveCancelled, waves]
    refine ⟨w, DB.mem_updateWaves.mpr ⟨w, hw, RowUpdate.onlyIf_neg ?_⟩, hid, hcancelled⟩
    simp [hcancelled]
  | create started waves kept created nonempty =>
    exact ⟨w, (Table.mem_insert? waves).mpr (Or.inl hw), hid, hcancelled⟩

/-! ### Interleavings -/

/-- A wave is finished only while it has not ended and all its runs have, as reconciliation judges
it. -/
def finishesEnded (c : ServerState) : ServerEvent → Bool
  | .issue i =>
    match c.processes[i]? with
    | some (.statement (.updateWaveStatus waveID _) _) =>
      c.store.waves.rows.all fun w => w.id ≠ waveID
        || (!isTerminalWaveStatus w.status
          && (evaluateWaveCompletionFromRunCounts (runCounts c.store waveID)).isSome)
    | _ => true
  | _ => true

theorem finishesEnded_spec {before after : List (Tx Unit)} {waveID : WaveID} {status : WaveStatus}
    {next : Except StoreError Unit → Tx Unit}
    (h : finishesEnded ⟨db, before ++ .statement (.updateWaveStatus waveID status) next :: after⟩
      (.issue before.length) = true) {w : Wave} (hw : w ∈ db.waves) (hid : w.id = waveID) :
  isTerminalWaveStatus w.status = false
    ∧ ∀ r ∈ db.runs, r.waveID = waveID → isTerminalRunStatus r.status = true
  := by
  simp only [finishesEnded, Interleaved.getElem?_place, List.all_eq_true, Bool.or_eq_true,
    decide_eq_true_eq, Bool.and_eq_true, Bool.not_eq_true'] at h
  rcases h w hw with hne | ⟨hopen, hsome⟩
  · apply absurd hid hne
  · use hopen
    have hnone : (evaluateWaveCompletionFromRunCounts (runCounts db waveID)).isNone = false := by
      rw [← Option.not_isSome, hsome]
      rfl
    apply (evaluateWaveCompletion_isNone.mp hnone).2

/-- If a wave is only finished while it has not ended and all its runs have, then at all times a
finished wave has only runs that have ended, and a wave that was cancelled is cancelled. -/
theorem wave_finishing {past : List (ServerState × ServerEvent)} {c : ServerState}
    (h : serverMachine.Execution past c) (hwhen : ∀ x ∈ past, finishesEnded x.1 x.2 = true) :
  (∀ w ∈ c.store.waves, w.status = .finished →
      ∀ r ∈ c.store.runs, r.waveID = w.id → isTerminalRunStatus r.status = true)
    ∧ ∀ x ∈ past, ∀ w ∈ x.1.store.waves, w.status = .cancelled →
      ∃ w' ∈ c.store.waves, w'.id = w.id ∧ w'.status = .cancelled
  := by
  constructor
  · have hended : FinishedEnded c.store := by
      apply server_invariant finishesEnded _ _ h hwhen
      · intro db hdb w hw
        rw [← Table.mem_rows, hdb.1] at hw
        cases hw
      · intro c e c' hdb hended hall hmove
        cases hmove with
        | request whole step spawned =>
          apply (Operation.step_waveEffect hdb step).finishedEnded hended
        | recovery | read | cancelJobs | lost => apply hended
        | @writeRun db before after runID status next terminal =>
          apply hended.settle ((setRunStatus status).onlyIf (·.id = runID))
          · rfl
          · rfl
          · intro r _
            simp only [RowUpdate.onlyIf]
            split
            · apply Or.inr terminal
            · exact Or.inl rfl
        | @writeWave db before after waveID next =>
          intro w' hw' hfinished r hr hwave
          obtain ⟨w, hw, rfl⟩ := DB.mem_updateWaves.mp hw'
          rw [WaveUpdate.id_apply] at hwave
          by_cases hid : w.id = waveID
          · apply (finishesEnded_spec hall hw hid).2 r hr (hwave.trans hid)
          · rw [RowUpdate.onlyIf_neg (by simpa using hid)] at hfinished
            apply hended w hw hfinished r hr hwave
    apply hended
  · intro x hx w hw hcancelled
    have hstays : WaveCancelled w.id x.1.store → WaveCancelled w.id c.store := by
      apply server_stays (K := fun c => WaveCancelled w.id c.store) finishesEnded _ h hwhen x hx
      intro c e c' hdb hcancelled hall hmove
      cases hmove with
      | request whole step spawned =>
        apply (Operation.step_waveEffect hdb step).waveCancelled hcancelled
      | recovery | read | cancelJobs | writeRun | lost => apply hcancelled
      | @writeWave db before after waveID next =>
        obtain ⟨w', hw', hid, hstatus⟩ := hcancelled
        refine ⟨w', DB.mem_updateWaves.mpr ⟨w', hw', RowUpdate.onlyIf_neg ?_⟩, hid, hstatus⟩
        intro hfinishes
        have hopen := (finishesEnded_spec hall hw' (by simpa using hfinishes)).1
        rw [hstatus] at hopen
        cases hopen
    apply hstays ⟨w, hw, rfl, hcancelled⟩

/-! ### Runs of the server -/

namespace Sample

/-- A run whose second job fails, and the finishing of its wave up to the statement that writes
the status. -/
def finishing : List ServerEvent :=
  failing.map (fun op => .act (.request op)) ++ [.issue 0, .issue 0, .issue 0]

end Sample

/-- A wave that is finished after its only run has failed. -/
theorem wave_finishing_sample :
  ∃ past c, serverMachine.Execution past c ∧ (∀ x ∈ past, finishesEnded x.1 x.2 = true)
    ∧ ∃ w ∈ c.store.waves, w.status = .finished
      ∧ ∃ r ∈ c.store.runs, r.waveID = w.id ∧ isTerminalRunStatus r.status = true
  := by
  have hrun : (((serverMachine.restrict finishesEnded).follow Sample.server
      (Sample.finishing ++ [.issue 0])).map fun c =>
        decide (∃ w ∈ c.store.waves.rows, w.status = .finished
          ∧ ∃ r ∈ c.store.runs.rows, r.waveID = w.id)) = some true := by
    decide
  obtain ⟨c, hfollow, hc⟩ := Option.map_eq_some_iff.mp hrun
  obtain ⟨w, hw, hfinished, r, hr, hwave⟩ := of_decide_eq_true hc
  obtain ⟨past, hexec, hwhen⟩ := Machine.Execution.of_follow_restrict Sample.server_init hfollow
  have hended := (wave_finishing hexec hwhen).1 w hw hfinished r hr hwave
  exact ⟨_, c, hexec, hwhen, w, hw, hfinished, r, hr, hwave, hended⟩

/-- A run is restarted after its wave was found to have only runs that ended and before the wave
is finished: the wave is finished with a run that runs. A wave is cancelled in that place: it is
finished afterwards. -/
theorem requests_before_finishing :
  (∃ past c, serverMachine.Execution past c
      ∧ ∃ w ∈ c.store.waves, w.status = .finished
        ∧ ∃ r ∈ c.store.runs, r.waveID = w.id ∧ r.status = .running)
    ∧ ∃ past c e c', serverMachine.Execution past c ∧ serverMachine.step e c = some c'
      ∧ ∃ w ∈ c.store.waves, w.status = .cancelled
        ∧ ∃ w' ∈ c'.store.waves, w'.id = w.id ∧ w'.status = .finished
  := by
  constructor
  · have hrun : ((serverMachine.follow Sample.server (Sample.finishing
        ++ [.act (.request Sample.restart), .issue 0])).map fun c =>
          decide (∃ w ∈ c.store.waves.rows, w.status = .finished
            ∧ ∃ r ∈ c.store.runs.rows, r.waveID = w.id ∧ r.status = .running)) = some true := by
      decide
    obtain ⟨c, hfollow, hc⟩ := Option.map_eq_some_iff.mp hrun
    obtain ⟨past, hexec, -⟩ := (Machine.Execution.start Sample.server_init).follow hfollow
    exact ⟨_, c, hexec, of_decide_eq_true hc⟩
  · have hrun : ((serverMachine.follow Sample.server (Sample.finishing
        ++ [.act (.request (.cancelWave ⟨"w"⟩))])).bind fun c =>
          (serverMachine.step (.issue 0) c).map fun c' =>
            decide (∃ w ∈ c.store.waves.rows, w.status = .cancelled
              ∧ ∃ w' ∈ c'.store.waves.rows, w'.id = w.id ∧ w'.status = .finished)) = some true := by
      decide
    obtain ⟨c, hfollow, hc⟩ := Option.bind_eq_some_iff.mp hrun
    obtain ⟨c', hstep, hc'⟩ := Option.map_eq_some_iff.mp hc
    obtain ⟨past, hexec, -⟩ := (Machine.Execution.start Sample.server_init).follow hfollow
    exact ⟨_, c, _, c', hexec, hstep, of_decide_eq_true hc'⟩

end Ploy
