import Ploy.Foundations.Execution
import Ploy.Run.Completion

/-!
# Transactions as steps of attempts

Every transaction keeps the store well formed, and on each attempt of each run it is a step.
So a property that created attempts have and steps keep holds of every attempt in every
store that the transactions lead to.
-/

namespace Ploy

open Program

variable {whole : Bool} {db db' : DB}

/-- A transaction from `db` to `db'` that keeps the store well formed and is a step on each
attempt. -/
structure Refines (whole : Bool) (db db' : DB) : Prop where
  wellFormed : WellFormed db'
  evolves : Evolves whole db db'

theorem Refines.of_rewrite (hdb : WellFormed db) (v : RunUpdate) (u : JobUpdate)
    (hruns : db'.runs = (db.updateRuns v).runs) (hjobs : db'.jobs = (db.updateJobs u).jobs)
    (hv : ∀ r ∈ db.runs, r.attempt ≤ (v.apply r).attempt)
    (h : ∀ r ∈ db.runs, ∀ a l, IsChain db r.id a l →
      Attempt.Step whole ⟨r, a, l⟩ ⟨v.apply r, a, l.map u.apply⟩) :
  Refines whole db db'
  := ⟨hdb.rewrite v u hruns hjobs hv, evolves_of_rewrite v u hruns hjobs h⟩

/-- What writes neither runs nor jobs does nothing to an attempt. -/
theorem Refines.of_eq (hdb : WellFormed db) (hruns : db'.runs = db.runs)
    (hjobs : db'.jobs = db.jobs) :
  Refines whole db db'
  := by
  constructor
  · constructor
    · rw [hruns, hjobs]
      apply hdb.referenced
    · intro run a
      obtain ⟨l, hl⟩ := hdb.chained run a
      use l
      apply hl.of_jobs_eq hjobs
  · constructor
    · intro r hr
      rw [hruns]
      use r, hr, rfl
      intro a l hl
      use l
      apply And.intro (hl.of_jobs_eq hjobs) (Attempt.Step.idle _)
    · intro r hr
      rw [hruns] at hr
      left
      use r, hr

theorem Refines.of_rewrite_jobs (hdb : WellFormed db) {u : JobUpdate}
    (h : ∀ r ∈ db.runs, ∀ a l, IsChain db r.id a l →
      Attempt.Step whole ⟨r, a, l⟩ ⟨r, a, l.map u.apply⟩) :
  Refines whole db (db.updateJobs u)
  := by
  apply Refines.of_rewrite hdb (RowUpdate.refl _) u
  · rw [DB.updateRuns_refl]
    rfl
  · rfl
  · intro r _
    apply le_refl
  · apply h

/-! ### Claiming -/

/-- A claim is a claim of an attempt. -/
theorem claimJob_refines (hdb : WellFormed db) {nodeID : NodeID} {skipLocked : List JobID}
    {claimed : Job} (h : (claimJob nodeID skipLocked).transaction engine db = .ok (claimed, db')) :
  Refines whole db db'
  := by
  obtain ⟨n, -, rfl, j, hj, heligible, -, rfl⟩ := claimJob_effect h
  have he := eligible_spec heligible
  apply Refines.of_rewrite_jobs hdb
  intro r hr a l hl
  by_cases hmem : j ∈ l
  · obtain ⟨-, hrun, hattempt⟩ := hl.mem_iff.mp hmem
    obtain ⟨pre, post, rfl⟩ := List.append_of_mem hmem
    rw [map_onlyIf_id hl.nodup (by simp) (by simp)]
    obtain ⟨r', hr', hid, hrunning, -⟩ := he.running
    obtain rfl := Table.eq_of_key_eq hr' hr (hid.trans hrun)
    apply Attempt.Step.claim n.id db.now hrunning he.queued
    intro k hk
    obtain ⟨hk, hkrun, hkattempt⟩ := hl.mem_iff.mp hk
    apply he.owner k hk (hkrun.trans hrun.symm) (hkattempt.trans hattempt.symm)
  · rw [map_eq_self]
    · apply Attempt.Step.idle
    · intro k hk
      apply RowUpdate.onlyIf_neg
      simp only [decide_eq_true_eq]
      intro hid
      rw [hl.eq_of_id_eq hk hj hid.symm] at hmem
      apply hmem hk

/-- Giving a job back is a step of its attempt. -/
theorem unclaimJob_refines (hdb : WellFormed db) {id : JobID} {nodeID : NodeID} {x : Unit}
    (h : (unclaimJob id nodeID).transaction engine db = .ok (x, db')) :
  Refines whole db db'
  := by
  rcases unclaimJob_effect h with rfl | rfl
  · apply Refines.of_eq hdb rfl rfl
  apply Refines.of_rewrite_jobs hdb
  intro r hr a l hl
  by_cases hmem : ∃ j ∈ l, j.id = id ∧ j.nodeID = some nodeID ∧ j.status = .running
  · obtain ⟨j, hj, rfl, hnode, hrunning⟩ := hmem
    have hresumed : db.resumed j = decide (0 < r.stats.resumeCount) := by
      rw [DB.resumed, (hl.mem_iff.mp hj).2.1, Table.find?_of_mem hr]
      rfl
    have hrow : (unclaimRow db.resumed).apply j
        = (unclaimRow fun _ => 0 < r.stats.resumeCount).apply j := by
      simp only [unclaimRow, hresumed]
    obtain ⟨pre, post, rfl⟩ := List.append_of_mem hj
    rw [unclaimUpdate, map_onlyIf_id hl.nodup, hrow]
    · apply Attempt.Step.unclaim hrunning
    · intro k hk
      simp only [Bool.and_eq_true, decide_eq_true_eq] at hk
      apply hk.1.1
    · simp [hnode, hrunning]
  · rw [map_eq_self]
    · apply Attempt.Step.idle
    · intro k hk
      apply RowUpdate.onlyIf_neg
      intro hguard
      simp only [Bool.and_eq_true, decide_eq_true_eq] at hguard
      apply hmem
      exact ⟨k, hk, hguard.1.1, hguard.1.2, hguard.2⟩

/-! ### Cancelling -/

theorem map_cancelJobsUpdate_pos {p : Job → Bool} {l : List Job} (h : ∀ k ∈ l, p k = true) :
  l.map (cancelJobsUpdate p).apply = l.map cancelIfActive.apply
  := by
  apply List.map_congr_left
  intro k hk
  simp only [cancelJobsUpdate, cancelIfActive, RowUpdate.onlyIf, h k hk, Bool.true_and]

theorem map_cancelJobsUpdate_neg {p : Job → Bool} {l : List Job} (h : ∀ k ∈ l, p k = false) :
  l.map (cancelJobsUpdate p).apply = l
  := by
  apply map_eq_self
  intro k hk
  apply cancelJobsUpdate_neg (h k hk)

theorem attempt_cancelRunUpdate (p : Run → Bool) (r : Run) :
  ((cancelRunUpdate p).apply r).attempt = r.attempt
  := by
  simp only [cancelRunUpdate, RowUpdate.onlyIf]
  split <;> rfl

/-- A cancellation is a step of each attempt of the run. -/
theorem cancelRun_refines (hdb : WellFormed db) {runID : RunID} {x : Unit}
    (h : (cancelRun runID).transaction engine db = .ok (x, db')) :
  Refines whole db db'
  := by
  obtain ⟨-, rfl⟩ := cancelRun_effect h
  apply Refines.of_rewrite hdb (cancelRunUpdate (·.id = runID)) (cancelJobsUpdate (·.runID = runID))
  · rfl
  · rfl
  · intro r _
    rw [attempt_cancelRunUpdate]
  · intro r hr a l hl
    by_cases hid : r.id = runID
    · rw [cancelRunUpdate_pos (by simpa using hid), map_cancelJobsUpdate_pos]
      · apply Attempt.Step.cancelRun
      · intro k hk
        simp [(hl.mem_iff.mp hk).2.1, hid]
    · rw [cancelRunUpdate_neg (by simpa using hid), map_cancelJobsUpdate_neg]
      · apply Attempt.Step.idle
      · intro k hk
        simp [(hl.mem_iff.mp hk).2.1, hid]

/-- Cancelling a wave is a step of each attempt of its runs. -/
theorem cancelWave_refines (hdb : WellFormed db) {waveID : WaveID} {x : Unit}
    (h : (cancelWave waveID).transaction engine db = .ok (x, db')) :
  Refines whole db db'
  := by
  obtain ⟨-, rfl⟩ := cancelWave_effect h
  apply Refines.of_rewrite hdb (cancelRunUpdate (·.waveID = waveID))
    (cancelJobsUpdate (jobOfWave db waveID))
  · rfl
  · rfl
  · intro r _
    rw [attempt_cancelRunUpdate]
  · intro r hr a l hl
    by_cases hwave : r.waveID = waveID
    · rw [cancelRunUpdate_pos (by simpa using hwave), map_cancelJobsUpdate_pos]
      · apply Attempt.Step.cancelRun
      · intro k hk
        apply jobOfWave_iff.mpr ⟨r, hr, hwave, (hl.mem_iff.mp hk).2.1.symm⟩
    · rw [cancelRunUpdate_neg (by simpa using hwave), map_cancelJobsUpdate_neg]
      · apply Attempt.Step.idle
      · intro k hk
        rw [← Bool.not_eq_true, jobOfWave_iff]
        rintro ⟨r', hr', hwave', hid⟩
        obtain rfl := Table.eq_of_key_eq hr' hr (hid.trans (hl.mem_iff.mp hk).2.1)
        apply hwave hwave'

theorem cancelActiveJobs_refines (hdb : WellFormed db) (runID : RunID) (attempt : Nat) :
  Refines false db (db.updateJobs (cancelJobsUpdate (Job.inAttempt runID attempt)))
  := by
  apply Refines.of_rewrite_jobs hdb
  intro r hr a l hl
  by_cases hin : r.id = runID ∧ a = attempt
  · rw [map_cancelJobsUpdate_pos]
    · apply Attempt.Step.cancelJobs rfl
    · intro k hk
      obtain ⟨-, hrun, hattempt⟩ := hl.mem_iff.mp hk
      simp [Job.inAttempt, hrun, hattempt, hin]
  · rw [map_cancelJobsUpdate_neg]
    · apply Attempt.Step.idle
    · intro k hk
      obtain ⟨-, hrun, hattempt⟩ := hl.mem_iff.mp hk
      simpa [Job.inAttempt, hrun, hattempt] using hin

/-! ### Completing -/

theorem attempt_settledRun (r : Run) (rows : List Job) :
  (settledRun r rows).attempt = r.attempt
  := by
  unfold settledRun
  split <;> rfl

/-- A completion is a step of the attempt of its job. -/
theorem completeJob_refines (hdb : WellFormed db) {input : CompletionInput} {result : Option Run}
    (h : (completeJob input).transaction engine db = .ok (result, db')) :
  Refines whole db db'
  := by
  obtain ⟨r₀, hr₀, pre, j, post, hchain, haccepted, u, rows, hother, hmap, hrows, rfl, -⟩ :=
    completeJob_effect hdb h
  apply Refines.of_rewrite hdb (settleUpdate r₀.id rows) u
  · rfl
  · rfl
  · intro r hr
    by_cases hid : r.id = r₀.id
    · obtain rfl := Table.eq_of_key_eq hr hr₀ hid
      rw [settleUpdate_self, attempt_settledRun]
    · rw [settleUpdate_other hid]
  · intro r hr a l hl
    have hfixed : ¬ (r.id = r₀.id ∧ a = r₀.attempt) → l.map u.apply = l := by
      intro hout
      apply map_eq_self
      intro k hk
      obtain ⟨hk, hrun, hattempt⟩ := hl.mem_iff.mp hk
      apply hother k hk
      rw [hrun, hattempt]
      apply hout
    by_cases hid : r.id = r₀.id
    · obtain rfl := Table.eq_of_key_eq hr hr₀ hid
      rw [settleUpdate_self]
      by_cases ha : a = r.attempt
      · subst ha
        rw [hl.unique hchain, hmap]
        apply Attempt.Step.complete input rows haccepted hrows
      · -- the other attempts of the run see its status change only
        rw [hfixed (fun h => ha h.2)]
        rcases evaluateRunAttemptTerminalStatus_cases rows with
          ⟨heval, -⟩ | ⟨status, heval, hterminal, -⟩
        · rw [settledRun, heval]
          apply Attempt.Step.idle
        · rw [settledRun, heval]
          apply Attempt.Step.settle status hterminal ha
    · rw [settleUpdate_other hid, hfixed (fun h => hid h.1)]
      apply Attempt.Step.idle

/-! ### Restarting -/

theorem resumeFailedJobs_chain {r : Run} {arg : RestartRunParams} {x : Unit}
    (h : (resumeFailedJobs r arg).transaction engine db = .ok (x, db')) :
  ∃ pre j post, IsChain db r.id r.attempt (pre ++ j :: post)
    ∧ (∀ k ∈ pre, k.status = .success) ∧ Retryable j ∧ (∀ k ∈ post, NeverStarted k)
    ∧ ∃ u : JobUpdate, (∀ k, k.id ∉ (j :: post).map Job.id → u.apply k = k)
      ∧ ResetTo true j (u.apply j) ∧ (∀ k ∈ post, ResetTo false k (u.apply k))
      ∧ db' = (db.updateJobs u).updateRuns
          ((resumeRow arg.stats (r.stats.resumeCount + 1) db.now).onlyIf (·.id = r.id))
  := by
  obtain ⟨-, -, suffix, hsuffix, u, hother, hfirst, hrest, rfl⟩ := resumeFailedJobs_effect h
  obtain ⟨pre, j, post, hperm, hlinked, rfl, hpre, hfailed, hpost⟩ := failedJobSuffix_spec hsuffix
  have hchain : IsChain db r.id r.attempt (pre ++ j :: post) :=
    ⟨hperm.trans (jobsOfAttempt_perm _ _ _), hlinked⟩
  exact ⟨pre, j, post, hchain, hpre, hfailed, hpost, u, hother, hfirst j rfl, hrest, rfl⟩

/-- Resuming from a failed job is a step of the attempt that it is in. -/
theorem resume_refines (hdb : WellFormed db) {r₀ : Run} (hr₀ : r₀ ∈ db.runs)
    (hterminal : isTerminalRunStatus r₀.status = true) {arg : RestartRunParams} {x : Unit}
    (h : (resumeFailedJobs r₀ arg).transaction engine db = .ok (x, db')) :
  Refines whole db db'
  := by
  obtain ⟨pre, j, post, hchain, hpre, hfailed, hpost, u, hother, hfirst, hrest, rfl⟩ :=
    resumeFailedJobs_chain h
  apply Refines.of_rewrite hdb
    ((resumeRow arg.stats (r₀.stats.resumeCount + 1) db.now).onlyIf (·.id = r₀.id)) u
  · rfl
  · rfl
  · intro r _
    simp only [RowUpdate.onlyIf]
    split <;> apply le_refl
  · intro r hr a l hl
    have hfixed : ¬ (r.id = r₀.id ∧ a = r₀.attempt) → l.map u.apply = l := by
      intro hout
      apply map_eq_self
      intro k hk
      obtain ⟨hk, hrun, hattempt⟩ := hl.mem_iff.mp hk
      apply hother
      intro hmem
      obtain ⟨k', hk', hid⟩ := List.mem_map.mp hmem
      have hout' : ¬ (k.runID = r₀.id ∧ k.attempt = r₀.attempt) := by
        rw [hrun, hattempt]
        apply hout
      apply hchain.id_ne (List.mem_append_right pre hk') hk hout' hid.symm
    by_cases hid : r.id = r₀.id
    · obtain rfl := Table.eq_of_key_eq hr hr₀ hid
      rw [RowUpdate.onlyIf_pos (by simp)]
      by_cases ha : a = r.attempt
      · subst ha
        have hkeep : ∀ k ∈ pre, u.apply k = k := by
          intro k hk
          apply hother
          rw [List.map_cons, List.mem_cons, not_or]
          constructor
          · apply ne_of_nodup hchain.nodup (Or.inl hk)
          · apply not_mem_post hchain.nodup (Or.inl hk)
        rw [hl.unique hchain, List.map_append, List.map_cons, map_eq_self hkeep]
        apply Attempt.Step.resume arg.stats db.now u hterminal hpre hfailed hpost hfirst hrest
      · rw [hfixed (fun h => ha h.2)]
        apply Attempt.Step.stay arg.stats db.now hterminal ha
    · rw [RowUpdate.onlyIf_neg (by simpa using hid), hfixed (fun h => hid h.1)]
      apply Attempt.Step.idle

/-- A full restart leaves one attempt and enters the next. -/
theorem nextAttempt_refines (hdb : WellFormed db) {r₀ : Run} (hr₀ : r₀ ∈ db.runs)
    (hterminal : isTerminalRunStatus r₀.status = true) {stats : Option StatsMarker}
    {created : List Job}
    (hruns : db'.runs = (db.updateRuns ((incrementAttemptRow stats).onlyIf (·.id = r₀.id))).runs)
    (hjobs : db'.jobs.rows
      = (db.updateJobs (cancelJobsUpdate (Job.inAttempt r₀.id r₀.attempt))).jobs.rows
        ++ created.reverse)
    (hlinked : Linked Job.id Job.nextID created)
    (hplanned : PlannedChain ((incrementAttemptRow stats).apply r₀) true created)
    (hne : created ≠ []) :
  Refines whole db db'
  := by
  have hnew : ∀ k ∈ created, k.runID = r₀.id ∧ k.attempt = r₀.attempt + 1 := by
    intro k hk
    obtain ⟨first, hk⟩ := hplanned.mem hk
    apply And.intro hk.runID hk.attempt
  have hdb₁ : WellFormed (db.updateJobs (cancelJobsUpdate (Job.inAttempt r₀.id r₀.attempt))) :=
    (cancelActiveJobs_refines hdb r₀.id r₀.attempt).wellFormed
  -- the chains of the other attempts, and of the new one
  have hold : ∀ run a l, ¬ (run = r₀.id ∧ a = r₀.attempt + 1) → IsChain db run a l →
      IsChain db' run a (l.map (cancelJobsUpdate (Job.inAttempt r₀.id r₀.attempt)).apply) := by
    intro run a l hout hl
    apply (hl.updateJobs _).append_other hjobs
    rintro k hk ⟨rfl, rfl⟩
    apply hout (hnew k hk)
  have hfresh : IsChain db' r₀.id (r₀.attempt + 1) created := by
    obtain ⟨l, hl⟩ := hdb₁.chained r₀.id (r₀.attempt + 1)
    obtain rfl := hdb₁.nil_of_lt hr₀ (Nat.lt_succ_self _) hl
    apply hl.append_new hjobs hnew hlinked
  constructor
  · constructor
    · intro j hj
      rw [← Table.mem_rows, hjobs, List.mem_append, List.mem_reverse] at hj
      rcases hj with hj | hj
      · obtain ⟨r, hr, hid, hle⟩ := hdb₁.referenced j hj
        use ((incrementAttemptRow stats).onlyIf (·.id = r₀.id)).apply r
        rw [hruns, DB.mem_updateRuns, RunUpdate.id_apply]
        refine ⟨⟨r, hr, rfl⟩, hid, hle.trans ?_⟩
        simp only [RowUpdate.onlyIf]
        split
        · apply Nat.le_succ
        · apply le_refl
      · use (incrementAttemptRow stats).apply r₀
        rw [hruns, DB.mem_updateRuns, RunUpdate.id_apply]
        refine ⟨⟨r₀, hr₀, RowUpdate.onlyIf_pos (by simp)⟩, (hnew j hj).1.symm, ?_⟩
        apply le_of_eq (hnew j hj).2
    · intro run a
      by_cases hin : run = r₀.id ∧ a = r₀.attempt + 1
      · obtain ⟨rfl, rfl⟩ := hin
        use created
      · obtain ⟨l, hl⟩ := hdb.chained run a
        exact ⟨_, hold run a l hin hl⟩
  · constructor
    · intro r hr
      use ((incrementAttemptRow stats).onlyIf (·.id = r₀.id)).apply r
      rw [hruns, DB.mem_updateRuns]
      use ⟨r, hr, rfl⟩, RunUpdate.id_apply _ r
      intro a l hl
      by_cases hid : r.id = r₀.id
      · obtain rfl := Table.eq_of_key_eq hr hr₀ hid
        rw [RowUpdate.onlyIf_pos (by simp)]
        by_cases ha : a = r.attempt + 1
        · subst ha
          obtain rfl := hdb.nil_of_lt hr (Nat.lt_succ_self _) hl
          use created, hfresh
          apply Attempt.Step.enter stats hterminal hplanned hne
        · use l.map (cancelJobsUpdate (Job.inAttempt r.id r.attempt)).apply
          use hold r.id a l (fun h => ha h.2) hl
          have hmap : l.map (cancelJobsUpdate (Job.inAttempt r.id r.attempt)).apply
              = if a = r.attempt then l.map cancelIfActive.apply else l := by
            split
            · rename_i hcurrent
              apply map_cancelJobsUpdate_pos
              intro k hk
              obtain ⟨-, hrun, hattempt⟩ := hl.mem_iff.mp hk
              simp [Job.inAttempt, hrun, hattempt, hcurrent]
            · rename_i hcurrent
              apply map_cancelJobsUpdate_neg
              intro k hk
              obtain ⟨-, -, hattempt⟩ := hl.mem_iff.mp hk
              simp [Job.inAttempt, hattempt, hcurrent]
          rw [hmap]
          apply Attempt.Step.leave stats hterminal ha
      · rw [RowUpdate.onlyIf_neg (by simpa using hid)]
        use l.map (cancelJobsUpdate (Job.inAttempt r₀.id r₀.attempt)).apply
        use hold r.id a l (fun h => hid h.1) hl
        rw [map_cancelJobsUpdate_neg]
        · apply Attempt.Step.idle
        · intro k hk
          obtain ⟨-, hrun, -⟩ := hl.mem_iff.mp hk
          simp [Job.inAttempt, hrun, hid]
    · intro r' hr'
      rw [hruns, DB.mem_updateRuns] at hr'
      obtain ⟨r, hr, rfl⟩ := hr'
      left
      use r, hr
      rw [RunUpdate.id_apply]

/-- A restart resumes, or enters the next attempt. -/
theorem restartRun_refines (hdb : WellFormed db) {ids : Nat → JobID} {arg : RestartRunParams}
    {updated : Run} (h : (restartRun ids arg).transaction engine db = .ok (updated, db')) :
  Refines whole db db'
  := by
  obtain ⟨r, w, db₁, hr, hreopen, hupdated, hmode⟩ := restartRun_effect h
  rcases hmode with ⟨hresume, rfl⟩ | ⟨hfull, created, hcreated⟩
  · rw [reopenRun, if_pos hresume] at hreopen
    obtain ⟨⟨hreferenced, hchained⟩, hkept, hnew⟩ := resume_refines hdb hr.run hr.terminal hreopen
    exact ⟨⟨hreferenced, hchained⟩, hkept, hnew⟩
  · rw [reopenRun, if_neg (by simp [hfull])] at hreopen
    obtain rfl := startNextAttempt_effect hreopen
    obtain rfl : updated = (incrementAttemptRow arg.stats).apply r := by
      rw [DB.updateRuns, Table.find?_update, ← hr.id, DB.updateJobs_runs, Table.find?_of_mem hr.run,
        Option.map_some, RowUpdate.onlyIf_pos (by simp)] at hupdated
      apply (Option.some.inj hupdated).symm
    obtain ⟨⟨jobs, rfl, hrows⟩, hlinked, hplanned, hne⟩ := createPlannedJobs_effect hcreated
    rw [← hr.id] at hrows
    apply nextAttempt_refines hdb hr.run hr.terminal _ hrows hlinked hplanned hne
    rw [hr.id]
    rfl

/-! ### Creating -/

/-- Every run of `db` is a run of `db'` with the chains it had, and every other run of `db'` was
just created. -/
structure Adds (db db' : DB) : Prop where
  kept : ∀ r ∈ db.runs, r ∈ db'.runs ∧ ∀ a l, IsChain db r.id a l → IsChain db' r.id a l
  created : ∀ r' ∈ db'.runs,
    r' ∈ db.runs ∨ ∀ a, ∃ l', IsChain db' r'.id a l' ∧ Attempt.Created ⟨r', a, l'⟩

/-- A new run comes with its first attempt. -/
theorem addRun_adds (hdb : WellFormed db) {r : Run} {runs : Table Run.id}
    {jobs : Table Job.id} {created : List Job} (hrun : db.runs.insert? r = some runs)
    (hrows : jobs.rows = db.jobs.rows ++ created.reverse)
    (hlinked : Linked Job.id Job.nextID created) (hplanned : PlannedChain r true created)
    (hne : created ≠ []) (hattempt : r.attempt = 1) (hstatus : r.status = .running)
    (hcount : r.stats.resumeCount = 0) :
  WellFormed { db with runs, jobs } ∧ Adds db { db with runs, jobs }
  := by
  have hfresh := (Table.insert?_eq_some.mp hrun).1
  have hnew : ∀ k ∈ created, k.runID = r.id ∧ k.attempt = 1 := by
    intro k hk
    obtain ⟨first, hk⟩ := hplanned.mem hk
    apply And.intro hk.runID (hk.attempt.trans hattempt)
  have hnone : ∀ a l, IsChain db r.id a l → l = [] := by
    intro a l hl
    rw [hl.nil_iff]
    rintro j hj ⟨hrunID, -⟩
    obtain ⟨r', hr', hid, -⟩ := hdb.referenced j hj
    apply hfresh r' hr' (hid.trans hrunID)
  have hold : ∀ run a l, ¬ (run = r.id ∧ a = 1) → IsChain db run a l →
      IsChain { db with runs, jobs } run a l := by
    intro run a l hout hl
    apply hl.append_other hrows
    rintro k hk ⟨rfl, rfl⟩
    apply hout (hnew k hk)
  have hfirst : IsChain { db with runs, jobs } r.id 1 created := by
    obtain ⟨l, hl⟩ := hdb.chained r.id 1
    obtain rfl := hnone 1 l hl
    apply hl.append_new hrows hnew hlinked
  constructor
  · constructor
    · intro j hj
      rw [← Table.mem_rows, hrows, List.mem_append, List.mem_reverse] at hj
      rcases hj with hj | hj
      · obtain ⟨r', hr', hid, hle⟩ := hdb.referenced j hj
        exact ⟨r', (Table.mem_insert? hrun).mpr (Or.inl hr'), hid, hle⟩
      · refine ⟨r, (Table.mem_insert? hrun).mpr (Or.inr rfl), (hnew j hj).1.symm, ?_⟩
        rw [(hnew j hj).2, hattempt]
    · intro run a
      by_cases hin : run = r.id ∧ a = 1
      · obtain ⟨rfl, rfl⟩ := hin
        use created
      · obtain ⟨l, hl⟩ := hdb.chained run a
        exact ⟨l, hold run a l hin hl⟩
  · constructor
    · intro r' hr'
      use (Table.mem_insert? hrun).mpr (Or.inl hr')
      intro a l hl
      apply hold _ a l (fun h => hfresh r' hr' h.1) hl
    · intro r' hr'
      rcases (Table.mem_insert? hrun).mp hr' with hr' | rfl
      · apply Or.inl hr'
      · right
        intro a
        by_cases ha : a = 1
        · subst ha
          exact ⟨created, hfirst, hattempt, hstatus, hcount, Or.inl ⟨rfl, hplanned, hne⟩⟩
        · obtain ⟨l, hl⟩ := hdb.chained r'.id a
          obtain rfl := hnone a l hl
          exact ⟨[], hold _ a [] (fun h => ha h.2) hl, hattempt, hstatus, hcount,
            Or.inr ⟨ha, rfl⟩⟩

/-- Additions may be made one after another. -/
theorem Adds.trans {db₁ : DB} (h₁ : Adds db db₁) (h₂ : Adds db₁ db') :
  Adds db db'
  := by
  constructor
  · intro r hr
    obtain ⟨hr₁, hchains₁⟩ := h₁.kept r hr
    obtain ⟨hr', hchains'⟩ := h₂.kept r hr₁
    use hr'
    intro a l hl
    apply hchains' a l (hchains₁ a l hl)
  · intro r' hr'
    rcases h₂.created r' hr' with hr₁ | hnew
    · rcases h₁.created r' hr₁ with hr | hnew
      · apply Or.inl hr
      · right
        intro a
        obtain ⟨l, hl, hcreated⟩ := hnew a
        exact ⟨l, (h₂.kept r' hr₁).2 a l hl, hcreated⟩
    · apply Or.inr hnew

theorem addsRuns_adds {wave : CreateWaveParams} {plans : List RunPlan}
    (h : AddsRuns wave plans db db') (hdb : WellFormed db) :
  WellFormed db' ∧ Adds db db'
  := by
  induction h with
  | nil db =>
    use hdb
    constructor
    · intro r hr
      apply And.intro hr (fun _ _ hl => hl)
    · intro r hr
      apply Or.inl hr
  | cons alone known run rows linked planned nonempty later ih =>
    obtain ⟨hdb₁, hadds⟩ := addRun_adds hdb run rows linked planned nonempty rfl rfl rfl
    obtain ⟨hdb', hlater⟩ := ih hdb₁
    apply And.intro hdb' (hadds.trans hlater)

theorem createWaveWithRuns_refines (hdb : WellFormed db) {ids : Nat → Nat → JobID}
    {arg : CreateWaveWithRunsParams} {result : Wave × List (Run × List Job)}
    (h : (createWaveWithRuns ids arg).transaction engine db = .ok (result, db')) :
  Refines whole db db'
  := by
  obtain ⟨-, waves, -, hadds⟩ := createWaveWithRuns_effect h
  obtain ⟨hdb', hkept, hnew⟩ := addsRuns_adds hadds ⟨hdb.referenced, hdb.chained⟩
  use hdb'
  constructor
  · intro r hr
    obtain ⟨hr', hchains⟩ := hkept r hr
    use r, hr', rfl
    intro a l hl
    apply Exists.intro l ⟨hchains a l hl, Attempt.Step.idle _⟩
  · intro r' hr'
    rcases hnew r' hr' with hr | hcreated
    · exact Or.inl ⟨r', hr, rfl⟩
    · apply Or.inr hcreated

end Ploy
