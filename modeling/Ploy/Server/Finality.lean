import Ploy.Run.Lifecycle
import Ploy.Server.Machine

/-!
# The end of runs

A run that has ended has no active job in its attempt, and a run that runs has one. Requests keep
both. Recovery keeps neither by itself: it writes the status of a run as the jobs of an attempt gave
it when they were listed, and it may not get so far.
-/

namespace Ploy

open Program

/-- Whether the jobs of the attempt that a run is in have all ended, as reconciliation judges
it. -/
def attemptFinished (db : DB) (r : Run) : Bool :=
  settles (jobsOfAttempt db r.id r.attempt)

/-- An attempt is finished if it has jobs and all have ended. -/
theorem attemptFinished_iff {db : DB} {r : Run} {l : List Job} (hl : IsChain db r.id r.attempt l) :
  attemptFinished db r = true ↔ l ≠ [] ∧ ∀ j ∈ l, j.status.terminal = true
  := by
  have hperm : (jobsOfAttempt db r.id r.attempt).Perm l :=
    (jobsOfAttempt_perm _ _ _).trans hl.1.symm
  unfold attemptFinished settles
  rcases evaluateRunAttemptTerminalStatus_cases (jobsOfAttempt db r.id r.attempt) with
    ⟨heval, hnot⟩ | ⟨status, heval, -, hne, hall⟩
  · simp only [heval, Except.toOption, Option.join_some, Option.isSome_none, Bool.false_eq_true,
      false_iff, not_and]
    intro hne hall
    rcases hnot with hnil | ⟨j, hj, hactive⟩
    · rw [hnil] at hperm
      apply hne (List.nil_perm.mp hperm)
    · have hterminal := hall j (hperm.mem_iff.mp hj)
      rw [JobStatus.terminal, hactive] at hterminal
      cases hterminal
  · simp only [heval, Except.toOption, Option.join_some, Option.isSome_some, true_iff]
    constructor
    · rintro rfl
      apply hne (List.perm_nil.mp hperm)
    · intro j hj
      apply hall j (hperm.mem_iff.mpr hj)

/-! ### A run that ended -/

/-- In the attempt that a terminal run is in, no job is active. -/
def Attempt.Settled (s : Attempt) : Prop :=
  s.number = s.run.attempt → isTerminalRunStatus s.run.status = true →
    ∀ j ∈ s.jobs, j.status.terminal = true

/-- A run that has ended has no active job in its attempt. -/
theorem settled_invariant :
  Attempt.Invariant Attempt.Settled
  := by
  constructor
  · rintro ⟨r, a, l⟩ ⟨-, hstatus, -⟩ _ hterminal
    dsimp only at hstatus hterminal
    rw [hstatus] at hterminal
    cases hterminal
  · intro whole s s' _ h hstep
    cases hstep with
    | idle => apply h
    | claim n now running queued owner =>
      intro _ hterminal
      rw [running] at hterminal
      cases hterminal
    | @unclaim r a pre post j running =>
      intro hcurrent hterminal
      have hj := h hcurrent hterminal j (by simp)
      rw [running] at hj
      cases hj
    | @complete r a pre post j input rows accepted order =>
      intro hcurrent hterminal
      rw [attempt_settledRun] at hcurrent
      rcases evaluateRunAttemptTerminalStatus_cases rows with ⟨heval, -⟩ | ⟨_, _, _, _, hall⟩
      · -- the run was terminal before, although the completed job ran
        rw [settledRun, heval] at hterminal
        have hj := h hcurrent hterminal j (by simp)
        rw [accepted.running] at hj
        cases hj
      · intro k hk
        apply hall k (order.mem_iff.mpr hk)
    | settle status terminal other =>
      intro hcurrent
      apply absurd hcurrent other
    | cancelJobs | cancelRun =>
      intro _ _ j hj
      apply terminal_cancelIfActive hj
    | leave stats terminal reached =>
      intro hcurrent
      apply absurd hcurrent reached
    | enter | resume =>
      intro _ hterminal
      cases hterminal
    | stay stats now terminal other =>
      intro hcurrent
      apply absurd hcurrent other

/-- A status is written to a run only while the attempt that the run is in has finished. -/
def writesFinished (c : ServerState) : ServerEvent → Bool
  | .issue i =>
    match c.processes[i]? with
    | some (.statement (.updateRunStatus runID _) _) =>
      c.store.runs.rows.all fun r => r.id ≠ runID || attemptFinished c.store r
    | _ => true
  | _ => true

theorem settled_updateRuns {db : DB} (h : OnAttempts Attempt.Settled db) {runID : RunID}
    {status : RunStatus}
    (hfinished : ∀ r ∈ db.runs, r.id = runID → attemptFinished db r = true) :
  OnAttempts Attempt.Settled (db.updateRuns ((setRunStatus status).onlyIf (·.id = runID)))
  := by
  intro r' hr' a l hl
  obtain ⟨r, hr, rfl⟩ := DB.mem_updateRuns.mp hr'
  rw [RunUpdate.id_apply] at hl
  have hl : IsChain db r.id a l := hl.of_jobs_eq rfl
  by_cases hid : r.id = runID
  · rw [RowUpdate.onlyIf_pos (by simpa using hid)]
    intro hcurrent _ j hj
    dsimp only [attempt_setRunStatus] at hcurrent hj
    subst hcurrent
    apply ((attemptFinished_iff hl).mp (hfinished r hr hid)).2 j hj
  · rw [RowUpdate.onlyIf_neg (by simpa using hid)]
    apply h r hr a l hl

/-- The same holds of the server while statuses are written in time. -/
theorem settled_of_execution {past : List (ServerState × ServerEvent)} {c : ServerState}
    (h : serverMachine.Execution past c) (hwhen : ∀ x ∈ past, writesFinished x.1 x.2 = true) :
  OnAttempts Attempt.Settled c.store
  := by
  apply server_invariant writesFinished _ _ h hwhen
  · intro db hdb r hr
    rw [← Table.mem_rows, hdb.2.1] at hr
    cases hr
  · intro c e c' hdb hon hall hmove
    rcases hmove.evolves hdb with ⟨whole, hevolves⟩ |
      ⟨before, after, runID, status, next, -, rfl, hprocesses, hstore⟩
    · apply hon.evolve settled_invariant.created (settled_invariant.step _) hdb hevolves
    · rw [hstore]
      apply settled_updateRuns hon
      intro r hr hid
      simp only [writesFinished, hprocesses, Interleaved.getElem?_place, List.all_eq_true,
        Bool.or_eq_true, decide_eq_true_eq] at hall
      apply (hall r hr).resolve_left (absurd hid)

/-- If every status that recovery writes to a run is written while the attempt that the run is in
has finished, then at all times a run that has ended has no active job in its attempt. -/
theorem terminal_run_settled {past : List (ServerState × ServerEvent)} {c : ServerState}
    (h : serverMachine.Execution past c) (hwhen : ∀ x ∈ past, writesFinished x.1 x.2 = true) :
  ∀ r ∈ c.store.runs, isTerminalRunStatus r.status = true →
    ∀ j ∈ c.store.jobs, j.runID = r.id → j.attempt = r.attempt →
      j.status ≠ .created ∧ j.status ≠ .queued ∧ j.status ≠ .running
  := by
  have hsettled := settled_of_execution h hwhen
  intro r hr hterminal j hj hrun hattempt
  obtain ⟨l, hl⟩ := (server_reachable h).1.chained r.id r.attempt
  have hj' := hsettled r hr _ _ hl rfl hterminal j (hl.mem_iff.mpr ⟨hj, hrun, hattempt⟩)
  have hinactive : ¬ (j.status = .created ∨ j.status = .queued ∨ j.status = .running) := by
    rw [← JobStatus.active_iff]
    simpa [JobStatus.terminal] using hj'
  push Not at hinactive
  apply hinactive

/-- A recovery cycle that cancelled the only job that ran, and then wrote the status of the run. -/
theorem terminal_run_settled_sample :
  ∃ past c, serverMachine.Execution past c ∧ (∀ x ∈ past, writesFinished x.1 x.2 = true)
    ∧ ∃ r ∈ c.store.runs, isTerminalRunStatus r.status = true
      ∧ ∃ j ∈ c.store.jobs, j.runID = r.id ∧ j.attempt = r.attempt
        ∧ j.status ≠ .created ∧ j.status ≠ .queued ∧ j.status ≠ .running
  := by
  have hrun : (((serverMachine.restrict writesFinished).follow Sample.server
      (Sample.recovering ++ [.issue 0])).map fun c =>
        decide (∃ r ∈ c.store.runs.rows, isTerminalRunStatus r.status = true
          ∧ ∃ j ∈ c.store.jobs.rows, j.runID = r.id ∧ j.attempt = r.attempt)) = some true := by
    decide
  obtain ⟨c, hfollow, hc⟩ := Option.map_eq_some_iff.mp hrun
  obtain ⟨r, hr, hterminal, j, hj, hrunID, hattempt⟩ := of_decide_eq_true hc
  obtain ⟨past, hexec, hwhen⟩ := Machine.Execution.of_follow_restrict Sample.server_init hfollow
  have hsettled := terminal_run_settled hexec hwhen r hr hterminal j hj hrunID hattempt
  exact ⟨_, c, hexec, hwhen, r, hr, hterminal, j, hj, hrunID, hattempt, hsettled⟩

/-- A run is cancelled and restarted after a recovery cycle read the jobs of its first attempt and
before the cycle writes the status: the run ends as cancelled with a queued job in its second
attempt. -/
theorem restart_between_list_and_write :
  ∃ past c, serverMachine.Execution past c
    ∧ ∃ r ∈ c.store.runs, r.status = .cancelled
      ∧ ∃ j ∈ c.store.jobs, j.runID = r.id ∧ j.attempt = r.attempt ∧ j.status = .queued
  := by
  have hrun : ((serverMachine.follow Sample.server (Sample.recovering
      ++ [.act (.request (.cancelRun ⟨"r"⟩)), .act (.request Sample.restart), .issue 0])).map
      fun c => decide (∃ r ∈ c.store.runs.rows, r.status = .cancelled
        ∧ ∃ j ∈ c.store.jobs.rows, j.runID = r.id ∧ j.attempt = r.attempt
          ∧ j.status = .queued)) = some true := by
    decide
  obtain ⟨c, hfollow, hc⟩ := Option.map_eq_some_iff.mp hrun
  obtain ⟨past, hexec, -⟩ := (Machine.Execution.start Sample.server_init).follow hfollow
  exact ⟨_, c, hexec, of_decide_eq_true hc⟩

/-! ### A run that runs -/

/-- A run that runs has an active job, or had none before. -/
theorem Attempt.Step.live {s s' : Attempt} (h : Attempt.Step true s s')
    (hcurrent : s'.number = s'.run.attempt) (hrunning : s'.run.status = .running) :
  (∃ j ∈ s'.jobs, j.status.active = true)
    ∨ (s.number = s.run.attempt ∧ s.run.status = .running
      ∧ ∀ j ∈ s.jobs, j.status.active = false)
  := by
  cases h with
  | idle =>
    by_cases hlive : ∃ j ∈ s.jobs, j.status.active = true
    · apply Or.inl hlive
    · right
      use hcurrent, hrunning
      intro j hj
      by_contra hactive
      apply hlive ⟨j, hj, by simpa using hactive⟩
  | claim | unclaim => exact Or.inl ⟨_, List.mem_append_right _ List.mem_cons_self, rfl⟩
  | @complete r a pre post j input rows accepted order =>
    left
    rcases evaluateRunAttemptTerminalStatus_cases rows with
      ⟨-, rfl | ⟨k, hk, hactive⟩⟩ | ⟨status, heval, hterminal, -⟩
    · have hlength := order.length_eq
      simp at hlength
    · exact ⟨k, order.mem_iff.mp hk, hactive⟩
    · -- the jobs have all ended, and so has the run
      have hended : status = .running := by
        rw [settledRun, heval] at hrunning
        apply hrunning
      rw [hended] at hterminal
      cases hterminal
  | settle status terminal other => apply absurd hcurrent other
  | cancelJobs statement => cases statement
  | @cancelRun r a l =>
    by_cases hactive : r.active = true
    · dsimp only at hrunning
      rw [RowUpdate.onlyIf_pos hactive] at hrunning
      cases hrunning
    · dsimp only at hrunning
      rw [RowUpdate.onlyIf_neg hactive] at hrunning
      apply absurd (active_iff.mpr _) hactive
      simp [hrunning]
  | leave stats terminal reached => apply absurd hcurrent reached
  | @enter r created stats terminal planned nonempty =>
    left
    cases created with
    | nil => apply absurd rfl nonempty
    | cons j rest =>
      use j, List.mem_cons_self
      rw [planned.1.status]
      rfl
  | @resume r pre post j stats now u terminal succeeded failed cancelled first rest =>
    left
    obtain ⟨d, hfirst⟩ := first
    use u.apply j, List.mem_append_right _ List.mem_cons_self
    rw [hfirst]
    rfl
  | stay stats now terminal other => apply absurd hcurrent other

/-- A run has an active job in the attempt it is in. -/
def Live (db : DB) (r : Run) : Prop :=
  ∃ j ∈ db.jobs, j.runID = r.id ∧ j.attempt = r.attempt ∧ j.status.active = true

/-- Every run that runs is live, or some program is about to set its status. -/
def Unwedged (c : ServerState) : Prop :=
  ∀ r ∈ c.store.runs, r.status = .running →
    Live c.store r ∨ ∃ p ∈ c.processes, Settles r.id r.attempt p

/-- Requests wedge no run. -/
theorem unwedged_of_evolves {db db' : DB} {processes : List (Tx Unit)} (hdb : WellFormed db)
    (h : Unwedged ⟨db, processes⟩) (hevolves : Evolves true db db') :
  Unwedged ⟨db', processes⟩
  := by
  intro r' hr' hrunning
  rcases hevolves.created r' hr' with ⟨r, hr, hid⟩ | hnew
  · obtain ⟨r'', hr'', hid'', hsteps⟩ := hevolves.kept r hr
    obtain rfl := Table.eq_of_key_eq hr'' hr' (hid''.trans hid)
    obtain ⟨l, hl⟩ := hdb.chained r.id r''.attempt
    obtain ⟨l', hl', hstep⟩ := hsteps r''.attempt l hl
    rcases hstep.live rfl hrunning with ⟨j, hj, hactive⟩ | ⟨hattempt, hran, hdead⟩
    · obtain ⟨hj, hjrun, hjattempt⟩ := hl'.mem_iff.mp hj
      exact Or.inl ⟨j, hj, hjrun.trans hid, hjattempt, hactive⟩
    · right
      rcases h r hr hran with ⟨j, hj, hjrun, hjattempt, hactive⟩ | ⟨p, hp, hsettles⟩
      · have hjdead := hdead j (hl.mem_iff.mpr ⟨hj, hjrun, hjattempt.trans hattempt.symm⟩)
        rw [hactive] at hjdead
        cases hjdead
      · dsimp only at hattempt
        rw [← hid, hattempt]
        exact ⟨p, hp, hsettles⟩
  · obtain ⟨l, hl, hattempt, -, -, ⟨hnumber, hplanned, hne⟩ | ⟨hother, -⟩⟩ := hnew r'.attempt
    · cases l with
      | nil => apply absurd rfl hne
      | cons j rest =>
        obtain ⟨hj, hjrun, hjattempt⟩ := hl.mem_iff.mp List.mem_cons_self
        have hactive : j.status.active = true := by
          rw [hplanned.1.status]
          rfl
        exact Or.inl ⟨j, hj, hjrun, hjattempt, hactive⟩
    · apply absurd hattempt hother

/-- Whether a run still runs although the jobs of its attempt have all ended. -/
def owesStatus (db : DB) (runID : RunID) : Bool :=
  db.runs.rows.any fun r => r.id = runID && r.status = .running && attemptFinished db r

/-- No statement with which a program reads the jobs of a run to set its status, or sets it, is
lost while the run is owed its status. -/
def settlesOwed (c : ServerState) : ServerEvent → Bool
  | .lose i _ | .stop i =>
    match c.processes[i]?.bind settling with
    | some runID => !owesStatus c.store runID
    | none => true
  | _ => true

theorem settler_cases {runID : RunID} {attempt : Nat} {before after : List (Tx Unit)}
    {p : Tx Unit} (h : ∃ s ∈ before ++ p :: after, Settles runID attempt s) (p' : Tx Unit) :
  Settles runID attempt p ∨ ∃ s ∈ before ++ p' :: after, Settles runID attempt s
  := by
  obtain ⟨s, hs, hsettles⟩ := h
  simp only [List.mem_append, List.mem_cons] at hs
  rcases hs with hs | rfl | hs
  · exact Or.inr ⟨s, by simp [hs], hsettles⟩
  · exact Or.inl hsettles
  · exact Or.inr ⟨s, by simp [hs], hsettles⟩

theorem finished_of_not_live {db : DB} (hdb : WellFormed db)
    (hplaced : OnAttempts Attempt.Placed db)
    {r : Run} (hr : r ∈ db.runs) (hdead : ¬ Live db r) :
  attemptFinished db r = true
  := by
  obtain ⟨l, hl⟩ := hdb.chained r.id r.attempt
  have hpopulated := hplaced r hr _ _ hl
  apply (attemptFinished_iff hl).mpr
  use hpopulated.populated hpopulated.counted (le_refl _)
  intro j hj
  obtain ⟨hj, hrun, hattempt⟩ := hl.mem_iff.mp hj
  rw [JobStatus.terminal, Bool.not_eq_true', ← Bool.not_eq_true]
  intro hactive
  apply hdead ⟨j, hj, hrun, hattempt, hactive⟩

theorem settles_of_read {db : DB} {r : Run} (hfinished : attemptFinished db r = true)
    {β : Type} {q : Query β} {b : β} {next : Except StoreError β → Tx Unit}
    (hreads : q.reads = true) (hexec : q.exec db = .ok (b, db))
    (h : Settles r.id r.attempt (.statement q next)) :
  Settles r.id r.attempt (next (.ok b))
  := by
  cases h with
  | list hnext =>
    cases hexec
    rcases evaluateRunAttemptTerminalStatus_cases (jobsOfAttempt db r.id r.attempt) with
      ⟨heval, -⟩ | ⟨status, heval, -⟩
    · simp [attemptFinished, settles, heval, Except.toOption] at hfinished
    · obtain ⟨next', hnext'⟩ := hnext _ status heval
      rw [hnext']
      apply Settles.write
  | write => cases hreads

/-- No move wedges a run unless a statement that is owed is lost. -/
theorem ServerMoves.unwedged {e : ServerEvent} {c c' : ServerState} (hmove : ServerMoves e c c')
    (hdb : WellFormed c.store) (hplaced : OnAttempts Attempt.Placed c.store)
    (hwhen : settlesOwed c e = true) (h : Unwedged c) :
  Unwedged c'
  := by
  cases hmove with
  | request whole step spawned =>
    have hevolves := (Operation.step_refines hdb step).evolves
    rw [whole] at hevolves
    intro r hr hrunning
    rcases unwedged_of_evolves hdb h hevolves r hr hrunning with hlive | ⟨p, hp, hsettles⟩
    · apply Or.inl hlive
    · exact Or.inr ⟨p, List.mem_append_left _ hp, hsettles⟩
  | recovery cutoff =>
    intro r hr hrunning
    rcases h r hr hrunning with hlive | ⟨p, hp, hsettles⟩
    · apply Or.inl hlive
    · exact Or.inr ⟨p, List.mem_append_left _ hp, hsettles⟩
  | @read db before after β q b next reads exec =>
    intro r hr hrunning
    by_cases hlive : Live db r
    · apply Or.inl hlive
    · right
      have hfinished := finished_of_not_live hdb hplaced hr hlive
      rcases settler_cases ((h r hr hrunning).resolve_left hlive) (next (.ok b)) with
        hsettles | hother
      · exact ⟨next (.ok b), by simp, settles_of_read hfinished reads exec hsettles⟩
      · apply hother
  | @cancelJobs db before after runID attempt next settles =>
    intro r hr hrunning
    by_cases hcancelled : r.id = runID ∧ r.attempt = attempt
    · obtain ⟨rfl, rfl⟩ := hcancelled
      exact Or.inr ⟨next (.ok ()), by simp, settles⟩
    · rcases h r hr hrunning with ⟨j, hj, hjrun, hjattempt, hactive⟩ | hsettler
      · have hother : Job.inAttempt runID attempt j = false := by
          simpa [Job.inAttempt, hjrun, hjattempt] using hcancelled
        exact Or.inl ⟨j, DB.mem_updateJobs.mpr ⟨j, hj, cancelJobsUpdate_neg hother⟩, hjrun,
          hjattempt, hactive⟩
      · rcases settler_cases hsettler (next (.ok ())) with hsettles | hother
        · cases hsettles.settling
        · apply Or.inr hother
  | @writeRun db before after runID status next terminal =>
    intro r' hr' hrunning
    obtain ⟨r, hr, rfl⟩ := DB.mem_updateRuns.mp hr'
    by_cases hid : r.id = runID
    · rw [RowUpdate.onlyIf_pos (by simpa using hid)] at hrunning
      have hstatus : status = .running := hrunning
      rw [hstatus] at terminal
      cases terminal
    · rw [RowUpdate.onlyIf_neg (by simpa using hid)] at hrunning ⊢
      rcases h r hr hrunning with hlive | hsettler
      · apply Or.inl hlive
      · rcases settler_cases hsettler (next (.ok ())) with hsettles | hother
        · cases hsettles.settling
          apply absurd rfl hid
        · apply Or.inr hother
  | @writeWave db before after waveID next =>
    intro r hr hrunning
    rcases h r hr hrunning with hlive | hsettler
    · apply Or.inl hlive
    · rcases settler_cases hsettler (next (.ok ())) with hsettles | hother
      · cases hsettles.settling
      · apply Or.inr hother
  | @lost e db before after β q next p event =>
    intro r hr hrunning
    by_cases hlive : Live db r
    · apply Or.inl hlive
    · right
      rcases settler_cases ((h r hr hrunning).resolve_left hlive) p with hsettles | hother
      · -- the statement that is lost is owed
        have howed : owesStatus db r.id = true := by
          apply List.any_eq_true.mpr ⟨r, hr, _⟩
          simp [hrunning, finished_of_not_live hdb hplaced hr hlive]
        rcases event with ⟨err, rfl⟩ | rfl <;>
          simp [settlesOwed, hsettles.settling, howed] at hwhen
      · apply hother

/-- The moves of the server keep jobs in their attempts. -/
theorem ServerMoves.placed {e : ServerEvent} {c c' : ServerState} (hmove : ServerMoves e c c')
    (hdb : WellFormed c.store) (h : OnAttempts Attempt.Placed c.store) :
  OnAttempts Attempt.Placed c'.store
  := by
  cases hmove with
  | request whole step spawned =>
    apply h.evolve placed_invariant.created (placed_invariant.step _) hdb
    apply (Operation.step_refines hdb step).evolves
  | recovery | read | lost => apply h
  | cancelJobs settles =>
    apply h.evolve placed_invariant.created (placed_invariant.step _) hdb
    apply (cancelActiveJobs_refines hdb _ _).evolves
  | @writeRun db before after runID status next terminal =>
    intro r' hr' a l hl
    obtain ⟨r, hr, rfl⟩ := DB.mem_updateRuns.mp hr'
    rw [RunUpdate.id_apply] at hl
    have hr' := h r hr a l (hl.of_jobs_eq rfl)
    apply hr'.of_jobs _ rfl hr'.left
    simp only [RowUpdate.onlyIf]
    split <;> rfl
  | writeWave =>
    intro r hr a l hl
    apply h r hr a l hl

/-- If no statement with which recovery settles a run is lost while the run is owed its status,
then a run that runs has an active job in its attempt whenever no program is half way through. -/
theorem running_run_live {past : List (ServerState × ServerEvent)} {c : ServerState}
    (h : serverMachine.Execution past c) (hwhen : ∀ x ∈ past, settlesOwed x.1 x.2 = true)
    (hquiet : c.Quiescent) :
  ∀ r ∈ c.store.runs, r.status = .running →
    ∃ j ∈ c.store.jobs, j.runID = r.id ∧ j.attempt = r.attempt
      ∧ (j.status = .created ∨ j.status = .queued ∨ j.status = .running)
  := by
  have hinv : OnAttempts Attempt.Placed c.store ∧ Unwedged c := by
    apply server_invariant settlesOwed _ _ h hwhen
    · intro db hdb
      have hnone : ∀ r, r ∉ db.runs := by
        intro r hr
        rw [← Table.mem_rows, hdb.2.1] at hr
        cases hr
      constructor
      · intro r hr
        apply absurd hr (hnone r)
      · intro r hr
        apply absurd hr (hnone r)
    · rintro c e c' hdb ⟨hplaced, hunwedged⟩ hall hmove
      apply And.intro (hmove.placed hdb hplaced) (hmove.unwedged hdb hplaced hall hunwedged)
  intro r hr hrunning
  rcases hinv.2 r hr hrunning with ⟨j, hj, hrun, hattempt, hactive⟩ | ⟨p, hp, hsettles⟩
  · exact ⟨j, hj, hrun, hattempt, JobStatus.active_iff.mp hactive⟩
  · have hended := hquiet p hp
    cases hsettles <;> cases hended

/-- A recovery cycle is stopped after it cancelled the jobs of an attempt, when it is about to read
them again; but the run was cancelled in the meantime, so no status is owed to it. It is then
restarted, and its first job claimed. -/
def Sample.overtaken : List ServerEvent :=
  Sample.recovering.take 5 ++ [.act (.request (.cancelRun ⟨"r"⟩)), .stop 0,
    .act (.request Sample.restart), .act (.request (.claimJob ⟨"n1"⟩ []))]

theorem running_run_live_sample :
  ∃ past c, serverMachine.Execution past c ∧ past.map Prod.snd = Sample.overtaken.reverse
    ∧ (∀ x ∈ past, settlesOwed x.1 x.2 = true) ∧ c.Quiescent
    ∧ ∃ r ∈ c.store.runs, r.status = .running
      ∧ ∃ j ∈ c.store.jobs, j.runID = r.id ∧ j.attempt = r.attempt
        ∧ (j.status = .created ∨ j.status = .queued ∨ j.status = .running)
  := by
  have hrun : (((serverMachine.restrict settlesOwed).follow Sample.server Sample.overtaken).map
      fun c => decide ((∀ p ∈ c.processes, p.ended = true)
        ∧ ∃ r ∈ c.store.runs.rows, r.status = .running)) = some true := by
    decide
  obtain ⟨c, hfollow, hc⟩ := Option.map_eq_some_iff.mp hrun
  obtain ⟨hquiet, r, hr, hrunning⟩ := of_decide_eq_true hc
  obtain ⟨past, hexec, hlabels⟩ :=
    Machine.Execution.of_follow (M := serverMachine.restrict settlesOwed) Sample.server_init hfollow
  obtain ⟨hexec, hwhen⟩ := hexec.of_restrict
  have hlive := running_run_live hexec hwhen hquiet r hr hrunning
  exact ⟨past, c, hexec, hlabels, hwhen, hquiet, r, hr, hrunning, hlive⟩

/-- A recovery cycle is stopped after it cancelled the jobs of an attempt: nothing is half way
through, and the run still runs without an active job. -/
theorem recovery_stopped_after_cancel :
  ∃ past c, serverMachine.Execution past c ∧ c.Quiescent
    ∧ ∃ r ∈ c.store.runs, r.status = .running
      ∧ ∀ j ∈ c.store.jobs, j.runID = r.id → j.attempt = r.attempt →
        j.status ≠ .created ∧ j.status ≠ .queued ∧ j.status ≠ .running
  := by
  have hrun : ((serverMachine.follow Sample.server (Sample.recovering.take 5 ++ [.stop 0])).map
      fun c => decide ((∀ p ∈ c.processes, p.ended = true)
        ∧ ∃ r ∈ c.store.runs.rows, r.status = .running
          ∧ ∀ j ∈ c.store.jobs.rows, j.runID = r.id → j.attempt = r.attempt →
            j.status ≠ .created ∧ j.status ≠ .queued ∧ j.status ≠ .running)) = some true := by
    decide
  obtain ⟨c, hfollow, hc⟩ := Option.map_eq_some_iff.mp hrun
  obtain ⟨past, hexec, -⟩ := (Machine.Execution.start Sample.server_init).follow hfollow
  obtain ⟨hquiet, hwedged⟩ := of_decide_eq_true hc
  exact ⟨_, c, hexec, hquiet, hwedged⟩

end Ploy
