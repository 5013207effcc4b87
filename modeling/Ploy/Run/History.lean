import Ploy.Run.Shape

/-!
# What stays

Runs are not removed, and their counters do not go back. A job that succeeded, and every job of an
attempt that its run has left, keeps its row as it is.
-/

namespace Ploy

variable {later earlier : List (DB × Operation)} {db₀ db : DB} {op : Operation}

theorem OnAttempt.since {run : RunID} {a : Nat} {I : Attempt → Prop}
    (hstep : ∀ whole s s', s.Placed → s.Shaped → I s → Attempt.Step whole s s' → I s')
    (h : storeMachine.Execution (later ++ (db₀, op) :: earlier) db)
    (hfirst : WellFormed db₀ → OnAttempt run a I db₀) :
  OnAttempt run a I db
  := by
  have hnext : ∀ past db op db', storeMachine.Execution past db → OnAttempt run a I db →
      storeMachine.step op db = some db' → OnAttempt run a I db' := by
    rintro past db op db' hexec ⟨r, hr, rfl, l, hl, hI⟩ hs
    have hplaced := onAttempts_of_execution placed_invariant hexec r hr a l hl
    have hshaped := onAttempts_of_execution shaped_invariant hexec r hr a l hl
    have hall : OnAttempt r.id a (fun s => s.Placed ∧ s.Shaped ∧ I s) db :=
      ⟨r, hr, rfl, l, hl, hplaced, hshaped, hI⟩
    apply hall.evolve _ (evolves_of_execution hexec hs)
    intro s s' _ hs hstep'
    apply hstep _ s s' hs.1 hs.2.1 hs.2.2 hstep'
  apply h.since _ hnext
  intro db₁ hexec hs
  apply hnext _ _ _ _ hexec (hfirst (wellFormed_of_execution hexec)) hs

/-- A job of an attempt that succeeded, or whose attempt the run has left. -/
structure Attempt.Final (j : Job) (s : Attempt) : Prop where
  job : j ∈ s.jobs
  past : j.status = .success ∨ s.number < s.run.attempt

theorem Attempt.Final.terminal {j : Job} {s : Attempt} (h : s.Final j) (hplaced : s.Placed) :
  j.status.terminal = true
  := by
  rcases h.past with hs | hleft
  · rw [hs]
    rfl
  · apply hplaced.left hleft j h.job

theorem mem_cancelIfActive {j : Job} {l : List Job} (hj : j ∈ l) (h : j.status.terminal = true) :
  j ∈ l.map cancelIfActive.apply
  := by
  apply List.mem_map.mpr
  use j, hj
  apply RowUpdate.onlyIf_neg
  simpa [JobStatus.terminal] using h

/-- A job that succeeded, or whose attempt was left, stays as it is. -/
theorem Attempt.Final.step {j : Job} (whole : Bool) (s s' : Attempt) (hplaced : s.Placed)
    (hshaped : s.Shaped) (h : s.Final j) (hstep : Attempt.Step whole s s') :
  s'.Final j
  := by
  have hterminal := h.terminal hplaced
  obtain ⟨hj, hpast⟩ := h
  have hcounters := hstep.counters
  refine ⟨?_, hpast.imp_right fun _ => by omega⟩
  cases hstep with
  | idle | settle | stay => apply hj
  | claim n now running hopen | unclaim hopen =>
    -- the row that is written is not one that has ended
    simp only [List.mem_append, List.mem_cons] at hj ⊢
    rcases hj with hj | rfl | hj
    · exact Or.inl hj
    · rw [hopen] at hterminal
      cases hterminal
    · exact Or.inr (Or.inr hj)
  | complete input rows accepted order =>
    -- the rows after it still wait, so that no output is handed to one that has ended
    obtain ⟨-, hpost⟩ := hshaped.around (Or.inr accepted.running)
    rcases List.mem_append.mp hj with hj | hj
    · apply List.mem_append_left _ hj
    · rcases List.mem_cons.mp hj with rfl | hj
      · rw [accepted.running] at hterminal
        cases hterminal
      · rw [hpost j hj] at hterminal
        cases hterminal
  | cancelJobs | cancelRun => apply mem_cancelIfActive hj hterminal
  | leave stats terminal reached =>
    dsimp only
    split
    · apply mem_cancelIfActive hj hterminal
    · apply hj
  | enter => cases hj
  | resume stats now u terminal succeeded failed cancelled first rest =>
    have hs := hpast.resolve_right (lt_irrefl _)
    rcases List.mem_append.mp hj with hj | hj
    · apply List.mem_append_left _ hj
    · rcases List.mem_cons.mp hj with rfl | hj
      · rcases failed.failed with hf | hf <;> cases hs.symm.trans hf
      · cases hs.symm.trans (cancelled j hj).cancelled

/-- Under the operations of the store, a run stays in it and never goes back to an earlier attempt
or to an earlier execution of one. The row of a job that succeeded, and that of a job in an attempt
that its run has left, is never changed or removed again. -/
theorem history_stays (h : storeMachine.Execution (later ++ (db₀, op) :: earlier) db) :
  (∀ r ∈ db₀.runs, ∃ r' ∈ db.runs, r'.id = r.id ∧ (r.attempt < r'.attempt
      ∨ r.attempt = r'.attempt ∧ r.stats.resumeCount ≤ r'.stats.resumeCount))
    ∧ ∀ j ∈ db₀.jobs, (j.status = .success
        ∨ ∀ r ∈ db₀.runs, r.id = j.runID → j.attempt < r.attempt) →
      j ∈ db.jobs
  := by
  constructor
  · intro r hr
    have hrun : OnAttempt r.id r.attempt (fun s => r.attempt < s.run.attempt
        ∨ r.attempt = s.run.attempt ∧ r.stats.resumeCount ≤ s.run.stats.resumeCount) db := by
      apply OnAttempt.since _ h
      · intro hdb
        obtain ⟨l, hl⟩ := hdb.chained r.id r.attempt
        exact ⟨r, hr, rfl, l, hl, Or.inr ⟨rfl, le_rfl⟩⟩
      · intro whole s s' _ _ hs hstep
        have hcounters := hstep.counters
        omega
    obtain ⟨r', hr', hid, l, hl, hle⟩ := hrun
    exact ⟨r', hr', hid, hle⟩
  · intro j hj hfinal
    have hrow : OnAttempt j.runID j.attempt (Attempt.Final j) db := by
      apply OnAttempt.since Attempt.Final.step h
      intro hdb
      obtain ⟨r, hr, hid, -⟩ := hdb.referenced j hj
      obtain ⟨l, hl⟩ := hdb.chained j.runID j.attempt
      have hmem := hl.mem_iff.mpr ⟨hj, rfl, rfl⟩
      exact ⟨r, hr, hid, l, hl, hmem, hfinal.imp_right fun hleft => hleft r hr hid⟩
    obtain ⟨r, hr, hid, l, hl, hlast⟩ := hrow
    exact (hl.mem_iff.mp hlast.job).1

/-- The job that succeeded is still there when the one that failed is retried. -/
theorem history_stays_sample :
  ∃ db₀ op past db, storeMachine.Execution ((db₀, op) :: past) db
    ∧ ∃ j ∈ db₀.jobs, j.status = .success ∧ j ∈ db.jobs
  := by
  have hrun : ((storeMachine.follow Sample.store Sample.failing).bind fun db₀ =>
      (storeMachine.step (.restartRun (fun _ => ⟨""⟩) Sample.retry) db₀).map fun _ =>
        db₀.jobs.rows.map Job.status) = some [.fail, .success] := by
    decide
  obtain ⟨db₀, hfollow, hrun⟩ := Option.bind_eq_some_iff.mp hrun
  obtain ⟨db, hretry, hjobs⟩ := Option.map_eq_some_iff.mp hrun
  obtain ⟨past, hexec, -⟩ := (Machine.Execution.start Sample.initial).follow hfollow
  have hsuccess : JobStatus.success ∈ db₀.jobs.rows.map Job.status := by simp [hjobs]
  obtain ⟨j, hj, hstatus⟩ := List.mem_map.mp hsuccess
  have hexec' := hexec.step hretry
  exact ⟨db₀, _, _, db, hexec', j, hj, hstatus,
    (history_stays (show storeMachine.Execution ([] ++ _ :: _) db from hexec')).2 j hj
      (Or.inl hstatus)⟩

end Ploy
