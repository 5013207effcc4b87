import Ploy.Run.Lifecycle
import Ploy.Server.Completion

/-!
# Execution fencing

An execution of a job is named by the job, the attempt and the resume count. A completion is
accepted only for the execution the run is in, and only once for each execution.
-/

namespace Ploy

open Program

/-! ### What steps do to the identity and the activity of jobs -/

theorem Attempt.Step.ids {whole : Bool} {s s' : Attempt} (h : Attempt.Step whole s s')
    {id : JobID} (hid : id ∈ s.jobs.map Job.id) :
  id ∈ s'.jobs.map Job.id
  := by
  cases h with
  | idle | settle | stay => apply hid
  | claim | unclaim | cancelJobs | cancelRun | resume => simpa [JobUpdate.id_apply] using hid
  | complete input rows accepted order =>
    rw [List.map_append, List.map_cons,
      input.map_after Job.id (fun _ _ => rfl) (fun _ => rfl) fun _ => rfl]
    simpa [CompletionInput.completed, JobUpdate.id_apply] using hid
  | leave =>
    split
    · simpa [JobUpdate.id_apply] using hid
    · apply hid
  | enter => cases hid

theorem active_of_after {input : CompletionInput} {j : Job} {post : List Job} {k' : Job}
    (hk' : k' ∈ input.after j post) (hactive : k'.status.active = true) :
  ∃ k ∈ post, k.id = k'.id ∧ k.status.active = true
  := by
  revert hactive
  apply input.forall_after _ _ _ _ k' hk'
  · intro _ _ hk
    apply hk
  · intro k hcreated hk _
    apply hk (by rw [hcreated]; rfl)
  · intro _ _ _ hactive
    cases hactive
  · intro k hk hactive
    exact ⟨k, hk, rfl, hactive⟩

/-- A job becomes active again only in a later attempt or execution. -/
theorem Attempt.Step.active_of {whole : Bool} {s s' : Attempt} (h : Attempt.Step whole s s')
    {j' : Job} (hj' : j' ∈ s'.jobs) (hactive : j'.status.active = true) :
  (∃ j ∈ s.jobs, j.id = j'.id ∧ j.status.active = true)
    ∨ s.run.attempt < s'.run.attempt ∨ s.run.stats.resumeCount < s'.run.stats.resumeCount
  := by
  -- a job in the place of another one
  have hreplace : ∀ {pre post post' : List Job} {j k : Job}, j' ∈ pre ++ k :: post' →
      k.id = j.id → (k.status.active = true → j.status.active = true) →
      (j' ∈ post' → ∃ m ∈ post, m.id = j'.id ∧ m.status.active = true) →
      ∃ m ∈ pre ++ j :: post, m.id = j'.id ∧ m.status.active = true := by
    intro pre post post' j k hmem hid hk hpost
    simp only [List.mem_append, List.mem_cons] at hmem
    rcases hmem with hmem | rfl | hmem
    · exact ⟨j', by simp [hmem], rfl, hactive⟩
    · exact ⟨j, by simp, hid.symm, hk hactive⟩
    · obtain ⟨m, hm, hmid, hmactive⟩ := hpost hmem
      exact ⟨m, by simp [hm], hmid, hmactive⟩
  have hcancelled : ∀ {l : List Job}, j' ∉ l.map cancelIfActive.apply := by
    intro l hmem
    have hterminal := terminal_cancelIfActive hmem
    rw [JobStatus.terminal, hactive] at hterminal
    cases hterminal
  cases h with
  | idle | settle | stay => exact Or.inl ⟨j', hj', rfl, hactive⟩
  | claim n now running queued owner =>
    left
    apply hreplace hj'
    · rfl
    · intro _
      rw [queued]
      rfl
    · intro hmem
      exact ⟨j', hmem, rfl, hactive⟩
  | unclaim running =>
    left
    apply hreplace hj'
    · rfl
    · intro _
      rw [running]
      rfl
    · intro hmem
      exact ⟨j', hmem, rfl, hactive⟩
  | complete input rows accepted order =>
    left
    apply hreplace hj'
    · rfl
    · intro _
      rw [accepted.running]
      rfl
    · intro hmem
      apply active_of_after hmem hactive
  | cancelJobs | cancelRun => apply absurd hj' hcancelled
  | leave | enter => exact Or.inr (Or.inl (Nat.lt_succ_self _))
  | resume =>
    right
    right
    rw [resumeCount_resumeRow]
    apply Nat.lt_succ_self

/-! ### Executions that are over -/

/-- An execution of a job, as a claim response names it. -/
structure ExecutionTag where
  jobID : JobID
  attempt : Nat
  resumeCount : Int
  deriving DecidableEq, Repr

def NodeClaimResponse.tag (response : NodeClaimResponse) : ExecutionTag :=
  ⟨response.jobID, response.attempt, response.resumeCount⟩

/-- The execution `count` of the job `id` is over: the run moved on to another attempt, or to a
later execution of this one, or the job has ended. -/
structure Attempt.Over (id : JobID) (count : Int) (s : Attempt) : Prop where
  job : id ∈ s.jobs.map Job.id
  past : s.number < s.run.attempt ∨ s.number = s.run.attempt
    ∧ (count < s.run.stats.resumeCount ∨ count = s.run.stats.resumeCount
      ∧ ∀ j ∈ s.jobs, j.id = id → j.status.terminal = true)

/-- An execution that is over stays over. -/
theorem Attempt.Over.step {whole : Bool} {id : JobID} {count : Int} {s s' : Attempt}
    (h : s.Over id count) (hstep : Attempt.Step whole s s') :
  s'.Over id count
  := by
  use hstep.ids h.job
  obtain ⟨hnumber, hcounters⟩ := hstep.counters
  rw [hnumber]
  rcases h.past with hleft | ⟨hcurrent, hlater | ⟨hcount, hended⟩⟩
  · omega
  · omega
  · -- only within one execution does it matter what the job does
    rcases hcounters with ⟨hattempt, hresume⟩ | hnext | ⟨hattempt, hresume⟩
    · right
      refine ⟨by omega, Or.inr ⟨by omega, ?_⟩⟩
      intro j' hj' hid
      by_contra hactive
      rw [JobStatus.terminal, Bool.not_eq_true', Bool.not_eq_false] at hactive
      rcases hstep.active_of hj' hactive with ⟨j, hj, hsame, hjactive⟩ | hlt | hlt
      · have hterminal := hended j hj (hsame.trans hid)
        rw [JobStatus.terminal, hjactive] at hterminal
        cases hterminal
      · omega
      · omega
    · omega
    · omega

/-- A completion ends the execution that it names. -/
theorem completeJob_over {db db' : DB} (hdb : WellFormed db) {input : CompletionInput}
    {result : Option Run} (h : (completeJob input).transaction engine db = .ok (result, db')) :
  ∃ r ∈ db.runs, ∃ j ∈ db.jobs, j.runID = r.id ∧ j.attempt = r.attempt
    ∧ Completable input r j.attempt j
    ∧ OnAttempt j.runID j.attempt (Attempt.Over j.id input.resumeCount) db'
  := by
  obtain ⟨r, hr, pre, j, post, hchain, haccepted, u, rows, -, hmap, -, rfl, -⟩ :=
    completeJob_effect hdb h
  have hmem : j ∈ pre ++ j :: post := by simp
  obtain ⟨hj, hrun, hattempt⟩ := hchain.mem_iff.mp hmem
  refine ⟨r, hr, j, hj, hrun, hattempt, hattempt ▸ haccepted, ?_⟩
  have hchain' : IsChain ((db.updateJobs u).updateRuns (settleUpdate r.id rows)) r.id r.attempt
      (pre ++ input.completed j :: input.after j post) := by
    rw [← hmap]
    apply (hchain.updateJobs u).of_jobs_eq rfl
  rw [hrun, hattempt]
  refine ⟨_, DB.mem_updateRuns.mpr ⟨r, hr, rfl⟩, RunUpdate.id_apply _ r, _, hchain', ?_, ?_⟩
  · rw [List.map_append, List.map_cons]
    apply List.mem_append_right
    apply List.mem_cons_self
  · right
    rw [settleUpdate_self, attempt_settledRun, resumeCount_settledRun]
    refine ⟨rfl, Or.inr ⟨haccepted.resumeCount.symm, ?_⟩⟩
    intro k hk hid
    have hdone : k = input.completed j := by
      apply hchain'.eq_of_id_eq (by simp) (hchain'.mem_iff.mp hk).1
      apply hid
    rw [hdone]
    apply input.terminal

/-! ### Histories -/

/-- The execution that a step of a history completed. -/
def completedExecution : DB × Operation → Option ExecutionTag
  | (db, .completeJob input) =>
    (db.jobs.find? input.jobID).map fun j => ⟨j.id, j.attempt, input.resumeCount⟩
  | _ => none

def ExecutionTag.Over (tag : ExecutionTag) (db : DB) : Prop :=
  ∃ run, OnAttempt run tag.attempt (Attempt.Over tag.jobID tag.resumeCount) db

theorem ExecutionTag.Over.step {tag : ExecutionTag} {db db' : DB} (h : tag.Over db)
    (hdb : WellFormed db) {op : Operation} (hstep : op.step db = some db') :
  tag.Over db'
  := by
  obtain ⟨run, hover⟩ := h
  use run
  apply hover.evolve _ (Operation.step_refines hdb hstep).evolves
  intro s s' _ hs hstep
  apply hs.step hstep

/-- A completion that is accepted is of an execution that is not over. -/
theorem not_over_of_completable {db : DB} {input : CompletionInput} {r : Run} (hr : r ∈ db.runs)
    {j : Job} (hj : j ∈ db.jobs) (hrun : j.runID = r.id) (hattempt : j.attempt = r.attempt)
    (haccepted : Completable input r j.attempt j) :
  ¬ ExecutionTag.Over ⟨j.id, j.attempt, input.resumeCount⟩ db
  := by
  rintro ⟨run, r', hr', rfl, l, hl, hjob, hover⟩
  obtain ⟨j', hj', hid⟩ := List.mem_map.mp hjob
  obtain rfl := hl.eq_of_id_eq hj' hj hid.symm
  obtain ⟨-, hrun', -⟩ := hl.mem_iff.mp hj'
  obtain rfl := Table.eq_of_key_eq hr' hr (hrun'.symm.trans hrun)
  rcases hover with hleft | ⟨-, hlater | ⟨-, hended⟩⟩
  · dsimp only at hleft
    omega
  · have hcount := haccepted.resumeCount
    dsimp only at hlater
    omega
  · have hterminal := hended j hj' rfl
    rw [haccepted.running] at hterminal
    cases hterminal

/-- Every execution is completed once at most. -/
theorem completedExecutions_over {past : List (DB × Operation)} {db : DB}
    (h : storeMachine.Execution past db) :
  (past.filterMap completedExecution).Nodup
    ∧ ∀ tag ∈ past.filterMap completedExecution, tag.Over db
  := by
  induction h with
  | start _ => simp
  | @step past db db' op hexec hstep ih =>
    obtain ⟨hnodup, hover⟩ := ih
    have hdb := wellFormed_of_execution hexec
    have hkept : ∀ tag ∈ past.filterMap completedExecution, tag.Over db' := by
      intro tag htag
      apply (hover tag htag).step hdb hstep
    cases op with
    | completeJob input =>
      change Operation.step (.completeJob input) db = some db' at hstep
      rw [Operation.step, committed_eq_some] at hstep
      obtain ⟨result, hcomplete⟩ := hstep
      obtain ⟨r, hr, j, hj, hrun, hattempt, haccepted, hnew⟩ := completeJob_over hdb hcomplete
      have htag : completedExecution (db, .completeJob input)
          = some ⟨j.id, j.attempt, input.resumeCount⟩ := by
        rw [completedExecution, ← haccepted.job, Table.find?_of_mem hj]
        rfl
      rw [List.filterMap_cons_some htag]
      constructor
      · apply List.nodup_cons.mpr ⟨_, hnodup⟩
        intro hmem
        apply not_over_of_completable hr hj hrun hattempt haccepted (hover _ hmem)
      · intro tag hmem
        rcases List.mem_cons.mp hmem with rfl | hmem
        · exact ⟨j.runID, hnew⟩
        · apply hkept tag hmem
    | _ => exact ⟨hnodup, hkept⟩

/-- A job keeps the attempt in which it was claimed. -/
theorem attempt_of_claimed {past : List (DB × Operation)} {db : DB}
    (h : storeMachine.Execution past db) {db₁ db₂ : DB} {nodeID : NodeID} {skipLocked : List JobID}
    (hmem : (db₁, .claimJob nodeID skipLocked) ∈ past) {claimed : Job}
    (hclaim : (claimJob nodeID skipLocked).transaction engine db₁ = .ok (claimed, db₂)) {j : Job}
    (hj : j ∈ db.jobs) (hid : j.id = claimed.id) :
  j.attempt = claimed.attempt
  := by
  obtain ⟨later, earlier, rfl⟩ := List.append_of_mem hmem
  have hkept : OnAttempt claimed.runID claimed.attempt
      (fun s => claimed.id ∈ s.jobs.map Job.id) db := by
    apply h.since
    · intro db₂' hexec hstep
      have hdb := wellFormed_of_execution hexec
      obtain ⟨n, -, rfl, k, hk, -, rfl, -⟩ := claimJob_effect hclaim
      obtain ⟨r, hr, hrid, -⟩ := hdb.referenced k hk
      obtain ⟨l, hl⟩ := hdb.chained k.runID k.attempt
      have hkl : k ∈ l := hl.mem_iff.mpr ⟨hk, rfl, rfl⟩
      have hbefore : OnAttempt k.runID k.attempt (fun s => k.id ∈ s.jobs.map Job.id) db₁ :=
        ⟨r, hr, hrid, l, hl, List.mem_map_of_mem hkl⟩
      apply hbefore.evolve _ (evolves_of_execution hexec hstep)
      intro s s' _ hs hstep
      apply hstep.ids hs
    · intro past db op db' hexec hkept hstep
      apply hkept.evolve _ (evolves_of_execution hexec hstep)
      intro s s' _ hs hstep
      apply hstep.ids hs
  obtain ⟨r, -, -, l, hl, hin⟩ := hkept
  obtain ⟨k, hk, hkid⟩ := List.mem_map.mp hin
  obtain rfl := hl.eq_of_id_eq hk hj (hid.trans hkid.symm)
  apply (hl.mem_iff.mp hk).2.2

/-- At all times a completion request changes the store only if the job runs on the node that
sends it, in the attempt that the run is in and with its resume count; so a request for an
execution that a claim response named is refused unless the run is in that execution. Each
execution is completed by at most one request. -/
theorem completion_fencing {past : List (DB × Operation)} {db : DB}
    (h : storeMachine.Execution past db) :
  (∀ input, (serveCompletion input db).2 ≠ db →
      ∃ r ∈ db.runs, ∃ j ∈ db.jobs, j.id = input.jobID ∧ j.runID = r.id
        ∧ j.attempt = r.attempt ∧ input.resumeCount = r.stats.resumeCount
        ∧ j.status = .running ∧ j.nodeID = some input.nodeID
        ∧ ∀ db₁ nodeID skipLocked claimed db₂ run, (db₁, .claimJob nodeID skipLocked) ∈ past →
          (claimJob nodeID skipLocked).transaction engine db₁ = .ok (claimed, db₂) →
          ∀ response, response = buildJobClaimPayload run claimed →
            response.jobID = input.jobID → (response.resumeCount : Int) = input.resumeCount →
            response.tag = ⟨j.id, r.attempt, r.stats.resumeCount⟩)
    ∧ (past.filterMap completedExecution).Nodup
  := by
  constructor
  · intro input hchanged
    cases hcomplete : (completeJob input).transaction engine db with
    | error e =>
      rw [serveCompletion, hcomplete] at hchanged
      apply absurd rfl hchanged
    | ok x =>
      obtain ⟨result, db'⟩ := x
      obtain ⟨r, hr, j, hj, hrun, hattempt, haccepted, -⟩ :=
        completeJob_over (wellFormed_of_execution h) hcomplete
      refine ⟨r, hr, j, hj, haccepted.job, hrun, hattempt, haccepted.resumeCount.symm,
        haccepted.running, haccepted.owner, ?_⟩
      rintro db₁ nodeID skipLocked claimed db₂ run hmem hclaim response rfl hid hcount
      have hsame := attempt_of_claimed h hmem hclaim hj (haccepted.job.trans hid.symm)
      rw [NodeClaimResponse.tag, hid, hcount, ← haccepted.job, ← haccepted.resumeCount, ← hattempt,
        hsame]
      rfl
  · apply (completedExecutions_over h).1

/-- The second job of a run is reported as failed by the node it runs on: the report is accepted,
as the job runs in the execution that is reported. -/
theorem completion_fencing_sample :
  ∃ past db, storeMachine.Execution past db
    ∧ (serveCompletion (Sample.report "j1" .fail rfl 0) db).2 ≠ db
    ∧ (∃ r ∈ db.runs, ∃ j ∈ db.jobs, j.id = ⟨"j1"⟩ ∧ j.attempt = r.attempt
      ∧ 0 = (r.stats.resumeCount : Int) ∧ j.status = .running ∧ j.nodeID = some ⟨"n1"⟩)
    ∧ (past.filterMap completedExecution).Nodup
  := by
  have hrun : ((storeMachine.follow Sample.store (Sample.failing.take 4)).map fun db =>
      decide ((serveCompletion (Sample.report "j1" .fail rfl 0) db).2.jobs.rows ≠ db.jobs.rows))
        = some true := by
    decide
  obtain ⟨db, hfollow, hchanged⟩ := Option.map_eq_some_iff.mp hrun
  obtain ⟨past, hexec, -⟩ := (Machine.Execution.start Sample.initial).follow hfollow
  have hne : (serveCompletion (Sample.report "j1" .fail rfl 0) db).2 ≠ db := by
    intro hsame
    apply of_decide_eq_true hchanged
    rw [hsame]
  obtain ⟨haccepted, hnodup⟩ := completion_fencing hexec
  obtain ⟨r, hr, j, hj, hid, -, hattempt, hcount, hrunning, howner, -⟩ := haccepted _ hne
  exact ⟨_, db, hexec, hne, ⟨r, hr, j, hj, hid, hattempt, hcount, hrunning, howner⟩, hnodup⟩

end Ploy
