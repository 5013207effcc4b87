import Ploy.Run.Shape

/-!
# The status of a run from its jobs

Once all jobs of an attempt are terminal, the last one decides. It is found by comparing successors
and metadata. Where metadata says nothing about it, it is the end of the chain; and as jobs that
succeeded come first in a chain, it succeeded only if all did.
-/

namespace Ploy

/-- Before a last job that succeeded all have succeeded. -/
theorem Shape.all_success
    {ss : List JobStatus} (h : Shape (ss ++ [.success])) :
  ∀ s ∈ ss, s = .success
  := by
  induction ss with
  | nil =>
    intro s hs
    cases hs
  | cons x ss ih =>
    have hlast : JobStatus.success ∈ ss ++ [.success] := by simp
    cases x with
    | success =>
      intro s hs
      rcases List.mem_cons.mp hs with rfl | hs
      · rfl
      · exact ih h s hs
    | queued | running | fail | error | cancelled => cases h _ hlast
    | created => exact h.elim

theorem IsChain.last_of_no_successor
    {db : DB} {run : RunID} {attempt : Nat} {pre : List Job} {last : Job}
    (h : IsChain db run attempt (pre ++ [last])) (hids : ∀ j ∈ pre ++ [last], j.id.isZero = false)
    {j : Job} (hj : j ∈ pre ++ [last])
    (hnext : ∀ next, j.nextID = some next → next.isZero = true) :
  j = last
  := by
  obtain ⟨front, rest, hsplit⟩ := List.append_of_mem hj
  have hlinked := h.2
  rw [hsplit] at hlinked hids
  have hsuccessor := hlinked.next_eq
  cases rest with
  | nil =>
    have hend := List.append_inj_right' hsplit rfl
    exact (List.cons.inj hend).1.symm
  | cons k rest =>
    have hzero := hnext k.id hsuccessor
    rw [hids k (by simp)] at hzero
    cases hzero

/-- The metadata of a job says nothing about its place, and its identifier is not blank. -/
def Job.unplaced (j : Job) : Bool :=
  nextIDFromMeta j.metadata = none && !j.id.isZero

/-- The last job of a chain that has ended decides. -/
theorem IsChain.lastTerminalJob
    {db : DB} {run : RunID} {attempt : Nat} {pre : List Job} {last : Job}
    (h : IsChain db run attempt (pre ++ [last]))
    (hterminal : ∀ j ∈ pre ++ [last], j.status.terminal = true)
    (hplain : ∀ j ∈ pre ++ [last], j.unplaced = true) :
  Ploy.lastTerminalJob ⟨none, none, none⟩ (jobsOfAttempt db run attempt) = some last
  := by
  have hmem : ∀ j, j ∈ jobsOfAttempt db run attempt ↔ j ∈ pre ++ [last] := by
    intro j
    rw [(jobsOfAttempt_perm db run attempt).mem_iff, h.1.mem_iff]
  have hids : ∀ j ∈ pre ++ [last], j.id.isZero = false := by
    intro j hj
    have hj := hplain j hj
    rw [Job.unplaced, Bool.and_eq_true, Bool.not_eq_true'] at hj
    exact hj.2
  apply lastTerminalJob_of_tail
  · intro j hj
    exact hterminal j ((hmem j).mp hj)
  · exact ⟨rfl, (fun j hj => nomatch hj), fun hne => absurd rfl hne⟩
  · intro j hj
    have hj := hplain j ((hmem j).mp hj)
    rw [Job.unplaced, Bool.and_eq_true, decide_eq_true_eq] at hj
    exact hj.1
  · intro j hj hnext
    exact h.last_of_no_successor hids ((hmem j).mp hj) hnext
  · exact h.2.next_eq
  · exact Or.inl ((hmem last).mpr (by simp))

/-- In every reachable store, once all jobs of an attempt are terminal and no metadata says which
job is the last: the attempt gives its run a status, which is success exactly when every job
succeeded. -/
theorem derived_status_follows_jobs
    {past : List (DB × Operation)} {db : DB} (h : storeMachine.Execution past db) {run : RunID}
    {attempt : Nat} {chain : List Job} (hchain : IsChain db run attempt chain) (hne : chain ≠ [])
    (hterminal : ∀ j ∈ chain, j.status.terminal = true)
    (hplain : ∀ j ∈ chain, j.unplaced = true) :
  ∃ status, evaluateRunAttemptTerminalStatus (jobsOfAttempt db run attempt) = .ok (some status)
    ∧ (status = .success ↔ ∀ j ∈ chain, j.status = .success)
    ∧ ((∃ j ∈ chain, j.status = .fail ∨ j.status = .error) → status ≠ .success)
  := by
  obtain ⟨pre, last, rfl⟩ : ∃ pre last, chain = pre ++ [last] :=
    ⟨_, _, (List.dropLast_append_getLast hne).symm⟩
  have hlast := hchain.lastTerminalJob hterminal hplain
  have hshape : Shape ((pre ++ [last]).map Job.status) := by
    obtain ⟨hj, hrun, hattempt⟩ := hchain.mem_iff.mp (show last ∈ pre ++ [last] by simp)
    obtain ⟨r, hr, hid, -⟩ := (wellFormed_of_execution h).referenced last hj
    have hchain' : IsChain db r.id attempt (pre ++ [last]) := by
      rwa [hid, hrun]
    exact onAttempts_of_execution shaped_invariant h r hr _ _ hchain'
  -- the last job succeeded only if all did
  have hall : last.status = .success ↔ ∀ j ∈ pre ++ [last], j.status = .success := by
    constructor
    · intro hsuccess j hj
      rw [List.map_append, List.map_singleton, hsuccess] at hshape
      rcases List.mem_append.mp hj with hj | hj
      · exact hshape.all_success _ (List.mem_map_of_mem hj)
      · rw [List.mem_singleton.mp hj]
        exact hsuccess
    · intro hsuccess
      exact hsuccess last (by simp)
  -- the status is success exactly when the last job succeeded
  have hstatus : ∃ status,
      evaluateRunAttemptTerminalStatus (jobsOfAttempt db run attempt) = .ok (some status)
        ∧ (status = .success ↔ last.status = .success) := by
    have hended := hterminal last (by simp)
    rw [evaluateRunAttemptTerminalStatus, hlast]
    dsimp only
    cases hs : last.status with
    | success | fail | error | cancelled => exact ⟨_, rfl, by simp⟩
    | created | queued | running => simp [hs, JobStatus.terminal, JobStatus.active] at hended
  obtain ⟨status, heval, hsuccess⟩ := hstatus
  refine ⟨status, heval, hsuccess.trans hall, ?_⟩
  rintro ⟨j, hj, hfailed⟩ heq
  have hj := hall.mp (hsuccess.mp heq) j hj
  rcases hfailed with hfailed | hfailed <;> rw [hfailed] at hj <;> cases hj

/-- A run whose second job failed is evaluated as not successful. -/
theorem derived_status_follows_jobs_sample :
  ∃ past db, storeMachine.Execution past db ∧ db.jobs.rows.map Job.status = [.fail, .success]
    ∧ ∃ status, evaluateRunAttemptTerminalStatus (jobsOfAttempt db ⟨"r"⟩ 1) = .ok (some status)
      ∧ status ≠ .success
  := by
  have hrun : ((storeMachine.follow Sample.store Sample.failing).map fun db =>
      (db.jobs.rows.map Job.status,
        db.jobs.rows.all fun j => j.runID = ⟨"r"⟩ && j.attempt = 1 && j.unplaced))
        = some ([.fail, .success], true) := by
    decide +kernel
  obtain ⟨db, hfollow, hdb⟩ := Option.map_eq_some_iff.mp hrun
  rw [Prod.mk.injEq, List.all_eq_true] at hdb
  obtain ⟨hstatuses, hjobs⟩ := hdb
  obtain ⟨past, hexec, -⟩ := (Machine.Execution.start Sample.initial).follow hfollow
  obtain ⟨chain, hchain⟩ := (wellFormed_of_execution hexec).chained ⟨"r"⟩ 1
  have hfailed : ∃ j ∈ chain, j.status = .fail := by
    have hmem : JobStatus.fail ∈ db.jobs.rows.map Job.status := by simp [hstatuses]
    obtain ⟨j, hj, hstatus⟩ := List.mem_map.mp hmem
    have hin := hjobs j hj
    simp only [Bool.and_eq_true, decide_eq_true_eq] at hin
    exact ⟨j, hchain.mem_iff.mpr ⟨hj, hin.1.1, hin.1.2⟩, hstatus⟩
  obtain ⟨j, hj, hstatus⟩ := hfailed
  obtain ⟨status, heval, -, hfail⟩ := derived_status_follows_jobs hexec hchain
    (List.ne_nil_of_mem hj)
    (by
      intro k hk
      have hmem : k.status ∈ db.jobs.rows.map Job.status :=
        List.mem_map_of_mem (hchain.mem_iff.mp hk).1
      rw [hstatuses] at hmem
      revert hmem
      cases k.status <;> decide)
    (by
      intro k hk
      have hin := hjobs k (hchain.mem_iff.mp hk).1
      rw [Bool.and_eq_true] at hin
      exact hin.2)
  exact ⟨_, db, hexec, hstatuses, status, heval, hfail ⟨j, hj, Or.inl hstatus⟩⟩

namespace Sample

/-- The first job succeeds, and its metadata says that it is the last one. -/
def placed : List Operation :=
  [create, .claimJob ⟨"n1"⟩ [],
    .completeJob { report "j0" .success terminal_success 0 with
      jobMeta := some (.object [("kind", .other "\"mig\""), ("next_id", .int 1)]) },
    .claimJob ⟨"n1"⟩ [], .completeJob (report "j1" .fail terminal_fail 0)]

end Sample

/-- A node reports metadata with a `next_id` for the first job of a run. Its second job fails, and
the run is evaluated as successful. -/
theorem derived_status_overridden_by_metadata :
  ∃ past db, storeMachine.Execution past db ∧ (∀ j ∈ db.jobs, j.status.terminal = true)
    ∧ (∃ j ∈ db.jobs, j.runID = ⟨"r"⟩ ∧ j.attempt = 1 ∧ j.status = .fail)
    ∧ evaluateRunAttemptTerminalStatus (jobsOfAttempt db ⟨"r"⟩ 1) = .ok (some .success)
  := by
  have hrun : ((storeMachine.follow Sample.store Sample.placed).map fun db =>
      db.jobs.rows.all (fun j => j.status.terminal)
        && db.jobs.rows.any (fun j => j.runID = ⟨"r"⟩ && j.attempt = 1 && j.status = .fail)
        && (evaluateRunAttemptTerminalStatus (jobsOfAttempt db ⟨"r"⟩ 1)).toOption
          = some (some .success)) = some true := by
    decide +kernel
  obtain ⟨db, hfollow, hdb⟩ := Option.map_eq_some_iff.mp hrun
  simp only [Bool.and_eq_true, List.all_eq_true, List.any_eq_true, decide_eq_true_eq] at hdb
  obtain ⟨⟨hterminal, j, hj, ⟨hrunID, hattempt⟩, hstatus⟩, heval⟩ := hdb
  obtain ⟨past, hexec, -⟩ := (Machine.Execution.start Sample.initial).follow hfollow
  refine ⟨_, db, hexec, hterminal, ⟨j, hj, hrunID, hattempt, hstatus⟩, ?_⟩
  cases hresult : evaluateRunAttemptTerminalStatus (jobsOfAttempt db ⟨"r"⟩ 1) with
  | error e =>
    rw [hresult] at heval
    cases heval
  | ok status =>
    rw [hresult] at heval
    exact congrArg Except.ok (Option.some.inj heval)

end Ploy
