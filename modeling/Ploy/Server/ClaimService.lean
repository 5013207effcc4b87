import Ploy.Isolation.Statements
import Ploy.Server.Completion

/-!
# Serving a claim

A node asks for work. A job is moved to the node, and then the run, the repository and the spec of
the job are read and the response is put together. Any of these can fail after the job was moved;
the job is then given back, or ended where it can never be executed.
-/

namespace Ploy

open Program

/-! ### The service -/

/-- Why the response to a claim cannot be built: the job can never be executed, or another
reason. -/
inductive PayloadError where
  | terminal (text : String)
  | other (text : String)
  deriving DecidableEq, Repr

/-- What fails while a claim is served, each with its error. -/
structure ClaimFaults where
  getNode : Option StoreError := none
  claimJob : Option StoreError := none
  getRun : Option StoreError := none
  getRepo : Option StoreError := none
  getSpec : Option StoreError := none
  payload : Option PayloadError := none
  completion : Option StoreError := none
  reconcileWave : Option StoreError := none
  unclaimJob : Option StoreError := none
  deriving DecidableEq, Repr

/-- What a node is told when it is given no job. -/
inductive ClaimError where
  | claimNotFound (message : String)
  | claimNoWork
  | claimInternal (message : String)
  deriving DecidableEq, Repr

/-- Selecting one row, which can fail, and is an error when there is none. -/
def reading {α : Type} (fault : Option StoreError) (row : Option α) : Except StoreError α :=
  match fault, row with
  | some e, _ => .error e
  | none, some a => .ok a
  | none, none => .error .noRows

def moveJob (faults : ClaimFaults) (nodeID : NodeID) (skipLocked : List JobID) (db : DB) :
    Except StoreError (Job × DB) :=
  match faults.claimJob with
  | some e => .error e
  | none => (claimJob nodeID skipLocked).transaction engine db

/-- Reading what belongs to a claimed job: its run, its repository and the spec of the run. -/
def readClaimed (faults : ClaimFaults) (job : Job) (db : DB) : Except ClaimError Run :=
  match reading faults.getRun (db.runs.find? job.runID) with
  | .error _ => .error (.claimInternal "failed to get run for claimed job")
  | .ok run =>
    match reading faults.getRepo (db.repos.find? job.repoID) with
    | .error _ => .error (.claimInternal "failed to get repo for claimed job")
    | .ok _ =>
      match reading faults.getSpec (db.specs.find? (· = run.specID)) with
      | .error _ => .error (.claimInternal "failed to get spec for claimed job")
      | .ok _ => .ok run

/-- The completion that ends a claimed job. It names no resume count, so it is one of the first
execution. -/
def claimedCompletion (nodeID : NodeID) (job : Job) : CompletionInput where
  jobID := job.id
  nodeID := nodeID
  status := .error
  resumeCount := 0
  jobMeta := none
  repoSHAOut := ""
  terminal := rfl
  output := no_output

/-- Ending a claimed job. The wave is finished after the transaction, and that can fail by
itself. -/
def completeClaimed (faults : ClaimFaults) (nodeID : NodeID) (job : Job) (db : DB) :
    Except StoreError Unit × DB :=
  match faults.completion, faults.reconcileWave with
  | some e, _ => (.error e, db)
  | none, none => serveCompletion (claimedCompletion nodeID job) db
  | none, some _ =>
    match (completeJob (claimedCompletion nodeID job)).transaction engine db with
    | .error e => (.error (completionError e), db)
    | .ok (_, db') => (.ok (), db')

/-- Giving a claimed job back. An error is logged. -/
def giveBack (faults : ClaimFaults) (nodeID : NodeID) (job : Job) (db : DB) : DB :=
  match faults.unclaimJob with
  | some _ => db
  | none =>
    match (unclaimJob job.id nodeID).transaction engine db with
    | .error _ => db
    | .ok (_, db') => db'

/-- What follows when the response to a claim cannot be built. -/
def refuseClaim (faults : ClaimFaults) (nodeID : NodeID) (job : Job) (db : DB) :
    PayloadError → ClaimError × DB
  | .terminal _ =>
    match completeClaimed faults nodeID job db with
    | (.ok _, db') => (.claimNoWork, db')
    | (.error _, db') =>
      (.claimInternal "failed to build claim response", giveBack faults nodeID job db')
  | .other _ => (.claimInternal "failed to build claim response", giveBack faults nodeID job db)

/-- Answering with a job that was moved to the node. -/
def answerClaim (faults : ClaimFaults) (nodeID : NodeID) (job : Job) (db : DB) :
    Except ClaimError NodeClaimResponse × DB :=
  match readClaimed faults job db, faults.payload with
  | .error e, _ => (.error e, db)
  | .ok run, none => (.ok (buildJobClaimPayload run job), db)
  | .ok _, some e =>
    let refused := refuseClaim faults nodeID job db e
    (.error refused.1, refused.2)

/-- Serving a claim. -/
def claim (faults : ClaimFaults) (nodeID : NodeID) (skipLocked : List JobID) (db : DB) :
    Except ClaimError NodeClaimResponse × DB :=
  match reading faults.getNode (db.nodes.find? nodeID) with
  | .error e =>
    if e.cause = .noRows then (.error (.claimNotFound "node not found"), db)
    else (.error (.claimInternal "failed to check node"), db)
  | .ok _ =>
    match moveJob faults nodeID skipLocked db with
    | .error e =>
      if e.cause = .noRows then (.error .claimNoWork, db)
      else (.error (.claimInternal "failed to claim job"), db)
    | .ok (job, db') => answerClaim faults nodeID job db'

/-! ### Jobs that are given back -/

/-- A job of the attempt that the given job belongs to is bound to the node. -/
def AttemptBoundTo (db : DB) (j : Job) (node : NodeID) : Prop :=
  ∃ k ∈ db.jobs, k.runID = j.runID ∧ k.attempt = j.attempt ∧ k.nodeID = some node

/-- A job is queued again: the same job at the same place of its chain, in an attempt that is bound
to the same node, and to be given to exactly the nodes it could be given to. -/
structure GivenBack (db db' : DB) (j j' : Job) : Prop where
  identity : j'.identity = j.identity
  queued : j'.status = .queued
  owner : ∀ node, AttemptBoundTo db' j' node ↔ AttemptBoundTo db j node
  claimable : ∀ n, eligible db' n j' = eligible db n j

/-- Returning a job to the queue, bound to the node given. -/
def returnRow (owner : Option NodeID) : JobUpdate where
  apply j := { j with nodeID := owner, startedAt := none }
  keeps _ := rfl

/-- The jobs of the attempt that the given job belongs to that are bound to a node. -/
def attemptOwners (db : DB) (j : Job) : List Job :=
  db.jobs.rows.filter fun k => k.runID = j.runID && k.attempt = j.attempt && k.nodeID.isSome

/-- Whether `UnclaimJob` leaves the attempt of a job bound as it was: it unbinds the job before its
run was resumed, so that another one has to be bound if the job was, and binds it afterwards. -/
def boundAsResumed (db : DB) (j : Job) : Bool :=
  if db.resumed j then !(attemptOwners db j).isEmpty
  else j.nodeID.isNone || (attemptOwners db j).any (·.id ≠ j.id)

/-- A store with a job moved to a node. -/
def DB.moved (db : DB) (nodeID : NodeID) (j : Job) : DB :=
  db.updateJobs ((claimRow nodeID db.now).onlyIf (·.id = j.id))

/-- A store with a job that was moved to a node returned to the queue. -/
def DB.returned (db : DB) (nodeID : NodeID) (j : Job) : DB :=
  db.updateJobs ((returnRow (if db.resumed j then some nodeID else none)).onlyIf (·.id = j.id))

section GivenBack

variable {db : DB} {nodeID : NodeID} {n : Node} {j : Job}

/-- The run of a job is running in a started wave. -/
def runnable (db : DB) (j : Job) : Bool :=
  db.runs.rows.any fun r => r.id = j.runID && r.status = .running
    && db.waves.rows.any fun w => w.id = r.waveID && w.status = .started

/-- A job may be claimed by a node if it is queued, runnable, and bound to no other node. -/
theorem eligible_iff (hj : j ∈ db.jobs) :
  eligible db n j = true ↔ n.drained = false ∧ n.id.raw ≠ "" ∧ j.status = .queued
    ∧ runnable db j = true ∧ ∀ node, AttemptBoundTo db j node → node = n.id
  := by
  simp only [eligible, runnable, Bool.and_eq_true, Bool.not_eq_true', decide_eq_true_eq,
    Bool.or_eq_true]
  constructor
  · rintro ⟨⟨⟨⟨⟨hdrained, hnamed⟩, hqueued⟩, -⟩, hrun⟩, howner⟩
    refine ⟨hdrained, hnamed, hqueued, hrun, ?_⟩
    rintro node ⟨k, hk, hkrun, hkattempt, hknode⟩
    rw [← Bool.not_eq_true, List.any_eq_true] at howner
    by_contra hne
    apply howner
    use k, hk
    simpa [hkrun, hkattempt, hknode] using hne
  · rintro ⟨hdrained, hnamed, hqueued, hrun, howner⟩
    refine ⟨⟨⟨⟨⟨hdrained, hnamed⟩, hqueued⟩, ?_⟩, hrun⟩, ?_⟩
    · cases hnode : j.nodeID with
      | none => apply Or.inl rfl
      | some node =>
        right
        rw [howner node ⟨j, hj, rfl, rfl, hnode⟩]
    · rw [← Bool.not_eq_true, List.any_eq_true]
      rintro ⟨k, hk, hkowner⟩
      simp only [Bool.and_eq_true, decide_eq_true_eq, Option.any_eq_true] at hkowner
      obtain ⟨⟨hkrun, hkattempt⟩, node, hknode, hne⟩ := hkowner
      apply hne
      apply howner node ⟨k, hk, hkrun, hkattempt, hknode⟩

theorem mem_moved (hj : j ∈ db.jobs) {k : Job} (hk : k ∈ (db.moved nodeID j).jobs)
    (hid : k.id = j.id) :
  k = (claimRow nodeID db.now).apply j
  := by
  obtain ⟨k₀, hk₀, rfl⟩ := DB.mem_updateJobs.mp hk
  rw [JobUpdate.id_apply] at hid
  obtain rfl := Table.eq_of_key_eq hk₀ hj hid
  rw [RowUpdate.onlyIf_pos (by simp)]

/-- A job that is moved and unclaimed is returned. -/
theorem unclaim_claim (hj : j ∈ db.jobs) (hqueued : j.status = .queued) :
  (db.moved nodeID j).updateJobs (unclaimUpdate (db.moved nodeID j) j.id nodeID)
    = db.returned nodeID j
  := by
  unfold DB.moved DB.returned
  rw [DB.updateJobs_updateJobs]
  apply DB.updateJobs_congr
  intro k hk
  simp only [RowUpdate.comp]
  by_cases hkj : k.id = j.id
  · obtain rfl := Table.eq_of_key_eq hk hj hkj
    rw [RowUpdate.onlyIf_pos (by simp), RowUpdate.onlyIf_pos (by simp), unclaimUpdate,
      RowUpdate.onlyIf_pos (by simp [claimRow])]
    have hresumed : (db.updateJobs ((claimRow nodeID db.now).onlyIf (·.id = k.id))).resumed
        ((claimRow nodeID db.now).apply k) = db.resumed k := rfl
    simp only [unclaimRow, returnRow, hresumed]
    simp [claimRow, hqueued]
  · rw [RowUpdate.onlyIf_neg (by simpa using hkj), RowUpdate.onlyIf_neg (by simpa using hkj),
      unclaimUpdate, RowUpdate.onlyIf_neg (by simp [hkj])]

theorem mem_attemptOwners {k : Job} :
  k ∈ attemptOwners db j
    ↔ k ∈ db.jobs ∧ k.runID = j.runID ∧ k.attempt = j.attempt ∧ ∃ node, k.nodeID = some node
  := by
  simp only [attemptOwners, List.mem_filter, Bool.and_eq_true, decide_eq_true_eq,
    Option.isSome_iff_exists, and_assoc]
  rfl

/-- An attempt is bound to the nodes of its owners. -/
theorem attemptBoundTo_iff {node : NodeID} :
  AttemptBoundTo db j node ↔ ∃ k ∈ attemptOwners db j, k.nodeID = some node
  := by
  constructor
  · rintro ⟨k, hk, hrun, hattempt, hnode⟩
    exact ⟨k, mem_attemptOwners.mpr ⟨hk, hrun, hattempt, node, hnode⟩, hnode⟩
  · rintro ⟨k, hk, hnode⟩
    obtain ⟨hmem, hrun, hattempt, -⟩ := mem_attemptOwners.mp hk
    exact ⟨k, hmem, hrun, hattempt, hnode⟩

/-- The attempt of a returned job is bound by the jobs that bound it before, but for the job itself,
which binds it if it is one that was resumed. -/
theorem attemptBoundTo_returned_iff (hj : j ∈ db.jobs) {node : NodeID} :
  AttemptBoundTo (db.returned nodeID j)
      ((returnRow (if db.resumed j then some nodeID else none)).apply j) node
    ↔ (db.resumed j = true ∧ node = nodeID)
      ∨ ∃ k ∈ attemptOwners db j, k.id ≠ j.id ∧ k.nodeID = some node
  := by
  constructor
  · rintro ⟨k', hk', hrun, hattempt, hnode⟩
    obtain ⟨k, hk, rfl⟩ := DB.mem_updateJobs.mp hk'
    by_cases hkj : k.id = j.id
    · obtain rfl := Table.eq_of_key_eq hk hj hkj
      rw [RowUpdate.onlyIf_pos (by simp)] at hnode
      left
      by_cases hresumed : db.resumed k = true
      · simp only [returnRow, hresumed, if_true, Option.some.injEq] at hnode
        exact ⟨hresumed, hnode.symm⟩
      · simp only [returnRow, if_neg hresumed] at hnode
        cases hnode
    · rw [RowUpdate.onlyIf_neg (by simpa using hkj)] at hrun hattempt hnode
      exact Or.inr ⟨k, mem_attemptOwners.mpr ⟨hk, hrun, hattempt, node, hnode⟩, hkj, hnode⟩
  · rintro (⟨hresumed, rfl⟩ | ⟨k, hk, hkj, hnode⟩)
    · refine ⟨_, DB.mem_updateJobs.mpr ⟨j, hj, RowUpdate.onlyIf_pos (by simp)⟩, rfl, rfl, ?_⟩
      simp only [returnRow, hresumed, if_true]
    · obtain ⟨hmem, hrun, hattempt, -⟩ := mem_attemptOwners.mp hk
      refine ⟨k, DB.mem_updateJobs.mpr ⟨k, hmem, ?_⟩, hrun, hattempt, hnode⟩
      rw [RowUpdate.onlyIf_neg (by simpa using hkj)]

/-- A job whose attempt is bound to one node only is returned to an attempt that is bound as it was,
exactly if `boundAsResumed`. -/
theorem attemptBoundTo_returned (hj : j ∈ db.jobs)
    (heligible : Eligible db n j) (hid : n.id = nodeID) :
  (∀ node, AttemptBoundTo (db.returned nodeID j)
      ((returnRow (if db.resumed j then some nodeID else none)).apply j) node
        ↔ AttemptBoundTo db j node)
    ↔ boundAsResumed db j = true
  := by
  have howner : ∀ k ∈ attemptOwners db j, k.nodeID = some nodeID := by
    intro k hk
    obtain ⟨hmem, hrun, hattempt, node, hnode⟩ := mem_attemptOwners.mp hk
    rcases heligible.owner k hmem hrun hattempt with hnone | hsome
    · rw [hnone] at hnode
      cases hnode
    · rw [hsome, hid]
  simp only [attemptBoundTo_returned_iff hj, attemptBoundTo_iff]
  unfold boundAsResumed
  by_cases hresumed : db.resumed j = true
  · rw [if_pos hresumed, Bool.not_eq_true', List.isEmpty_eq_false_iff_exists_mem]
    constructor
    · intro hsame
      obtain ⟨k, hk, -⟩ := (hsame nodeID).mp (Or.inl ⟨hresumed, rfl⟩)
      exact ⟨k, hk⟩
    · rintro ⟨k, hk⟩ node
      constructor
      · rintro (⟨-, rfl⟩ | ⟨k, hk, -, hnode⟩)
        · exact ⟨k, hk, howner k hk⟩
        · exact ⟨k, hk, hnode⟩
      · rintro ⟨k, hk, hnode⟩
        rw [howner k hk] at hnode
        exact Or.inl ⟨hresumed, (Option.some.inj hnode).symm⟩
  · rw [if_neg hresumed]
    simp only [hresumed, Bool.or_eq_true, Option.isNone_iff_eq_none, List.any_eq_true,
      decide_eq_true_eq]
    constructor
    · intro hsame
      by_contra hneither
      obtain ⟨hbound, hnone⟩ := not_or.mp hneither
      obtain ⟨node, hnode⟩ := Option.ne_none_iff_exists'.mp hbound
      have hmem : j ∈ attemptOwners db j := mem_attemptOwners.mpr ⟨hj, rfl, rfl, node, hnode⟩
      rcases (hsame node).mpr ⟨j, hmem, hnode⟩ with ⟨⟨⟩, -⟩ | ⟨k, hk, hkj, -⟩
      exact hnone ⟨k, hk, hkj⟩
    · intro hbound node
      constructor
      · rintro (⟨⟨⟩, -⟩ | ⟨k, hk, -, hnode⟩)
        exact ⟨k, hk, hnode⟩
      · rintro ⟨k, hk, hnode⟩
        right
        by_cases hkj : k.id = j.id
        · obtain rfl := Table.eq_of_key_eq (mem_attemptOwners.mp hk).1 hj hkj
          rcases hbound with hnone | ⟨k', hk', hne⟩
          · rw [hnone] at hnode
            cases hnode
          · rw [howner k hk] at hnode
            exact ⟨k', hk', hne, (howner k' hk').trans hnode⟩
        · exact ⟨k, hk, hkj, hnode⟩

end GivenBack

/-! ### Jobs that are ended -/

structure JobEnded (id : JobID) (db : DB) : Prop where
  there : id ∈ db.jobs.rows.map Job.id
  ended : ∀ j ∈ db.jobs, j.id = id → j.status.active = false

/-- Calm statements and those that end runs leave a job ended. -/
theorem JobEnded.exec {id : JobID} {β : Type} {q : Query β}
    (hq : q.calm = true ∨ q.endsRuns = true) {db v : DB} {b : β} (hended : JobEnded id db)
    (h : q.exec db = .ok (b, v)) :
  JobEnded id v
  := by
  constructor
  · apply (Query.exec_extends h).jobs.subset hended.there
  · intro j hj hid
    have hfrom : j.From db := by
      rcases hq with hq | hq
      · apply (Query.calm_exec hq h).jobs j hj
      · cases q with
        | updateRunStatus | cancelActiveRunsByWave =>
          cases h
          apply Job.from_self hj
        | _ => cases hq
    obtain ⟨j₀, hj₀, hid₀, -, -, hactive⟩ := hfrom
    rw [Bool.eq_false_iff]
    intro hj'
    rw [hended.ended j₀ hj₀ (hid₀.trans hid)] at hactive
    cases hactive hj'

section Programs

variable {id : JobID} {α : Type} {p : Tx α} {db : DB}

theorem JobEnded.transaction (hended : JobEnded id db) (hp : EndingProgram p) {a : α} {db' : DB}
    (h : p.transaction engine db = .ok (a, db')) :
  JobEnded id db'
  := hp.transaction_invariant (fun hq hs hexec => hs.exec hq hexec) hended h

theorem JobEnded.autocommit (hended : JobEnded id db) (hp : EndingProgram p) :
  JobEnded id (p.autocommit engine db).2
  := hp.autocommit_invariant (fun hq hs hexec => hs.exec hq hexec) hended

end Programs

/-- A completion ends its job. -/
theorem JobEnded.of_completeJob {input : CompletionInput} {result : Option Run} {db db' : DB}
    (h : (completeJob input).transaction engine db = .ok (result, db')) :
  JobEnded input.jobID db'
  := by
  simp only [completeJob, withJobExecution, transaction_bind_ok, transaction_one_ok,
    transaction_rejectIf_ok, transaction_issue] at h
  obtain ⟨-, -, -, -, _, -, -, _, -, -, _, -, job, db₁, hjob, hcomplete⟩ := h
  simp only [Query.exec, Except.ok.injEq, Prod.mk.injEq] at hjob
  obtain ⟨hjob, rfl⟩ := hjob
  obtain ⟨hmem, hid⟩ := Table.find?_eq_some.mp hjob
  simp only [complete, transaction_bind_ok, transaction_rejectIf_ok] at hcomplete
  obtain ⟨-, _, ⟨-, rfl⟩, -, _, ⟨-, rfl⟩, -, _, ⟨-, rfl⟩, -, _, ⟨-, rfl⟩, u, db₂, hupdate, hrest⟩ :=
    hcomplete
  rw [transaction_mapError_ok, transaction_issue, engine_exec] at hupdate
  have hended : JobEnded input.jobID db₂ := by
    constructor
    · apply (Query.exec_extends hupdate).jobs.subset
      exact List.mem_map.mpr ⟨job, hmem, hid⟩
    · simp only [Query.exec, Except.ok.injEq, Prod.mk.injEq] at hupdate
      obtain ⟨-, rfl⟩ := hupdate
      intro k hk hkid
      rw [updateJobCompletion_eq input hmem] at hk
      obtain ⟨k₀, hk₀, rfl⟩ := DB.mem_updateJobs.mp hk
      obtain rfl := Table.eq_of_key_eq hk₀ hmem
        (by rw [← JobUpdate.id_apply (input.update job) k₀, hkid, hid])
      rw [CompletionInput.update_self]
      apply Bool.eq_false_iff.mpr
      apply inactive_of_terminal input.terminal
  obtain ⟨_, db₃, hfail, _, db₄, hcancelled, _, db₅, hsuccess, hreconcile⟩ := hrest
  have hended₃ := hended.transaction (calm_onFail _ _).ending hfail
  have hended₄ := hended₃.transaction (calm_onCancelled _ _).ending hcancelled
  have hended₅ := hended₄.transaction (calm_onSuccess _ _).ending hsuccess
  apply hended₅.transaction (ending_reconcileRepoRun _) hreconcile

/-- Finishing a wave is calm. -/
theorem calm_reconcileWave (run : Run) :
  CalmProgram (reconcileWave run)
  := by
  apply Issues.recover
  · apply Issues.bind _ fun _ => issues_pure ()
    apply (Issues.mapError (calm_one rfl) _).bind
    intro wave
    split
    · apply issues_pure
    · apply (Issues.mapError (issues_issue rfl) _).bind
      intro counts
      split
      · apply issues_pure
      · apply (Issues.mapError (calm_one rfl) _).bind
        intro currentWave
        split
        · apply issues_pure
        · apply (Issues.mapError (issues_issue rfl) _).bind
          intro _
          apply issues_pure
  · intro _
    apply issues_pure

/-- Completing a claimed job with an error ends it, or changes nothing. -/
theorem completeClaimed_cases (faults : ClaimFaults) (nodeID : NodeID) (job : Job) (db : DB) :
  (∃ e, completeClaimed faults nodeID job db = (.error e, db))
    ∨ ∃ db', completeClaimed faults nodeID job db = (.ok (), db') ∧ JobEnded job.id db'
  := by
  unfold completeClaimed
  split
  · exact Or.inl ⟨_, rfl⟩
  · unfold serveCompletion
    split
    · exact Or.inl ⟨_, rfl⟩
    · rename_i db' hcommit
      exact Or.inr ⟨db', rfl, JobEnded.of_completeJob hcommit⟩
    · rename_i run db' hcommit
      right
      have hended := (JobEnded.of_completeJob hcommit).autocommit (calm_reconcileWave run).ending
      have hok : ((reconcileWave run).autocommit engine db').1 = .ok () := by
        rw [reconcileWave, autocommit_recover]
        split
        · rfl
        · rfl
      exact ⟨_, Prod.ext hok rfl, hended⟩
  · split
    · exact Or.inl ⟨_, rfl⟩
    · rename_i db' hcommit
      exact Or.inr ⟨db', rfl, JobEnded.of_completeJob hcommit⟩

/-! ### Claims that fail -/

/-- What is owed by a claim that is answered with an error: nothing was changed, or the job that was
moved is queued again as it was, or has ended. -/
def Settled (nodeID : NodeID) (skipLocked : List JobID) (db db' : DB) : Prop :=
  db' = db ∨ ∃ j ∈ db.jobs,
    (db.claimJob nodeID skipLocked).1 = some ((claimRow nodeID db.now).apply j)
    ∧ ∃ j' ∈ db'.jobs, j'.id = j.id ∧ (GivenBack db db' j j' ∨ j'.status.terminal = true)

/-- `UnclaimJob` is issued for a job that was moved: its response cannot be built, and the job is
not ended. -/
def unclaims (faults : ClaimFaults) (nodeID : NodeID) (job : Job) (db : DB) : Bool :=
  match faults.payload with
  | none => false
  | some (.terminal _) => !(completeClaimed faults nodeID job db).1.isOk
  | some (.other _) => true

/-- The condition under which a claim that fails gives its job back: the run, the repository and the
spec of the job that was moved are read, and where `UnclaimJob` is issued, it does not fail and
leaves the attempt of the job bound as it was. -/
def canGiveBack (faults : ClaimFaults) (nodeID : NodeID) (skipLocked : List JobID) (db : DB) :
    Bool :=
  match reading faults.getNode (db.nodes.find? nodeID), moveJob faults nodeID skipLocked db with
  | .ok _, .ok (job, db') =>
    (readClaimed faults job db').isOk
      && (!unclaims faults nodeID job db' || (faults.unclaimJob.isNone && !job.id.isZero
        && (db.jobs.find? job.id).all (boundAsResumed db)))
  | _, _ => true

section Claim

variable {faults : ClaimFaults} {nodeID : NodeID} {skipLocked : List JobID} {db : DB}

/-- The job and the node of a claim that moves a job. -/
structure Moved (nodeID : NodeID) (skipLocked : List JobID) (db : DB) (n : Node) (j : Job) :
    Prop where
  node : n ∈ db.nodes
  id : n.id = nodeID
  named : nodeID.isZero = false
  job : j ∈ db.jobs
  eligible : Eligible db n j
  claimed : (db.claimJob nodeID skipLocked).1 = some ((claimRow nodeID db.now).apply j)

/-- A claim that moves a job moves an eligible one. -/
theorem moved_of_moveJob {job : Job} {db₁ : DB}
    (h : moveJob faults nodeID skipLocked db = .ok (job, db₁)) :
  ∃ n j, Moved nodeID skipLocked db n j ∧ job = (claimRow nodeID db.now).apply j
    ∧ db₁ = db.moved nodeID j
  := by
  unfold moveJob at h
  split at h
  · cases h
  · obtain ⟨n, hn, hid, j, hj, heligible, hjob, hdb⟩ := claimJob_effect h
    simp only [claimJob, transaction_bind_ok, transaction_rejectIf_ok, transaction_one_ok,
      Query.exec, Except.ok.injEq] at h
    obtain ⟨-, _, ⟨hnamed, rfl⟩, hclaimed⟩ := h
    refine ⟨n, j, ⟨hn, hid, by simpa using hnamed, hj, eligible_spec heligible, ?_⟩, hjob, hdb⟩
    rw [hclaimed, hjob]

variable {n : Node} {j : Job}

/-- Nothing is settled while the job that was moved is left running. -/
theorem not_settled_moved (hmoved : Moved nodeID skipLocked db n j) :
  ¬ Settled nodeID skipLocked db (db.moved nodeID j)
  := by
  have hmem : (claimRow nodeID db.now).apply j ∈ (db.moved nodeID j).jobs :=
    DB.mem_updateJobs.mpr ⟨j, hmoved.job, RowUpdate.onlyIf_pos (by simp)⟩
  rintro (hsame | ⟨k, hk, hclaimed, k', hk', hid, hsettled⟩)
  · rw [hsame] at hmem
    have hrow : (claimRow nodeID db.now).apply j = j := Table.eq_of_key_eq hmem hmoved.job rfl
    have hqueued := hmoved.eligible.queued
    rw [← hrow] at hqueued
    cases hqueued
  · rw [hmoved.claimed] at hclaimed
    have hkj : k.id = j.id := (congrArg Job.id (Option.some.inj hclaimed)).symm
    rw [mem_moved hmoved.job hk' (hid.trans hkj)] at hsettled
    rcases hsettled with hgiven | hterminal
    · cases hgiven.queued
    · cases hterminal

/-- A job that is returned is settled exactly if its attempt is bound as it was. -/
theorem settled_returned_iff (hmoved : Moved nodeID skipLocked db n j) :
  Settled nodeID skipLocked db (db.returned nodeID j) ↔ boundAsResumed db j = true
  := by
  have hmem : (returnRow (if db.resumed j then some nodeID else none)).apply j
      ∈ (db.returned nodeID j).jobs :=
    DB.mem_updateJobs.mpr ⟨j, hmoved.job, RowUpdate.onlyIf_pos (by simp)⟩
  rw [← attemptBoundTo_returned hmoved.job hmoved.eligible hmoved.id]
  constructor
  · rintro (hsame | ⟨k, hk, hclaimed, k', hk', hid, hsettled⟩)
    · have hrow : (returnRow (if db.resumed j then some nodeID else none)).apply j = j := by
        rw [hsame] at hmem
        exact Table.eq_of_key_eq hmem hmoved.job rfl
      rw [hsame, hrow]
      exact fun _ => Iff.rfl
    · rw [hmoved.claimed] at hclaimed
      obtain rfl := Table.eq_of_key_eq hk hmoved.job
        (congrArg Job.id (Option.some.inj hclaimed)).symm
      obtain rfl := Table.eq_of_key_eq hk' hmem hid
      rcases hsettled with hgiven | hterminal
      · exact hgiven.owner
      · rw [show ((returnRow (if db.resumed k then some nodeID else none)).apply k).status = .queued
          from hmoved.eligible.queued] at hterminal
        cases hterminal
  · intro howner
    refine Or.inr ⟨j, hmoved.job, hmoved.claimed, _, hmem, rfl, Or.inl ?_⟩
    refine ⟨rfl, hmoved.eligible.queued, howner, fun m => ?_⟩
    rw [Bool.eq_iff_iff, eligible_iff hmem, eligible_iff hmoved.job]
    simp only [howner]
    rfl

/-- A claimed job is given back unless the statement fails or names no job. -/
theorem giveBack_moved (hmoved : Moved nodeID skipLocked db n j) :
  giveBack faults nodeID ((claimRow nodeID db.now).apply j) (db.moved nodeID j)
    = if faults.unclaimJob.isNone && !j.id.isZero then db.returned nodeID j
      else db.moved nodeID j
  := by
  obtain ⟨hn, hid, hzero, hj, heligible, -⟩ := hmoved
  have hclaimed : ((claimRow nodeID db.now).apply j).id = j.id := rfl
  unfold giveBack
  cases hfault : faults.unclaimJob with
  | some e => rfl
  | none =>
    rw [Option.isNone_none, Bool.true_and]
    cases hnamed : j.id.isZero with
    | true =>
      simp only [hclaimed, unclaimJob, hnamed]
      rfl
    | false =>
      have hfound : (db.nodes.find? nodeID).isNone = false := by
        rw [← hid, Table.find?_of_mem hn]
        rfl
      have hraw : nodeID.raw ≠ "" := by
        intro hempty
        rw [StringID.isZero, hempty] at hzero
        revert hzero
        decide
      have hunclaim : (unclaimJob j.id nodeID).transaction engine (db.moved nodeID j)
          = .ok ((), db.returned nodeID j) := by
        simp only [unclaimJob, transaction_bind_ok, transaction_rejectIf_ok, transaction_within_ok,
          transaction_issue]
        refine ⟨(), _, ⟨by simp [hnamed], rfl⟩, (), _, ⟨by simp [hzero], rfl⟩, ?_⟩
        rw [← unclaim_claim hj heligible.queued]
        simp only [engine_exec, Query.exec, DB.unclaimJob]
        rw [if_neg]
        · rfl
        · change ¬ ((db.nodes.find? nodeID).isNone || decide (nodeID.raw = "")) = true
          simp [hfound, hraw]
      simp only [hclaimed, hunclaim]
      rfl

theorem settled_giveBack_iff (hmoved : Moved nodeID skipLocked db n j) :
  Settled nodeID skipLocked db
      (giveBack faults nodeID ((claimRow nodeID db.now).apply j) (db.moved nodeID j))
    ↔ (faults.unclaimJob.isNone && !j.id.isZero
      && (db.jobs.find? j.id).all (boundAsResumed db)) = true
  := by
  rw [giveBack_moved hmoved, Table.find?_of_mem hmoved.job, Option.all_some]
  cases faults.unclaimJob.isNone && !j.id.isZero with
  | true => exact settled_returned_iff hmoved
  | false => exact iff_of_false (not_settled_moved hmoved) nofun

/-- Where the response cannot be built, the claim is settled exactly if `UnclaimJob` is not issued
or gives the job back. -/
theorem settled_refuseClaim_iff (hmoved : Moved nodeID skipLocked db n j) {e : PayloadError}
    (hpayload : faults.payload = some e) :
  Settled nodeID skipLocked db
      (refuseClaim faults nodeID ((claimRow nodeID db.now).apply j) (db.moved nodeID j) e).2
    ↔ (!unclaims faults nodeID ((claimRow nodeID db.now).apply j) (db.moved nodeID j)
      || (faults.unclaimJob.isNone && !j.id.isZero
        && (db.jobs.find? j.id).all (boundAsResumed db))) = true
  := by
  cases e with
  | other text =>
    rw [unclaims, hpayload, Bool.not_true, Bool.false_or, ← settled_giveBack_iff hmoved]
    rfl
  | terminal text =>
    simp only [unclaims, hpayload, refuseClaim]
    rcases completeClaimed_cases faults nodeID ((claimRow nodeID db.now).apply j)
      (db.moved nodeID j)
      with ⟨error, hcomplete⟩ | ⟨db', hcomplete, hended⟩
    · rw [hcomplete]
      exact settled_giveBack_iff hmoved
    · rw [hcomplete]
      obtain ⟨j', hj', hjid⟩ := List.mem_map.mp hended.there
      refine iff_of_true (Or.inr ⟨j, hmoved.job, hmoved.claimed, j', hj', hjid, Or.inr ?_⟩) rfl
      rw [JobStatus.terminal, hended.ended j' hj' hjid]
      rfl

/-- A claim that answers with a job has moved just that job, from the queue to the node. One that
answers with an error has settled what it moved exactly if `canGiveBack`. -/
theorem claim_gives_back
    (faults : ClaimFaults) (nodeID : NodeID) (skipLocked : List JobID) (db : DB) :
  (∀ response, (claim faults nodeID skipLocked db).1 = .ok response →
      ∃ j ∈ db.jobs, j.id = response.jobID ∧ j.status = .queued
        ∧ (claim faults nodeID skipLocked db).2 = db.moved nodeID j)
    ∧ ((∀ error, (claim faults nodeID skipLocked db).1 = .error error →
        Settled nodeID skipLocked db (claim faults nodeID skipLocked db).2)
      ↔ canGiveBack faults nodeID skipLocked db = true)
  := by
  unfold claim canGiveBack
  cases reading faults.getNode (db.nodes.find? nodeID) with
  | error e =>
    dsimp only
    split <;> exact ⟨nofun, iff_of_true (fun _ _ => Or.inl rfl) rfl⟩
  | ok node =>
    cases hmove : moveJob faults nodeID skipLocked db with
    | error e =>
      dsimp only
      split <;> exact ⟨nofun, iff_of_true (fun _ _ => Or.inl rfl) rfl⟩
    | ok moved =>
      obtain ⟨job, db₁⟩ := moved
      obtain ⟨n, j, hmoved, rfl, rfl⟩ := moved_of_moveJob hmove
      dsimp only
      unfold answerClaim
      cases hread : readClaimed faults ((claimRow nodeID db.now).apply j) (db.moved nodeID j) with
      | error e => exact ⟨nofun, iff_of_false (fun h => not_settled_moved hmoved (h e rfl)) nofun⟩
      | ok run =>
        cases hpayload : faults.payload with
        | none =>
          refine ⟨?_, iff_of_true nofun ?_⟩
          · rintro response ⟨⟩
            exact ⟨j, hmoved.job, rfl, hmoved.eligible.queued, rfl⟩
          · rw [unclaims, hpayload]
            rfl
        | some e =>
          refine ⟨nofun, Iff.trans ?_ (settled_refuseClaim_iff hmoved hpayload)⟩
          exact ⟨fun h => h _ rfl, fun h _ _ => h⟩

end Claim

namespace Sample

/-- A store with a run whose first job is queued. -/
def claimable : DB :=
  (create.step store).getD store

/-- The first job of the sample is claimed, the claim is answered with an error, and the job is left
running on the node. -/
def LeavesRunning (faults : ClaimFaults) (message : String) : Prop :=
  (claim faults ⟨"n1"⟩ [] claimable).1 = .error (.claimInternal message)
    ∧ ∃ j ∈ (claim faults ⟨"n1"⟩ [] claimable).2.jobs,
      j.id = ⟨"j0"⟩ ∧ j.status = .running ∧ j.nodeID = some ⟨"n1"⟩

theorem leavesRunning_of_find {faults : ClaimFaults} {message : String}
    (hanswer : (claim faults ⟨"n1"⟩ [] claimable).1 = .error (.claimInternal message))
    (hjob : (((claim faults ⟨"n1"⟩ [] claimable).2.jobs.find? ⟨"j0"⟩).any fun j =>
      j.status = .running && j.nodeID = some ⟨"n1"⟩) = true) :
  LeavesRunning faults message
  := by
  obtain ⟨j, hj, hrunning⟩ := (Option.any_eq_true _ _).mp hjob
  obtain ⟨hmem, hid⟩ := Table.find?_eq_some.mp hj
  simp only [Bool.and_eq_true, decide_eq_true_eq] at hrunning
  exact ⟨hanswer, j, hmem, hid, hrunning.1, hrunning.2⟩

end Sample

/-- A claim that is answered although `UnclaimJob` would fail, one whose job is ended because it can
never be executed, and one whose job is given back. -/
example :
  (claim { unclaimJob := some .connectionLost } ⟨"n1"⟩ [] Sample.claimable).1
      = .ok ⟨⟨"r"⟩, 0, 1, ⟨"j0"⟩, some ⟨"n1"⟩⟩
    ∧ (claim { payload := some (.terminal "bundle") } ⟨"n1"⟩ [] Sample.claimable).1
      = .error .claimNoWork
    ∧ canGiveBack { payload := some (.other "bundle") } ⟨"n1"⟩ [] Sample.claimable = true
  := by
  refine ⟨?_, ?_, ?_⟩ <;> decide +kernel

/-- A read that fails after the job was moved leaves the job running on the node, which is told of
no job: the read of the run, of the repository and of the spec. -/
theorem claimed_job_left_running :
  Sample.LeavesRunning { getRun := some .connectionLost } "failed to get run for claimed job"
    ∧ Sample.LeavesRunning { getRepo := some .connectionLost } "failed to get repo for claimed job"
    ∧ Sample.LeavesRunning { getSpec := some .connectionLost } "failed to get spec for claimed job"
  := by
  refine ⟨?_, ?_, ?_⟩
  all_goals
    apply Sample.leavesRunning_of_find
    · decide +kernel
    · decide +kernel

end Ploy
