import Ploy.Foundations.Interleaving
import Ploy.Run.Machine
import Ploy.Server.Reconcile

/-!
# The machine of the server

Requests are transactions and take effect at once. The recovery of stale jobs and the finishing of
waves are programs whose statements take effect one by one, between requests and each other.
-/

namespace Ploy

open Program

/-! ### Recovery of stale jobs

A recovery cycle lists the attempts that have a job on a node that is no longer heard from,
and for each cancels what is active, sets the status of the run, and finishes the wave. The
statements are issued one by one; an error ends the work on one attempt only. -/

/-- Recovering one attempt. The result tells whether the wave of its run was finished. -/
def recoverStaleRow (finalizedRuns : List RunID) (stale : StaleRow) : Tx Bool := do
  issue (.cancelActiveJobsByRunAttempt stale.runID stale.attempt)
  let runUpdated ← maybeUpdateRunStatus stale.runID stale.attempt
  if !runUpdated then pure false
  else if stale.runID ∈ finalizedRuns then pure false
  else do
    let run ← one (.getRun stale.runID)
    maybeCompleteRunIfAllReposTerminal run

/-- Recovering attempts one after another. -/
def recoverStaleRows (finalizedRuns : List RunID) : List StaleRow → Tx Unit
  | [] => pure ()
  | stale :: rest => do
      let finalized ← (recoverStaleRow finalizedRuns stale).recover fun _ => pure false
      recoverStaleRows (if finalized then stale.runID :: finalizedRuns else finalizedRuns) rest

/-- One recovery cycle. -/
def staleJobRecovery (cutoff : Time) : Tx Unit :=
  (issue (.listStaleRunningJobs cutoff) >>= recoverStaleRows []).recover fun _ => pure ()

/-! ### The machine -/

/-- What the server does at once: it serves a request, or it starts a recovery cycle. -/
inductive ServerAction where
  | request (op : Operation)
  | recovery (cutoff : Time)

/-- The store after an action, and the programs that the action starts. A request that is refused
does nothing. -/
def ServerAction.serve : ServerAction → DB → Option (DB × List (Tx Unit))
  | .request (.completeJob input), db =>
    match (completeJob input).transaction engine db with
    | .ok (some run, db') => some (db', [reconcileWave run])
    | .ok (none, db') => some (db', [])
    | .error _ => none
  | .request op, db => if op.whole then (op.step db).map (·, []) else none
  | .recovery cutoff, db => some (db, [staleJobRecovery cutoff])

/-- The states and the events of the server. -/
abbrev ServerState := Interleaved Query StoreError DB
abbrev ServerEvent := Interleaved.Event ServerAction StoreError

/-- The server, on a store without waves, runs and jobs. -/
def serverMachine : Machine ServerState ServerEvent :=
  Interleaved.machine engine ServerAction.serve DB.Initial

/-- An action is a request, which may start the finishing of a wave, or a recovery cycle. -/
theorem serve_cases {action : ServerAction} {db db' : DB} {started : List (Tx Unit)}
    (h : action.serve db = some (db', started)) :
  (∃ op, action = .request op ∧ op.whole = true ∧ op.step db = some db'
      ∧ ∀ p ∈ started, ∃ run, p = reconcileWave run)
    ∨ ∃ cutoff, action = .recovery cutoff ∧ db' = db ∧ started = [staleJobRecovery cutoff]
  := by
  cases action with
  | recovery cutoff =>
    cases h
    exact Or.inr ⟨cutoff, rfl, rfl, rfl⟩
  | request op =>
    left
    use op, rfl
    cases op with
    | completeJob input =>
      use rfl
      simp only [ServerAction.serve] at h
      rw [Operation.step]
      split at h
      · rename_i run db₁ hcomplete
        cases h
        rw [hcomplete]
        use rfl
        intro p hp
        use run
        apply List.mem_singleton.mp hp
      · rename_i db₁ hcomplete
        cases h
        rw [hcomplete]
        use rfl
        intro p hp
        cases hp
      · cases h
    | _ =>
      simp only [ServerAction.serve] at h
      split at h
      · rename_i hwhole
        obtain ⟨db₁, hstep, ⟨⟩⟩ := Option.map_eq_some_iff.mp h
        use hwhole, hstep
        intro p hp
        cases hp
      · cases h

/-! ### The statements of recovery -/

/-- The statements that recovery and the finishing of waves issue. -/
inductive Query.Reconciles : {β : Type} → Query β → Prop where
  | read {β : Type} {q : Query β} (h : q.reads = true) : q.Reconciles
  | cancelJobs (runID : RunID) (attempt : Nat) :
      (Query.cancelActiveJobsByRunAttempt runID attempt).Reconciles
  | writeRun (runID : RunID) {status : RunStatus} (h : isTerminalRunStatus status = true) :
      (Query.updateRunStatus runID status).Reconciles
  | writeWave (waveID : WaveID) : (Query.updateWaveStatus waveID .finished).Reconciles

/-- A program that is about to set the status of a run from the jobs of an attempt. -/
inductive Settles {α : Type} (runID : RunID) (attempt : Nat) : Tx α → Prop where
  | list {next : Except StoreError (List Job) → Tx α}
      (h : ∀ jobs status, evaluateRunAttemptTerminalStatus jobs = .ok (some status) →
        ∃ next', next (.ok jobs) = .statement (.updateRunStatus runID status) next') :
      Settles runID attempt (.statement (.listJobsByRunAttempt runID attempt) next)
  | write {status : RunStatus} {next : Except StoreError Unit → Tx α} :
      Settles runID attempt (.statement (.updateRunStatus runID status) next)

/-- The run whose status a program may be about to set: its next statement reads the jobs of an
attempt of the run, or sets the status. -/
def settling {α : Type} : Tx α → Option RunID
  | .statement (.listJobsByRunAttempt runID _) _ => some runID
  | .statement (.updateRunStatus runID _) _ => some runID
  | _ => none

theorem Settles.settling {α : Type} {runID : RunID} {attempt : Nat} {p : Tx α}
    (h : Settles runID attempt p) :
  Ploy.settling p = some runID
  := by
  cases h <;> rfl

/-- Once a statement cancelled the jobs of an attempt, the program sets the status of the run. -/
def Query.ThenSettles {α : Type} : {β : Type} → Query β → (Except StoreError β → Tx α) → Prop
  | _, .cancelActiveJobsByRunAttempt runID attempt, next => Settles runID attempt (next (.ok ()))
  | _, _, _ => True

/-- A program that recovers or finishes waves. -/
def Reconciling {α : Type} (p : Tx α) : Prop :=
  p.Always fun q next => q.Reconciles ∧ q.ThenSettles next

section Reconciling

variable {α β : Type} {runID : RunID} {attempt : Nat}

variable {p : Tx α}

theorem Settles.bind (h : Settles runID attempt p) (f : α → Tx β) :
  Settles runID attempt (p >>= f)
  := by
  cases h with
  | list h =>
    apply Settles.list
    intro jobs status hstatus
    obtain ⟨next', hnext⟩ := h jobs status hstatus
    simp only [hnext]
    exact ⟨_, rfl⟩
  | write => apply Settles.write

theorem Settles.recover (h : Settles runID attempt p) (handler : StoreError → Tx α) :
  Settles runID attempt (p.recover handler)
  := by
  cases h with
  | list h =>
    apply Settles.list
    intro jobs status hstatus
    obtain ⟨next', hnext⟩ := h jobs status hstatus
    simp only [hnext]
    exact ⟨_, rfl⟩
  | write => apply Settles.write

theorem Reconciling.bind (hp : Reconciling p) {f : α → Tx β}
    (hf : ∀ a, Reconciling (f a)) :
  Reconciling (p >>= f)
  := by
  apply Always.bind hp _ hf
  rintro γ q next ⟨hq, hnext⟩
  use hq
  cases q with
  | cancelActiveJobsByRunAttempt runID attempt => apply Settles.bind hnext
  | _ => trivial

theorem Reconciling.recover (hp : Reconciling p) {handler : StoreError → Tx α}
    (hhandler : ∀ e, Reconciling (handler e)) :
  Reconciling (p.recover handler)
  := by
  apply Always.recover hp _ hhandler
  rintro γ q next ⟨hq, hnext⟩
  use hq
  cases q with
  | cancelActiveJobsByRunAttempt runID attempt => apply Settles.recover hnext
  | _ => trivial

theorem Settles.mapError (h : Settles runID attempt p) (f : StoreError → StoreError) :
  Settles runID attempt (p.mapError f)
  := by
  cases h with
  | list h =>
    apply Settles.list
    intro jobs status hstatus
    obtain ⟨next', hnext⟩ := h jobs status hstatus
    simp only [hnext]
    exact ⟨_, rfl⟩
  | write => apply Settles.write

theorem Reconciling.within (hp : Reconciling p) (context : String) :
  Reconciling (Ploy.within context p)
  := by
  apply Always.mapError hp
  rintro γ q next ⟨hq, hnext⟩
  use hq
  cases q with
  | cancelActiveJobsByRunAttempt runID attempt => apply Settles.mapError hnext
  | _ => trivial

theorem reconciling_read {q : Query α} (h : q.reads = true) :
  Reconciling (issue q)
  := by
  refine ⟨⟨Query.Reconciles.read h, ?_⟩, fun _ => trivial⟩
  cases q with
  | cancelActiveJobsByRunAttempt runID attempt => cases h
  | _ => trivial

theorem reconciling_one {q : Query (Option α)} (h : q.reads = true) :
  Reconciling (one q)
  := by
  apply (reconciling_read h).bind
  intro o
  cases o <;> trivial

theorem reconciling_maybeUpdateRunStatus (runID : RunID) (attempt : Nat) :
  Reconciling (maybeUpdateRunStatus runID attempt)
  := by
  apply ((reconciling_read rfl).within _).bind
  intro jobs
  rcases evaluateRunAttemptTerminalStatus_cases jobs with ⟨heval, -⟩ | ⟨status, heval, hterminal, -⟩
  · simp only [heval]
    trivial
  · simp only [heval]
    apply Reconciling.bind
    · apply Reconciling.within
      exact ⟨⟨Query.Reconciles.writeRun runID hterminal, trivial⟩, fun _ => trivial⟩
    · intro _
      trivial

theorem settles_maybeUpdateRunStatus (runID : RunID) (attempt : Nat) :
  Settles runID attempt (maybeUpdateRunStatus runID attempt)
  := by
  apply Settles.list
  intro jobs status hstatus
  simp only [mapError, Program.bind, hstatus]
  exact ⟨_, rfl⟩

/-- Finishing a wave only reads, and writes the wave. -/
theorem reconciling_maybeCompleteRunIfAllReposTerminal (run : Run) :
  Reconciling (maybeCompleteRunIfAllReposTerminal run)
  := by
  apply ((reconciling_one rfl).within _).bind
  intro wave
  split
  · trivial
  · apply ((reconciling_read rfl).within _).bind
    intro counts
    split
    · trivial
    · apply ((reconciling_one rfl).within _).bind
      intro current
      split
      · trivial
      · apply Reconciling.bind
        · apply Reconciling.within
          exact ⟨⟨Query.Reconciles.writeWave _, trivial⟩, fun _ => trivial⟩
        · intro _
          trivial

theorem reconciling_reconcileWave (run : Run) :
  Reconciling (reconcileWave run)
  := by
  apply Reconciling.recover
  · apply (reconciling_maybeCompleteRunIfAllReposTerminal run).bind
    intro _
    trivial
  · intro _
    trivial

/-- Recovering an attempt cancels its jobs before it settles the run. -/
theorem reconciling_recoverStaleRow (finalizedRuns : List RunID) (stale : StaleRow) :
  Reconciling (recoverStaleRow finalizedRuns stale)
  := by
  refine ⟨⟨Query.Reconciles.cancelJobs _ _, (settles_maybeUpdateRunStatus _ _).bind _⟩, ?_⟩
  intro r
  cases r with
  | error e => trivial
  | ok _ =>
    apply (reconciling_maybeUpdateRunStatus _ _).bind
    intro updated
    split
    · trivial
    · split
      · trivial
      · apply (reconciling_one rfl).bind
        intro run
        apply reconciling_maybeCompleteRunIfAllReposTerminal

/-- A recovery cycle recovers one attempt after another. -/
theorem reconciling_staleJobRecovery (cutoff : Time) :
  Reconciling (staleJobRecovery cutoff)
  := by
  apply Reconciling.recover
  · apply (reconciling_read rfl).bind
    intro rows
    generalize ([] : List RunID) = finalizedRuns
    induction rows generalizing finalizedRuns with
    | nil => trivial
    | cons stale rest ih =>
      apply Reconciling.bind
      · apply (reconciling_recoverStaleRow finalizedRuns stale).recover
        intro _
        trivial
      · intro finalized
        apply ih
  · intro _
    trivial

end Reconciling

/-! ### What the server does -/

/-- What an event does to a server all of whose programs recover or finish waves. -/
inductive ServerMoves : ServerEvent → ServerState → ServerState → Prop where
  | request {op : Operation} {db db' : DB} {processes started : List (Tx Unit)}
      (whole : op.whole = true) (step : op.step db = some db')
      (spawned : ∀ p ∈ started, ∃ run, p = reconcileWave run) :
      ServerMoves (.act (.request op)) ⟨db, processes⟩ ⟨db', processes ++ started⟩
  | recovery {db : DB} {processes : List (Tx Unit)} (cutoff : Time) :
      ServerMoves (.act (.recovery cutoff)) ⟨db, processes⟩
        ⟨db, processes ++ [staleJobRecovery cutoff]⟩
  | read {db : DB} {before after : List (Tx Unit)} {β : Type} {q : Query β} {b : β}
      {next : Except StoreError β → Tx Unit} (reads : q.reads = true)
      (exec : q.exec db = .ok (b, db)) :
      ServerMoves (.issue before.length) ⟨db, before ++ .statement q next :: after⟩
        ⟨db, before ++ next (.ok b) :: after⟩
  | cancelJobs {db : DB} {before after : List (Tx Unit)} {runID : RunID} {attempt : Nat}
      {next : Except StoreError Unit → Tx Unit} (settles : Settles runID attempt (next (.ok ()))) :
      ServerMoves (.issue before.length)
        ⟨db, before ++ .statement (.cancelActiveJobsByRunAttempt runID attempt) next :: after⟩
        ⟨db.updateJobs (cancelJobsUpdate (Job.inAttempt runID attempt)),
          before ++ next (.ok ()) :: after⟩
  | writeRun {db : DB} {before after : List (Tx Unit)} {runID : RunID} {status : RunStatus}
      {next : Except StoreError Unit → Tx Unit} (terminal : isTerminalRunStatus status = true) :
      ServerMoves (.issue before.length)
        ⟨db, before ++ .statement (.updateRunStatus runID status) next :: after⟩
        ⟨db.updateRuns ((setRunStatus status).onlyIf (·.id = runID)),
          before ++ next (.ok ()) :: after⟩
  | writeWave {db : DB} {before after : List (Tx Unit)} {waveID : WaveID}
      {next : Except StoreError Unit → Tx Unit} :
      ServerMoves (.issue before.length)
        ⟨db, before ++ .statement (.updateWaveStatus waveID .finished) next :: after⟩
        ⟨db.updateWaves ((setWaveStatus .finished).onlyIf (·.id = waveID)),
          before ++ next (.ok ()) :: after⟩
  | lost {e : ServerEvent} {db : DB} {before after : List (Tx Unit)} {β : Type} {q : Query β}
      {next : Except StoreError β → Tx Unit} {p : Tx Unit}
      (event : (∃ err, e = .lose before.length err) ∨ e = .stop before.length) :
      ServerMoves e ⟨db, before ++ .statement q next :: after⟩ ⟨db, before ++ p :: after⟩

variable {e : ServerEvent} {c c' : ServerState}

/-- Every step of the server is one of the moves. -/
theorem server_step_cases
    (hc : ∀ p ∈ c.processes, Reconciling p) (h : serverMachine.step e c = some c') :
  ServerMoves e c c' ∧ ∀ p ∈ c'.processes, Reconciling p
  := by
  have hmoves := Interleaved.step_moves engine ServerAction.serve h
  -- what a program goes on with recovers or finishes waves, whatever the answer
  have hreplace : ∀ {before after : List (Tx Unit)} {β : Type} {q : Query β}
      {next : Except StoreError β → Tx Unit} {p : Tx Unit},
      (∀ p ∈ before ++ .statement q next :: after, Reconciling p) → Reconciling p →
      ∀ p' ∈ before ++ p :: after, Reconciling p' := by
    intro before after β q next p hall hp p' hp'
    simp only [List.mem_append, List.mem_cons] at hp'
    rcases hp' with hp' | rfl | hp'
    · apply hall p' (by simp [hp'])
    · apply hp
    · apply hall p' (by simp [hp'])
  cases hmoves with
  | act hact =>
    rcases serve_cases hact with ⟨op, rfl, hwhole, hstep, hspawned⟩ | ⟨cutoff, rfl, rfl, rfl⟩
    · use ServerMoves.request hwhole hstep hspawned
      intro p hp
      rcases List.mem_append.mp hp with hp | hp
      · apply hc p hp
      · obtain ⟨run, rfl⟩ := hspawned p hp
        apply reconciling_reconcileWave
    · use ServerMoves.recovery cutoff
      intro p hp
      rcases List.mem_append.mp hp with hp | hp
      · apply hc p hp
      · rw [List.mem_singleton.mp hp]
        apply reconciling_staleJobRecovery
  | @issue β q next db db' b before after hexec =>
    obtain ⟨⟨hq, hsettles⟩, hnext⟩ := hc (.statement q next) (by simp)
    refine ⟨?_, hreplace hc (hnext _)⟩
    change q.exec db = .ok (b, db') at hexec
    cases hq with
    | read hreads =>
      obtain ⟨b', hb'⟩ := Query.exec_of_reads hreads db
      rw [hb'] at hexec
      cases hexec
      apply ServerMoves.read hreads hb'
    | cancelJobs runID attempt =>
      cases hexec
      apply ServerMoves.cancelJobs hsettles
    | writeRun runID hterminal =>
      cases hexec
      apply ServerMoves.writeRun hterminal
    | writeWave waveID =>
      cases hexec
      apply ServerMoves.writeWave
  | @refuse β q next db e before after hexec =>
    -- none of these statements raises an error
    obtain ⟨⟨hq, -⟩, -⟩ := hc (.statement q next) (by simp)
    change q.exec db = .error e at hexec
    cases hq with
    | read hreads =>
      obtain ⟨b', hb'⟩ := Query.exec_of_reads hreads db
      rw [hb'] at hexec
      cases hexec
    | cancelJobs | writeRun | writeWave => cases hexec
  | @lose β q next db e before after =>
    obtain ⟨-, hnext⟩ := hc (.statement q next) (by simp)
    exact ⟨ServerMoves.lost (Or.inl ⟨e, rfl⟩), hreplace hc (hnext _)⟩
  | stop => exact ⟨ServerMoves.lost (Or.inr rfl), hreplace hc trivial⟩

theorem ServerMoves.wellFormed (h : ServerMoves e c c')
    (hdb : WellFormed c.store) :
  WellFormed c'.store
  := by
  cases h with
  | request whole step spawned => apply (Operation.step_refines hdb step).wellFormed
  | recovery | read | lost => apply hdb
  | cancelJobs settles => apply (cancelActiveJobs_refines hdb _ _).wellFormed
  | writeRun terminal =>
    apply hdb.rewrite ((setRunStatus _).onlyIf _) (RowUpdate.refl _)
    · rfl
    · rw [DB.updateJobs_eq_self (fun _ _ => rfl)]
      rfl
    · intro r _
      simp only [RowUpdate.onlyIf]
      split <;> apply le_refl
  | writeWave => exact ⟨hdb.referenced, hdb.chained⟩

variable {past : List (ServerState × ServerEvent)} {c : ServerState}

theorem server_reachable
    (h : serverMachine.Execution past c) :
  WellFormed c.store ∧ ∀ p ∈ c.processes, Reconciling p
  := by
  apply h.invariant
  · rintro ⟨db, processes⟩ ⟨hdb, hnone⟩
    dsimp only at hnone
    subst hnone
    use hdb.wellFormed
    intro p hp
    cases hp
  · rintro c e c' ⟨hdb, hc⟩ hstep
    obtain ⟨hmove, hc'⟩ := server_step_cases hc hstep
    apply And.intro (hmove.wellFormed hdb) hc'

theorem server_moves
    (h : serverMachine.Execution past c) (hstep : serverMachine.step e c = some c') :
  ServerMoves e c c'
  := (server_step_cases (server_reachable h).2 hstep).1

theorem server_invariant (allowed : ServerState → ServerEvent → Bool) {I : ServerState → Prop}
    (hinit : ∀ db, db.Initial → I ⟨db, []⟩)
    (hmoves : ∀ c e c', WellFormed c.store → I c → allowed c e = true → ServerMoves e c c' → I c')
    (h : serverMachine.Execution past c) (hallowed : ∀ x ∈ past, allowed x.1 x.2 = true) :
  I c
  := by
  induction h with
  | @start c hc =>
    obtain ⟨db, processes⟩ := c
    obtain ⟨hdb, hnone⟩ := hc
    dsimp only at hnone
    subst hnone
    apply hinit db hdb
  | @step past c c' e h hstep ih =>
    have hI := ih (fun x hx => hallowed x (List.mem_cons_of_mem _ hx))
    have hall := hallowed (c, e) List.mem_cons_self
    apply hmoves c e c' (server_reachable h).1 hI hall (server_moves h hstep)

/-- What every allowed move keeps, holds from a state on. -/
theorem server_stays (allowed : ServerState → ServerEvent → Bool) {K : ServerState → Prop}
    (hmoves : ∀ c e c', WellFormed c.store → K c → allowed c e = true → ServerMoves e c c' → K c')
    (h : serverMachine.Execution past c) (hallowed : ∀ x ∈ past, allowed x.1 x.2 = true) :
  ∀ x ∈ past, K x.1 → K c
  := by
  induction h with
  | start _ =>
    intro x hx
    cases hx
  | @step past c c' e h hstep ih =>
    have hall := hallowed (c, e) List.mem_cons_self
    have hkeep : K c → K c' := by
      intro hK
      apply hmoves c e c' (server_reachable h).1 hK hall (server_moves h hstep)
    intro x hx hK
    rcases List.mem_cons.mp hx with rfl | hx
    · apply hkeep hK
    · apply hkeep
      apply ih (fun y hy => hallowed y (List.mem_cons_of_mem _ hy)) x hx hK

/-- Every move is a step of the attempts, or writes the status of a run. -/
theorem ServerMoves.evolves (h : ServerMoves e c c')
    (hdb : WellFormed c.store) :
  (∃ whole, Evolves whole c.store c'.store)
    ∨ ∃ before after runID status next, isTerminalRunStatus status = true
      ∧ e = .issue before.length
      ∧ c.processes = before ++ .statement (.updateRunStatus runID status) next :: after
      ∧ c'.store = c.store.updateRuns ((setRunStatus status).onlyIf (·.id = runID))
  := by
  have hsame : ∀ {db' : DB}, db'.runs = c.store.runs → db'.jobs = c.store.jobs →
      ∃ whole, Evolves whole c.store db' := by
    intro db' hruns hjobs
    exact ⟨true, (Refines.of_eq hdb hruns hjobs).evolves⟩
  cases h with
  | request whole step spawned => exact Or.inl ⟨_, (Operation.step_refines hdb step).evolves⟩
  | recovery | read | lost => apply Or.inl (hsame rfl rfl)
  | cancelJobs settles => exact Or.inl ⟨_, (cancelActiveJobs_refines hdb _ _).evolves⟩
  | writeRun terminal => exact Or.inr ⟨_, _, _, _, _, terminal, rfl, rfl, rfl⟩
  | writeWave =>
    left
    apply hsame
    · rfl
    · rfl

/-- What the steps and the writing of a status keep, holds of every attempt. -/
theorem onAttempts_of_server {I : Attempt → Prop} (hI : Attempt.Invariant I)
    (hstatus : ∀ r a l status, isTerminalRunStatus status = true → I ⟨r, a, l⟩ →
      I ⟨(setRunStatus status).apply r, a, l⟩)
    (h : serverMachine.Execution past c) :
  OnAttempts I c.store
  := by
  apply server_invariant (fun _ _ => true) _ _ h (fun _ _ => rfl)
  · intro db hdb r hr
    rw [← Table.mem_rows, hdb.2.1] at hr
    cases hr
  · intro c e c' hdb hon _ hmove
    rcases hmove.evolves hdb with ⟨whole, hevolves⟩ | ⟨_, _, _, status, _, hterminal, -, -, hstore⟩
    · apply hon.evolve hI.created (hI.step _) hdb hevolves
    · rw [hstore]
      intro r' hr' a l hl
      obtain ⟨r, hr, rfl⟩ := DB.mem_updateRuns.mp hr'
      rw [RunUpdate.id_apply] at hl
      have hl := hon r hr a l (hl.of_jobs_eq rfl)
      simp only [RowUpdate.onlyIf]
      split
      · apply hstatus r a l status hterminal hl
      · apply hl

/-! ### A server to try events on -/

namespace Sample

def server : ServerState :=
  ⟨store, []⟩

theorem server_init : serverMachine.init server :=
  ⟨initial, rfl⟩

/-- A run whose first job runs on a node that is then not heard from, and a recovery cycle that
listed the attempt, cancelled its jobs and read them again. -/
def recovering : List ServerEvent :=
  [.act (.request create), .act (.request (.claimJob ⟨"n1"⟩ [])), .act (.recovery 1), .issue 0,
    .issue 0, .issue 0]

/-- A full restart of the run. -/
def restart : Operation :=
  .restartRun (fun i => ⟨if i = 0 then "j2" else "j3"⟩) ⟨false, 0, ⟨"r"⟩, 1, none, plans⟩

end Sample

end Ploy
