import Ploy.Server.Machine

/-!
# Requests one at a time

The server when every request, and every recovery cycle, is served to its end before the next one
begins. What it does is one of the things the server does when they interleave.
-/

namespace Ploy

open Program

/-! ### Handlers -/

/-- The answer to a request that failed. -/
structure HTTPError where
  status : Nat
  text : String
  cause : Option StoreError
  deriving DecidableEq, Repr

/-- Serving a request to cancel a run: only a run that has not ended is cancelled, and the answer
is the run as it is then. -/
def cancelRunHandlerV1 (runID : RunID) (db : DB) : Except HTTPError Run × DB :=
  match db.runs.find? runID with
  | none => (.error ⟨404, "run not found", none⟩, db)
  | some run =>
    if isTerminalRunStatus run.status then (.ok run, db)
    else match (cancelRun runID).transaction engine db with
      | .error e => (.error ⟨500, "failed to cancel run", some e⟩, db)
      | .ok (_, db') =>
        match db'.runs.find? runID with
        | none => (.error ⟨500, "failed to load updated run", some .noRows⟩, db')
        | some updated => (.ok updated, db')

theorem cancelRunHandlerV1_cases (runID : RunID) (db : DB) :
  (cancelRunHandlerV1 runID db).2 = db
    ∨ (cancelRun runID).transaction engine db = .ok ((), (cancelRunHandlerV1 runID db).2)
  := by
  simp only [cancelRunHandlerV1]
  split
  · apply Or.inl rfl
  · split
    · apply Or.inl rfl
    · split
      · apply Or.inl rfl
      · rename_i db' hcancel
        right
        rw [hcancel]
        split <;> rfl

/-- What is asked of the server. -/
inductive Request where
  | createWave (ids : Nat → Nat → JobID) (arg : CreateWaveWithRunsParams)
  | claim (nodeID : NodeID) (skipLocked : List JobID)
  | unclaim (id : JobID) (nodeID : NodeID)
  | complete (input : CompletionInput)
  | cancelRun (runID : RunID)
  | cancelWave (waveID : WaveID)
  | restartRun (ids : Nat → JobID) (arg : RestartRunParams)
  | recover (cutoff : Time)
  | outside (nodes : Table Node.id) (now : Time)

/-- The store after an operation, which may be rejected. -/
def Operation.attempted (op : Operation) (db : DB) : DB :=
  (op.step db).getD db

/-- The store after a request has been served. -/
def Request.serve : Request → DB → DB
  | .createWave ids arg, db => (Operation.createWaveWithRuns ids arg).attempted db
  | .claim nodeID skipLocked, db => (Operation.claimJob nodeID skipLocked).attempted db
  | .unclaim id nodeID, db => (Operation.unclaimJob id nodeID).attempted db
  | .complete input, db => (serveCompletion input db).2
  | .cancelRun runID, db => (cancelRunHandlerV1 runID db).2
  | .cancelWave waveID, db => (Operation.cancelWave waveID).attempted db
  | .restartRun ids arg, db => (Operation.restartRun ids arg).attempted db
  | .recover cutoff, db => ((staleJobRecovery cutoff).autocommit engine db).2
  | .outside nodes now, db => (Operation.outside nodes now).attempted db

/-- The server that serves one request after another. -/
def requestMachine : Machine DB Request where
  init := DB.Initial
  step request db := some (request.serve db)

namespace Sample

/-- Creating a wave with one run. -/
def createRequest : Request :=
  .createWave (fun _ i => ⟨if i = 0 then "j0" else "j1"⟩)
    ⟨⟨⟨"w"⟩, ⟨"m"⟩, ⟨"s"⟩⟩, [⟨⟨"r"⟩, ⟨"p"⟩, "main", sha0, sha0, none, plans⟩]⟩

end Sample

/-! ### Requests as events -/

/-- The store is one that the interleaving server reaches. -/
def ServerReaches (db : DB) : Prop :=
  ∃ past processes, serverMachine.Execution past ⟨db, processes⟩

theorem ServerReaches.wellFormed {db : DB} (h : ServerReaches db) :
  WellFormed db
  := by
  obtain ⟨past, processes, hexec⟩ := h
  apply (server_reachable hexec).1

theorem ServerReaches.serve {db db' : DB} (h : ServerReaches db) (action : ServerAction)
    (hserve : action.serve db = some (db', [])) :
  ServerReaches db'
  := by
  obtain ⟨past, processes, hexec⟩ := h
  have hstep : serverMachine.step (.act action) ⟨db, processes⟩ = some ⟨db', processes ++ []⟩ := by
    simp only [serverMachine, Interleaved.machine, Interleaved.step, hserve, Option.map_some]
  exact ⟨_, _, hexec.step hstep⟩

theorem ServerReaches.serve_one {db db' : DB} (h : ServerReaches db) (action : ServerAction)
    {p : Tx Unit} (hserve : action.serve db = some (db', [p])) :
  ServerReaches (p.autocommit engine db').2
  := by
  obtain ⟨past, processes, hexec⟩ := h
  have hstep : serverMachine.step (.act action) ⟨db, processes⟩ = some ⟨db', processes ++ [p]⟩ := by
    simp only [serverMachine, Interleaved.machine, Interleaved.step, hserve, Option.map_some]
  obtain ⟨past', hexec'⟩ := Interleaved.run_alone engine ServerAction.serve (hexec.step hstep)
  exact ⟨_, _, hexec'⟩

theorem ServerReaches.attempted {db : DB} (h : ServerReaches db) {op : Operation}
    (hserve : ServerAction.serve (.request op) db = (op.step db).map (·, [])) :
  ServerReaches (op.attempted db)
  := by
  unfold Operation.attempted
  cases hstep : op.step db with
  | none => apply h
  | some db' =>
    apply h.serve (.request op)
    rw [hserve, hstep]
    rfl

/-- What the server reaches, it reaches with one more request. -/
theorem ServerReaches.request {db : DB} (h : ServerReaches db) (request : Request) :
  ServerReaches (request.serve db)
  := by
  cases request with
  | createWave | claim | unclaim | cancelWave | restartRun | outside => apply h.attempted rfl
  | complete input =>
    simp only [Request.serve, serveCompletion]
    split
    · apply h
    · rename_i db' hcomplete
      apply h.serve (.request (.completeJob input))
      simp only [ServerAction.serve, hcomplete]
    · rename_i run db' hcomplete
      apply h.serve_one (.request (.completeJob input))
      simp only [ServerAction.serve, hcomplete]
  | cancelRun runID =>
    simp only [Request.serve]
    rcases cancelRunHandlerV1_cases runID db with hsame | hcancel
    · rw [hsame]
      apply h
    · apply h.serve (.request (.cancelRun runID))
      simp only [ServerAction.serve, Operation.whole, Operation.step, hcancel]
      rfl
  | recover cutoff =>
    apply h.serve_one (.recovery cutoff)
    rfl

/-! ### Programs of recovery to their end -/

theorem maybeUpdateRunStatus_autocommit (runID : RunID) (attempt : Nat) (db : DB) :
  (maybeUpdateRunStatus runID attempt).autocommit engine db
    = match evaluateRunAttemptTerminalStatus (jobsOfAttempt db runID attempt) with
      | .error e => (.error e, db)
      | .ok none => (.ok false, db)
      | .ok (some status) =>
        (.ok true, db.updateRuns ((setRunStatus status).onlyIf (·.id = runID)))
  := by
  have hlist : (issue (.listJobsByRunAttempt runID attempt) : Tx (List Job)).autocommit engine db
      = (.ok (jobsOfAttempt db runID attempt), db) := rfl
  rw [maybeUpdateRunStatus, autocommit_bind, within, autocommit_mapError, hlist]
  dsimp only
  cases evaluateRunAttemptTerminalStatus (jobsOfAttempt db runID attempt) with
  | error e => rfl
  | ok status =>
    cases status with
    | none | some => rfl

/-- What finishing a wave does when nothing comes between. -/
theorem maybeCompleteRunIfAllReposTerminal_autocommit (run : Run) (db : DB) :
  (maybeCompleteRunIfAllReposTerminal run).autocommit engine db
    = match db.waves.find? run.waveID with
      | none => (.error (.wrap "get wave" .noRows), db)
      | some wave =>
        if isTerminalWaveStatus wave.status
          || (evaluateWaveCompletionFromRunCounts (runCounts db run.waveID)).isNone
        then (.ok false, db)
        else (.ok true, db.updateWaves ((setWaveStatus .finished).onlyIf (·.id = run.waveID)))
  := by
  have hget : (one (.getWave run.waveID) : Tx Wave).autocommit engine db
      = match db.waves.find? run.waveID with
        | none => (.error .noRows, db)
        | some wave => (.ok wave, db) := by
    rw [one, autocommit_bind]
    change (orFail .noRows (db.waves.find? run.waveID) : Tx Wave).autocommit engine db = _
    cases db.waves.find? run.waveID <;> rfl
  have hcount : (issue (.countRunsByWaveStatus run.waveID) : Tx _).autocommit engine db
      = (.ok (runCounts db run.waveID), db) := rfl
  rw [maybeCompleteRunIfAllReposTerminal, autocommit_bind, within, autocommit_mapError, hget]
  cases hfind : db.waves.find? run.waveID with
  | none => rfl
  | some wave =>
    rw [hfind] at hget
    dsimp only at hget ⊢
    cases hterminal : isTerminalWaveStatus wave.status with
    | true => rfl
    | false =>
      simp only [Bool.false_eq_true, if_false, Bool.false_or]
      rw [autocommit_bind, within, autocommit_mapError, hcount]
      dsimp only
      split
      · rfl
      · rw [autocommit_bind, within, autocommit_mapError, hget]
        simp only [hterminal]
        rfl

theorem reconcileWave_autocommit (run : Run) (db : DB) :
  ((reconcileWave run).autocommit engine db).2
    = ((maybeCompleteRunIfAllReposTerminal run).autocommit engine db).2
  := by
  rw [reconcileWave, autocommit_recover, autocommit_bind]
  rcases (maybeCompleteRunIfAllReposTerminal run).autocommit engine db with ⟨_ | _, _⟩ <;> rfl

end Ploy
