import Ploy.Foundations.RelyGuarantee
import Ploy.Run.Machine

/-!
# The store at READ COMMITTED

The transactions of the store, statement by statement. A statement is taken to see one state of
what is committed, also where it had to wait for a lock.
-/

namespace Ploy

open Program

/-! ### Writes -/

/-- The rows that a transaction has written. -/
structure Writes where
  waves : Table Wave.id
  runs : Table Run.id
  jobs : Table Job.id

/-- A row that can be locked. -/
inductive RowKey where
  | wave (id : WaveID)
  | run (id : RunID)
  | job (id : JobID)
  | repo (id : RepoID)
  deriving DecidableEq, Repr

/-- The store as a transaction sees it. -/
def Writes.view (p : Writes) (db : DB) : DB :=
  { db with
    waves := p.waves.overlay db.waves
    runs := p.runs.overlay db.runs
    jobs := p.jobs.overlay db.jobs }

/-- The rows by which one store differs from another. -/
def DB.writes (db v : DB) : Writes where
  waves := db.waves.diff v.waves
  runs := db.runs.diff v.runs
  jobs := db.jobs.diff v.jobs

/-- The keys of the rows that were written. -/
def Writes.rows (p : Writes) : List RowKey :=
  p.waves.rows.map (fun w => .wave w.id) ++ p.runs.rows.map (fun r => .run r.id)
    ++ p.jobs.rows.map (fun j => .job j.id)

section Keys

variable (db : DB)

def DB.waveKey (id : WaveID) : List RowKey :=
  (db.waves.find? id).toList.map fun w => .wave w.id

def DB.runKey (id : RunID) : List RowKey :=
  (db.runs.find? id).toList.map fun r => .run r.id

def DB.jobKey (id : JobID) : List RowKey :=
  (db.jobs.find? id).toList.map fun j => .job j.id

/-- The key of a repository, if there is one. -/
def DB.repoKey (id : RepoID) : List RowKey :=
  (db.repos.find? id).toList.map fun r => .repo r.id

end Keys

/-- The rows that a statement locks whether or not it changes them: those it selects for update,
and those it updates by identifier. -/
def Query.selects : {β : Type} → Query β → DB → List RowKey
  | _, .getRunForUpdate id, db => db.runKey id
  | _, .lockRun id, db => db.runKey id
  | _, .lockRepo id, db => db.repoKey id
  | _, .updateRunStatus id _, db => db.runKey id
  | _, .resumeRun id _ _, db => db.runKey id
  | _, .incrementRunAttempt id _, db => db.runKey id
  | _, .updateWaveStatus id _, db => db.waveKey id
  | _, .updateJobStatus id _ _, db => db.jobKey id
  | _, .resetJob id _ _ _, db => db.jobKey id
  | _, .updateJobCompletion id _ _ _, db =>
    db.jobKey id ++ ((db.jobs.find? id).bind Job.nextID).toList.flatMap db.jobKey
  | _, _, _ => []

/-! ### Statements keep the rows there are -/

/-- A store has the rows of another one, perhaps changed, and further rows after them. -/
structure Extends (db v : DB) : Prop where
  waves : db.waves.rows.map Wave.id <+: v.waves.rows.map Wave.id
  runs : db.runs.rows.map Run.id <+: v.runs.rows.map Run.id
  jobs : db.jobs.rows.map Job.id <+: v.jobs.rows.map Job.id
  rest : { v with waves := db.waves, runs := db.runs, jobs := db.jobs } = db

namespace Extends

variable {db v v' : DB}

theorem refl (db : DB) : Extends db db :=
  ⟨List.prefix_rfl, List.prefix_rfl, List.prefix_rfl, rfl⟩

theorem trans (h : Extends db v) (h' : Extends v v') : Extends db v' := by
  refine ⟨h.waves.trans h'.waves, h.runs.trans h'.runs, h.jobs.trans h'.jobs, ?_⟩
  have hrest := h.rest
  rw [← h'.rest] at hrest
  apply hrest

theorem updateWaves (db : DB) (u : WaveUpdate) : Extends db (db.updateWaves u) :=
  ⟨Table.keys_update _ _ u.id_apply, List.prefix_rfl, List.prefix_rfl, rfl⟩

theorem updateRuns (db : DB) (u : RunUpdate) : Extends db (db.updateRuns u) :=
  ⟨List.prefix_rfl, Table.keys_update _ _ u.id_apply, List.prefix_rfl, rfl⟩

theorem updateJobs (db : DB) (u : JobUpdate) : Extends db (db.updateJobs u) :=
  ⟨List.prefix_rfl, List.prefix_rfl, Table.keys_update _ _ u.id_apply, rfl⟩

theorem view (p : Writes) (db : DB) : Extends db (p.view db) :=
  ⟨Table.keys_overlay _ _, Table.keys_overlay _ _, Table.keys_overlay _ _, rfl⟩

theorem run (h : Extends db v) {r : Run} (hr : r ∈ db.runs) :
  ∃ r' ∈ v.runs, r'.id = r.id
  := List.mem_map.mp (h.runs.subset (List.mem_map_of_mem hr))

theorem job (h : Extends db v) {j : Job} (hj : j ∈ db.jobs) :
  ∃ j' ∈ v.jobs, j'.id = j.id
  := List.mem_map.mp (h.jobs.subset (List.mem_map_of_mem hj))

theorem view_writes (h : Extends db v) : (db.writes v).view db = v := by
  have hrest := h.rest
  cases v
  simp only [DB.writes, Writes.view, Table.overlay_diff h.waves, Table.overlay_diff h.runs,
    Table.overlay_diff h.jobs]
  cases db
  cases hrest
  rfl

end Extends

/-- No statement removes a row or changes its identity. -/
theorem Query.exec_extends {β : Type} {q : Query β} {db v : DB} {b : β}
    (h : q.exec db = .ok (b, v)) :
  Extends db v
  := by
  cases q with
  | createWave arg =>
    obtain ⟨waves, -, hinsert, rfl⟩ := createWave_effect h
    exact ⟨Table.keys_insert? hinsert, List.prefix_rfl, List.prefix_rfl, rfl⟩
  | insertRun wave arg =>
    obtain ⟨runs, -, hinsert, rfl, -⟩ := insertRun_effect h
    exact ⟨List.prefix_rfl, Table.keys_insert? hinsert, List.prefix_rfl, rfl⟩
  | createJob arg =>
    obtain ⟨d, jobs, -, hinsert, rfl, -⟩ := createJob_effect h
    exact ⟨List.prefix_rfl, List.prefix_rfl, Table.keys_insert? hinsert, rfl⟩
  | updateRunStatus | cancelActiveRunsByWave =>
    cases h
    apply Extends.updateRuns
  | updateWaveStatus =>
    cases h
    apply Extends.updateWaves
  | updateJobStatus | cancelActiveJobsByRun | cancelActiveJobsByRunAttempt =>
    cases h
    apply Extends.updateJobs
  | updateJobCompletion id status repoShaOut metadata =>
    cases h
    simp only [DB.updateJobCompletion]
    split
    · apply Extends.refl
    · apply (Extends.updateJobs _ _).trans (Extends.updateJobs _ _)
  | claimJob node skipLocked =>
    simp only [Query.exec, DB.claimJob, Except.ok.injEq] at h
    split at h
    · cases h
      apply Extends.refl
    · cases h
      apply Extends.updateJobs
  | unclaimJob id node =>
    cases h
    simp only [DB.unclaimJob]
    split
    · apply Extends.refl
    · apply Extends.updateJobs
  | promoteJobByIDIfUnblocked id =>
    simp only [Query.exec, DB.promoteJobByIDIfUnblocked, Except.ok.injEq] at h
    split at h
    · cases h
      apply Extends.refl
    · split at h
      · cases h
        apply Extends.updateJobs
      · cases h
        apply Extends.refl
  | resetJob =>
    simp only [Query.exec] at h
    split at h
    · cases h
    · cases h
      apply Extends.updateJobs
  | resumeRun | incrementRunAttempt =>
    simp only [Query.exec] at h
    split at h
    · cases h
    · cases h
      apply Extends.updateRuns
  | _ =>
    cases h
    apply Extends.refl

/-! ### Rows -/

/-- A row of one of the tables that transactions write. -/
inductive Row where
  | wave (w : Wave)
  | run (r : Run)
  | job (j : Job)

def Row.key : Row → RowKey
  | .wave w => .wave w.id
  | .run r => .run r.id
  | .job j => .job j.id

/-- A row is in the store. -/
def Row.In : Row → DB → Prop
  | .wave w, db => w ∈ db.waves
  | .run r, db => r ∈ db.runs
  | .job j, db => j ∈ db.jobs

/-- A row has been written. -/
def Row.Written : Row → Writes → Prop
  | .wave w, p => w ∈ p.waves
  | .run r, p => r ∈ p.runs
  | .job j, p => j ∈ p.jobs

theorem Row.Written.mem_rows {x : Row} {p : Writes} (h : x.Written p) :
  x.key ∈ p.rows
  := by
  simp only [Writes.rows, List.mem_append, List.mem_map]
  cases x with
  | wave w => exact Or.inl (Or.inl ⟨w, h, rfl⟩)
  | run r => exact Or.inl (Or.inr ⟨r, h, rfl⟩)
  | job j => exact Or.inr ⟨j, h, rfl⟩

theorem Row.in_view {x : Row} {p : Writes} {db : DB} :
  x.In (p.view db) ↔ x.Written p ∨ (x.In db ∧ x.key ∉ p.rows)
  := by
  cases x with
  | wave | run | job =>
    apply Table.mem_overlay.trans
    simp [Row.Written, Row.In, Row.key, Writes.rows, Table.mem_rows]

theorem Row.written_writes {x : Row} {db v : DB} :
  x.Written (db.writes v) ↔ x.In v ∧ ¬ x.In db
  := by
  cases x <;> apply Table.mem_diff

theorem Writes.mem_rows {p : Writes} {k : RowKey} (h : k ∈ p.rows) :
  ∃ x : Row, x.Written p ∧ x.key = k
  := by
  simp only [Writes.rows, List.mem_append, List.mem_map] at h
  rcases h with (⟨w, hw, rfl⟩ | ⟨r, hr, rfl⟩) | ⟨j, hj, rfl⟩
  · exact ⟨.wave w, hw, rfl⟩
  · exact ⟨.run r, hr, rfl⟩
  · exact ⟨.job j, hj, rfl⟩

def isolation : Isolation Query StoreError DB Writes RowKey where
  engine := engine
  clean := ⟨Table.empty _, Table.empty _, Table.empty _⟩
  view := Writes.view
  writes := DB.writes
  rows := Writes.rows
  selects := Query.selects
  rows_clean := rfl
  view_clean s := by
    simp only [Writes.view, Table.empty_overlay]
  view_writes h := ((Extends.view _ _).trans (Query.exec_extends h)).view_writes
  rows_writes := by
    intro p s v k hk
    obtain ⟨x, hx, rfl⟩ := Writes.mem_rows hk
    obtain ⟨hv, hs⟩ := Row.written_writes.mp hx
    by_cases hseen : x.In (p.view s)
    · left
      rcases Row.in_view.mp hseen with hx | ⟨hx, -⟩
      · apply hx.mem_rows
      · apply absurd hx hs
    · exact Or.inr (Row.written_writes.mpr ⟨hv, hseen⟩).mem_rows

/-! ### The machine -/

/-- The transactions that clients ask for. Job identifiers are supplied from outside. -/
inductive TransactionRequest where
  | createWaveWithRuns (ids : Nat → Nat → JobID) (arg : CreateWaveWithRunsParams)
  | claimJob (nodeID : NodeID) (skipLocked : List JobID)
  | unclaimJob (id : JobID) (nodeID : NodeID)
  | completeJob (input : CompletionInput)
  | cancelRun (runID : RunID)
  | cancelWave (waveID : WaveID)
  | restartRun (ids : Nat → JobID) (arg : RestartRunParams)

def TransactionRequest.program : TransactionRequest → Tx Unit
  | .createWaveWithRuns ids arg => Ploy.createWaveWithRuns ids arg >>= fun _ => pure ()
  | .claimJob nodeID skipLocked => Ploy.claimJob nodeID skipLocked >>= fun _ => pure ()
  | .unclaimJob id nodeID => Ploy.unclaimJob id nodeID
  | .completeJob input => Ploy.completeJob input >>= fun _ => pure ()
  | .cancelRun runID => Ploy.cancelRun runID
  | .cancelWave waveID => Ploy.cancelWave waveID
  | .restartRun ids arg => Ploy.restartRun ids arg >>= fun _ => pure ()

/-- What changes without transactions: the nodes that are known, and time. -/
structure Surroundings where
  nodes : Table Node.id
  now : Time

def Surroundings.apply (o : Surroundings) (db : DB) : DB :=
  { db with nodes := o.nodes, now := o.now }

/-- The states and the events of the store at READ COMMITTED. -/
abbrev ClientState := ReadCommitted Query StoreError DB Writes RowKey TransactionRequest
abbrev ClientEvent := ReadCommitted.Event TransactionRequest Surroundings
abbrev ClientSession := Session Query StoreError Writes RowKey TransactionRequest

/-- The store at READ COMMITTED, without waves, runs and jobs at first. -/
def clientMachine : Machine ClientState ClientEvent :=
  ReadCommitted.machine isolation TransactionRequest.program Surroundings.apply DB.Initial

theorem client_moves {e : ClientEvent} {c c' : ClientState} (h : clientMachine.step e c = some c') :
  ReadCommitted.Moves isolation TransactionRequest.program Surroundings.apply e c c'
  := by
  apply ReadCommitted.step_moves
  apply h

namespace Sample

def clients : ClientState :=
  ⟨store, []⟩

theorem clients_init : clientMachine.init clients :=
  ⟨initial, rfl⟩

def creating (wave run : String) (jobs : List JobPlan) : TransactionRequest :=
  .createWaveWithRuns (fun _ i => ⟨run ++ if i = 0 then "0" else "1"⟩)
    ⟨⟨⟨wave⟩, ⟨"m"⟩, ⟨"s"⟩⟩, [⟨⟨run⟩, ⟨"p"⟩, "main", sha0, sha0, none, jobs⟩]⟩

end Sample

/-! ### What a transaction can rely on -/

section Rely

variable {P : Protocol isolation Surroundings.apply} {L : List RowKey} {p : Writes} {s s' : DB}
  {x : Row}

theorem Row.in_surroundings {o : Surroundings} :
  x.In (o.apply s) ↔ x.In s
  := by
  cases x <;> exact Iff.rfl

/-- A row arrives with the commit of another transaction. -/
structure Arrives (P : Protocol isolation Surroundings.apply) (L : List RowKey) (s : DB) (x : Row) :
    Prop where
  arrival : ∃ (L' : List RowKey) (p' : Writes), (∀ k ∈ L', k ∉ L) ∧ x.key ∈ L'
    ∧ P.guarantee L' p' s ∧ x.In (p'.view s)

theorem rely_store (h : P.Rely L s s') (hx : x.In s') :
  x.In s ∨ Arrives P L s x
  := by
  cases h with
  | @commit L' p' s apart owns inv guarantees =>
    rcases Row.in_view.mp hx with hwritten | ⟨hs, -⟩
    · exact Or.inr ⟨L', p', apart, owns _ hwritten.mem_rows, guarantees, hx⟩
    · apply Or.inl hs
  | drift o inv => exact Or.inl (Row.in_surroundings.mp hx)

theorem rely_locked (h : P.Rely L s s') (hlocked : x.key ∈ L) :
  x.In s' ↔ x.In s
  := by
  cases h with
  | @commit L' p' s apart owns inv guarantees =>
    have hfree : x.key ∉ p'.rows := fun hk => apart _ (owns _ hk) hlocked
    change x.In (p'.view s) ↔ x.In s
    rw [Row.in_view]
    constructor
    · rintro (hwritten | ⟨hs, -⟩)
      · apply absurd hwritten.mem_rows hfree
      · apply hs
    · intro hs
      exact Or.inr ⟨hs, hfree⟩
  | drift o inv => exact Row.in_surroundings

theorem own_or_committed (hx : x.In (p.view s)) :
  x.Written p ∨ x.In s
  := (Row.in_view.mp hx).imp_right And.left

theorem rely_view (h : P.Rely L s s') (hx : x.In (p.view s')) :
  x.In (p.view s) ∨ (x.key ∉ p.rows ∧ Arrives P L s x)
  := by
  rcases Row.in_view.mp hx with hwritten | ⟨hs', hfree⟩
  · exact Or.inl (Row.in_view.mpr (Or.inl hwritten))
  · rcases rely_store h hs' with hs | harrives
    · exact Or.inl (Row.in_view.mpr (Or.inr ⟨hs, hfree⟩))
    · exact Or.inr ⟨hfree, harrives⟩

theorem rely_view_locked (h : P.Rely L s s') (hlocked : x.key ∈ L) :
  x.In (p.view s') ↔ x.In (p.view s)
  := by
  rw [Row.in_view, Row.in_view, rely_locked h hlocked]

theorem written_seen (hx : x.Written p) :
  x.In (p.view s)
  := Row.in_view.mpr (Or.inl hx)

theorem committed_seen (hx : x.In s) (hfree : x.key ∉ p.rows) :
  x.In (p.view s)
  := Row.in_view.mpr (Or.inr ⟨hx, hfree⟩)

end Rely

/-! ### Locked runs -/

section LockedRun

variable {P : Protocol isolation Surroundings.apply}

theorem view_after {β : Type} {q : Query β} {p : Writes} {s v : DB} {b : β}
    (h : q.exec (p.view s) = .ok (b, v)) :
  (s.writes v).view s = v
  := isolation.view_writes h

variable (P) in
/-- A run is locked, and its row is as the transaction sees it. -/
def seenRun (r : Run) : P.Assertion where
  holds L p s := .run r.id ∈ L ∧ r ∈ (p.view s).runs
  stable := by
    rintro L p s s' howns hrely ⟨hlocked, hr⟩
    refine ⟨hlocked, ?_⟩
    apply (rely_view_locked (x := .run r) hrely hlocked).mpr hr

theorem mem_runKey {db : DB} {r : Run} (h : r ∈ db.runs) :
  .run r.id ∈ db.runKey r.id
  := by
  simp [DB.runKey, Table.find?_of_mem h]

end LockedRun

end Ploy
