import Ploy.Run.Refinement

/-!
# The machine of the store

The store under its operations, each one atomic. Rejected requests change nothing and are
left out. Nodes come and go, and time passes, as the outside has it.
-/

namespace Ploy

/-- The operations on the store. Job identifiers are supplied from outside. -/
inductive Operation where
  | createWaveWithRuns (ids : Nat → Nat → JobID) (arg : CreateWaveWithRunsParams)
  | claimJob (nodeID : NodeID) (skipLocked : List JobID)
  | unclaimJob (id : JobID) (nodeID : NodeID)
  | completeJob (input : CompletionInput)
  | cancelRun (runID : RunID)
  | cancelWave (waveID : WaveID)
  | restartRun (ids : Nat → JobID) (arg : RestartRunParams)
  | cancelActiveJobsByRunAttempt (runID : RunID) (attempt : Nat)
  | outside (nodes : Table Node.id) (now : Time)

def committed {α : Type} : Except StoreError (α × DB) → Option DB
  | .ok (_, db) => some db
  | .error _ => none

theorem committed_eq_some {α : Type} {x : Except StoreError (α × DB)} {db : DB} :
  committed x = some db ↔ ∃ a, x = .ok (a, db)
  := by
  cases x with
  | error e => simp [committed]
  | ok y => simp [committed, Prod.ext_iff]

/-- The store after an operation that is not rejected. -/
def Operation.step : Operation → DB → Option DB
  | .createWaveWithRuns ids arg, db =>
    committed ((Ploy.createWaveWithRuns ids arg).transaction engine db)
  | .claimJob nodeID skipLocked, db =>
    committed ((Ploy.claimJob nodeID skipLocked).transaction engine db)
  | .unclaimJob id nodeID, db => committed ((Ploy.unclaimJob id nodeID).transaction engine db)
  | .completeJob input, db => committed ((Ploy.completeJob input).transaction engine db)
  | .cancelRun runID, db => committed ((Ploy.cancelRun runID).transaction engine db)
  | .cancelWave waveID, db => committed ((Ploy.cancelWave waveID).transaction engine db)
  | .restartRun ids arg, db => committed ((Ploy.restartRun ids arg).transaction engine db)
  | .cancelActiveJobsByRunAttempt runID attempt, db =>
    some (db.updateJobs (cancelJobsUpdate (Job.inAttempt runID attempt)))
  | .outside nodes now, db => some { db with nodes, now }

/-- Whether an operation is a whole request, as opposed to a statement of a longer one. -/
def Operation.whole : Operation → Bool
  | .cancelActiveJobsByRunAttempt _ _ => false
  | _ => true

/-- A store without waves, runs and jobs. -/
def DB.Initial (db : DB) : Prop :=
  db.waves.rows = [] ∧ db.runs.rows = [] ∧ db.jobs.rows = []

def storeMachine : Machine DB Operation where
  init := DB.Initial
  step := Operation.step

/-- Every operation refines the steps of the attempts. -/
theorem Operation.step_refines {op : Operation} {db db' : DB} (hdb : WellFormed db)
    (h : op.step db = some db') :
  Refines op.whole db db'
  := by
  cases op with
  | createWaveWithRuns ids arg =>
    obtain ⟨_, h⟩ := committed_eq_some.mp h
    apply createWaveWithRuns_refines hdb h
  | claimJob nodeID skipLocked =>
    obtain ⟨_, h⟩ := committed_eq_some.mp h
    apply claimJob_refines hdb h
  | unclaimJob id nodeID =>
    obtain ⟨_, h⟩ := committed_eq_some.mp h
    apply unclaimJob_refines hdb h
  | completeJob input =>
    obtain ⟨_, h⟩ := committed_eq_some.mp h
    apply completeJob_refines hdb h
  | cancelRun runID =>
    obtain ⟨_, h⟩ := committed_eq_some.mp h
    apply cancelRun_refines hdb h
  | cancelWave waveID =>
    obtain ⟨_, h⟩ := committed_eq_some.mp h
    apply cancelWave_refines hdb h
  | restartRun ids arg =>
    obtain ⟨_, h⟩ := committed_eq_some.mp h
    apply restartRun_refines hdb h
  | cancelActiveJobsByRunAttempt runID attempt =>
    cases h
    apply cancelActiveJobs_refines hdb
  | outside nodes now =>
    cases h
    apply Refines.of_eq hdb
    · rfl
    · rfl

theorem DB.Initial.wellFormed {db : DB} (h : db.Initial) :
  WellFormed db
  := by
  obtain ⟨-, -, hjobs⟩ := h
  constructor
  · intro j hj
    rw [← Table.mem_rows, hjobs] at hj
    cases hj
  · intro run a
    use []
    constructor
    · rw [hjobs]
      apply List.Perm.refl
    · trivial

theorem wellFormed_of_execution {past : List (DB × Operation)} {db : DB}
    (h : storeMachine.Execution past db) :
  WellFormed db
  := by
  apply h.invariant
  · intro db hinit
    apply hinit.wellFormed
  · intro db op db' hdb hstep
    apply (Operation.step_refines hdb hstep).wellFormed

theorem evolves_of_execution {past : List (DB × Operation)} {db db' : DB}
    (h : storeMachine.Execution past db) {op : Operation}
    (hstep : storeMachine.step op db = some db') :
  Evolves op.whole db db'
  := (Operation.step_refines (wellFormed_of_execution h) hstep).evolves

/-! ### Invariants of attempts -/

/-- A property of attempts that created attempts have and that steps keep. The jobs of an
attempt are linked. -/
structure Attempt.Invariant (I : Attempt → Prop) : Prop where
  created : ∀ s, Attempt.Created s → I s
  step : ∀ whole s s', Linked Job.id Job.nextID s.jobs → I s → Attempt.Step whole s s' → I s'

theorem onAttempts_of_execution {I : Attempt → Prop} (hI : Attempt.Invariant I)
    {past : List (DB × Operation)} {db : DB} (h : storeMachine.Execution past db) :
  OnAttempts I db
  := by
  have hboth : WellFormed db ∧ OnAttempts I db := by
    apply h.invariant
    · intro db hinit
      use hinit.wellFormed
      intro r hr
      rw [← Table.mem_rows, hinit.2.1] at hr
      cases hr
    · rintro db op db' ⟨hdb, hon⟩ hstep
      have hrefines := Operation.step_refines hdb hstep
      use hrefines.wellFormed
      apply hon.evolve hI.created (hI.step _) hdb hrefines.evolves
  apply hboth.2

theorem Attempt.Invariant.and {I J : Attempt → Prop} (hI : Attempt.Invariant I)
    (hcreated : ∀ s, Attempt.Created s → J s)
    (hstep : ∀ whole s s', Linked Job.id Job.nextID s.jobs → I s → J s →
      Attempt.Step whole s s' → J s') :
  Attempt.Invariant fun s => I s ∧ J s
  := by
  constructor
  · intro s hs
    apply And.intro (hI.created s hs) (hcreated s hs)
  · rintro whole s s' hlinked ⟨hi, hj⟩ hs
    apply And.intro (hI.step whole s s' hlinked hi hs) (hstep whole s s' hlinked hi hj hs)

/-! ### A store to try the operations on -/

namespace Sample

/-- A repository, a mig on it, and two nodes. -/
def store : DB where
  waves := Table.empty _
  runs := Table.empty _
  jobs := Table.empty _
  nodes := ⟨[⟨⟨"n1"⟩, false, some 0⟩, ⟨⟨"n2"⟩, false, some 0⟩], by decide⟩
  repos := ⟨[⟨⟨"p"⟩, "https://host/p"⟩], by decide⟩
  migs := [⟨"m"⟩]
  specs := [⟨"s"⟩]
  migRepos := [(⟨"m"⟩, ⟨"p"⟩)]
  now := 1

def sha0 : String := "0123456789abcdef0123456789abcdef01234567"

def sha1 : String := "89abcdef0123456789abcdef0123456789abcdef"

/-- A gate and a step. -/
def plans : List JobPlan :=
  [⟨"gate", .preGate, "", .document (.object [])⟩, ⟨"step", .mig, "", .document (.object [])⟩]

/-- Creating a wave with one run. -/
def create : Operation :=
  .createWaveWithRuns (fun _ i => ⟨if i = 0 then "j0" else "j1"⟩)
    ⟨⟨⟨"w"⟩, ⟨"m"⟩, ⟨"s"⟩⟩, [⟨⟨"r"⟩, ⟨"p"⟩, "main", sha0, sha0, none, plans⟩]⟩

/-- A report on a job from the first node. -/
def report (job : String) (status : JobStatus) (h : status.terminal = true) (resumeCount : Int) :
    CompletionInput :=
  ⟨⟨job⟩, ⟨"n1"⟩, status, resumeCount, none, sha1, h, Or.inr (by decide +kernel)⟩

theorem terminal_success : JobStatus.success.terminal = true :=
  rfl

theorem terminal_fail : JobStatus.fail.terminal = true :=
  rfl

/-- A run whose first job succeeds and whose second fails. -/
def failing : List Operation :=
  [create, .claimJob ⟨"n1"⟩ [], .completeJob (report "j0" .success rfl 0), .claimJob ⟨"n1"⟩ [],
    .completeJob (report "j1" .fail rfl 0)]

/-- Retrying the job that failed. -/
def retry : RestartRunParams :=
  ⟨true, 0, ⟨"r"⟩, 1, none, plans⟩

theorem initial : store.Initial :=
  ⟨rfl, rfl, rfl⟩

end Sample

end Ploy
