import Ploy.Run.Machine
import Ploy.Server.Plan

/-!
# Jobs as they are planned

Where runs are created and restarted with the plans of their specifications, every job keeps what
its plan gave it: a name and a type under which the plan is found again. No statement gives a job a
successor in its metadata, unless a node reports one.
-/

namespace Ploy

open Program

/-! ### Regular jobs -/

/-- A job with an identifier, without a successor in its metadata, whose owner has a name, and
which nothing has happened to while it waits. -/
structure Job.Regular (j : Job) : Prop where
  named : j.id.isZero = false
  plain : nextIDFromMeta j.metadata = none
  owner : j.nodeID ≠ some ⟨""⟩
  waiting : j.status = .created → j.startedAt = none ∧ j.nodeID = none

/-- A job that has the name and the type of a plan of its run. -/
def Job.PlannedBy (spec : MigSpec) (j : Job) : Prop :=
  ∃ plan ∈ planJobsFromSpec spec, plan.name = j.name ∧ plan.jobType = j.jobType

/-- Every job is regular and planned by the specification of its run, and every run starts from a
commit. -/
structure DB.Regular (specs : SpecID → MigSpec) (db : DB) : Prop where
  jobs : ∀ j ∈ db.jobs, j.Regular
  planned : ∀ j ∈ db.jobs, ∃ r ∈ db.runs, r.id = j.runID ∧ j.PlannedBy (specs r.specID)
  source : ∀ r ∈ db.runs, isCanonicalFullCommitSHA r.repoSha0 = true

theorem JobUpdate.name_apply (u : JobUpdate) (j : Job) : (u.apply j).name = j.name :=
  congrArg (·.2.2.2.2.2) (u.keeps j)

theorem JobUpdate.jobType_apply (u : JobUpdate) (j : Job) : (u.apply j).jobType = j.jobType :=
  congrArg (·.2.2.2.2.1) (u.keeps j)

theorem RunUpdate.specID_apply (u : RunUpdate) (r : Run) : (u.apply r).specID = r.specID :=
  congrArg (·.2.2.2.1) (u.keeps r)

section Rows

variable {j : Job}

theorem Job.Regular.onlyIf {u : JobUpdate} {p : Job → Bool} (hj : j.Regular)
    (h : (u.apply j).Regular) :
  ((u.onlyIf p).apply j).Regular
  := by
  simp only [RowUpdate.onlyIf]
  split
  · apply h
  · apply hj

theorem Job.Regular.claimed (h : j.Regular) {n : NodeID} (hn : n.raw ≠ "") (now : Time) :
  ((claimRow n now).apply j).Regular
  := by
  refine ⟨h.named, h.plain, ?_, fun hs => by cases hs⟩
  rintro ⟨⟩
  apply hn rfl

theorem Job.Regular.unclaimed (h : j.Regular) (keepNode : Job → Bool) :
  ((unclaimRow keepNode).apply j).Regular
  := by
  refine ⟨h.named, h.plain, ?_, fun hs => by cases hs⟩
  simp only [unclaimRow]
  split
  · apply h.owner
  · simp

theorem Job.Regular.cancelled (h : j.Regular) :
  (cancelJob.apply j).Regular
  := ⟨h.named, h.plain, h.owner, fun hs => by cases hs⟩

theorem Job.Regular.cancelledIf (h : j.Regular) (p : Job → Bool) :
  ((cancelJobsUpdate p).apply j).Regular
  := h.onlyIf h.cancelled

theorem Job.Regular.fed (h : j.Regular) (out : String) :
  ((feedRow out).apply j).Regular
  := ⟨h.named, h.plain, h.owner, h.waiting⟩

theorem Job.Regular.promoted (h : j.Regular) :
  (promoteRow.apply j).Regular
  := ⟨h.named, h.plain, h.owner, fun hs => by cases hs⟩

theorem Job.Regular.completed (h : j.Regular) (input : CompletionInput)
    (hmeta : ∀ d, input.jobMeta = some d → nextIDFromMeta d = none) :
  (input.completed j).Regular
  := by
  refine ⟨h.named, ?_, h.owner, ?_⟩
  · simp only [CompletionInput.completed, completeRow]
    cases hd : input.jobMeta with
    | none => apply h.plain
    | some d => apply hmeta d hd
  · intro hs
    have hterminal := input.terminal
    rw [show input.status = .created from hs] at hterminal
    cases hterminal

end Rows

theorem regular_after {input : CompletionInput} {j : Job} {post : List Job}
    (h : ∀ k ∈ post, k.Regular) :
  ∀ k ∈ input.after j post, k.Regular
  := by
  apply input.forall_after _ _ _ h
  · intro out k hk
    apply hk.fed
  · intro k _ hk
    apply hk.promoted
  · intro k _ hk
    apply hk.cancelled

/-! ### Regular stores -/

section Stores

variable {specs : SpecID → MigSpec} {db db' : DB}

/-- Regular rows that are rewritten as regular ones stay regular. -/
theorem DB.Regular.rewrite (h : db.Regular specs) (v : RunUpdate) (u : JobUpdate)
    (hruns : db'.runs = (db.updateRuns v).runs) (hjobs : db'.jobs = (db.updateJobs u).jobs)
    (hu : ∀ j ∈ db.jobs, j.Regular → (u.apply j).Regular) :
  db'.Regular specs
  := by
  constructor
  · intro j' hj'
    rw [hjobs, DB.mem_updateJobs] at hj'
    obtain ⟨j, hj, rfl⟩ := hj'
    apply hu j hj (h.jobs j hj)
  · intro j' hj'
    rw [hjobs, DB.mem_updateJobs] at hj'
    obtain ⟨j, hj, rfl⟩ := hj'
    obtain ⟨r, hr, hid, hplanned⟩ := h.planned j hj
    use v.apply r
    rw [hruns, DB.mem_updateRuns, v.id_apply, u.runID_apply, v.specID_apply]
    refine ⟨⟨r, hr, rfl⟩, hid, ?_⟩
    rw [Job.PlannedBy, u.name_apply, u.jobType_apply]
    apply hplanned
  · intro r' hr'
    rw [hruns, DB.mem_updateRuns] at hr'
    obtain ⟨r, hr, rfl⟩ := hr'
    rw [v.repoSha0_apply]
    apply h.source r hr

theorem DB.Regular.updateWaves (h : db.Regular specs) (u : WaveUpdate) :
  (db.updateWaves u).Regular specs
  := ⟨h.jobs, h.planned, h.source⟩

theorem DB.Regular.updateJobs (h : db.Regular specs) {u : JobUpdate}
    (hu : ∀ j ∈ db.jobs, j.Regular → (u.apply j).Regular) :
  (db.updateJobs u).Regular specs
  := by
  apply h.rewrite (RowUpdate.refl _) u _ rfl hu
  rw [DB.updateRuns_refl]
  rfl

theorem DB.Regular.updateRuns (h : db.Regular specs) (v : RunUpdate) :
  (db.updateRuns v).Regular specs
  := by
  apply h.rewrite v (RowUpdate.refl _) rfl
  · rw [DB.updateJobs_eq_self (fun _ _ => rfl)]
    rfl
  · intro j _ hj
    apply hj

/-! ### Creating jobs -/

theorem regular_planned {ids : Nat → JobID} {run : Run} {i : Nat} {plan : JobPlan}
    {rest : List JobPlan} {spec : MigSpec} {d : JSONDocument} (hid : (ids i).isZero = false)
    (hplan : plan ∈ planJobsFromSpec spec) (hd : plan.metadata.column "meta" = .ok d) :
  ((plannedJob ids run i plan rest).row d).Regular
    ∧ ((plannedJob ids run i plan rest).row d).PlannedBy spec
  := by
  refine ⟨⟨hid, ?_, ?_, fun _ => ⟨rfl, rfl⟩⟩, plan, hplan, rfl, rfl⟩
  · obtain ⟨d', hdoc, hplain⟩ := metadata_planned hplan
    rw [hdoc] at hd
    cases hd
    apply hplain
  · rintro ⟨⟩

/-- Jobs that are planned from a spec are regular. -/
theorem insertPlannedJobs_regular {ids : Nat → JobID} {run : Run} {i : Nat} {plans : List JobPlan}
    {created : List Job} (h : db.Regular specs) (hrun : run ∈ db.runs)
    (hids : ∀ k, k < i + plans.length → (ids k).isZero = false)
    (hplans : ∀ plan ∈ plans, plan ∈ planJobsFromSpec (specs run.specID))
    (ht : (insertPlannedJobs ids run i plans).transaction engine db = .ok (created, db')) :
  db'.Regular specs ∧ db'.runs = db.runs
  := by
  induction plans generalizing i created db' with
  | nil =>
    cases ht
    exact ⟨h, rfl⟩
  | cons plan rest ih =>
    simp only [insertPlannedJobs, transaction_bind_ok, transaction_mapError_ok,
      transaction_issue, engine_exec, Query.exec, transaction_pure, Except.ok.injEq,
      Prod.mk.injEq] at ht
    obtain ⟨later, db₁, hlater, j, db₂, hj, -, rfl⟩ := ht
    obtain ⟨hregular, hruns⟩ := ih
      (fun k hk => hids k (by rw [List.length_cons]; omega))
      (fun p hp => hplans p (List.mem_cons_of_mem _ hp)) hlater
    obtain ⟨d, jobs, rfl, hinsert, rfl, -, hmeta⟩ := createJob_effect hj
    obtain ⟨hnew, hplanned⟩ : ((plannedJob ids run i plan rest).row d).Regular
        ∧ ((plannedJob ids run i plan rest).row d).PlannedBy (specs run.specID) :=
      regular_planned (hids i (by rw [List.length_cons]; omega))
        (hplans plan List.mem_cons_self) hmeta
    refine ⟨⟨?_, ?_, hregular.source⟩, hruns⟩
    · intro k hk
      rcases Table.mem_insert? hinsert |>.mp hk with hk | rfl
      · apply hregular.jobs k hk
      · apply hnew
    · intro k hk
      rcases Table.mem_insert? hinsert |>.mp hk with hk | rfl
      · apply hregular.planned k hk
      · refine ⟨run, ?_, rfl, hplanned⟩
        rw [hruns]
        apply hrun

theorem createPlannedJobs_regular {ids : Nat → JobID} {run : Run} {created : List Job}
    (h : db.Regular specs) (hrun : run ∈ db.runs)
    (hids : ∀ k < (planJobsFromSpec (specs run.specID)).length, (ids k).isZero = false)
    (ht : (createPlannedJobs ids run (planJobsFromSpec (specs run.specID))).transaction engine db
      = .ok (created, db')) :
  db'.Regular specs ∧ db'.runs = db.runs
  := by
  simp only [createPlannedJobs, transaction_bind_ok, transaction_rejectIf_ok] at ht
  obtain ⟨-, db₁, ⟨-, rfl⟩, _, db₂, hvalid, ht⟩ := ht
  rw [validatePlans_effect hvalid] at ht
  apply insertPlannedJobs_regular h hrun _ (fun _ hplan => hplan) ht
  intro k hk
  apply hids k (by simpa using hk)

/-- Runs that are created from a spec are regular. -/
theorem createRuns_regular {ids : Nat → Nat → JobID} {wave : CreateWaveParams} {i : Nat}
    {plans : List RunPlan} {materialized : List (Run × List Job)} (h : db.Regular specs)
    (hids : ∀ m < i + plans.length, ∀ k < (planJobsFromSpec (specs wave.specID)).length,
      (ids m k).isZero = false)
    (hplans : ∀ plan ∈ plans, isCanonicalFullCommitSHA plan.repoSha0 = true
      ∧ plan.jobs = planJobsFromSpec (specs wave.specID))
    (ht : (createRuns ids wave i plans).transaction engine db = .ok (materialized, db')) :
  db'.Regular specs
  := by
  induction plans generalizing i db materialized with
  | nil =>
    cases ht
    apply h
  | cons plan rest ih =>
    simp only [createRuns, transaction_bind_ok, transaction_within_ok, transaction_issue,
      engine_exec, Query.exec, transaction_pure, Except.ok.injEq, Prod.mk.injEq] at ht
    obtain ⟨_, db₁, halone, r, db₂, hrun, created, db₃, hjobs, later, db₄, hlater, -, rfl⟩ := ht
    obtain ⟨-, rfl⟩ := requireRepoWithoutActiveRun_effect halone
    obtain ⟨runs, rfl, hinsert, rfl, -⟩ := insertRun_effect hrun
    obtain ⟨hsource, hplan⟩ := hplans plan List.mem_cons_self
    have hadded : DB.Regular specs { db₁ with runs } := by
      refine ⟨h.jobs, ?_, ?_⟩
      · intro j hj
        obtain ⟨r, hr, hid, hplanned⟩ := h.planned j hj
        exact ⟨r, (Table.mem_insert? hinsert).mpr (Or.inl hr), hid, hplanned⟩
      · intro r hr
        rcases (Table.mem_insert? hinsert).mp hr with hr | rfl
        · apply h.source r hr
        · apply hsource
    rw [hplan] at hjobs
    have hmem : plan.row wave db₁.now ∈ runs := (Table.mem_insert? hinsert).mpr (Or.inr rfl)
    obtain ⟨hregular, -⟩ := createPlannedJobs_regular hadded hmem
      (hids i (by rw [List.length_cons]; omega)) hjobs
    apply ih hregular _ _ hlater
    · intro m hm
      apply hids m (by rw [List.length_cons]; omega)
    · intro p hp
      apply hplans p (List.mem_cons_of_mem _ hp)

/-! ### Restarting -/

/-- A job that is reset names no successor in its metadata. -/
theorem resetJobs_plain {spec : MigSpec} {first : Bool} {suffix : List Job} {x : Unit}
    (h : ∀ j ∈ db.jobs, nextIDFromMeta j.metadata = none)
    (ht : (resetJobs (planJobsFromSpec spec) first suffix).transaction engine db = .ok (x, db')) :
  ∀ j ∈ db'.jobs, nextIDFromMeta j.metadata = none
  := by
  induction suffix generalizing first db with
  | nil =>
    cases ht
    apply h
  | cons job rest ih =>
    simp only [resetJobs, transaction_bind_ok, transaction_orFail_ok, transaction_issue,
      engine_exec, Query.exec] at ht
    obtain ⟨plan, db₁, ⟨hplan, rfl⟩, ⟨⟩, db₂, hreset, ht⟩ := ht
    apply ih _ ht
    have hmem : plan ∈ planJobsFromSpec spec := by
      have hfind := (Option.filter_eq_some_iff.mp hplan).1
      simpa using List.mem_of_find?_eq_some hfind
    obtain ⟨d, hd, hplain⟩ := metadata_planned hmem
    rw [hd] at hreset
    cases hreset
    intro j hj
    obtain ⟨j₀, hj₀, rfl⟩ := DB.mem_updateJobs.mp hj
    simp only [RowUpdate.onlyIf]
    split
    · apply hplain
    · apply h j₀ hj₀

/-- Resuming keeps the store regular. -/
theorem resumeFailedJobs_regular {r : Run} {arg : RestartRunParams} {spec : MigSpec} {x : Unit}
    (h : db.Regular specs) (harg : arg.jobs = planJobsFromSpec spec)
    (ht : (resumeFailedJobs r arg).transaction engine db = .ok (x, db')) :
  db'.Regular specs
  := by
  have hplain : ∀ j ∈ db'.jobs, nextIDFromMeta j.metadata = none := by
    simp only [resumeFailedJobs, transaction_bind_ok, transaction_rejectIf_ok, transaction_issue,
      transaction_orFail_ok, engine_exec, Query.exec, Except.ok.injEq, Prod.mk.injEq] at ht
    obtain ⟨_, db₁, ⟨-, rfl⟩, jobs, db₂, ⟨-, rfl⟩, suffix, db₃, ⟨-, rfl⟩, _, db₄, hreset, ht⟩ := ht
    rw [harg] at hreset
    have := resetJobs_plain (fun j hj => (h.jobs j hj).plain) hreset
    split at ht
    · cases ht
    · cases ht
      apply this
  obtain ⟨pre, j, post, hchain, -, hfailed, hpost, u, hother, ⟨d, hfirst⟩, hrest, rfl⟩ :=
    resumeFailedJobs_chain ht
  apply DB.Regular.updateRuns
  apply h.updateJobs
  intro k hk hregular
  have hmem : u.apply k ∈ (db.updateJobs u).jobs := DB.mem_updateJobs.mpr ⟨k, hk, rfl⟩
  -- a job of the suffix keeps its node, and those that wait again have none
  have hnode : (u.apply k).nodeID ≠ some ⟨""⟩ ∧ ((u.apply k).status = .created →
      (u.apply k).startedAt = none ∧ (u.apply k).nodeID = none) := by
    by_cases hin : k.id ∈ (j :: post).map Job.id
    · obtain ⟨k', hk', hid⟩ := List.mem_map.mp hin
      obtain rfl := hchain.eq_of_id_eq (List.mem_append_right _ hk') hk hid.symm
      rcases List.mem_cons.mp hk' with rfl | hk'
      · rw [hfirst]
        exact ⟨hregular.owner, fun hs => by cases hs⟩
      · obtain ⟨d', hd'⟩ := hrest k hk'
        rw [hd']
        exact ⟨hregular.owner, fun _ => ⟨rfl, (hpost k hk').unowned⟩⟩
    · rw [hother k hin]
      exact ⟨hregular.owner, hregular.waiting⟩
  refine ⟨?_, hplain _ hmem, hnode.1, hnode.2⟩
  rw [u.id_apply]
  apply hregular.named

/-- A restart with the plan of its spec keeps the store regular. -/
theorem restartRun_regular {ids : Nat → JobID} {arg : RestartRunParams} {updated : Run}
    (h : db.Regular specs)
    (hids : ∀ k < arg.jobs.length, (ids k).isZero = false)
    (harg : ∀ r ∈ db.runs, r.id = arg.runID → arg.jobs = planJobsFromSpec (specs r.specID))
    (ht : (restartRun ids arg).transaction engine db = .ok (updated, db')) :
  db'.Regular specs
  := by
  obtain ⟨r, w, db₁, hrestartable, hreopen, hupdated, hcases⟩ := restartRun_effect ht
  have hjobs := harg r hrestartable.run hrestartable.id
  rcases hcases with ⟨hfrom, rfl⟩ | ⟨hfull, created, hcreate⟩
  · simp only [reopenRun, hfrom, if_true] at hreopen
    apply (resumeFailedJobs_regular h hjobs hreopen).updateWaves
  · simp only [reopenRun, hfull, Bool.false_eq_true, if_false] at hreopen
    rw [startNextAttempt_effect hreopen] at hupdated hcreate
    obtain ⟨hmem, -⟩ := Table.find?_eq_some.mp hupdated
    obtain ⟨r', hr', hid⟩ := DB.mem_updateRuns.mp hmem
    -- the run that is read again has the specification it had
    obtain rfl : r' = r := by
      apply Table.eq_of_key_eq hr' hrestartable.run
      have hid' := congrArg Run.id hid
      rw [RunUpdate.id_apply, (Table.find?_eq_some.mp hupdated).2] at hid'
      rw [hid', hrestartable.id]
    have hspec : updated.specID = r'.specID := by
      rw [← hid, RunUpdate.specID_apply]
    have hleft := ((h.updateJobs fun j _ hj => hj.cancelledIf
      (Job.inAttempt arg.runID r'.attempt)).updateRuns
      ((incrementAttemptRow arg.stats).onlyIf (·.id = arg.runID))).updateWaves
      (reviveWaveUpdate r'.waveID)
    rw [hjobs, ← hspec] at hcreate hids
    obtain ⟨hregular, -⟩ := createPlannedJobs_regular hleft hmem hids hcreate
    apply hregular

/-! ### Operations -/

/-- A request to create or restart runs as the handlers make it: with the plans of the
specification, with identifiers, and from a commit. -/
def Operation.submitted (specs : SpecID → MigSpec) (db : DB) : Operation → Bool
  | .createWaveWithRuns ids arg =>
    arg.runs.all (fun plan => isCanonicalFullCommitSHA plan.repoSha0
      && plan.jobs = planJobsFromSpec (specs arg.wave.specID))
    && (List.range arg.runs.length).all fun m =>
      (List.range (planJobsFromSpec (specs arg.wave.specID)).length).all fun k =>
        !(ids m k).isZero
  | .restartRun ids arg =>
    (db.runs.rows.all fun r =>
      r.id ≠ arg.runID || arg.jobs = planJobsFromSpec (specs r.specID))
    && (List.range arg.jobs.length).all fun k => !(ids k).isZero
  | _ => true

/-- A report whose metadata, if it has any, names no successor. -/
def CompletionInput.plain (input : CompletionInput) : Bool :=
  input.jobMeta.all fun d => (nextIDFromMeta d).isNone

/-- A request that a completion makes names no successor. -/
def Operation.plain : Operation → Bool
  | .completeJob input => input.plain
  | _ => true

/-- A plain completion keeps the store regular. -/
theorem completeJob_regular (hdb : WellFormed db) (h : db.Regular specs) {input : CompletionInput}
    (hplain : input.plain = true) {result : Option Run}
    (ht : (completeJob input).transaction engine db = .ok (result, db')) :
  db'.Regular specs
  := by
  obtain ⟨r, hr, pre, j, post, hchain, -, u, rows, hother, hmap, -, rfl, -⟩ :=
    completeJob_effect hdb ht
  apply DB.Regular.updateRuns
  apply h.updateJobs
  intro k hk hregular
  by_cases hin : k.runID = r.id ∧ k.attempt = r.attempt
  · have hmem : ∀ k ∈ pre ++ j :: post, k.Regular := by
      intro k hk
      apply h.jobs k (hchain.mem_iff.mp hk).1
    have hk' : u.apply k ∈ pre ++ input.completed j :: input.after j post := by
      rw [← hmap]
      apply List.mem_map_of_mem (hchain.mem_iff.mpr ⟨hk, hin⟩)
    simp only [List.mem_append, List.mem_cons] at hk' hmem
    rcases hk' with hk' | hk' | hk'
    · apply hmem _ (Or.inl hk')
    · rw [hk']
      apply (hmem j (Or.inr (Or.inl rfl))).completed
      intro d hd
      simpa [CompletionInput.plain, hd] using hplain
    · apply regular_after _ _ hk'
      intro k hk
      apply hmem k (Or.inr (Or.inr hk))
  · rw [hother k hk hin]
    apply hregular

/-- Operations as they are submitted keep the store regular. -/
theorem Operation.step_regular {op : Operation} (hdb : WellFormed db) (h : db.Regular specs)
    (hsubmitted : op.submitted specs db = true) (hplain : op.plain = true)
    (hstep : op.step db = some db') :
  db'.Regular specs
  := by
  cases op with
  | createWaveWithRuns ids arg =>
    obtain ⟨_, ht⟩ := committed_eq_some.mp hstep
    simp only [Operation.submitted, Bool.and_eq_true, List.all_eq_true, List.mem_range,
      decide_eq_true_eq, Bool.not_eq_true'] at hsubmitted
    simp only [Ploy.createWaveWithRuns, transaction_bind_ok, transaction_rejectIf_ok,
      transaction_within_ok, transaction_issue, engine_exec, Query.exec, transaction_pure,
      Except.ok.injEq, Prod.mk.injEq] at ht
    obtain ⟨_, db₁, ⟨-, rfl⟩, _, db₂, hlock, w, db₃, hwave, materialized, db₄, hruns, -, rfl⟩ := ht
    obtain rfl := lockRunRepositories_effect hlock
    obtain ⟨waves, rfl, -, rfl⟩ := createWave_effect hwave
    apply createRuns_regular _ _ hsubmitted.1 hruns
    · exact ⟨h.jobs, h.planned, h.source⟩
    · intro m hm
      apply hsubmitted.2 m (by simpa using hm)
  | claimJob nodeID skipLocked =>
    obtain ⟨_, ht⟩ := committed_eq_some.mp hstep
    obtain ⟨n, -, rfl, j, -, heligible, -, rfl⟩ := claimJob_effect ht
    apply h.updateJobs
    intro k _ hk
    apply hk.onlyIf
    apply hk.claimed
    simp only [eligible, Bool.and_eq_true, decide_eq_true_eq] at heligible
    apply heligible.1.1.1.1.2
  | unclaimJob id nodeID =>
    obtain ⟨_, ht⟩ := committed_eq_some.mp hstep
    rcases unclaimJob_effect ht with rfl | rfl
    · apply h
    · apply h.updateJobs
      intro k _ hk
      apply hk.onlyIf (hk.unclaimed _)
  | completeJob input =>
    obtain ⟨_, ht⟩ := committed_eq_some.mp hstep
    apply completeJob_regular hdb h hplain ht
  | cancelRun runID =>
    obtain ⟨_, ht⟩ := committed_eq_some.mp hstep
    obtain ⟨-, rfl⟩ := cancelRun_effect ht
    apply (h.updateRuns _).updateJobs
    intro k _ hk
    apply hk.cancelledIf
  | cancelWave waveID =>
    obtain ⟨_, ht⟩ := committed_eq_some.mp hstep
    obtain ⟨-, rfl⟩ := cancelWave_effect ht
    apply ((h.updateWaves _).updateRuns _).updateJobs
    intro k _ hk
    apply hk.cancelledIf
  | restartRun ids arg =>
    obtain ⟨_, ht⟩ := committed_eq_some.mp hstep
    simp only [Operation.submitted, Bool.and_eq_true, List.all_eq_true, List.mem_range,
      decide_eq_true_eq, Bool.not_eq_true', Bool.or_eq_true] at hsubmitted
    apply restartRun_regular h hsubmitted.2 _ ht
    intro r hr hid
    apply (hsubmitted.1 r hr).resolve_left (absurd hid)
  | cancelActiveJobsByRunAttempt runID attempt =>
    cases hstep
    apply h.updateJobs
    intro k _ hk
    apply hk.cancelledIf
  | outside nodes now =>
    cases hstep
    exact ⟨h.jobs, h.planned, h.source⟩

end Stores

end Ploy
