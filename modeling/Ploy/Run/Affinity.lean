import Ploy.Run.Lifecycle

/-!
# Node affinity

The jobs of an attempt that are bound to a node are bound to the same node. Once an attempt was
resumed, it stays bound to the node that owned the job that failed.
-/

namespace Ploy

open Program

/-! ### What steps do to the nodes of jobs -/

/-- Every job of a list that is bound to a node is bound to the node `n`. -/
def BoundTo (n : NodeID) (l : List Job) : Prop :=
  ∀ j ∈ l, j.nodeID = none ∨ j.nodeID = some n

theorem boundTo_iff {n : NodeID} {l : List Job} :
  BoundTo n l ↔ ∀ owner ∈ l.map Job.nodeID, owner = none ∨ owner = some n
  := by
  simp [BoundTo]

theorem nodeID_cancelIfActive (j : Job) :
  (cancelIfActive.apply j).nodeID = j.nodeID
  := by
  simp only [cancelIfActive, RowUpdate.onlyIf]
  split <;> rfl

theorem map_nodeID_cancelIfActive (l : List Job) :
  (l.map cancelIfActive.apply).map Job.nodeID = l.map Job.nodeID
  := by
  simp [nodeID_cancelIfActive]

theorem nodeID_reset {first : Bool} {j j' : Job} (h : ResetTo first j j') :
  j'.nodeID = j.nodeID
  := by
  obtain ⟨d, rfl⟩ := h
  rfl

/-- What a step does to the nodes of the jobs of an attempt. -/
theorem Attempt.Step.nodes {whole : Bool} {s s' : Attempt} (h : Attempt.Step whole s s') :
  s'.jobs.map Job.nodeID = s.jobs.map Job.nodeID
    ∨ (∃ n, BoundTo n s.jobs ∧ BoundTo n s'.jobs
      ∧ ∀ m, some m ∈ s.jobs.map Job.nodeID → some m ∈ s'.jobs.map Job.nodeID)
    ∨ (∃ pre j post, s.jobs = pre ++ j :: post ∧ j.status = .running
      ∧ s'.jobs.map Job.nodeID = pre.map Job.nodeID
        ++ (if 0 < s.run.stats.resumeCount then j.nodeID else none) :: post.map Job.nodeID)
    ∨ (s.number = s.run.attempt + 1 ∧ s.jobs = [] ∧ ∀ j ∈ s'.jobs, j.nodeID = none)
  := by
  cases h with
  | idle | settle | stay => exact Or.inl rfl
  | @claim r a pre post j n now running queued owner =>
    right
    left
    use n, owner
    constructor
    · intro k hk
      simp only [List.mem_append, List.mem_cons] at hk
      rcases hk with hk | rfl | hk
      · apply owner k (by simp [hk])
      · exact Or.inr rfl
      · apply owner k (by simp [hk])
    · intro m hm
      simp only [List.map_append, List.map_cons, List.mem_append, List.mem_cons] at hm ⊢
      rcases hm with hm | hm | hm
      · exact Or.inl hm
      · rcases owner j (by simp) with hnone | hsome
        · rw [hnone] at hm
          cases hm
        · rw [hsome] at hm
          exact Or.inr (Or.inl hm)
      · exact Or.inr (Or.inr hm)
  | @unclaim r a pre post j running =>
    right
    right
    left
    use pre, j, post, rfl, running
    simp [unclaimRow]
  | complete input rows accepted order =>
    left
    rw [List.map_append, List.map_append, List.map_cons, List.map_cons,
      input.map_after Job.nodeID (fun _ _ => rfl) (fun _ => rfl) fun _ => rfl]
    rfl
  | cancelJobs | cancelRun => exact Or.inl (map_nodeID_cancelIfActive _)
  | leave stats terminal reached =>
    left
    split
    · apply map_nodeID_cancelIfActive
    · rfl
  | enter stats terminal planned nonempty =>
    right
    right
    right
    use rfl, rfl
    intro j hj
    obtain ⟨first, hplanned⟩ := planned.mem hj
    apply hplanned.nodeID
  | resume stats now u terminal succeeded failed cancelled first rest =>
    left
    simp only [List.map_append, List.map_cons, List.map_map, nodeID_reset first]
    congr 2
    apply List.map_congr_left
    intro k hk
    apply nodeID_reset (rest k hk)

/-! ### One node for an attempt -/

/-- The jobs of an attempt are bound to one node. -/
def Attempt.Bound (s : Attempt) : Prop :=
  ∃ n, BoundTo n s.jobs

/-- The jobs of an attempt are bound to one node at most. -/
theorem bound_invariant :
  Attempt.Invariant Attempt.Bound
  := by
  constructor
  · rintro ⟨r, a, l⟩ ⟨-, -, -, ⟨-, hplanned, -⟩ | ⟨-, hnil⟩⟩
    · use ⟨""⟩
      intro j hj
      obtain ⟨first, hplanned⟩ := hplanned.mem hj
      exact Or.inl hplanned.nodeID
    · dsimp only at hnil
      subst hnil
      use ⟨""⟩
      intro j hj
      cases hj
  · rintro _ s s' _ ⟨n, h⟩ hstep
    rcases hstep.nodes with hsame | ⟨m, -, hm, -⟩ | ⟨pre, j, post, hjobs, -, hafter⟩ | ⟨-, -, hnone⟩
    · use n
      rw [boundTo_iff, hsame, ← boundTo_iff]
      apply h
    · exact ⟨m, hm⟩
    · use n
      rw [hjobs, boundTo_iff] at h
      rw [boundTo_iff, hafter]
      intro owner howner
      simp only [List.map_append, List.map_cons, List.mem_append, List.mem_cons] at h howner
      rcases howner with howner | rfl | howner
      · apply h owner (Or.inl howner)
      · split
        · apply h _ (Or.inr (Or.inl rfl))
        · exact Or.inl rfl
      · apply h owner (Or.inr (Or.inr howner))
    · exact ⟨⟨""⟩, fun j hj => Or.inl (hnone j hj)⟩

/-! ### Attempts that were resumed -/

/-- An attempt that was resumed with a job bound to the node `n`: the job stays bound, as long as
the run is in the attempt because it was resumed, and after that because nothing runs. -/
structure Attempt.Anchored (n : NodeID) (s : Attempt) : Prop where
  bound : some n ∈ s.jobs.map Job.nodeID
  resumed : s.number < s.run.attempt ∨ s.number = s.run.attempt ∧ 0 < s.run.stats.resumeCount

/-- An attempt that is anchored to a node stays so. -/
theorem Attempt.Anchored.step {whole : Bool} {n : NodeID} {s s' : Attempt}
    (hplaced : s.Placed) (h : s.Anchored n) (hstep : Attempt.Step whole s s') :
  s'.Anchored n
  := by
  obtain ⟨hnumber, hcounters⟩ := hstep.counters
  have hresumed := h.resumed
  constructor
  · rcases hstep.nodes with hsame | ⟨m, -, -, hkeep⟩ | ⟨pre, j, post, hjobs, hrunning, hafter⟩
      | ⟨hentered, -, -⟩
    · rw [hsame]
      apply h.bound
    · apply hkeep n h.bound
    · -- a job runs, so the run is still in the attempt, and resumed
      have hcount : 0 < s.run.stats.resumeCount := by
        rcases hresumed with hleft | ⟨-, hcount⟩
        · have hterminal := hplaced.left hleft j (by simp [hjobs])
          rw [hrunning] at hterminal
          cases hterminal
        · apply hcount
      rw [hafter, if_pos hcount, ← List.map_cons, ← List.map_append, ← hjobs]
      apply h.bound
    · omega
  · rw [hnumber]
    omega

/-- The job `f` is the one that failed in its attempt. -/
structure FailedJob (db : DB) (f : Job) : Prop where
  mem : f ∈ db.jobs
  failed : f.status = .fail ∨ f.status = .error
  unique : ∀ g ∈ db.jobs, g.runID = f.runID → g.attempt = f.attempt →
    (g.status = .fail ∨ g.status = .error) → g = f

/-- Resuming from a failed job anchors the attempt to the node of that job. -/
theorem resume_anchors {db db' : DB} {r : Run} (hr : r ∈ db.runs) {arg : RestartRunParams}
    {x : Unit} (h : (resumeFailedJobs r arg).transaction engine db = .ok (x, db')) :
  ∃ f, FailedJob db f ∧ f.runID = r.id ∧ f.attempt = r.attempt
    ∧ ∃ owner, f.nodeID = some owner
      ∧ OnAttempt f.runID f.attempt (Attempt.Anchored owner) db'
  := by
  obtain ⟨pre, f, post, hchain, hpre, hfailed, hpost, u, -, hfirst, -, rfl⟩ :=
    resumeFailedJobs_chain h
  have hmem : f ∈ pre ++ f :: post := by simp
  obtain ⟨hf, hrun, hattempt⟩ := hchain.mem_iff.mp hmem
  obtain ⟨owner, howner⟩ := hfailed.owned
  refine ⟨f, ⟨hf, hfailed.failed, ?_⟩, hrun, hattempt, owner, howner, ?_⟩
  · intro g hg hgrun hgattempt hgfailed
    rw [hrun] at hgrun
    rw [hattempt] at hgattempt
    have hmem := hchain.mem_iff.mpr ⟨hg, hgrun, hgattempt⟩
    simp only [List.mem_append, List.mem_cons] at hmem
    rcases hmem with hmem | rfl | hmem
    · rw [hpre g hmem] at hgfailed
      rcases hgfailed with hs | hs <;> cases hs
    · rfl
    · rw [(hpost g hmem).cancelled] at hgfailed
      rcases hgfailed with hs | hs <;> cases hs
  · rw [hrun, hattempt]
    use (resumeRow arg.stats (r.stats.resumeCount + 1) db.now).apply r
    refine ⟨?_, rfl, _, (hchain.updateJobs u).of_jobs_eq rfl, ?_, ?_⟩
    · apply DB.mem_updateRuns.mpr ⟨r, hr, RowUpdate.onlyIf_pos (by simp)⟩
    · apply List.mem_map.mpr ⟨u.apply f, by simp, _⟩
      rw [nodeID_reset hfirst, howner]
    · right
      use rfl
      rw [resumeCount_resumeRow]
      apply Nat.succ_pos

/-- Since a restart from a failed job the attempt is anchored to its node. -/
theorem anchored_since_restart {later earlier : List (DB × Operation)} {db₀ db : DB}
    {ids : Nat → JobID} {arg : RestartRunParams}
    (h : storeMachine.Execution (later ++ (db₀, .restartRun ids arg) :: earlier) db)
    (hfrom : arg.fromFailed = true) :
  ∃ f, FailedJob db₀ f ∧ f.runID = arg.runID ∧ (f.attempt : Int) = arg.expectedAttempt
    ∧ ∃ owner, f.nodeID = some owner ∧ OnAttempt f.runID f.attempt (Attempt.Anchored owner) db
  := by
  apply h.since
  · intro db₁ _ hstep
    change Operation.step (.restartRun ids arg) db₀ = some db₁ at hstep
    rw [Operation.step, committed_eq_some] at hstep
    obtain ⟨updated, hrestart⟩ := hstep
    obtain ⟨r, w, db₂, hr, hreopen, -, ⟨-, rfl⟩ | ⟨hfull, -⟩⟩ := restartRun_effect hrestart
    · rw [reopenRun, if_pos hfrom] at hreopen
      obtain ⟨f, hf, hrun, hattempt, owner, howner, r', hr', hid, l, hl, hanchored⟩ :=
        resume_anchors hr.run hreopen
      refine ⟨f, hf, hrun.trans hr.id, ?_, owner, howner, r', hr', hid, l, hl, hanchored⟩
      rw [hattempt, hr.attempt]
    · rw [hfrom] at hfull
      cases hfull
  · rintro past db op db' hexec ⟨f, hf, hrun, hattempt, owner, howner, r, hr, hid, l, hl, hanchored⟩
      hstep
    refine ⟨f, hf, hrun, hattempt, owner, howner, ?_⟩
    have hplaced := onAttempts_of_execution placed_invariant hexec r hr f.attempt l (hid ▸ hl)
    have hboth : OnAttempt f.runID f.attempt (fun s => s.Placed ∧ s.Anchored owner) db :=
      ⟨r, hr, hid, l, hl, hplaced, hanchored⟩
    apply hboth.evolve _ (evolves_of_execution hexec hstep)
    intro s s' _ hs hstep
    apply hs.2.step hs.1 hstep

/-- At all times the jobs of an attempt that are bound to a node are bound to the same node. Once
an attempt was resumed, however often its jobs were claimed and taken back since, only the node of
the job that failed can claim a job of it. -/
theorem node_affinity {past : List (DB × Operation)} {db : DB}
    (h : storeMachine.Execution past db) :
  (∀ j ∈ db.jobs, ∀ k ∈ db.jobs, j.runID = k.runID → j.attempt = k.attempt →
      ∀ n m, j.nodeID = some n → k.nodeID = some m → n = m)
    ∧ ∀ later db₀ ids arg earlier, past = later ++ (db₀, .restartRun ids arg) :: earlier →
      arg.fromFailed = true →
      ∃ f, FailedJob db₀ f ∧ f.runID = arg.runID ∧ (f.attempt : Int) = arg.expectedAttempt
        ∧ ∃ owner, f.nodeID = some owner
          ∧ ∀ nodeID skipLocked claimed db',
            (claimJob nodeID skipLocked).transaction engine db = .ok (claimed, db') →
            claimed.runID = f.runID → claimed.attempt = f.attempt → nodeID = owner
  := by
  have hdb := wellFormed_of_execution h
  constructor
  · intro j hj k hk hrun hattempt n m hn hm
    obtain ⟨r, hr, hid, -⟩ := hdb.referenced j hj
    obtain ⟨chain, hchain⟩ := hdb.chained r.id j.attempt
    obtain ⟨owner, howner⟩ := onAttempts_of_execution bound_invariant h r hr _ _ hchain
    have hjowner := howner j (hchain.mem_iff.mpr ⟨hj, hid.symm, rfl⟩)
    have hkowner := howner k (hchain.mem_iff.mpr ⟨hk, (hid.trans hrun).symm, hattempt.symm⟩)
    rw [hn] at hjowner
    rw [hm] at hkowner
    simp only [reduceCtorEq, Option.some.injEq, false_or] at hjowner hkowner
    rw [hjowner, hkowner]
  · rintro later db₀ ids arg earlier rfl hfrom
    obtain ⟨f, hf, hrun, hattempt, owner, howner, r, hr, hid, l, hl, hanchored⟩ :=
      anchored_since_restart h hfrom
    refine ⟨f, hf, hrun, hattempt, owner, howner, ?_⟩
    intro nodeID skipLocked claimed db' hclaim hcrun hcattempt
    obtain ⟨n, -, rfl, j, -, heligible, rfl, -⟩ := claimJob_effect hclaim
    obtain ⟨k, hk, hknode⟩ := List.mem_map.mp hanchored.bound
    obtain ⟨hk, hkrun, hkattempt⟩ := hl.mem_iff.mp hk
    rcases (eligible_spec heligible).owner k hk (hkrun.trans hcrun.symm)
      (hkattempt.trans hcattempt.symm) with hnone | hsome
    · rw [hknode] at hnone
      cases hnone
    · rw [hknode] at hsome
      apply (Option.some.inj hsome).symm

/-- A run that was resumed after its second job failed: the job is claimed again, by the node it
failed on. -/
theorem node_affinity_sample :
  ∃ past db₀ ids db, storeMachine.Execution ((db₀, .restartRun ids Sample.retry) :: past) db
    ∧ Sample.retry.fromFailed = true
    ∧ ∃ f, FailedJob db₀ f ∧ f.nodeID = some ⟨"n1"⟩
      ∧ ∃ claimed db', (claimJob ⟨"n1"⟩ []).transaction engine db = .ok (claimed, db')
        ∧ claimed.runID = f.runID ∧ claimed.attempt = f.attempt
  := by
  have hrun : ((storeMachine.follow Sample.store Sample.failing).bind fun db₀ =>
      (storeMachine.step (.restartRun (fun _ => ⟨""⟩) Sample.retry) db₀).bind fun db =>
        (((claimJob ⟨"n1"⟩ []).transaction engine db).toOption.map
          fun claimed => (claimed.1.runID, claimed.1.attempt))) = some (⟨"r"⟩, 1) := by
    decide
  obtain ⟨db₀, hfollow, hrun⟩ := Option.bind_eq_some_iff.mp hrun
  obtain ⟨db, hretry, hrun⟩ := Option.bind_eq_some_iff.mp hrun
  obtain ⟨past, hexec, -⟩ := (Machine.Execution.start Sample.initial).follow hfollow
  have hexec' := hexec.step hretry
  obtain ⟨f, hf, hfrun, hfattempt, owner, howner, hclaims⟩ :=
    (node_affinity hexec').2 [] db₀ _ Sample.retry _ rfl rfl
  cases hclaim : (claimJob ⟨"n1"⟩ []).transaction engine db with
  | error e =>
    rw [hclaim] at hrun
    cases hrun
  | ok x =>
    obtain ⟨claimed, db'⟩ := x
    rw [hclaim] at hrun
    obtain ⟨hcrun, hcattempt⟩ := Prod.mk.inj (Option.some.inj hrun)
    have hsame : claimed.attempt = f.attempt := by
      apply Int.ofNat_inj.mp
      rw [hcattempt, hfattempt]
      rfl
    obtain rfl := hclaims _ _ claimed db' hclaim (hcrun.trans hfrun.symm) hsame
    exact ⟨_, db₀, _, db, hexec', rfl, f, hf, howner, claimed, db', hclaim, hcrun.trans hfrun.symm,
      hsame⟩

end Ploy
