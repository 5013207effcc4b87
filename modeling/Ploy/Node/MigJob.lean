import Ploy.Foundations.Execution
import Ploy.Foundations.Patch
import Ploy.Server.Diffs

/-!
# Migration steps and the diffs they leave

A migration step runs a container in the workspace, uploads the diff from the baseline to what the
container left, and on success commits that as the next baseline. An attempt takes its steps in the
order of its chain, and a step that failed may be retried in the workspace it left. The effective
diffs of an attempt that succeeded lead from the source commit to what its last migration step left,
as long as it found the source commit checked out, no step fails behind its baseline commit and no
retry leaves a diff of an earlier execution in place.
-/

namespace Ploy

section MigJob

variable {κ β : Type}

/-! ### What is at hand -/

variable (κ β) in
/-- A workspace: what is in it, and what is committed at its head. -/
structure MigWorkspace where
  tree : ContentTree κ β
  head : ContentTree κ β

abbrev DiffStore (κ β : Type) := DiffTable (Patch κ β)

/-- What becomes of an upload: it is stored, it is refused, or it is stored and the answer is lost.
-/
inductive UploadOutcome where
  | stored
  | refused
  | lost
  deriving DecidableEq, Repr

variable (κ β) in
/-- What happens while a migration step runs. -/
structure MigRun where
  /-- the image, the tree before the step or its inputs cannot be had -/
  setupFails : Bool := false
  /-- what the container leaves in the workspace -/
  result : ContentTree κ β
  /-- the container cannot be run or exits with an error -/
  containerFails : Bool := false
  diffFails : Bool := false
  diffFileFails : Bool := false
  upload : UploadOutcome := .stored
  commitFails : Bool := false
  repoSHAFails : Bool := false
  /-- the node stops before its report reaches the server -/
  unreported : Bool := false

/-- A step fails before it commits the next baseline. The file of the diff and its upload matter
only where there are changes. -/
def MigRun.failsEarly (run : MigRun κ β) (changed : Bool) : Bool :=
  run.setupFails || run.containerFails || run.diffFails
    || (changed && (run.diffFileFails || run.upload ≠ .stored)) || run.commitFails

/-- A step fails behind its baseline commit. -/
def MigRun.failsLate (run : MigRun κ β) : Bool :=
  run.repoSHAFails || run.unreported

variable (κ β) in
/-- An attempt on its node: the place of the job that comes next, whether that job has failed, the
workspace, the stored diffs, and what the last successful migration step left. -/
structure MigAttempt where
  position : Nat
  failed : Bool
  workspace : MigWorkspace κ β
  diffs : DiffStore κ β
  left : ContentTree κ β

variable (κ β) in
/-- What happens in an attempt. -/
inductive MigAttemptEvent where
  /-- a gate runs, which may edit the workspace too -/
  | gate (result : ContentTree κ β) (success : Bool)
  | mig (run : MigRun κ β)
  /-- a restart from the failed job keeps the workspace and the diffs -/
  | resume

/-! ### Behind the upload of the diff -/

/-- What is in the workspace committed, if it differs from the head. -/
def advanceWorkspaceBaseline (ws : MigWorkspace κ β) : MigWorkspace κ β :=
  { ws with head := ws.tree }

/-- What follows the upload of the diff: the baseline is advanced, the output SHA computed and the
result reported, each only if nothing before it failed. -/
def settleMigJob (run : MigRun κ β) (ws : MigWorkspace κ β) (diffErr : Bool) :
    MigWorkspace κ β × Bool :=
  if run.containerFails || diffErr then (ws, false)
  else if run.commitFails then (ws, false)
  else (advanceWorkspaceBaseline ws, !(run.repoSHAFails || run.unreported))

/-! ### Effective diffs of a part of the chain -/

namespace MigAttempt

/-- The diffs effective for the jobs of a part of the chain. -/
def effective (diffs : DiffStore κ β) (jobs : List Job) : List (Patch κ β) :=
  (jobs.filterMap fun j => diffs.getLatestDiffByJob j.id).map DiffRow.patch

theorem effective_createDiff
    {diffs : DiffStore κ β} {jobs : List Job} {job : JobID} {patch : Patch κ β}
    (h : job ∉ jobs.map Job.id) :
  effective (diffs.createDiff job patch) jobs = effective diffs jobs
  := by
  unfold effective
  congr 1
  apply List.filterMap_congr
  intro j hj
  apply DiffTable.getLatestDiffByJob_createDiff_of_ne
  rintro rfl
  apply h (List.mem_map_of_mem hj)

theorem effective_concat (diffs : DiffStore κ β) (jobs : List Job) (job : Job) :
  effective diffs (jobs ++ [job])
    = effective diffs jobs ++ ((diffs.getLatestDiffByJob job.id).map DiffRow.patch).toList
  := by
  unfold effective
  rw [List.filterMap_append, List.map_append]
  congr 1
  cases h : diffs.getLatestDiffByJob job.id with
  | none | some => simp [h]

theorem chain_at
    {chain : List Job} (hnodup : (chain.map Job.id).Nodup) {i : Nat} {job : Job}
    (h : chain[i]? = some job) :
  job.id ∉ (chain.take i).map Job.id ∧ chain.take (i + 1) = chain.take i ++ [job]
  := by
  obtain ⟨hi, hjob⟩ := List.getElem?_eq_some_iff.mp h
  have hsplit : chain = chain.take i ++ job :: chain.drop (i + 1) := by
    rw [← hjob, List.getElem_cons_drop, List.take_append_drop]
  rw [hsplit, List.map_append, List.map_cons, List.nodup_append] at hnodup
  constructor
  · intro hmem
    apply hnodup.2.2 _ hmem _ List.mem_cons_self rfl
  · rw [List.take_add_one, h]
    rfl

variable (chain : List Job) (source : ContentTree κ β) in
/-- The diffs of the steps that are done lead from the source to what the last migration step left,
which is the baseline. No diff is stored for a gate. -/
structure Exact (s : MigAttempt κ β) : Prop where
  replay : Patch.Replay (effective s.diffs (chain.take s.position)) source s.left
  head : s.workspace.head = s.left
  gates : ∀ j ∈ chain, j.jobType ≠ .mig → s.diffs.getLatestDiffByJob j.id = none

theorem exact_gate
    {chain : List Job} {source : ContentTree κ β} {s : MigAttempt κ β} (h : s.Exact chain source)
    (hnodup : (chain.map Job.id).Nodup) {job : Job}
    (hjob : chain[s.position]? = some job) (hgate : job.jobType ≠ .mig) (result : ContentTree κ β)
    (success : Bool) :
  Exact chain source
    { s with position := if success then s.position + 1 else s.position, failed := !success,
             workspace := { s.workspace with tree := result } }
  := by
  constructor
  · cases success with
    | false => exact h.replay
    | true =>
      have hnone := h.gates job (List.mem_of_getElem? hjob) hgate
      dsimp only
      rw [if_pos rfl, (chain_at hnodup hjob).2, effective_concat, hnone]
      simpa using h.replay
  · exact h.head
  · exact h.gates

theorem gates_createDiff
    {chain : List Job} {source : ContentTree κ β} {s : MigAttempt κ β} (h : s.Exact chain source)
    (hnodup : (chain.map Job.id).Nodup) {job : Job}
    (hmem : job ∈ chain) (hmig : job.jobType = .mig) {diffs : DiffStore κ β}
    (hdiffs : diffs = s.diffs ∨ ∃ patch, diffs = s.diffs.createDiff job.id patch) :
  ∀ j ∈ chain, j.jobType ≠ .mig → diffs.getLatestDiffByJob j.id = none
  := by
  intro j hj hgate
  rcases hdiffs with rfl | ⟨patch, rfl⟩
  · apply h.gates j hj hgate
  · rw [DiffTable.getLatestDiffByJob_createDiff_of_ne]
    · apply h.gates j hj hgate
    · intro hid
      rw [List.inj_on_of_nodup_map hnodup hj hmem hid] at hgate
      exact hgate hmig

end MigAttempt

variable [DecidableEq β] [DecidableEq (ContentTree κ β)]

/-! ### A migration step -/

/-- The diff of the workspace uploaded for a job, unless there is none: what is stored then, and
whether the node takes it to have failed. -/
def uploadDiff (job : JobID) (run : MigRun κ β) (ws : MigWorkspace κ β) (diffs : DiffStore κ β) :
    DiffStore κ β × Bool :=
  if run.diffFails then (diffs, true)
  else if ws.tree = ws.head then (diffs, false)
  else if run.diffFileFails then (diffs, true)
  else
    match run.upload with
    | .stored => (diffs.createDiff job (Patch.between ws.head ws.tree), false)
    | .refused => (diffs, true)
    | .lost => (diffs.createDiff job (Patch.between ws.head ws.tree), true)

/-- A migration step: what it makes of the workspace and of the stored diffs, and whether the job
succeeds. The diff is uploaded whether or not the container succeeded. -/
def runMigContainerJob (job : JobID) (run : MigRun κ β) (ws : MigWorkspace κ β)
    (diffs : DiffStore κ β) : MigWorkspace κ β × DiffStore κ β × Bool :=
  if run.setupFails then (ws, diffs, false)
  else
    let left := { ws with tree := run.result }
    let uploaded := uploadDiff job run left diffs
    let settled := settleMigJob run left uploaded.2
    (settled.1, uploaded.1, settled.2)

/-- An upload stores one diff, or none. -/
theorem uploadDiff_diffs
    (job : JobID) (run : MigRun κ β) (ws : MigWorkspace κ β) (diffs : DiffStore κ β) :
  (uploadDiff job run ws diffs).1 = diffs
    ∨ ∃ patch, (uploadDiff job run ws diffs).1 = diffs.createDiff job patch
  := by
  unfold uploadDiff
  split
  · left
    rfl
  split
  · left
    rfl
  split
  · left
    rfl
  cases run.upload with
  | stored | lost =>
    right
    exact ⟨_, rfl⟩
  | refused =>
    left
    rfl

theorem runMigContainerJob_diffs
    (job : JobID) (run : MigRun κ β) (ws : MigWorkspace κ β) (diffs : DiffStore κ β) :
  (runMigContainerJob job run ws diffs).2.1 = diffs
    ∨ ∃ patch, (runMigContainerJob job run ws diffs).2.1 = diffs.createDiff job patch
  := by
  unfold runMigContainerJob
  split
  · left
    rfl
  · apply uploadDiff_diffs

/-- What fails decides what a step makes of the baseline and whether its job succeeds. -/
theorem runMigContainerJob_outcome
    (job : JobID) (run : MigRun κ β) (ws : MigWorkspace κ β) (diffs : DiffStore κ β) :
  (runMigContainerJob job run ws diffs).2.2
      = !(run.failsEarly (run.result ≠ ws.head) || run.failsLate)
    ∧ (runMigContainerJob job run ws diffs).1.head
      = if run.failsEarly (run.result ≠ ws.head) then ws.head else run.result
  := by
  obtain ⟨setupFails, result, containerFails, diffFails, diffFileFails, upload, commitFails,
    repoSHAFails, unreported⟩ := run
  by_cases hsame : result = ws.head
  · cases setupFails <;> cases containerFails <;> cases diffFails <;> cases commitFails
      <;> simp [runMigContainerJob, settleMigJob, uploadDiff, advanceWorkspaceBaseline,
        MigRun.failsEarly, MigRun.failsLate, hsame]
  · cases setupFails <;> cases containerFails <;> cases diffFails <;> cases commitFails
      <;> cases diffFileFails <;> cases upload
      <;> simp [runMigContainerJob, settleMigJob, uploadDiff, advanceWorkspaceBaseline,
        MigRun.failsEarly, MigRun.failsLate, hsame]

/-- A step that succeeds leaves its result, committed, and a diff for its changes. -/
theorem runMigContainerJob_success
    (job : JobID) {run : MigRun κ β} {ws : MigWorkspace κ β} (diffs : DiffStore κ β)
    (h : (run.failsEarly (run.result ≠ ws.head) || run.failsLate) = false) :
  (runMigContainerJob job run ws diffs).1 = ⟨run.result, run.result⟩
    ∧ (runMigContainerJob job run ws diffs).2.1
      = if run.result = ws.head then diffs
        else diffs.createDiff job (Patch.between ws.head run.result)
  := by
  obtain ⟨setupFails, result, containerFails, diffFails, diffFileFails, upload, commitFails,
    repoSHAFails, unreported⟩ := run
  by_cases hsame : result = ws.head
  · simp_all [runMigContainerJob, settleMigJob, uploadDiff, advanceWorkspaceBaseline,
      MigRun.failsEarly, MigRun.failsLate]
  · simp_all [runMigContainerJob, settleMigJob, uploadDiff, advanceWorkspaceBaseline,
      MigRun.failsEarly, MigRun.failsLate]

/-! ### An attempt on its node -/

namespace MigAttempt

/-- The attempt when a migration step of it has ended. -/
def ended (s : MigAttempt κ β) (out : MigWorkspace κ β × DiffStore κ β × Bool) :
    MigAttempt κ β where
  position := if out.2.2 then s.position + 1 else s.position
  failed := !out.2.2
  workspace := out.1
  diffs := out.2.1
  left := if out.2.2 then out.1.tree else s.left

section

variable (chain : List Job) (source : ContentTree κ β)

def step : MigAttemptEvent κ β → MigAttempt κ β → Option (MigAttempt κ β)
  | .gate result success, s =>
    chain[s.position]?.bind fun job =>
      if s.failed ∨ job.jobType = .mig then none
      else
        some { s with position := if success then s.position + 1 else s.position,
                      failed := !success, workspace := { s.workspace with tree := result } }
  | .mig run, s =>
    chain[s.position]?.bind fun job =>
      if s.failed ∨ job.jobType ≠ .mig then none
      else some (s.ended (runMigContainerJob job.id run s.workspace s.diffs))
  | .resume, s => if s.failed then some { s with failed := false } else none

/-- The histories of an attempt that finds a workspace on its node, with no diff stored for its
jobs. The workspace is a checkout of the source commit where the node has none of the run, and
otherwise what an earlier attempt left in it. -/
def machine (found : MigWorkspace κ β) : Machine (MigAttempt κ β) (MigAttemptEvent κ β) where
  init s := s.position = 0 ∧ s.failed = false ∧ s.workspace = found ∧ s.left = source
    ∧ ∀ j ∈ chain, s.diffs.getLatestDiffByJob j.id = none
  step := step chain

/-- A step that leaves changes does not fail behind its baseline commit alone, and one that leaves
none fails or has no diff of an earlier execution. -/
def replacesDiffs (s : MigAttempt κ β) : MigAttemptEvent κ β → Bool
  | .mig run =>
    match chain[s.position]? with
    | some job =>
      if run.result ≠ s.workspace.head then run.failsEarly true || !run.failsLate
      else run.failsEarly false || run.failsLate || (s.diffs.getLatestDiffByJob job.id).isNone
    | none => true
  | _ => true

end

/-! ### The effective diffs reproduce the attempt -/

variable {chain : List Job} {source : ContentTree κ β}

/-- A step that fails leaves the diffs of the steps before it exact. -/
theorem exact_mig_failed
    {s : MigAttempt κ β} (h : s.Exact chain source) (hnodup : (chain.map Job.id).Nodup) {job : Job}
    (hjob : chain[s.position]? = some job) (hmig : job.jobType = .mig) {run : MigRun κ β}
    (hfails : (run.failsEarly (run.result ≠ s.workspace.head) || run.failsLate) = true)
    (hearly : run.result ≠ s.workspace.head → run.failsEarly true = true) :
  (s.ended (runMigContainerJob job.id run s.workspace s.diffs)).Exact chain source
  := by
  have hdiffs := runMigContainerJob_diffs job.id run s.workspace s.diffs
  obtain ⟨hfailed, hhead⟩ := runMigContainerJob_outcome job.id run s.workspace s.diffs
  rw [hfails, Bool.not_true] at hfailed
  have hhead : (runMigContainerJob job.id run s.workspace s.diffs).1.head = s.workspace.head := by
    rw [hhead]
    split
    · rfl
    · next hlate =>
        by_contra hchanged
        rw [decide_eq_true hchanged] at hlate
        exact hlate (hearly hchanged)
  constructor
  · simp only [ended, hfailed]
    rcases hdiffs with hdiffs | ⟨patch, hdiffs⟩
    · rw [hdiffs]
      exact h.replay
    · rw [hdiffs]
      simpa [effective_createDiff (chain_at hnodup hjob).1] using h.replay
  · simp only [ended, hfailed]
    exact hhead.trans h.head
  · apply gates_createDiff h hnodup (List.mem_of_getElem? hjob) hmig hdiffs

/-- A step that succeeds adds a diff for what it has changed. -/
theorem exact_mig_success
    {s : MigAttempt κ β} (h : s.Exact chain source) (hnodup : (chain.map Job.id).Nodup) {job : Job}
    (hjob : chain[s.position]? = some job) (hmig : job.jobType = .mig) {run : MigRun κ β}
    (hsucceeds : (run.failsEarly (run.result ≠ s.workspace.head) || run.failsLate) = false)
    (hreplaces : s.diffs.getLatestDiffByJob job.id = none ∨ run.result ≠ s.workspace.head) :
  (s.ended (runMigContainerJob job.id run s.workspace s.diffs)).Exact chain source
  := by
  obtain ⟨hworkspace, hdiffs⟩ := runMigContainerJob_success job.id s.diffs hsucceeds
  have hsuccess := (runMigContainerJob_outcome job.id run s.workspace s.diffs).1
  rw [hsucceeds, Bool.not_false] at hsuccess
  obtain ⟨hbefore, htake⟩ := chain_at hnodup hjob
  constructor
  · simp only [ended, hsuccess, hworkspace, if_true, htake, effective_concat]
    by_cases hsame : run.result = s.workspace.head
    · rw [if_pos hsame] at hdiffs
      have hnone := hreplaces.resolve_right (not_not.mpr hsame)
      rw [hdiffs, hnone, hsame, h.head]
      simpa using h.replay
    · rw [if_neg hsame] at hdiffs
      rw [hdiffs, effective_createDiff hbefore, DiffTable.getLatestDiffByJob_createDiff, h.head]
      exact h.replay.concat run.result
  · simp only [ended, hsuccess, hworkspace, if_true]
  · apply gates_createDiff h hnodup (List.mem_of_getElem? hjob) hmig
    apply runMigContainerJob_diffs

/-- Every allowed event keeps the diffs exact. -/
theorem exact_step
    {s s' : MigAttempt κ β} {event : MigAttemptEvent κ β} (h : s.Exact chain source)
    (hnodup : (chain.map Job.id).Nodup) (hallowed : replacesDiffs chain s event = true)
    (hstep : step chain event s = some s') :
  s'.Exact chain source
  := by
  cases event with
  | gate result success =>
    obtain ⟨job, hjob, hstep⟩ := Option.bind_eq_some_iff.mp hstep
    split at hstep
    · cases hstep
    · rename_i hgate
      cases hstep
      apply exact_gate h hnodup hjob (fun hmig => hgate (Or.inr hmig))
  | mig run =>
    obtain ⟨job, hjob, hstep⟩ := Option.bind_eq_some_iff.mp hstep
    split at hstep
    · cases hstep
    · rename_i hmig
      cases hstep
      rw [not_or, not_not] at hmig
      simp only [replacesDiffs, hjob] at hallowed
      by_cases hchanged : run.result ≠ s.workspace.head
      · rw [if_pos hchanged] at hallowed
        cases hfails : run.failsEarly true || run.failsLate with
        | true =>
          apply exact_mig_failed h hnodup hjob hmig.2
          · rw [decide_eq_true hchanged, hfails]
          · intro _
            cases hearly : run.failsEarly true with
            | true => rfl
            | false =>
              rw [hearly, Bool.false_or] at hfails hallowed
              rw [hfails] at hallowed
              exact hallowed
        | false =>
          apply exact_mig_success h hnodup hjob hmig.2 _ (Or.inr hchanged)
          rw [decide_eq_true hchanged, hfails]
      · rw [if_neg hchanged] at hallowed
        cases hfails : run.failsEarly false || run.failsLate with
        | true =>
          apply exact_mig_failed h hnodup hjob hmig.2 _ (fun h => absurd h hchanged)
          rw [decide_eq_false hchanged, hfails]
        | false =>
          rw [hfails, Bool.false_or, Option.isNone_iff_eq_none] at hallowed
          apply exact_mig_success h hnodup hjob hmig.2 _ (Or.inl hallowed)
          rw [decide_eq_false hchanged, hfails]
  | resume =>
    simp only [step] at hstep
    split at hstep
    · cases hstep
      exact ⟨h.replay, h.head, h.gates⟩
    · cases hstep

/-- In every history of an attempt that finds the source commit checked out, in which no step with
changes fails behind its baseline commit and no step without changes succeeds where a diff is stored
for its job, the effective diffs apply cleanly, one after another, to the source commit and give
exactly what the last successful migration step left. -/
theorem effective_diffs_reproduce
    {jobs : List Job} (hnodup : (jobs.map Job.id).Nodup) (hzero : ∀ j ∈ jobs, j.id.isZero = false)
    (hperm : chain.Perm jobs) (hlinked : Linked Job.id Job.nextID chain)
    {found : MigWorkspace κ β} (hfound : found.head = source)
    {past : List (MigAttempt κ β × MigAttemptEvent κ β)} {s : MigAttempt κ β}
    (h : (machine chain source found).Execution past s)
    (hallowed : ∀ x ∈ past, replacesDiffs chain x.1 x.2 = true) (hend : s.position = chain.length) :
  Patch.Replay ((listEffectiveRunDiffs s.diffs jobs).map DiffRow.patch) source s.left
  := by
  have hnodup' : (chain.map Job.id).Nodup := (hperm.map Job.id).nodup_iff.mpr hnodup
  have hexact : s.Exact chain source := by
    apply h.invariant_of_allowed (replacesDiffs chain) _ _ hallowed
    · rintro s ⟨hposition, -, hworkspace, hleft, hnone⟩
      constructor
      · rw [hposition, hleft]
        rfl
      · rw [hworkspace, hleft, hfound]
      · intro j hj _
        apply hnone j hj
    · intro s event s' hs hevent hstep
      apply exact_step hs hnodup' hevent hstep
  have hreplay := hexact.replay
  rw [hend, List.take_length] at hreplay
  rw [listEffectiveRunDiffs_linked hnodup hzero hperm hlinked]
  exact hreplay

end MigAttempt

end MigJob

/-! ### Histories -/

namespace MigAttempt

namespace Sample

/-- The only step of a chain. -/
def job : Job where
  id := ⟨"j"⟩
  runID := ⟨"r"⟩
  repoID := ⟨"p"⟩
  repoBaseRef := "main"
  attempt := 1
  status := .queued
  jobType := .mig
  jobImage := ""
  nextID := none
  name := "mig-0"
  nodeID := none
  startedAt := none
  repoShaIn := ""
  repoShaOut := ""
  repoShaIn8 := ""
  repoShaOut8 := ""
  metadata := .object []

/-- A repository of one file, in one of its versions. -/
def version (n : Nat) : ContentTree Unit Nat :=
  fun _ => some n

/-- What the node has of the run: one version, checked out. -/
def found (n : Nat) : MigWorkspace Unit Nat :=
  ⟨version n, version n⟩

def start (n : Nat) : MigAttempt Unit Nat :=
  ⟨0, false, found n, .empty, version 0⟩

theorem start_init (n : Nat) : (machine [job] (version 0) (found n)).init (start n) := by
  refine ⟨rfl, rfl, rfl, rfl, ?_⟩
  intro j _
  rfl

end Sample

/-- A step fails before it has changed anything, is retried and succeeds. -/
theorem effective_diffs_reproduce_sample :
  ∃ s : MigAttempt Unit Nat, s.left = Sample.version 1
    ∧ Patch.Replay ((listEffectiveRunDiffs s.diffs [Sample.job]).map DiffRow.patch)
      (Sample.version 0) s.left
  := by
  have hrun : ((((machine [Sample.job] (Sample.version 0) (Sample.found 0)).restrict
      (replacesDiffs [Sample.job])).follow (Sample.start 0)
        [.mig { result := Sample.version 0, containerFails := true }, .resume]).bind fun s₀ =>
      (((machine [Sample.job] (Sample.version 0) (Sample.found 0)).restrict
        (replacesDiffs [Sample.job])).step (.mig { result := Sample.version 1 }) s₀).map fun s =>
          s.position = 1 && s.left = Sample.version 1) = some true := by
    decide
  obtain ⟨past, s₀, s, hexec, hall, hp⟩ :=
    Machine.Execution.of_follow_last (Sample.start_init 0) hrun
  simp only [Bool.and_eq_true, decide_eq_true_eq] at hp
  use s, hp.2
  apply effective_diffs_reproduce (by simp) (by decide) (List.Perm.refl _)
    (chainLinked_iff.mp (by decide)) rfl hexec hall hp.1

/-- After some events in a workspace that is found, an execution that leaves the given tree: the
attempt succeeds, and its diffs do not give what its step left. -/
def Sample.LosesStep (n : Nat) (events : List (MigAttemptEvent Unit Nat))
    (result : ContentTree Unit Nat) : Prop :=
  ∃ past s₀ s, (machine [Sample.job] (Sample.version 0) (Sample.found n)).Execution
      ((s₀, .mig { result := result }) :: past) s
    ∧ past.map Prod.snd = events.reverse ∧ s.position = 1 ∧ s.left = result
    ∧ ¬ Patch.Replay ((listEffectiveRunDiffs s.diffs [Sample.job]).map DiffRow.patch)
      (Sample.version 0) s.left

theorem Sample.losesStep_of_patch
    {n : Nat} {events : List (MigAttemptEvent Unit Nat)} {result : ContentTree Unit Nat}
    (hrun : (((machine [Sample.job] (Sample.version 0) (Sample.found n)).follow (Sample.start n)
        events).bind fun s₀ =>
      ((machine [Sample.job] (Sample.version 0) (Sample.found n)).step
        (.mig { result := result }) s₀).map fun s =>
          s.position = 1 && s.left = result
            && ((listEffectiveRunDiffs s.diffs [Sample.job]).all
              fun row : DiffRow (Patch Unit Nat) =>
              row.patch () ≠ none && row.patch () ≠ some (some 0, result ()))
            && (listEffectiveRunDiffs s.diffs [Sample.job]).length = 1) = some true) :
  Sample.LosesStep n events result
  := by
  obtain ⟨past, s₀, s, hexec, hlabels, hp⟩ :=
    Machine.Execution.of_follow_step (Sample.start_init n) hrun
  simp only [Bool.and_eq_true, decide_eq_true_eq, List.all_eq_true] at hp
  refine ⟨past, s₀, s, hexec, hlabels, hp.1.1.1, hp.1.1.2, ?_⟩
  obtain ⟨row, hrow⟩ := List.length_eq_one_iff.mp hp.2
  have hpatch := hp.1.2 row (hrow ▸ List.mem_singleton_self row)
  rw [hrow, hp.1.1.2]
  rintro ⟨happlies, hresult⟩
  -- a patch that leads from one version to another names both
  cases hedit : row.patch () with
  | none => exact hpatch.1 hedit
  | some edit =>
    obtain ⟨old, new⟩ := edit
    have hold : some 0 = old := happlies () old new hedit
    have hnew : new = result () := by
      rw [← congrFun hresult (), Patch.apply, hedit]
    apply hpatch.2
    rw [hedit, hold, hnew]

/-- An attempt succeeds whose diffs do not give what its step left. In the first history the diff of
an execution that failed stays in place, because the retry left no changes to upload; in the second
an execution failed behind its baseline commit, and the diff of the retry, taken from the moved
baseline, does not apply to the source; in the third, after a full restart, the attempt finds what
the one before it committed. -/
theorem diff_of_failed_execution :
  Sample.LosesStep 0 [.mig { result := Sample.version 1, containerFails := true }, .resume]
      (Sample.version 0)
    ∧ Sample.LosesStep 0 [.mig { result := Sample.version 1, repoSHAFails := true }, .resume]
      (Sample.version 2)
    ∧ Sample.LosesStep 1 [] (Sample.version 2)
  := by
  refine ⟨?_, ?_, ?_⟩
  all_goals
    apply Sample.losesStep_of_patch
    decide

end MigAttempt

end Ploy
