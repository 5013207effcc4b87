import Ploy.Run.Chain
import Ploy.Server.Completion

/-!
# Attempts

An attempt of a run, as a machine of its own: the row of the run, the number of the attempt,
and the chain of its jobs. The steps say what one transaction can do to an attempt, whatever
else is in the store.
-/

namespace Ploy

/-- An attempt of a run, with its jobs in the order of their chain. -/
structure Attempt where
  run : Run
  number : Nat
  jobs : List Job

/-! ### Completing a job -/

/-- Handing an output SHA to the first job of a list. -/
def feed (out : String) : List Job → List Job
  | [] => []
  | k :: rest => (feedRow out).apply k :: rest

/-- Queueing the first job of a list, if it waits. -/
def advance : List Job → List Job
  | [] => []
  | k :: rest => (promoteRow.onlyIf (·.status = .created)).apply k :: rest

/-- Cancelling a job that is active. -/
def cancelIfActive : JobUpdate :=
  cancelJob.onlyIf (·.status.active)

/-- A job with the report of how it ended. -/
def CompletionInput.completed (input : CompletionInput) (j : Job) : Job :=
  (completeRow input.status (input.recordedOutput j) input.jobMeta).apply j

/-- The jobs after a completed one: its output is handed on, and then the first of them is
queued or all of them are cancelled. -/
def CompletionInput.after (input : CompletionInput) (j : Job) (post : List Job) : List Job :=
  if input.status = .success then advance (feed (input.completed j).repoShaOut post)
  else (feed (input.completed j).repoShaOut post).map cancelIfActive.apply

section After

variable (input : CompletionInput) {j : Job} {post : List Job}

/-- What holds of the jobs after a completed one holds of them afterwards, if it is kept when a
job is handed its input, and when it is queued or cancelled. -/
theorem CompletionInput.forall_after {I : Job → Prop}
    (hfeed : ∀ out k, I k → I ((feedRow out).apply k))
    (hpromote : ∀ k, k.status = .created → I k → I (promoteRow.apply k))
    (hcancel : ∀ k, k.status.active = true → I k → I (cancelJob.apply k)) (h : ∀ k ∈ post, I k) :
  ∀ k ∈ input.after j post, I k
  := by
  have hfed : ∀ k ∈ feed (input.completed j).repoShaOut post, I k := by
    cases post with
    | nil => apply h
    | cons k rest =>
      obtain ⟨hk, hrest⟩ := List.forall_mem_cons.mp h
      apply List.forall_mem_cons.mpr ⟨hfeed _ k hk, hrest⟩
  have honly : ∀ (u : JobUpdate) (p : Job → Bool) k, (p k = true → I (u.apply k)) → I k →
      I ((u.onlyIf p).apply k) := by
    intro u p k hu hk
    simp only [RowUpdate.onlyIf]
    split
    · rename_i hp
      apply hu hp
    · apply hk
  unfold CompletionInput.after
  generalize feed (input.completed j).repoShaOut post = fed at hfed
  split
  · cases fed with
    | nil => apply hfed
    | cons k rest =>
      obtain ⟨hk, hrest⟩ := List.forall_mem_cons.mp hfed
      apply List.forall_mem_cons.mpr ⟨honly _ _ k _ hk, hrest⟩
      intro hcreated
      apply hpromote k (by simpa using hcreated) hk
  · intro k' hk'
    obtain ⟨k, hk, rfl⟩ := List.mem_map.mp hk'
    apply honly _ _ k (fun hactive => hcancel k hactive (hfed k hk)) (hfed k hk)

/-- A column that is not written when a job is completed is the same in the jobs after it. -/
theorem CompletionInput.map_after {β : Type} (f : Job → β)
    (hfeed : ∀ out k, f ((feedRow out).apply k) = f k)
    (hpromote : ∀ k, f (promoteRow.apply k) = f k) (hcancel : ∀ k, f (cancelJob.apply k) = f k) :
  (input.after j post).map f = post.map f
  := by
  have hfed : ∀ out, (feed out post).map f = post.map f := by
    intro out
    cases post with
    | nil => rfl
    | cons k rest => rw [feed, List.map_cons, hfeed, List.map_cons]
  have honly : ∀ (u : JobUpdate) (p : Job → Bool) k, f (u.apply k) = f k →
      f ((u.onlyIf p).apply k) = f k := by
    intro u p k hu
    simp only [RowUpdate.onlyIf]
    split
    · apply hu
    · rfl
  rw [← hfed (input.completed j).repoShaOut]
  unfold CompletionInput.after
  generalize feed (input.completed j).repoShaOut post = fed
  split
  · cases fed with
    | nil => rfl
    | cons k rest => rw [advance, List.map_cons, honly _ _ k (hpromote k), List.map_cons]
  · rw [List.map_map]
    apply List.map_congr_left
    intro k _
    apply honly _ _ k (hcancel k)

end After

/-- A job whose completion is accepted: it runs, on the node that reports, in the execution
that is reported, and it has what its successor needs. -/
structure Completable (input : CompletionInput) (run : Run) (number : Nat) (j : Job) : Prop where
  job : j.id = input.jobID
  attempt : number = run.attempt
  resumeCount : (run.stats.resumeCount : Int) = input.resumeCount
  owner : j.nodeID = some input.nodeID
  running : j.status = .running
  handover : input.status = .success → j.nextID ≠ none →
    isCanonicalFullCommitSHA j.repoShaIn = true ∧ input.recordedOutput j ≠ ""

/-- The run with the status that its jobs give it, if they have all ended. -/
def settledRun (run : Run) (rows : List Job) : Run :=
  match evaluateRunAttemptTerminalStatus rows with
  | .ok (some status) => (setRunStatus status).apply run
  | _ => run

/-! ### Steps -/

/-- What a transaction can do to an attempt. The jobs of an attempt are cancelled without
regard to the run only by a statement on its own, which is not a whole request. -/
inductive Attempt.Step (whole : Bool) : Attempt → Attempt → Prop where
  | idle (s : Attempt) : Step whole s s
  | claim {r : Run} {a : Nat} {pre post : List Job} {j : Job} (n : NodeID) (now : Time)
      (running : r.status = .running) (queued : j.status = .queued)
      (owner : ∀ k ∈ pre ++ j :: post, k.nodeID = none ∨ k.nodeID = some n) :
      Step whole ⟨r, a, pre ++ j :: post⟩ ⟨r, a, pre ++ (claimRow n now).apply j :: post⟩
  | unclaim {r : Run} {a : Nat} {pre post : List Job} {j : Job} (running : j.status = .running) :
      Step whole ⟨r, a, pre ++ j :: post⟩
        ⟨r, a, pre ++ (unclaimRow fun _ => 0 < r.stats.resumeCount).apply j :: post⟩
  | complete {r : Run} {a : Nat} {pre post : List Job} {j : Job} (input : CompletionInput)
      (rows : List Job) (accepted : Completable input r a j)
      (order : rows.Perm (pre ++ input.completed j :: input.after j post)) :
      Step whole ⟨r, a, pre ++ j :: post⟩
        ⟨settledRun r rows, a, pre ++ input.completed j :: input.after j post⟩
  | settle {r : Run} {a : Nat} {l : List Job} (status : RunStatus)
      (terminal : isTerminalRunStatus status = true) (other : a ≠ r.attempt) :
      Step whole ⟨r, a, l⟩ ⟨(setRunStatus status).apply r, a, l⟩
  | cancelJobs {r : Run} {a : Nat} {l : List Job} (statement : whole = false) :
      Step whole ⟨r, a, l⟩ ⟨r, a, l.map cancelIfActive.apply⟩
  | cancelRun {r : Run} {a : Nat} {l : List Job} :
      Step whole ⟨r, a, l⟩
        ⟨((setRunStatus .cancelled).onlyIf Run.active).apply r, a, l.map cancelIfActive.apply⟩
  | leave {r : Run} {a : Nat} {l : List Job} (stats : Option StatsMarker)
      (terminal : isTerminalRunStatus r.status = true) (reached : a ≠ r.attempt + 1) :
      Step whole ⟨r, a, l⟩
        ⟨(incrementAttemptRow stats).apply r, a,
          if a = r.attempt then l.map cancelIfActive.apply else l⟩
  | enter {r : Run} {created : List Job} (stats : Option StatsMarker)
      (terminal : isTerminalRunStatus r.status = true)
      (planned : PlannedChain ((incrementAttemptRow stats).apply r) true created)
      (nonempty : created ≠ []) :
      Step whole ⟨r, r.attempt + 1, []⟩ ⟨(incrementAttemptRow stats).apply r,
        r.attempt + 1, created⟩
  | resume {r : Run} {pre post : List Job} {j : Job} (stats : Option StatsMarker) (now : Time)
      (u : JobUpdate) (terminal : isTerminalRunStatus r.status = true)
      (succeeded : ∀ k ∈ pre, k.status = .success) (failed : Retryable j)
      (cancelled : ∀ k ∈ post, NeverStarted k) (first : ResetTo true j (u.apply j))
      (rest : ∀ k ∈ post, ResetTo false k (u.apply k)) :
      Step whole ⟨r, r.attempt, pre ++ j :: post⟩
        ⟨(resumeRow stats (r.stats.resumeCount + 1) now).apply r, r.attempt,
          pre ++ u.apply j :: post.map u.apply⟩
  | stay {r : Run} {a : Nat} {l : List Job} (stats : Option StatsMarker) (now : Time)
      (terminal : isTerminalRunStatus r.status = true) (other : a ≠ r.attempt) :
      Step whole ⟨r, a, l⟩ ⟨(resumeRow stats (r.stats.resumeCount + 1) now).apply r, a, l⟩

/-- An attempt of a run that was just created: the first has a planned chain, the others have
no jobs. -/
def Attempt.Created (s : Attempt) : Prop :=
  s.run.attempt = 1 ∧ s.run.status = .running ∧ s.run.stats.resumeCount = 0
    ∧ ((s.number = 1 ∧ PlannedChain s.run true s.jobs ∧ s.jobs ≠ []) ∨ (s.number ≠ 1 ∧ s.jobs = []))

/-! ### Stores -/

/-- Each attempt of each run of `db` took a step, and every other run of `db'` was just
created. -/
structure Evolves (whole : Bool) (db db' : DB) : Prop where
  kept : ∀ r ∈ db.runs, ∃ r' ∈ db'.runs, r'.id = r.id ∧ ∀ a l, IsChain db r.id a l →
    ∃ l', IsChain db' r.id a l' ∧ Attempt.Step whole ⟨r, a, l⟩ ⟨r', a, l'⟩
  created : ∀ r' ∈ db'.runs, (∃ r ∈ db.runs, r.id = r'.id)
    ∨ ∀ a, ∃ l', IsChain db' r'.id a l' ∧ Attempt.Created ⟨r', a, l'⟩

/-- A property of attempts that holds of every attempt in the store. -/
def OnAttempts (I : Attempt → Prop) (db : DB) : Prop :=
  ∀ r ∈ db.runs, ∀ a l, IsChain db r.id a l → I ⟨r, a, l⟩

/-- A property of attempts that holds of one attempt in the store. -/
def OnAttempt (run : RunID) (a : Nat) (I : Attempt → Prop) (db : DB) : Prop :=
  ∃ r ∈ db.runs, r.id = run ∧ ∃ l, IsChain db run a l ∧ I ⟨r, a, l⟩

theorem OnAttempt.evolve
    {whole : Bool} {db db' : DB} {run : RunID} {a : Nat} {I J : Attempt → Prop}
    (hstep : ∀ s s', Linked Job.id Job.nextID s.jobs → I s → Attempt.Step whole s s' → J s')
    (h : OnAttempt run a I db) (hevolves : Evolves whole db db') :
  OnAttempt run a J db'
  := by
  obtain ⟨r, hr, rfl, l, hl, hI⟩ := h
  obtain ⟨r', hr', hid, hsteps⟩ := hevolves.kept r hr
  obtain ⟨l', hl', hs⟩ := hsteps a l hl
  exact ⟨r', hr', hid, l', hl', hstep _ _ hl.2 hI hs⟩

theorem OnAttempts.evolve
    {whole : Bool} {I : Attempt → Prop} (hcreated : ∀ s, s.Created → I s)
    (hstep : ∀ s s', Linked Job.id Job.nextID s.jobs → I s → Attempt.Step whole s s' → I s')
    {db db' : DB} (hdb : WellFormed db)
    (h : OnAttempts I db) (hevolves : Evolves whole db db') :
  OnAttempts I db'
  := by
  intro r' hr' a l' hl'
  rcases hevolves.created r' hr' with ⟨r, hr, hid⟩ | hnew
  · obtain ⟨r'', hr'', hid'', hsteps⟩ := hevolves.kept r hr
    obtain rfl := Table.eq_of_key_eq hr'' hr' (hid''.trans hid)
    obtain ⟨l, hl⟩ := hdb.chained r.id a
    obtain ⟨l'', hl'', hstep'⟩ := hsteps a l hl
    rw [← hid] at hl'
    rw [hl'.unique hl'']
    apply hstep _ _ hl.2 (h r hr a l hl) hstep'
  · obtain ⟨l'', hl'', hc⟩ := hnew a
    rw [hl'.unique hl'']
    apply hcreated _ hc

/-- Rewriting rows in place is a step of every attempt. -/
theorem evolves_of_rewrite
    {whole : Bool} {db db' : DB} (v : RunUpdate) (u : JobUpdate)
    (hruns : db'.runs = (db.updateRuns v).runs) (hjobs : db'.jobs = (db.updateJobs u).jobs)
    (h : ∀ r ∈ db.runs, ∀ a l, IsChain db r.id a l →
      Attempt.Step whole ⟨r, a, l⟩ ⟨v.apply r, a, l.map u.apply⟩) :
  Evolves whole db db'
  := by
  constructor
  · intro r hr
    use v.apply r
    rw [hruns, DB.mem_updateRuns]
    use ⟨r, hr, rfl⟩, v.id_apply r
    intro a l hl
    use l.map u.apply
    apply And.intro ((hl.updateJobs u).of_jobs_eq hjobs) (h r hr a l hl)
  · intro r' hr'
    rw [hruns, DB.mem_updateRuns] at hr'
    obtain ⟨r, hr, rfl⟩ := hr'
    left
    use r, hr
    rw [v.id_apply]

theorem WellFormed.rewrite
    {db db' : DB} (hdb : WellFormed db) (v : RunUpdate) (u : JobUpdate)
    (hruns : db'.runs = (db.updateRuns v).runs) (hjobs : db'.jobs = (db.updateJobs u).jobs)
    (hv : ∀ r ∈ db.runs, r.attempt ≤ (v.apply r).attempt) :
  WellFormed db'
  := by
  constructor
  · intro j' hj'
    rw [hjobs, DB.mem_updateJobs] at hj'
    obtain ⟨j, hj, rfl⟩ := hj'
    obtain ⟨r, hr, hid, hle⟩ := hdb.referenced j hj
    use v.apply r
    rw [hruns, DB.mem_updateRuns, v.id_apply, u.runID_apply, u.attempt_apply]
    exact ⟨⟨r, hr, rfl⟩, hid, hle.trans (hv r hr)⟩
  · intro run a
    obtain ⟨l, hl⟩ := hdb.chained run a
    use l.map u.apply
    apply (hl.updateJobs u).of_jobs_eq hjobs

end Ploy
