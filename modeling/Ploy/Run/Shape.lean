import Ploy.Run.Lifecycle

/-!
# The shape of a chain

In every attempt the jobs that succeeded come first. After them the chain goes on with one
job that is queued or runs and jobs that wait, or it ended there, with a failed job and
cancelled ones or with cancelled ones only.
-/

namespace Ploy

/-! ### Shapes -/

/-- The statuses of a chain, from its head on. -/
def Shape : List JobStatus → Prop
  | [] => True
  | .success :: l => Shape l
  | .queued :: l | .running :: l => ∀ s ∈ l, s = .created
  | .fail :: l | .error :: l | .cancelled :: l => ∀ s ∈ l, s = .cancelled
  | .created :: _ => False

namespace Shape

variable {ss ts : List JobStatus} {s : JobStatus}

theorem success_append (hss : ∀ x ∈ ss, x = .success) :
  Shape (ss ++ ts) ↔ Shape ts
  := by
  induction ss with
  | nil => rfl
  | cons x ss ih =>
    obtain rfl := hss x List.mem_cons_self
    apply ih (fun y hy => hss y (List.mem_cons_of_mem _ hy))

/-- Before an open job all have succeeded, and after it none has been queued. -/
theorem around_open (h : Shape (ss ++ s :: ts)) (hs : s = .queued ∨ s = .running) :
  (∀ x ∈ ss, x = .success) ∧ ∀ x ∈ ts, x = .created
  := by
  induction ss with
  | nil =>
    refine ⟨by simp, ?_⟩
    rcases hs with rfl | rfl <;> apply h
  | cons x ss ih =>
    have hmem : s ∈ ss ++ s :: ts := by simp
    cases x with
    | success =>
      obtain ⟨hss, hts⟩ := ih h
      refine ⟨?_, hts⟩
      intro y hy
      rcases List.mem_cons.mp hy with rfl | hy
      · rfl
      · apply hss y hy
    | queued | running | fail | error | cancelled =>
      have := h s hmem
      rcases hs with rfl | rfl <;> cases this
    | created => apply h.elim

def cancelStatus (s : JobStatus) : JobStatus :=
  if s.active then .cancelled else s

/-- Cancelling what is active keeps the shape. -/
theorem map_cancelStatus (h : Shape ts) :
  Shape (ts.map cancelStatus)
  := by
  have hcreated : ∀ l : List JobStatus, (∀ s ∈ l, s = .created) →
      ∀ s ∈ l.map cancelStatus, s = .cancelled := by
    intro l hl s hs
    obtain ⟨x, hx, rfl⟩ := List.mem_map.mp hs
    rw [hl x hx]
    rfl
  have hcancelled : ∀ l : List JobStatus, (∀ s ∈ l, s = .cancelled) →
      ∀ s ∈ l.map cancelStatus, s = .cancelled := by
    intro l hl s hs
    obtain ⟨x, hx, rfl⟩ := List.mem_map.mp hs
    rw [hl x hx]
    rfl
  induction ts with
  | nil => trivial
  | cons x ts ih =>
    cases x with
    | success => apply ih h
    | queued | running => apply hcreated ts h
    | fail | error | cancelled => apply hcancelled ts h
    | created => apply h.elim

/-- The shapes of a chain: open at one job, succeeded, failed at one job, or cancelled. -/
theorem cases (h : Shape ts) :
  (∃ i s k, (s = .queued ∨ s = .running)
      ∧ ts = List.replicate i .success ++ s :: List.replicate k .created)
    ∨ (∃ n, ts = List.replicate n .success)
    ∨ (∃ i s k, (s = .fail ∨ s = .error)
      ∧ ts = List.replicate i .success ++ s :: List.replicate k .cancelled)
    ∨ ∃ i k, ts = List.replicate i .success ++ List.replicate (k + 1) .cancelled
  := by
  have hrep : ∀ (x : JobStatus) (l : List JobStatus), (∀ s ∈ l, s = x) →
      l = List.replicate l.length x := by
    intro x l hl
    apply List.eq_replicate_of_mem hl
  induction ts with
  | nil => exact Or.inr (Or.inl ⟨0, rfl⟩)
  | cons x ts ih =>
    cases x with
    | success =>
      rcases ih h with ⟨i, s, k, hs, rfl⟩ | ⟨n, rfl⟩ | ⟨i, s, k, hs, rfl⟩ | ⟨i, k, rfl⟩
      · exact Or.inl ⟨i + 1, s, k, hs, rfl⟩
      · exact Or.inr (Or.inl ⟨n + 1, rfl⟩)
      · exact Or.inr (Or.inr (Or.inl ⟨i + 1, s, k, hs, rfl⟩))
      · exact Or.inr (Or.inr (Or.inr ⟨i + 1, k, rfl⟩))
    | queued =>
      exact Or.inl ⟨0, .queued, ts.length, Or.inl rfl, congrArg _ (hrep _ ts h)⟩
    | running =>
      exact Or.inl ⟨0, .running, ts.length, Or.inr rfl, congrArg _ (hrep _ ts h)⟩
    | fail =>
      exact Or.inr (Or.inr (Or.inl ⟨0, .fail, ts.length, Or.inl rfl, congrArg _ (hrep _ ts h)⟩))
    | error =>
      exact Or.inr (Or.inr (Or.inl ⟨0, .error, ts.length, Or.inr rfl, congrArg _ (hrep _ ts h)⟩))
    | cancelled =>
      exact Or.inr (Or.inr (Or.inr ⟨0, ts.length, congrArg _ (hrep _ ts h)⟩))
    | created => apply h.elim

end Shape

/-! ### Steps keep the shape -/

/-- The statuses of the jobs of an attempt have a shape. -/
def Attempt.Shaped (s : Attempt) : Prop :=
  Shape (s.jobs.map Job.status)

theorem status_cancelIfActive (l : List Job) :
  (l.map cancelIfActive.apply).map Job.status = (l.map Job.status).map Shape.cancelStatus
  := by
  simp only [List.map_map]
  apply List.map_congr_left
  intro j _
  simp only [Function.comp, cancelIfActive, RowUpdate.onlyIf, Shape.cancelStatus]
  split <;> rfl

theorem PlannedChain.shape {run : Run} {l : List Job} (h : PlannedChain run true l) :
  Shape (l.map Job.status)
  := by
  cases l with
  | nil => trivial
  | cons j rest =>
    rw [List.map_cons, h.1.status]
    intro s hs
    obtain ⟨k, hk, rfl⟩ := List.mem_map.mp hs
    apply (h.2 k hk).status

theorem Attempt.Shaped.around {r : Run} {a : Nat} {pre post : List Job} {j : Job}
    (h : Attempt.Shaped ⟨r, a, pre ++ j :: post⟩) (hj : j.status = .queued ∨ j.status = .running) :
  (∀ k ∈ pre, k.status = .success) ∧ ∀ k ∈ post, k.status = .created
  := by
  rw [Attempt.Shaped, List.map_append, List.map_cons] at h
  obtain ⟨hpre, hpost⟩ := h.around_open hj
  constructor
  · intro k hk
    apply hpre _ (List.mem_map_of_mem hk)
  · intro k hk
    apply hpost _ (List.mem_map_of_mem hk)

theorem shape_of_suffix {pre suffix : List Job} (hpre : ∀ k ∈ pre, k.status = .success)
    (h : Shape (suffix.map Job.status)) :
  Shape ((pre ++ suffix).map Job.status)
  := by
  rw [List.map_append]
  apply (Shape.success_append _).mpr h
  intro s hs
  obtain ⟨k, hk, rfl⟩ := List.mem_map.mp hs
  apply hpre k hk

theorem status_feed (out : String) (l : List Job) :
  (feed out l).map Job.status = l.map Job.status
  := by
  cases l <;> rfl

/-- A completion keeps the shape. -/
theorem shape_completed (input : CompletionInput) {j : Job} {post : List Job}
    (hpost : ∀ k ∈ post, k.status = .created) :
  Shape ((input.completed j :: input.after j post).map Job.status)
  := by
  have hfeed : ∀ s ∈ (feed (input.completed j).repoShaOut post).map Job.status, s = .created := by
    rw [status_feed]
    intro s hs
    obtain ⟨k, hk, rfl⟩ := List.mem_map.mp hs
    apply hpost k hk
  have hstatus : (input.completed j).status = input.status := rfl
  rw [List.map_cons, hstatus, CompletionInput.after]
  generalize feed (input.completed j).repoShaOut post = fed at hfeed
  have hcancelled : ∀ s ∈ (fed.map cancelIfActive.apply).map Job.status, s = .cancelled := by
    rw [status_cancelIfActive]
    intro s hs
    obtain ⟨x, hx, rfl⟩ := List.mem_map.mp hs
    rw [hfeed x hx]
    rfl
  cases hs : input.status with
  | success =>
    rw [if_pos rfl]
    cases fed with
    | nil => trivial
    | cons k rest =>
      have hk : k.status = .created := hfeed _ (by simp)
      have hadvanced : ((promoteRow.onlyIf (·.status = .created)).apply k).status = .queued := by
        rw [RowUpdate.onlyIf_pos (by simpa using hk)]
        rfl
      rw [advance, List.map_cons, hadvanced]
      intro s hs
      apply hfeed s (List.mem_cons_of_mem _ hs)
  | fail | error | cancelled => apply hcancelled
  | created | queued | running =>
    simpa [hs, JobStatus.terminal, JobStatus.active] using input.terminal

/-- Every attempt has one of the shapes. -/
theorem shaped_invariant :
  Attempt.Invariant Attempt.Shaped
  := by
  constructor
  · rintro ⟨r, a, l⟩ ⟨-, -, -, ⟨-, hplanned, -⟩ | ⟨-, hnil⟩⟩
    · apply hplanned.shape
    · dsimp only at hnil
      subst hnil
      trivial
  · intro _ s s' _ h hstep
    cases hstep with
    | idle | settle | stay => apply h
    | claim n now running queued owner =>
      obtain ⟨hpre, hpost⟩ := h.around (Or.inl queued)
      apply shape_of_suffix hpre
      intro s hs
      obtain ⟨k, hk, rfl⟩ := List.mem_map.mp hs
      apply hpost k hk
    | unclaim running =>
      obtain ⟨hpre, hpost⟩ := h.around (Or.inr running)
      apply shape_of_suffix hpre
      intro s hs
      obtain ⟨k, hk, rfl⟩ := List.mem_map.mp hs
      apply hpost k hk
    | complete input rows accepted order =>
      obtain ⟨hpre, hpost⟩ := h.around (Or.inr accepted.running)
      apply shape_of_suffix hpre (shape_completed input hpost)
    | cancelJobs | cancelRun =>
      rw [Attempt.Shaped, status_cancelIfActive]
      apply h.map_cancelStatus
    | leave stats terminal reached =>
      rw [Attempt.Shaped]
      split
      · rw [status_cancelIfActive]
        apply h.map_cancelStatus
      · apply h
    | enter stats terminal planned nonempty => apply planned.shape
    | resume stats now u terminal succeeded failed cancelled first rest =>
      apply shape_of_suffix succeeded
      obtain ⟨d, hfirst⟩ := first
      rw [List.map_cons, hfirst]
      intro s hs
      rw [List.map_map] at hs
      obtain ⟨k, hk, rfl⟩ := List.mem_map.mp hs
      obtain ⟨d, hk⟩ := rest k hk
      rw [Function.comp, hk]
      rfl

/-! ### Claims follow the chain -/

/-- One job comes before another: the other is met from it along successors. -/
def Precedes (db : DB) : Job → Job → Prop :=
  Relation.TransGen fun p k => p ∈ db.jobs ∧ k ∈ db.jobs ∧ p.nextID = some k.id

/-- Some node is given the job when it asks for one. -/
def Claimable (db : DB) (j : Job) : Prop :=
  ∃ nodeID skipLocked claimed db',
    (claimJob nodeID skipLocked).transaction engine db = .ok (claimed, db') ∧ claimed.id = j.id

theorem Precedes.mem_pre {db : DB} (hdb : WellFormed db) {run : RunID} {attempt : Nat} {p j : Job}
    (h : Precedes db p j) {pre post : List Job}
    (hchain : IsChain db run attempt (pre ++ j :: post)) :
  p ∈ pre
  := by
  induction h using Relation.TransGen.head_induction_on with
  | single hp =>
    obtain ⟨hp, -, hnext⟩ := hp
    have hmem := hdb.mem_of_next hchain hp (by simp) hnext
    obtain ⟨front, rfl⟩ := hchain.2.prev_eq hchain.nodup hmem hnext
    simp
  | head hp _ hq =>
    obtain ⟨hp, -, hnext⟩ := hp
    obtain ⟨pre₁, pre₂, rfl⟩ := List.append_of_mem hq
    rw [List.append_assoc, List.cons_append] at hchain
    have hmem := hdb.mem_of_next hchain hp (by simp) hnext
    obtain ⟨front, rfl⟩ := hchain.2.prev_eq hchain.nodup hmem hnext
    simp

theorem Claimable.queued {db : DB} {j : Job} (hj : j ∈ db.jobs) (h : Claimable db j) :
  j.status = .queued
  := by
  obtain ⟨nodeID, skipLocked, claimed, db', h, hid⟩ := h
  obtain ⟨n, -, -, j', hj', heligible, rfl, -⟩ := claimJob_effect h
  rw [JobUpdate.id_apply] at hid
  rw [← Table.eq_of_key_eq hj' hj hid]
  apply (eligible_spec heligible).queued

/-- At all times the jobs of every attempt form one chain, with jobs if the run has reached the
attempt, and their statuses have one of four shapes. At most one job of an attempt is queued or
runs, a job can only be claimed once all before it succeeded, and never once one before it
failed or was cancelled. -/
theorem chain_shape {past : List (DB × Operation)} {db : DB} (h : storeMachine.Execution past db) :
  (∀ run attempt, ∃ chain, IsChain db run attempt chain
      ∧ (∀ r ∈ db.runs, r.id = run → 1 ≤ attempt → attempt ≤ r.attempt → chain ≠ [])
      ∧ ((∃ i s k, (s = .queued ∨ s = .running)
          ∧ chain.map Job.status = List.replicate i .success ++ s :: List.replicate k .created)
        ∨ (∃ n, chain.map Job.status = List.replicate n .success)
        ∨ (∃ i s k, (s = .fail ∨ s = .error)
          ∧ chain.map Job.status = List.replicate i .success ++ s :: List.replicate k .cancelled)
        ∨ ∃ i k, chain.map Job.status
            = List.replicate i .success ++ List.replicate (k + 1) .cancelled))
    ∧ (∀ j ∈ db.jobs, ∀ k ∈ db.jobs, j.runID = k.runID → j.attempt = k.attempt →
      (j.status = .queued ∨ j.status = .running) → (k.status = .queued ∨ k.status = .running) →
        j = k)
    ∧ (∀ j ∈ db.jobs, Claimable db j → ∀ p, Precedes db p j → p.status = .success)
    ∧ ∀ p j, j ∈ db.jobs → Precedes db p j →
      (p.status = .fail ∨ p.status = .error ∨ p.status = .cancelled) → ¬ Claimable db j
  := by
  have hdb := wellFormed_of_execution h
  have hshaped := onAttempts_of_execution shaped_invariant h
  have hplaced := onAttempts_of_execution placed_invariant h
  -- a job that is queued or runs has only jobs that succeeded before it
  have hopen : ∀ j ∈ db.jobs, (j.status = .queued ∨ j.status = .running) →
      ∃ pre post, IsChain db j.runID j.attempt (pre ++ j :: post)
        ∧ (∀ k ∈ pre, k.status = .success) ∧ ∀ k ∈ post, k.status = .created := by
    intro j hj hstatus
    obtain ⟨r, hr, hid, -⟩ := hdb.referenced j hj
    obtain ⟨chain, hchain⟩ := hdb.chained j.runID j.attempt
    obtain ⟨pre, post, rfl⟩ := List.append_of_mem (hchain.mem_iff.mpr ⟨hj, rfl, rfl⟩)
    use pre, post, hchain
    rw [← hid] at hchain
    apply (hshaped r hr _ _ hchain).around hstatus
  have hclaim : ∀ j ∈ db.jobs, Claimable db j → ∀ p, Precedes db p j → p.status = .success := by
    intro j hj hclaimable p hp
    obtain ⟨pre, post, hchain, hpre, -⟩ := hopen j hj (Or.inl (hclaimable.queued hj))
    apply hpre p (hp.mem_pre hdb hchain)
  refine ⟨?_, ?_, hclaim, ?_⟩
  · intro run attempt
    obtain ⟨chain, hchain⟩ := hdb.chained run attempt
    use chain, hchain
    constructor
    · rintro r hr rfl hpos hle
      apply (hplaced r hr _ _ hchain).populated hpos hle
    · cases chain with
      | nil => exact Or.inr (Or.inl ⟨0, rfl⟩)
      | cons j rest =>
        obtain ⟨hj, rfl, rfl⟩ := hchain.mem_iff.mp List.mem_cons_self
        obtain ⟨r, hr, hid, -⟩ := hdb.referenced j hj
        rw [← hid] at hchain
        apply Shape.cases (hshaped r hr _ _ hchain)
  · intro j hj k hk hrun hattempt hjstatus hkstatus
    obtain ⟨pre, post, hchain, hpre, hpost⟩ := hopen j hj hjstatus
    have hmem := hchain.mem_iff.mpr ⟨hk, hrun.symm, hattempt.symm⟩
    simp only [List.mem_append, List.mem_cons] at hmem
    rcases hmem with hmem | rfl | hmem
    · rw [hpre k hmem] at hkstatus
      rcases hkstatus with hk | hk <;> cases hk
    · rfl
    · rw [hpost k hmem] at hkstatus
      rcases hkstatus with hk | hk <;> cases hk
  · intro p j hj hp hstatus hclaimable
    rw [hclaim j hj hclaimable p hp] at hstatus
    rcases hstatus with hs | hs | hs <;> cases hs

/-- The shape of a chain whose first job succeeded and whose second failed. -/
theorem chain_shape_sample :
  ∃ past db, storeMachine.Execution past db
    ∧ (db.jobs.rows.map Job.status = [.fail, .success])
    ∧ ∃ chain, IsChain db ⟨"r"⟩ 1 chain
      ∧ ((∃ i s k, (s = .queued ∨ s = .running)
          ∧ chain.map Job.status = List.replicate i .success ++ s :: List.replicate k .created)
        ∨ (∃ n, chain.map Job.status = List.replicate n .success)
        ∨ (∃ i s k, (s = .fail ∨ s = .error)
          ∧ chain.map Job.status = List.replicate i .success ++ s :: List.replicate k .cancelled)
        ∨ ∃ i k, chain.map Job.status
            = List.replicate i .success ++ List.replicate (k + 1) .cancelled)
  := by
  have hrun : ((storeMachine.follow Sample.store Sample.failing).map
      fun db => db.jobs.rows.map Job.status) = some [.fail, .success] := by
    decide
  obtain ⟨db, hfollow, hjobs⟩ := Option.map_eq_some_iff.mp hrun
  obtain ⟨past, hexec, -⟩ := (Machine.Execution.start Sample.initial).follow hfollow
  obtain ⟨chain, hchain, -, hshape⟩ := (chain_shape hexec).1 ⟨"r"⟩ 1
  exact ⟨_, db, hexec, hjobs, chain, hchain, hshape⟩

end Ploy
