import Ploy.Isolation.Statements

/-!
# The lock of a run

A transaction that opens jobs of a run, or ends it, holds the row of the run, and what it has seen
of the jobs of the run stays so until it commits. The cancellation of a run decides on a row that it
reads without a lock.
-/

namespace Ploy

open Program Protocol

/-- A job has its run. While it is active the run is in a later attempt, or has not ended. -/
def Job.Fits (db : DB) (j : Job) : Prop :=
  ∃ r ∈ db.runs, r.id = j.runID ∧ (j.status.active = true →
    j.attempt < r.attempt ∨ (j.attempt = r.attempt ∧ isTerminalRunStatus r.status = false))

/-- No job of a run is active from an attempt on. -/
def DB.Quiet (db : DB) (run : RunID) (attempt : Nat) : Prop :=
  ∀ j ∈ db.jobs, j.runID = run → attempt ≤ j.attempt → j.status.active = false

/-- What is known of a run that a transaction has ended. With `none` it ends no run, otherwise the
jobs of the run still have to be ended, or none is active. -/
def Run.Ended (π : Option (Run → Prop)) (v : DB) (r : Run) : Prop :=
  match π with
  | none => False
  | some π => π r ∨ v.Quiet r.id r.attempt

/-- What is known of a job that a transaction has opened. With `none` it opens no job, otherwise the
run of the job still has to be opened, or the job fits. -/
def Job.Opened (ρ : Option (RunID → Nat → Prop)) (v : DB) (j : Job) : Prop :=
  match ρ with
  | none => False
  | some ρ => ρ j.runID j.attempt ∨ j.Fits v

/-- A later version of a run is in a later attempt, or if it has ended, it had ended before or is
one that the transaction ends. -/
def Run.Follows (π : Option (Run → Prop)) (v : DB) (r r' : Run) : Prop :=
  r.attempt < r'.attempt ∨ (r.attempt = r'.attempt ∧ (isTerminalRunStatus r'.status = true →
    isTerminalRunStatus r.status = true ∨ r'.Ended π v))

/-- What holds between what is committed and what a transaction sees: jobs stay where they are, the
jobs it has opened are of runs that it has locked, and runs go on as they should. -/
structure RunGuarantee (π : Option (Run → Prop)) (ρ : Option (RunID → Nat → Prop)) (L : List RowKey)
    (s v : DB) : Prop where
  same : s.SameJobs v
  jobs : ∀ j ∈ v.jobs, j.From s ∨ (.run j.runID ∈ L ∧ j.Opened ρ v)
  runs : ∀ r ∈ s.runs, ∃ r' ∈ v.runs, r'.id = r.id ∧ r.Follows π v r'

/-- Every run that is ended is quiet. -/
def quieted : Option (Run → Prop) := some fun _ => False

/-- Every job that is opened fits. -/
def fitting : Option (RunID → Nat → Prop) := some fun _ _ => False

theorem Run.Follows.attempt_le {π : Option (Run → Prop)} {v : DB} {r r' : Run}
    (h : r.Follows π v r') :
  r.attempt ≤ r'.attempt
  := by
  rcases h with h | ⟨h, -⟩
  · apply h.le
  · apply h.le

theorem Run.Follows.imp {π π' : Option (Run → Prop)} {v v' : DB} {r r' : Run}
    (h : r.Follows π v r') (hended : r'.Ended π v → r'.Ended π' v') :
  r.Follows π' v' r'
  := by
  apply h.imp_right
  rintro ⟨hattempt, h⟩
  exact ⟨hattempt, fun hterminal => (h hterminal).imp_right hended⟩

theorem quiet_of_quieted {v : DB} {r : Run} (h : r.Ended quieted v) :
  v.Quiet r.id r.attempt
  := h.resolve_left nofun

theorem fits_of_fitting {v : DB} {j : Job} (h : j.Opened fitting v) :
  j.Fits v
  := h.resolve_left nofun

/-- A job that fits goes on to fit as its run goes on. -/
theorem Job.Fits.follows {s v : DB} {j j₀ : Job} (h : j₀.Fits s) (hj : j ∈ v.jobs)
    (hrun : j₀.runID = j.runID) (hattempt : j₀.attempt = j.attempt)
    (hactive : j.status.active = true → j₀.status.active = true)
    (hruns : ∀ r ∈ s.runs, ∃ r' ∈ v.runs, r'.id = r.id ∧ r.Follows quieted v r') :
  j.Fits v
  := by
  obtain ⟨r, hr, hid, hfits⟩ := h
  obtain ⟨r', hr', hid', hfollows⟩ := hruns r hr
  refine ⟨r', hr', hid'.trans (hid.trans hrun), ?_⟩
  intro hj'
  rw [← hattempt]
  rcases hfits (hactive hj') with hlater | ⟨hsame, hopen⟩
  · exact Or.inl (hlater.trans_le hfollows.attempt_le)
  · rcases hfollows with hnext | ⟨hstays, hended⟩
    · left
      rw [hsame]
      apply hnext
    · right
      refine ⟨hsame.trans hstays, ?_⟩
      cases hterminal : isTerminalRunStatus r'.status with
      | false => rfl
      | true =>
        rcases hended hterminal with hbefore | hended
        · rw [hopen] at hbefore
          cases hbefore
        · have hle : r'.attempt ≤ j.attempt := by
            rw [← hattempt, hsame, hstays]
          have hinactive := quiet_of_quieted hended j hj (by rw [hid', hid, hrun]) hle
          rw [hj'] at hinactive
          cases hinactive

theorem RunGuarantee.fits {L : List RowKey} {s v : DB} (h : RunGuarantee quieted fitting L s v)
    (hinv : ∀ j ∈ s.jobs, j.Fits s) :
  ∀ j ∈ v.jobs, j.Fits v
  := by
  intro j hj
  rcases h.jobs j hj with ⟨j₀, hj₀, -, hrun, hattempt, hactive⟩ | ⟨-, hopen⟩
  · apply (hinv j₀ hj₀).follows hj hrun hattempt hactive h.runs
  · apply fits_of_fitting hopen

def runProtocol : Protocol isolation Surroundings.apply where
  invariant s := ∀ j ∈ s.jobs, j.Fits s
  guarantee L p s := RunGuarantee quieted fitting L s (p.view s)
  commit := by
    intro L p s _ hinv hguarantee
    apply hguarantee.fits hinv
  drift o s h := h

/-! ### What stays true -/

section Stable

variable {L : List RowKey} {p : Writes} {s s' : DB}

theorem Arrives.job_from {j : Job} (h : Arrives runProtocol L s (.job j)) :
  j.From s ∨ .run j.runID ∉ L
  := by
  obtain ⟨L', p', hapart, hkey, hguarantee, hseen⟩ := h.arrival
  apply (hguarantee.jobs j hseen).imp_right
  rintro ⟨hlocked, -⟩
  apply hapart _ hlocked

/-- Others do not open jobs of a run that is locked. -/
theorem DB.Quiet.stable {run : RunID} {attempt : Nat} (hrely : runProtocol.Rely L s s')
    (hlocked : .run run ∈ L) (h : (p.view s).Quiet run attempt) :
  (p.view s').Quiet run attempt
  := by
  intro j hj hrun hattempt
  rcases rely_view (x := .job j) hrely hj with hj | ⟨hfree, harrives⟩
  · apply h j hj hrun hattempt
  · rcases harrives.job_from with ⟨j₀, hj₀, hid, hrun₀, hattempt₀, hactive⟩ | hunlocked
    · have hseen : j₀ ∈ (p.view s).jobs := by
        apply committed_seen (x := .job j₀) hj₀
        rw [Row.key, hid]
        apply hfree
      have hquiet := h j₀ hseen (hrun₀.trans hrun) (by rw [hattempt₀]; apply hattempt)
      cases hj' : j.status.active with
      | false => rfl
      | true =>
        rw [hactive hj'] at hquiet
        cases hquiet
    · rw [hrun] at hunlocked
      apply absurd hlocked hunlocked

theorem Job.Opened.local {ρ : Option (RunID → Nat → Prop)} {v v' : DB} {j : Job}
    (h : j.Opened ρ v) (hruns : ∀ r ∈ v.runs, r.id = j.runID → r ∈ v'.runs) :
  j.Opened ρ v'
  := by
  cases ρ with
  | none => cases h
  | some ρ =>
    apply h.imp_right
    rintro ⟨r, hr, hid, hfits⟩
    exact ⟨r, hruns r hr hid, hid, hfits⟩

theorem Job.From.stable {j : Job} (hrely : runProtocol.Rely L s s') (hlocked : .job j.id ∈ L)
    (h : j.From s) :
  j.From s'
  := by
  obtain ⟨j₀, hj₀, hid, hsame⟩ := h
  refine ⟨j₀, ?_, hid, hsame⟩
  apply (rely_locked (x := .job j₀) hrely _).mpr hj₀
  rw [Row.key, hid]
  apply hlocked

theorem Run.Ended.stable {π : Option (Run → Prop)} {r : Run} (hrely : runProtocol.Rely L s s')
    (hlocked : .run r.id ∈ L) (h : r.Ended π (p.view s)) :
  r.Ended π (p.view s')
  := by
  cases π with
  | none => cases h
  | some π => exact h.imp_right (DB.Quiet.stable hrely hlocked)

/-- What others commit does not disturb what a transaction knows. -/
theorem RunGuarantee.stable {π : Option (Run → Prop)} {ρ : Option (RunID → Nat → Prop)}
    (howns : isolation.Owns L p) (hrely : runProtocol.Rely L s s')
    (h : RunGuarantee π ρ L s (p.view s)) :
  RunGuarantee π ρ L s' (p.view s')
  := by
  constructor
  · intro j hj j₀ hj₀ hid
    rcases own_or_committed (x := .job j) hj with hwritten | hcommitted
    · have hlocked : (Row.job j₀).key ∈ L := by
        rw [Row.key, hid]
        apply howns _ hwritten.mem_rows
      apply h.same j (written_seen hwritten) j₀ _ hid
      apply (rely_locked (x := .job j₀) hrely hlocked).mp hj₀
    · apply sameJobs_of_eq rfl j hcommitted j₀ hj₀ hid
  · intro j hj
    rcases own_or_committed (x := .job j) hj with hwritten | hcommitted
    · apply (h.jobs j (written_seen hwritten)).imp
      · apply Job.From.stable hrely (howns _ hwritten.mem_rows)
      · rintro ⟨hlocked, hopened⟩
        refine ⟨hlocked, hopened.local ?_⟩
        intro r hr hid
        apply (rely_view_locked (x := .run r) hrely _).mpr hr
        rw [Row.key, hid]
        apply hlocked
    · exact Or.inl (Job.from_self hcommitted)
  · intro r hr
    by_cases hwritten : .run r.id ∈ p.rows
    · have hlocked : (Row.run r).key ∈ L := howns _ hwritten
      obtain ⟨r', hr', hid, hfollows⟩ := h.runs r ((rely_locked (x := .run r) hrely hlocked).mp hr)
      have hlocked' : (Row.run r').key ∈ L := by
        rw [Row.key, hid]
        apply hlocked
      refine ⟨r', (rely_view_locked (x := .run r') hrely hlocked').mpr hr', hid, ?_⟩
      apply hfollows.imp (Run.Ended.stable hrely hlocked')
    · refine ⟨r, committed_seen (x := .run r) hr hwritten, rfl, ?_⟩
      exact Or.inr ⟨rfl, Or.inl⟩

end Stable

/-- What a transaction knows of the runs it ends and the jobs it opens. -/
def securing (π : Option (Run → Prop)) (ρ : Option (RunID → Nat → Prop)) :
    runProtocol.Assertion where
  holds L p s := RunGuarantee π ρ L s (p.view s)
  stable := RunGuarantee.stable

/-- A run is locked, and no job of it is active from an attempt on. -/
def quietRun (run : RunID) (attempt : Nat) : runProtocol.Assertion where
  holds L p s := .run run ∈ L ∧ (p.view s).Quiet run attempt
  stable _ hrely h := ⟨h.1, h.2.stable hrely h.1⟩

theorem rely_job {L : List RowKey} {s s' : DB} (hrely : runProtocol.Rely L s s') {j : Job}
    (hj : j ∈ s.jobs) :
  ∃ j' ∈ s'.jobs, j'.id = j.id ∧ j'.runID = j.runID ∧ j'.attempt = j.attempt
  := by
  cases hrely with
  | @commit L' p' s apart owns inv guarantees =>
    obtain ⟨j', hj', hid⟩ := (Extends.view p' s).job hj
    obtain ⟨hrun, hattempt⟩ := guarantees.same j' hj' j hj hid.symm
    exact ⟨j', hj', hid, hrun.symm, hattempt.symm⟩
  | drift o inv => exact ⟨j, hj, rfl, rfl, rfl⟩

theorem rely_run {L : List RowKey} {s s' : DB} (hrely : runProtocol.Rely L s s') {r : Run}
    (hr : r ∈ s.runs) :
  ∃ r' ∈ s'.runs, r'.id = r.id ∧ r.attempt ≤ r'.attempt
  := by
  cases hrely with
  | @commit L' p' s apart owns inv guarantees =>
    obtain ⟨r', hr', hid, hfollows⟩ := guarantees.runs r hr
    exact ⟨r', hr', hid, hfollows.attempt_le⟩
  | drift o inv => exact ⟨r, hr, rfl, le_rfl⟩

def knownJob (id : JobID) (run : RunID) (attempt : Nat) : runProtocol.Assertion where
  holds _ p s := ∃ j ∈ (p.view s).jobs, j.id = id ∧ j.runID = run ∧ j.attempt = attempt
  stable := by
    rintro L p s s' howns hrely ⟨j, hj, rfl, rfl, rfl⟩
    rcases (Row.in_view (x := .job j)).mp hj with hwritten | ⟨hcommitted, hfree⟩
    · exact ⟨j, written_seen (x := .job j) hwritten, rfl, rfl, rfl⟩
    · obtain ⟨j', hj', hid, hsame⟩ := rely_job hrely hcommitted
      refine ⟨j', ?_, hid, hsame⟩
      apply committed_seen (x := .job j') hj'
      rw [Row.key, hid]
      apply hfree

/-! ### Steps -/

section Steps

variable {π π' : Option (Run → Prop)} {ρ : Option (RunID → Nat → Prop)} {L L' : List RowKey}
  {s v w : DB}

theorem DB.SameJobs.trans (h : s.SameJobs v) (hext : Extends s v) (h' : v.SameJobs w) :
  s.SameJobs w
  := by
  intro j hj j₀ hj₀ hid
  obtain ⟨j₁, hj₁, hid₁⟩ := hext.job hj₀
  obtain ⟨hrun, hattempt⟩ := h j₁ hj₁ j₀ hj₀ hid₁.symm
  obtain ⟨hrun', hattempt'⟩ := h' j hj j₁ hj₁ (hid₁.trans hid)
  exact ⟨hrun.trans hrun', hattempt.trans hattempt'⟩

theorem DB.Quiet.calm {run : RunID} {attempt : Nat} (h : v.Quiet run attempt) (hcalm : Calm v w) :
  w.Quiet run attempt
  := by
  intro j hj hrun hattempt
  obtain ⟨j₀, hj₀, -, hrun₀, hattempt₀, hactive⟩ := hcalm.jobs j hj
  have hinactive := h j₀ hj₀ (hrun₀.trans hrun) (by rw [hattempt₀]; apply hattempt)
  cases hj' : j.status.active with
  | false => rfl
  | true =>
    rw [hactive hj'] at hinactive
    cases hinactive

theorem Run.Ended.calm {r : Run} (h : r.Ended π v) (hcalm : Calm v w) :
  r.Ended π w
  := by
  cases π with
  | none => cases h
  | some π => exact h.imp_right (·.calm hcalm)

/-- A job that was opened stays so while no run is written. -/
theorem Job.Opened.calm {j j₀ : Job} (h : j₀.Opened ρ v) (hruns : w.runs = v.runs)
    (hrun : j₀.runID = j.runID) (hattempt : j₀.attempt = j.attempt)
    (hactive : j.status.active = true → j₀.status.active = true) :
  j.Opened ρ w
  := by
  cases ρ with
  | none => cases h
  | some ρ =>
    apply h.imp
    · intro hρ
      rw [← hrun, ← hattempt]
      apply hρ
    · rintro ⟨r, hr, hid, hfits⟩
      refine ⟨r, ?_, hid.trans hrun, ?_⟩
      · rw [hruns]
        apply hr
      · rw [← hattempt]
        intro hj
        apply hfits (hactive hj)

theorem RunGuarantee.opensNone (h : RunGuarantee π none L s v) :
  RunGuarantee π ρ L s v
  := by
  refine ⟨h.same, ?_, h.runs⟩
  intro j hj
  apply (h.jobs j hj).imp_right
  rintro ⟨-, hopened⟩
  cases hopened

theorem RunGuarantee.endsNone (h : RunGuarantee none ρ L s v) :
  RunGuarantee π ρ L s v
  := by
  refine ⟨h.same, h.jobs, ?_⟩
  intro r hr
  obtain ⟨r', hr', hid, hfollows⟩ := h.runs r hr
  exact ⟨r', hr', hid, hfollows.imp nofun⟩

theorem RunGuarantee.awaiting {ρ : RunID → Nat → Prop} (h : RunGuarantee π fitting L s v) :
  RunGuarantee π (some ρ) L s v
  := by
  refine ⟨h.same, ?_, h.runs⟩
  intro j hj
  apply (h.jobs j hj).imp_right
  rintro ⟨hlocked, hopened⟩
  exact ⟨hlocked, Or.inr (fits_of_fitting hopened)⟩

theorem RunGuarantee.refl (s : DB) :
  RunGuarantee none none L s s
  := by
  refine ⟨sameJobs_of_eq rfl, fun j hj => Or.inl (Job.from_self hj), ?_⟩
  intro r hr
  exact ⟨r, hr, rfl, Or.inr ⟨rfl, Or.inl⟩⟩

/-- A statement that opens and ends nothing keeps what is known. -/
theorem RunGuarantee.calm (h : RunGuarantee π ρ L s v) (hL : L ⊆ L') (hcalm : Calm v w)
    (hsame : s.SameJobs w) :
  RunGuarantee π ρ L' s w
  := by
  refine ⟨hsame, ?_, ?_⟩
  · intro j hj
    obtain ⟨j₀, hj₀, hid, hrun, hattempt, hactive⟩ := hcalm.jobs j hj
    apply (h.jobs j₀ hj₀).imp
    · rintro ⟨j₁, hj₁, hid₁, hrun₁, hattempt₁, hactive₁⟩
      exact ⟨j₁, hj₁, hid₁.trans hid, hrun₁.trans hrun, hattempt₁.trans hattempt,
        hactive₁ ∘ hactive⟩
    · rintro ⟨hlocked, hopened⟩
      rw [← hrun]
      exact ⟨hL hlocked, hopened.calm hcalm.runs hrun hattempt hactive⟩
  · intro r hr
    obtain ⟨r', hr', hid, hfollows⟩ := h.runs r hr
    refine ⟨r', ?_, hid, hfollows.imp (·.calm hcalm)⟩
    rw [hcalm.runs]
    apply hr'

theorem RunGuarantee.more (h : RunGuarantee π ρ L s v) (hL : L ⊆ L') :
  RunGuarantee π ρ L' s v
  := h.calm hL (Calm.refl _) h.same

theorem RunGuarantee.narrow {π π' : Run → Prop} (h : RunGuarantee (some π) ρ L s v)
    (hπ : ∀ r ∈ v.runs, π r → r.Ended (some π') v) :
  RunGuarantee (some π') ρ L s v
  := by
  refine ⟨h.same, h.jobs, ?_⟩
  intro r hr
  obtain ⟨r', hr', hid, hfollows⟩ := h.runs r hr
  refine ⟨r', hr', hid, hfollows.imp ?_⟩
  rintro (hr | hquiet)
  · apply hπ r' hr' hr
  · exact Or.inr hquiet

/-- Runs may be ended that are quiet or are made quiet later. -/
theorem RunGuarantee.endRuns {π : Run → Prop} {u : RunUpdate} (h : RunGuarantee quieted none L s v)
    (hu : ∀ r ∈ v.runs, u.apply r = r
      ∨ ((u.apply r).attempt = r.attempt ∧ (u.apply r).Ended (some π) v)) :
  RunGuarantee (some π) none L' s (v.updateRuns u)
  := by
  refine ⟨h.same, ?_, ?_⟩
  · intro j hj
    apply (h.jobs j hj).imp_right
    rintro ⟨-, hopened⟩
    cases hopened
  · intro r hr
    obtain ⟨r₁, hr₁, hid, hfollows⟩ := h.runs r hr
    refine ⟨u.apply r₁, DB.mem_updateRuns.mpr ⟨r₁, hr₁, rfl⟩, (u.id_apply r₁).trans hid, ?_⟩
    rcases hu r₁ hr₁ with hsame | ⟨hattempt, hended⟩
    · rw [hsame]
      exact hfollows.imp fun hquiet => Or.inr (quiet_of_quieted hquiet)
    · rcases hfollows with hlater | ⟨hstays, -⟩
      · left
        rw [hattempt]
        apply hlater
      · right
        rw [hattempt]
        exact ⟨hstays, fun _ => Or.inr hended⟩

theorem Job.Fits.openRuns {u : RunUpdate} {j : Job} (h : j.Fits v)
    (hu : ∀ r ∈ v.runs, u.apply r = r ∨ (r.attempt ≤ (u.apply r).attempt
      ∧ isTerminalRunStatus (u.apply r).status = false)) :
  j.Fits (v.updateRuns u)
  := by
  obtain ⟨r, hr, hid, hfits⟩ := h
  refine ⟨u.apply r, DB.mem_updateRuns.mpr ⟨r, hr, rfl⟩, (u.id_apply r).trans hid, ?_⟩
  rcases hu r hr with hsame | ⟨hattempt, hopen⟩
  · rw [hsame]
    apply hfits
  · intro hactive
    have hle : j.attempt ≤ r.attempt := by
      rcases hfits hactive with hlater | ⟨hstays, -⟩
      · apply hlater.le
      · apply hstays.le
    rcases (hle.trans hattempt).lt_or_eq with hlater | hstays
    · exact Or.inl hlater
    · exact Or.inr ⟨hstays, hopen⟩

/-- Opening runs lets the jobs that wait for them fit. -/
theorem RunGuarantee.openRuns {ρ : RunID → Nat → Prop} {u : RunUpdate}
    (h : RunGuarantee none (some ρ) L s v) (hL : L ⊆ L')
    (hu : ∀ r ∈ v.runs, u.apply r = r ∨ (r.attempt ≤ (u.apply r).attempt
      ∧ isTerminalRunStatus (u.apply r).status = false))
    (hρ : ∀ j ∈ v.jobs, ρ j.runID j.attempt → j.Fits (v.updateRuns u)) :
  RunGuarantee none fitting L' s (v.updateRuns u)
  := by
  refine ⟨h.same, ?_, ?_⟩
  · intro j hj
    apply (h.jobs j hj).imp_right
    rintro ⟨hlocked, hopened⟩
    refine ⟨hL hlocked, Or.inr ?_⟩
    rcases hopened with hopened | hfits
    · apply hρ j hj hopened
    · apply hfits.openRuns hu
  · intro r hr
    obtain ⟨r₁, hr₁, hid, hfollows⟩ := h.runs r hr
    refine ⟨u.apply r₁, DB.mem_updateRuns.mpr ⟨r₁, hr₁, rfl⟩, (u.id_apply r₁).trans hid, ?_⟩
    rcases hu r₁ hr₁ with hsame | ⟨hattempt, hopen⟩
    · rw [hsame]
      apply hfollows
    · rcases (hfollows.attempt_le.trans hattempt).lt_or_eq with hlater | hstays
      · exact Or.inl hlater
      · right
        refine ⟨hstays, fun hterminal => ?_⟩
        rw [hopen] at hterminal
        cases hterminal

/-- A run may be added. -/
theorem RunGuarantee.insertRun (h : RunGuarantee π ρ L s v) (hL : L ⊆ L')
    (hruns : ∀ r ∈ v.runs, r ∈ w.runs) (hjobs : w.jobs = v.jobs) (hsame : s.SameJobs w) :
  RunGuarantee π ρ L' s w
  := by
  refine ⟨hsame, ?_, ?_⟩
  · intro j hj
    rw [hjobs] at hj
    apply (h.jobs j hj).imp_right
    rintro ⟨hlocked, hopened⟩
    exact ⟨hL hlocked, hopened.local fun r hr _ => hruns r hr⟩
  · intro r hr
    obtain ⟨r', hr', hid, hfollows⟩ := h.runs r hr
    refine ⟨r', hruns r' hr', hid, hfollows.imp ?_⟩
    intro hended
    cases π with
    | none => cases hended
    | some π =>
      apply hended.imp_right
      intro hquiet j hj
      rw [hjobs] at hj
      apply hquiet j hj

/-- Jobs may be opened for runs that are locked. -/
theorem RunGuarantee.openJobs (h : RunGuarantee none ρ L s v) (hL : L ⊆ L')
    (hruns : w.runs = v.runs) (hsame : s.SameJobs w)
    (hjobs : ∀ j ∈ w.jobs, j ∈ v.jobs ∨ (.run j.runID ∈ L' ∧ j.Opened ρ w)) :
  RunGuarantee none ρ L' s w
  := by
  refine ⟨hsame, ?_, ?_⟩
  · intro j hj
    rcases hjobs j hj with hj | hopened
    · apply (h.jobs j hj).imp_right
      rintro ⟨hlocked, hopened⟩
      refine ⟨hL hlocked, hopened.local ?_⟩
      intro r hr _
      rw [hruns]
      apply hr
    · exact Or.inr hopened
  · intro r hr
    obtain ⟨r', hr', hid, hfollows⟩ := h.runs r hr
    refine ⟨r', ?_, hid, hfollows⟩
    rw [hruns]
    apply hr'

end Steps

end Ploy
