import Ploy.Run.Lifecycle

/-!
# The commits of a chain

The first job of an attempt starts from the commit of the run, and every other job from the
commit that the job before it produced.
-/

namespace Ploy

/-! ### Short forms -/

/-- The short forms of the input and the output of a job are their first eight characters. -/
structure ShortForms (j : Job) : Prop where
  input : j.repoShaIn8 = substring8 j.repoShaIn
  output : j.repoShaOut8 = substring8 j.repoShaOut

variable {j : Job}

theorem ShortForms.onlyIf {u : JobUpdate} (hu : ∀ j, ShortForms j → ShortForms (u.apply j))
    {p : Job → Bool} (h : ShortForms j) :
  ShortForms ((u.onlyIf p).apply j)
  := by
  simp only [RowUpdate.onlyIf]
  split
  · apply hu j h
  · apply h

theorem ShortForms.complete (h : ShortForms j) (status : JobStatus) (out : String)
    (metadata : Option JSONDocument) :
  ShortForms ((completeRow status out metadata).apply j)
  := by
  constructor
  · apply h.input
  · simp only [completeRow]
    split
    · apply h.output
    · rfl

theorem ShortForms.feed (h : ShortForms j) (out : String) :
  ShortForms ((feedRow out).apply j)
  := by
  constructor
  · simp only [feedRow]
    split
    · apply h.input
    · rfl
  · apply h.output

theorem ShortForms.cancelled (h : ShortForms j) :
  ShortForms (cancelIfActive.apply j)
  := by
  apply ShortForms.onlyIf _ h
  intro j h
  exact ⟨h.input, h.output⟩

variable {j j' : Job}

theorem ShortForms.reset {first : Bool} (h : ShortForms j) (hreset : ResetTo first j j') :
  ShortForms j'
  := by
  obtain ⟨d, rfl⟩ := hreset
  constructor
  · simp only [resetRow]
    split
    · apply h.input
    · rfl
  · rfl

variable {l : List Job}

theorem shortForms_planned {run : Run} (h : PlannedChain run true l)
    (hj : j ∈ l) :
  ShortForms j
  := by
  obtain ⟨first, hplanned⟩ := h.mem hj
  constructor
  · apply hplanned.repoShaIn8
  · rw [hplanned.repoShaOut8, hplanned.repoShaOut]
    rfl

variable {input : CompletionInput} {post : List Job}

theorem shortForms_after
    (h : ∀ k ∈ post, ShortForms k) :
  ∀ k ∈ input.after j post, ShortForms k
  := by
  apply input.forall_after (fun out k hk => hk.feed out) _ _ h
  · intro k _ hk
    exact ⟨hk.input, hk.output⟩
  · intro k _ hk
    exact ⟨hk.input, hk.output⟩

/-- The jobs of an attempt have their short forms. -/
def Attempt.Short (s : Attempt) : Prop :=
  ∀ j ∈ s.jobs, ShortForms j

variable {pre post post' : List Job}

theorem Attempt.Short.replace {r r' : Run} {a : Nat}
    (h : Attempt.Short ⟨r, a, pre ++ j :: post⟩) (hj : ShortForms j → ShortForms j')
    (hpost : (∀ k ∈ post, ShortForms k) → ∀ k ∈ post', ShortForms k) :
  Attempt.Short ⟨r', a, pre ++ j' :: post'⟩
  := by
  intro k hk
  simp only [List.mem_append, List.mem_cons] at hk
  rcases hk with hk | rfl | hk
  · apply h k (by simp [hk])
  · apply hj (h j (by simp))
  · apply hpost _ k hk
    intro k hk
    apply h k (by simp [hk])

/-- The jobs of every attempt have their short forms. -/
theorem short_invariant :
  Attempt.Invariant Attempt.Short
  := by
  have hcancel : ∀ {r r' : Run} {a : Nat} {l : List Job}, Attempt.Short ⟨r, a, l⟩ →
      Attempt.Short ⟨r', a, l.map cancelIfActive.apply⟩ := by
    intro r r' a l h k hk
    obtain ⟨k₀, hk₀, rfl⟩ := List.mem_map.mp hk
    apply (h k₀ hk₀).cancelled
  constructor
  · rintro ⟨r, a, l⟩ ⟨-, -, -, ⟨-, hplanned, -⟩ | ⟨-, hnil⟩⟩
    · intro j hj
      apply shortForms_planned hplanned hj
    · dsimp only at hnil
      subst hnil
      intro j hj
      cases hj
  · intro _ s s' _ h hstep
    cases hstep with
    | idle | settle | stay => apply h
    | claim | unclaim =>
      apply h.replace _ (fun h => h)
      intro h
      exact ⟨h.input, h.output⟩
    | complete input rows accepted order =>
      apply h.replace (fun h => h.complete _ _ _) shortForms_after
    | cancelJobs | cancelRun => apply hcancel h
    | leave stats terminal reached =>
      split
      · apply hcancel h
      · apply h
    | enter stats terminal planned nonempty =>
      intro j hj
      apply shortForms_planned planned hj
    | resume stats now u terminal succeeded failed cancelled first rest =>
      apply h.replace (fun h => h.reset first)
      intro hpost k hk
      obtain ⟨k₀, hk₀, rfl⟩ := List.mem_map.mp hk
      apply (hpost k₀ hk₀).reset (rest k₀ hk₀)

/-! ### Handing commits on -/

/-- A job that succeeded produced a commit, and the job after it starts from that commit. -/
def HandsOver (j k : Job) : Prop :=
  j.status = .success →
    isCanonicalFullCommitSHA j.repoShaOut = true ∧ k.repoShaIn = j.repoShaOut

/-- A job that is queued or runs has a commit to start from. -/
def HasInput (j : Job) : Prop :=
  j.status = .queued ∨ j.status = .running → isCanonicalFullCommitSHA j.repoShaIn = true

/-- A list of jobs each of which hands its commit to the next. -/
def Fed (l : List Job) : Prop :=
  l.IsChain HandsOver ∧ ∀ j ∈ l, HasInput j

theorem Fed.cons_iff :
  Fed (j :: l) ↔ HasInput j ∧ (∀ k ∈ l.head?, HandsOver j k) ∧ Fed l
  := by
  cases l with
  | nil => simp [Fed]
  | cons k l =>
    simp only [Fed, List.isChain_cons_cons, List.mem_cons, forall_eq_or_imp, List.head?_cons,
      Option.mem_def, Option.some.injEq, forall_eq']
    tauto

theorem Fed.replace (h : Fed (pre ++ j :: post))
    (hin : j'.repoShaIn = j.repoShaIn) (hsuffix : Fed (j' :: post')) :
  Fed (pre ++ j' :: post')
  := by
  obtain ⟨hchain, hopen⟩ := h
  obtain ⟨hpre, -, hjoin⟩ := List.isChain_append.mp hchain
  constructor
  · apply List.isChain_append.mpr ⟨hpre, hsuffix.1, _⟩
    rintro x hx y ⟨⟩
    intro hsuccess
    rw [hin]
    apply hjoin x hx j rfl hsuccess
  · intro k hk
    rcases List.mem_append.mp hk with hk | hk
    · apply hopen k (by simp [hk])
    · apply hsuffix.2 k hk

theorem Fed.append_right {pre l : List Job} (h : Fed (pre ++ l)) :
  Fed l
  := by
  constructor
  · apply (List.isChain_append.mp h.1).2.1
  · intro k hk
    apply h.2 k (List.mem_append_right _ hk)

theorem eq_of_cancelIfActive_success
    (h : (cancelIfActive.apply j).status = .success) :
  cancelIfActive.apply j = j
  := by
  by_cases hactive : j.status.active = true
  · rw [cancelIfActive, RowUpdate.onlyIf_pos (by simpa using hactive)] at h
    cases h
  · apply RowUpdate.onlyIf_neg
    simpa using hactive

theorem repoShaIn_cancelIfActive (j : Job) :
  (cancelIfActive.apply j).repoShaIn = j.repoShaIn
  := by
  simp only [cancelIfActive, RowUpdate.onlyIf]
  split <;> rfl

theorem Fed.cancelled (h : Fed l) :
  Fed (l.map cancelIfActive.apply)
  := by
  constructor
  · rw [List.isChain_map]
    apply h.1.imp
    intro j k hjk hsuccess
    have hsame := eq_of_cancelIfActive_success hsuccess
    rw [hsame] at hsuccess ⊢
    rw [repoShaIn_cancelIfActive]
    apply hjk hsuccess
  · intro k hk hopen
    have := terminal_cancelIfActive hk
    rcases hopen with hs | hs <;> simp [hs, JobStatus.terminal, JobStatus.active] at this

theorem recordedOutput_canonical
    (hsuccess : input.status = .success) (hne : input.recordedOutput j ≠ "") :
  isCanonicalFullCommitSHA (input.recordedOutput j) = true
  := by
  simp only [CompletionInput.recordedOutput, hsuccess, if_true] at hne ⊢
  split at hne
  · rename_i hgate
    rw [if_pos hgate]
    apply normalizeRepoSHA_canonical hne
  · rename_i hgate
    rw [if_neg hgate]
    apply normalizeRepoSHA_canonical hne

theorem completed_repoShaOut
    (hne : input.recordedOutput j ≠ "") :
  (input.completed j).repoShaOut = input.recordedOutput j
  := by
  simp only [CompletionInput.completed, completeRow, if_neg hne]

theorem HasInput.of_terminal (h : j.status.terminal = true) :
  HasInput j
  := by
  rintro (hs | hs) <;> simp [hs, JobStatus.terminal, JobStatus.active] at h

/-- A success hands its output to the next job, which is queued. -/
theorem Fed.advance_feed {out : String} {k : Job} {rest : List Job} (h : Fed (k :: rest))
    (hout : isCanonicalFullCommitSHA out = true) :
  Fed (advance (feed out (k :: rest)))
    ∧ ∀ k' ∈ (advance (feed out (k :: rest))).head?, k'.repoShaIn = out
  := by
  have hne := ne_empty_of_canonical hout
  obtain ⟨-, hnext, hrest⟩ := Fed.cons_iff.mp h
  have hk : ((promoteRow.onlyIf (·.status = .created)).apply ((feedRow out).apply k)).repoShaIn
      = out := by
    simp only [RowUpdate.onlyIf, feedRow, if_neg hne]
    split <;> rfl
  have hstatus : ∀ m, HandsOver k m →
      HandsOver ((promoteRow.onlyIf (·.status = .created)).apply ((feedRow out).apply k)) m := by
    intro m hm
    simp only [HandsOver, RowUpdate.onlyIf]
    split
    · rintro ⟨⟩
    · apply hm
  constructor
  · apply Fed.cons_iff.mpr ⟨_, _, hrest⟩
    · intro _
      rw [hk]
      apply hout
    · intro m hm
      apply hstatus m (hnext m hm)
  · rintro k' ⟨⟩
    apply hk

/-- Jobs that are cancelled need no input. -/
theorem Fed.cancelled_feed {out : String} (h : Fed l) :
  Fed ((feed out l).map cancelIfActive.apply)
  := by
  cases l with
  | nil => apply h.cancelled
  | cons k rest =>
    obtain ⟨-, hnext, hrest⟩ := Fed.cons_iff.mp h
    apply Fed.cons_iff.mpr ⟨_, _, hrest.cancelled⟩
    · apply HasInput.of_terminal
      apply terminal_cancelIfActive (l := feed out (k :: rest)) List.mem_cons_self
    · intro m hm hsuccess
      rw [List.head?_map] at hm
      obtain ⟨m₀, hm₀, rfl⟩ := Option.map_eq_some_iff.mp hm
      rw [repoShaIn_cancelIfActive]
      have hsame := eq_of_cancelIfActive_success hsuccess
      rw [hsame] at hsuccess ⊢
      apply hnext m₀ hm₀ hsuccess

/-- A completion keeps the hand-over of commits. -/
theorem Fed.completed (h : Fed (j :: post))
    (hout : input.status = .success → post ≠ [] →
      isCanonicalFullCommitSHA (input.recordedOutput j) = true) :
  Fed (input.completed j :: input.after j post)
  := by
  have hdone : HasInput (input.completed j) := by
    apply HasInput.of_terminal
    apply input.terminal
  obtain ⟨-, -, hpost⟩ := Fed.cons_iff.mp h
  unfold CompletionInput.after
  split
  · rename_i hsuccess
    cases post with
    | nil => exact Fed.cons_iff.mpr ⟨hdone, fun _ hk => (by cases hk), hpost⟩
    | cons k rest =>
      have hcanonical := hout hsuccess (by simp)
      have hrecorded := completed_repoShaOut (ne_empty_of_canonical hcanonical)
      rw [hrecorded]
      obtain ⟨hfed, hhead⟩ := hpost.advance_feed hcanonical
      apply Fed.cons_iff.mpr ⟨hdone, _, hfed⟩
      intro m hm _
      rw [hrecorded]
      apply And.intro hcanonical (hhead m hm)
  · rename_i hfailed
    apply Fed.cons_iff.mpr ⟨hdone, _, hpost.cancelled_feed⟩
    intro m _ hsuccess
    apply absurd hsuccess hfailed

/-- In a planned chain the first job has the commit of the source. -/
theorem Fed.planned {run : Run} (h : PlannedChain run true l)
    (hsha : isCanonicalFullCommitSHA run.repoSha0 = true) :
  Fed l ∧ ∀ j ∈ l.head?, j.repoShaIn = run.repoSha0
  := by
  cases l with
  | nil => simp [Fed]
  | cons j rest =>
    obtain ⟨hj, hrest⟩ := h
    have hwaiting : ∀ rest : List Job, (∀ k ∈ rest, PlannedJob run false k) → Fed rest := by
      intro rest hrest
      induction rest with
      | nil => simp [Fed]
      | cons k rest ih =>
        have hk := (hrest k List.mem_cons_self).status
        apply Fed.cons_iff.mpr ⟨_, _, ih fun m hm => hrest m (List.mem_cons_of_mem _ hm)⟩
        · rintro (hs | hs) <;> simp [hk] at hs
        · intro m _ hs
          simp [hk] at hs
    constructor
    · apply Fed.cons_iff.mpr ⟨_, _, hwaiting rest hrest⟩
      · intro _
        rw [hj.repoShaIn]
        apply hsha
      · intro m _ hs
        simp [hj.status] at hs
    · rintro j' ⟨⟩
      apply hj.repoShaIn

/-- A job that is reset keeps its input. -/
theorem Fed.reset {u : JobUpdate}
    (hinput : isCanonicalFullCommitSHA j.repoShaIn = true) (hfirst : ResetTo true j (u.apply j))
    (hrest : ∀ k ∈ post, ResetTo false k (u.apply k)) :
  Fed (u.apply j :: post.map u.apply) ∧ (u.apply j).repoShaIn = j.repoShaIn
  := by
  have hwaiting : ∀ post : List Job, (∀ k ∈ post, ResetTo false k (u.apply k)) →
      Fed (post.map u.apply) := by
    intro post hrest
    induction post with
    | nil => simp [Fed]
    | cons k rest ih =>
      obtain ⟨d, hk⟩ := hrest k List.mem_cons_self
      apply Fed.cons_iff.mpr ⟨_, _, ih fun m hm => hrest m (List.mem_cons_of_mem _ hm)⟩
      · rintro (hs | hs) <;> simp [hk, resetRow] at hs
      · intro m _ hs
        simp [hk, resetRow] at hs
  obtain ⟨d, hj⟩ := hfirst
  have hsame : (u.apply j).repoShaIn = j.repoShaIn := by
    rw [hj]
    rfl
  constructor
  · apply Fed.cons_iff.mpr ⟨_, _, hwaiting post hrest⟩
    · intro _
      rw [hsame]
      apply hinput
    · intro m _ hs
      simp [hj, resetRow] at hs
  · apply hsame

/-- If a run starts from a commit, then so does the first job of each of its attempts, and every
job hands its commit to the next. -/
def Attempt.Handed (s : Attempt) : Prop :=
  isCanonicalFullCommitSHA s.run.repoSha0 = true →
    Fed s.jobs ∧ ∀ j ∈ s.jobs.head?, j.repoShaIn = s.run.repoSha0

theorem Attempt.Handed.cancelled {r : Run} {a : Nat} (h : Attempt.Handed ⟨r, a, l⟩)
    (v : RunUpdate) :
  Attempt.Handed ⟨v.apply r, a, l.map cancelIfActive.apply⟩
  := by
  intro hsha
  simp only [v.repoSha0_apply] at hsha ⊢
  obtain ⟨hfed, hhead⟩ := h hsha
  use hfed.cancelled
  intro k hk
  rw [List.head?_map] at hk
  obtain ⟨k₀, hk₀, rfl⟩ := Option.map_eq_some_iff.mp hk
  rw [repoShaIn_cancelIfActive]
  apply hhead k₀ hk₀

theorem Attempt.Handed.replace {r r' : Run} {a : Nat}
    (h : Attempt.Handed ⟨r, a, pre ++ j :: post⟩) (hr : r'.repoSha0 = r.repoSha0)
    (hin : j'.repoShaIn = j.repoShaIn) (hsuffix : Fed (j :: post) → Fed (j' :: post')) :
  Attempt.Handed ⟨r', a, pre ++ j' :: post'⟩
  := by
  intro hsha
  simp only [hr] at hsha ⊢
  obtain ⟨hfed, hhead⟩ := h hsha
  use hfed.replace hin (hsuffix hfed.append_right)
  cases pre with
  | nil =>
    rintro k ⟨⟩
    rw [hin]
    apply hhead j rfl
  | cons p pre =>
    rintro k ⟨⟩
    apply hhead p rfl

theorem repoSha0_settledRun (r : Run) (rows : List Job) :
  (settledRun r rows).repoSha0 = r.repoSha0
  := by
  unfold settledRun
  split <;> rfl

/-- Every job starts from the commit that the one before it left. -/
theorem handed_invariant :
  Attempt.Invariant Attempt.Handed
  := by
  constructor
  · rintro ⟨r, a, l⟩ ⟨-, -, -, ⟨-, hplanned, -⟩ | ⟨-, hnil⟩⟩
    · apply Fed.planned hplanned
    · dsimp only at hnil
      subst hnil
      simp [Attempt.Handed, Fed]
  · intro _ s s' hlinked h hstep
    cases hstep with
    | idle | settle | stay => apply h
    | claim n now running queued owner =>
      apply h.replace rfl
      · rfl
      · intro hfed
        obtain ⟨hj, -, hpost⟩ := Fed.cons_iff.mp hfed
        exact Fed.cons_iff.mpr ⟨fun _ => hj (Or.inl queued), fun _ _ hs => (by cases hs), hpost⟩
    | unclaim running =>
      apply h.replace rfl
      · rfl
      · intro hfed
        obtain ⟨hj, -, hpost⟩ := Fed.cons_iff.mp hfed
        exact Fed.cons_iff.mpr ⟨fun _ => hj (Or.inr running), fun _ _ hs => (by cases hs), hpost⟩
    | @complete r a pre post j input rows accepted order =>
      apply h.replace (repoSha0_settledRun r rows)
      · rfl
      · intro hfed
        apply hfed.completed
        intro hsuccess hne
        -- a job with a successor in the chain is one with a `next_id`
        have hnext : j.nextID ≠ none := by
          rw [hlinked.append_right.1]
          cases post with
          | nil => apply absurd rfl hne
          | cons k rest => simp
        apply recordedOutput_canonical hsuccess (accepted.handover hsuccess hnext).2
    | cancelJobs => apply h.cancelled (RowUpdate.refl _)
    | cancelRun => apply h.cancelled
    | leave stats terminal reached =>
      split
      · apply h.cancelled
      · apply h
    | enter stats terminal planned nonempty => apply Fed.planned planned
    | resume stats now u terminal succeeded failed cancelled first rest =>
      obtain ⟨hfed, hin⟩ := Fed.reset failed.input first rest
      apply h.replace rfl hin
      intro _
      apply hfed

/-- At all times, if a run starts from a commit, then the first job of each attempt it has reached
starts from that commit, a job that succeeded and has a successor produced a commit, from which
the successor starts, and a job that is queued or runs has a commit to start from. The short
forms are the first eight characters. -/
theorem commit_chain {past : List (DB × Operation)} {db : DB} (h : storeMachine.Execution past db) :
  (∀ r ∈ db.runs, isCanonicalFullCommitSHA r.repoSha0 = true →
      (∀ attempt, 1 ≤ attempt → attempt ≤ r.attempt →
        ∃ head rest, IsChain db r.id attempt (head :: rest) ∧ head.repoShaIn = r.repoSha0)
      ∧ (∀ j ∈ db.jobs, j.runID = r.id → j.status = .success → ∀ next, j.nextID = some next →
        isCanonicalFullCommitSHA j.repoShaOut = true
          ∧ ∃ k ∈ db.jobs, k.id = next ∧ k.repoShaIn = j.repoShaOut)
      ∧ ∀ j ∈ db.jobs, j.runID = r.id → j.status = .queued ∨ j.status = .running →
        isCanonicalFullCommitSHA j.repoShaIn = true)
    ∧ ∀ j ∈ db.jobs, j.repoShaIn8 = substring8 j.repoShaIn
      ∧ j.repoShaOut8 = substring8 j.repoShaOut
  := by
  have hdb := wellFormed_of_execution h
  have hhanded := onAttempts_of_execution handed_invariant h
  have hplaced := onAttempts_of_execution placed_invariant h
  have hshort := onAttempts_of_execution short_invariant h
  constructor
  · intro r hr hsha
    refine ⟨?_, ?_, ?_⟩
    · intro attempt hpos hle
      obtain ⟨chain, hchain⟩ := hdb.chained r.id attempt
      cases chain with
      | nil => apply absurd rfl ((hplaced r hr _ _ hchain).populated hpos hle)
      | cons head rest => exact ⟨head, rest, hchain, (hhanded r hr _ _ hchain hsha).2 head rfl⟩
    · intro j hj hrun hsuccess next hnext
      obtain ⟨chain, hchain⟩ := hdb.chained r.id j.attempt
      obtain ⟨pre, post, rfl⟩ := List.append_of_mem (hchain.mem_iff.mpr ⟨hj, hrun, rfl⟩)
      have hfed := (hhanded r hr _ _ hchain hsha).1.append_right
      have hlinked := hchain.2.append_right.1
      cases post with
      | nil =>
        rw [hnext] at hlinked
        cases hlinked
      | cons k rest =>
        rw [hnext] at hlinked
        cases hlinked
        obtain ⟨-, hnexts, -⟩ := Fed.cons_iff.mp hfed
        obtain ⟨hout, hin⟩ := hnexts k rfl hsuccess
        have hk : k ∈ db.jobs := (hchain.mem_iff.mp (by simp)).1
        exact ⟨hout, k, hk, rfl, hin⟩
    · intro j hj hrun hopen
      obtain ⟨chain, hchain⟩ := hdb.chained r.id j.attempt
      apply (hhanded r hr _ _ hchain hsha).1.2 j (hchain.mem_iff.mpr ⟨hj, hrun, rfl⟩) hopen
  · intro j hj
    obtain ⟨r, hr, hid, -⟩ := hdb.referenced j hj
    obtain ⟨chain, hchain⟩ := hdb.chained r.id j.attempt
    have hforms := hshort r hr _ _ hchain j (hchain.mem_iff.mpr ⟨hj, hid.symm, rfl⟩)
    exact ⟨hforms.input, hforms.output⟩

/-- A run whose first job succeeded: its second job starts from what the first one produced. -/
theorem commit_chain_sample :
  ∃ past db, storeMachine.Execution past db
    ∧ (∃ r ∈ db.runs, isCanonicalFullCommitSHA r.repoSha0 = true)
    ∧ ∃ j ∈ db.jobs, j.status = .success ∧ j.nextID = some ⟨"j1"⟩
      ∧ isCanonicalFullCommitSHA j.repoShaOut = true
      ∧ ∃ k ∈ db.jobs, k.id = ⟨"j1"⟩ ∧ k.repoShaIn = j.repoShaOut
  := by
  have hrun : ((storeMachine.follow Sample.store Sample.failing).map fun db =>
      decide ((∃ r ∈ db.runs.rows, r.id = ⟨"r"⟩ ∧ isCanonicalFullCommitSHA r.repoSha0 = true)
        ∧ ∃ j ∈ db.jobs.rows, j.runID = ⟨"r"⟩ ∧ j.status = .success ∧ j.nextID = some ⟨"j1"⟩))
        = some true := by
    decide
  obtain ⟨db, hfollow, hdb⟩ := Option.map_eq_some_iff.mp hrun
  obtain ⟨⟨r, hr, hid, hsha⟩, j, hj, hjrun, hstatus, hnext⟩ := of_decide_eq_true hdb
  obtain ⟨past, hexec, -⟩ := (Machine.Execution.start Sample.initial).follow hfollow
  obtain ⟨-, hsuccess, -⟩ := (commit_chain hexec).1 r (Table.mem_rows.mp hr) hsha
  obtain ⟨hout, hk⟩ := hsuccess j (Table.mem_rows.mp hj) (hjrun.trans hid.symm) hstatus _ hnext
  exact ⟨_, db, hexec, ⟨r, Table.mem_rows.mp hr, hsha⟩, j, Table.mem_rows.mp hj, hstatus, hnext,
    hout, hk⟩

end Ploy
