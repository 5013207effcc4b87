import Ploy.Isolation.Statements

/-!
# One active run on a repository

A transaction that makes a run active has locked the repository of the run, and has seen no active
run on it since. The protocol is that of the repository locks.
-/

namespace Ploy

open Program

/-- No repository has two active runs. -/
def OneActive (db : DB) : Prop :=
  ∀ r ∈ db.runs, ∀ r' ∈ db.runs, r.active = true → r'.active = true → r.repoID = r'.repoID → r = r'

def Run.ActiveIn (db : DB) (r : Run) : Prop :=
  ∃ r₀ ∈ db.runs, r₀.id = r.id ∧ r₀.repoID = r.repoID ∧ r₀.active = true

/-- A run is the only active one on its repository. -/
def Run.AloneIn (db : DB) (r : Run) : Prop :=
  ∀ k ∈ db.runs, k.active = true → k.repoID = r.repoID → k = r

/-- A repository is known. -/
def DB.Knows (db : DB) (repoID : RepoID) : Prop :=
  (db.repos.find? repoID).isSome = true

/-- Every run is on a repository that is known. Every run that is active was active before, or is
the only active one on a repository that is locked. -/
structure RepoGuarantee (L : List RowKey) (p : Writes) (s : DB) : Prop where
  known : ∀ r ∈ (p.view s).runs, s.Knows r.repoID
  active : ∀ r ∈ (p.view s).runs, r.active = true →
    r.ActiveIn s ∨ (.repo r.repoID ∈ L ∧ r.AloneIn (p.view s))

/-- The protocol of the repository locks. -/
def repoProtocol : Protocol isolation Surroundings.apply where
  invariant s := OneActive s ∧ ∀ r ∈ s.runs, s.Knows r.repoID
  guarantee := RepoGuarantee
  commit := by
    rintro L p s _ ⟨hinv, -⟩ hguarantee
    refine ⟨?_, hguarantee.known⟩
    intro r hr r' hr' hactive hactive' hrepo
    rcases hguarantee.active r hr hactive with ⟨r₀, hr₀, hid, hrepo₀, hactive₀⟩ | ⟨-, halone⟩
    · rcases hguarantee.active r' hr' hactive' with ⟨r₁, hr₁, hid₁, hrepo₁, hactive₁⟩ | ⟨-, halone⟩
      · have hsame : r₀ = r₁ :=
          hinv r₀ hr₀ r₁ hr₁ hactive₀ hactive₁ (hrepo₀.trans (hrepo.trans hrepo₁.symm))
        apply Table.eq_of_key_eq hr hr'
        rw [← hid, hsame, hid₁]
      · apply halone r hr hactive hrepo
    · symm
      apply halone r' hr' hactive' hrepo.symm
  drift o s h := h

theorem Arrives.active {L : List RowKey} {s : DB} {r : Run} (h : Arrives repoProtocol L s (.run r))
    (hactive : r.active = true) :
  .run r.id ∉ L ∧ (r.ActiveIn s ∨ .repo r.repoID ∉ L)
  := by
  obtain ⟨L', p', hapart, hkey, hguarantee, hseen⟩ := h.arrival
  use hapart _ hkey
  apply (hguarantee.active r hseen hactive).imp_right
  rintro ⟨hlocked, -⟩
  apply hapart _ hlocked

theorem rely_repos {P : Protocol isolation Surroundings.apply} {L : List RowKey} {s s' : DB}
    (h : P.Rely L s s') :
  s'.repos = s.repos
  := by
  cases h <;> rfl

/-- What a transaction guarantees when it commits holds of it all the time. -/
def guarded : repoProtocol.Assertion where
  holds := RepoGuarantee
  stable := by
    intro L p s s' howns hrely h
    constructor
    · intro r hr
      rcases own_or_committed (x := .run r) hr with hwritten | hcommitted
      · rw [DB.Knows, rely_repos hrely]
        apply h.known r (written_seen hwritten)
      · apply hrely.invariant.2 r hcommitted
    · intro r hr hactive
      rcases own_or_committed (x := .run r) hr with hwritten | hcommitted
      · have hlocked : .run r.id ∈ L := howns _ hwritten.mem_rows
        rcases h.active r (written_seen hwritten) hactive with
          ⟨r₀, hr₀, hid, hactive₀⟩ | ⟨hrepo, halone⟩
        · left
          refine ⟨r₀, ?_, hid, hactive₀⟩
          apply (rely_locked (x := .run r₀) hrely _).mpr hr₀
          rw [Row.key, hid]
          apply hlocked
        · right
          refine ⟨hrepo, ?_⟩
          intro k hk hkactive hkrepo
          rcases rely_view (x := .run k) hrely hk with hk | ⟨hfree, harrives⟩
          · apply halone k hk hkactive hkrepo
          · -- the other transaction found this run active, or holds the lock that this one holds
            obtain ⟨hkey, ⟨k₀, hk₀, hid₀, hrepo₀, hactive₀⟩ | hunlocked⟩ := harrives.active hkactive
            · have hseen : k₀ ∈ (p.view s).runs := by
                apply committed_seen (x := .run k₀) hk₀
                rw [Row.key, hid₀]
                apply hfree
              have hsame := halone k₀ hseen hactive₀ (hrepo₀.trans hkrepo)
              rw [← hid₀, hsame] at hkey
              apply absurd hlocked hkey
            · rw [hkrepo] at hunlocked
              apply absurd hrepo hunlocked
      · exact Or.inl ⟨r, hcommitted, rfl, rfl, hactive⟩

/-- A repository, if it is known, is locked and has no active run. -/
def freeRepo (repoID : RepoID) : repoProtocol.Assertion where
  holds L p s := s.Knows repoID →
    .repo repoID ∈ L ∧ ∀ k ∈ (p.view s).runs, k.active = true → k.repoID ≠ repoID
  stable := by
    intro L p s s' howns hrely h hknown
    rw [DB.Knows, rely_repos hrely] at hknown
    obtain ⟨hlocked, hfree⟩ := h hknown
    refine ⟨hlocked, ?_⟩
    intro k hk hactive hrepo
    rcases rely_view (x := .run k) hrely hk with hk | ⟨hunwritten, harrives⟩
    · apply hfree k hk hactive hrepo
    · obtain ⟨-, ⟨k₀, hk₀, hid₀, hrepo₀, hactive₀⟩ | hunlocked⟩ := harrives.active hactive
      · apply hfree k₀ _ hactive₀ (hrepo₀.trans hrepo)
        apply committed_seen (x := .run k₀) hk₀
        rw [Row.key, hid₀]
        apply hunwritten
      · rw [hrepo] at hunlocked
        apply absurd hlocked hunlocked

/-- Of some repositories, those that are known are locked. -/
def lockedRepos (repoIDs : List RepoID) : repoProtocol.Assertion where
  holds L _ s := ∀ id ∈ repoIDs, s.Knows id → .repo id ∈ L
  stable := by
    intro L p s s' _ hrely h id hid hknown
    rw [DB.Knows, rely_repos hrely] at hknown
    apply h id hid hknown

/-- A selection has all repositories that are known. -/
def selectedRepos (repoIDs ids : List RepoID) : repoProtocol.Assertion where
  holds _ _ s := ∀ id ∈ repoIDs, s.Knows id → id ∈ ids
  stable := by
    intro L p s s' _ hrely h id hid hknown
    rw [DB.Knows, rely_repos hrely] at hknown
    apply h id hid hknown

/-! ### Statements -/

/-- Every statement is issued as it comes. -/
def unguarded (β : Type) (_ : Query β) (_ : DB) : Bool :=
  true

section Statements

variable {β : Type} {q : Query β}

/-- A statement that opens no run is harmless. -/
theorem keeps_guarded (hq : q.writesRuns = false ∨ q.endsRuns = true)
    (hrepo : ∀ db b v, q.exec db = .ok (b, v) →
      ∀ r ∈ v.runs, ∃ r₀ ∈ db.runs, r₀.repoID = r.repoID) :
  repoProtocol.Keeps unguarded guarded q
  := by
  apply leads_of
  rintro L L' p p' s b v hL - - - - h hexec rfl
  constructor
  · intro r hr
    obtain ⟨r₀, hr₀, hsame⟩ := hrepo _ b _ hexec r hr
    rw [← hsame]
    apply h.known r₀ hr₀
  · intro r hr hactive
    have hr₀ := Query.active_exec hq hexec hr hactive
    apply (h.active r hr₀ hactive).imp_right
    rintro ⟨hlocked, halone⟩
    refine ⟨hL hlocked, ?_⟩
    intro k hk hkactive
    apply halone k (Query.active_exec hq hexec hk hkactive) hkactive

theorem keeps_guarded_runless (hq : q.writesRuns = false) :
  repoProtocol.Keeps unguarded guarded q
  := by
  apply keeps_guarded (Or.inl hq)
  intro db b v hexec r hr
  rw [Query.runs_exec hq hexec] at hr
  exact ⟨r, hr, rfl⟩

theorem keeps_guarded_ending (hq : q.calm = true ∨ q.endsRuns = true) :
  repoProtocol.Keeps unguarded guarded q
  := by
  apply keeps_guarded (hq.imp_left Query.writesRuns_of_calm)
  intro db b v hexec r hr
  rcases hq with hq | hq
  · rw [Query.runs_exec (Query.writesRuns_of_calm hq) hexec] at hr
    exact ⟨r, hr, rfl⟩
  · cases q with
    | updateRunStatus | cancelActiveRunsByWave =>
      cases hexec
      obtain ⟨r₀, hr₀, rfl⟩ := DB.mem_updateRuns.mp hr
      exact ⟨r₀, hr₀, (RunUpdate.repoID_apply _ _).symm⟩
    | _ => cases hq

theorem keeps_freeRepo (hq : q.writesRuns = false) (repoID : RepoID) :
  repoProtocol.Keeps unguarded (freeRepo repoID) q
  := by
  apply leads_of
  rintro L L' p p' s b v hL - - - - h hexec rfl hknown
  obtain ⟨hlocked, hfree⟩ := h hknown
  refine ⟨hL hlocked, ?_⟩
  rw [Query.runs_exec hq hexec]
  apply hfree

theorem keeps_lockedRepos (repoIDs : List RepoID) :
  repoProtocol.Keeps unguarded (lockedRepos repoIDs) q
  := by
  intro L p s howns hinv h hguard b v hexec id hid hknown
  apply List.mem_append_left _ (h id hid hknown)

theorem keeps_selectedRepos (repoIDs ids : List RepoID) :
  repoProtocol.Keeps unguarded (selectedRepos repoIDs ids) q
  := fun _ _ _ _ _ h _ _ _ _ => h

end Statements

/-- A run may be inserted for a repository that is free. -/
theorem leads_insertRun (wave : CreateWaveParams) (plan : RunPlan) :
  repoProtocol.Leads unguarded (guarded ⊓ freeRepo plan.repoID) (.insertRun wave plan)
    (fun _ => guarded)
  := by
  apply leads_of
  rintro L L' p p' s row v hL - - - - ⟨h, hrepo⟩ hexec hview
  obtain ⟨-, hmem, -, -, hrow, repo, hmemRepo, hid⟩ := insertRun_ok hexec
  rw [← hview] at hmem
  have hknown : s.Knows plan.repoID := by
    rw [← hid]
    exact Option.isSome_of_eq_some (Table.find?_of_mem hmemRepo)
  obtain ⟨hlocked, hfree⟩ := hrepo hknown
  constructor
  · intro r hr
    rcases (hmem r).mp hr with hr | rfl
    · apply h.known r hr
    · rw [hrow]
      apply hknown
  · intro r hr hactive
    rcases (hmem r).mp hr with hr | rfl
    · apply (h.active r hr hactive).imp_right
      rintro ⟨hlocked, halone⟩
      refine ⟨hL hlocked, ?_⟩
      intro k hk hkactive hkrepo
      rcases (hmem k).mp hk with hk | rfl
      · apply halone k hk hkactive hkrepo
      · apply absurd (hkrepo.symm.trans hrow) (hfree r hr hactive)
    · right
      rw [hrow]
      refine ⟨hL hlocked, ?_⟩
      intro k hk hkactive hkrepo
      rcases (hmem k).mp hk with hk | rfl
      · apply absurd (hkrepo.trans hrow) (hfree k hk hkactive)
      · rfl

/-- A run may be opened if its repository is free. -/
theorem guarantee_reopened {L L' : List RowKey} {p p' : Writes} {s : DB} {id : RunID}
    {u : RunUpdate}
    {repoID : RepoID} (h : RepoGuarantee L p s) (hrepo : (freeRepo repoID).holds L p s)
    (hrun : ∀ r ∈ (p.view s).runs, r.id = id → r.repoID = repoID) (hL : L ⊆ L')
    (hview : p'.view s = (p.view s).updateRuns (u.onlyIf (·.id = id))) :
  RepoGuarantee L' p' s
  := by
  have hother : ∀ r : Run, r.id ≠ id → (u.onlyIf (·.id = id)).apply r = r := by
    intro r hid
    apply RowUpdate.onlyIf_neg
    simpa using hid
  constructor
  · intro r' hr'
    rw [hview] at hr'
    obtain ⟨r, hr, rfl⟩ := DB.mem_updateRuns.mp hr'
    rw [RunUpdate.repoID_apply]
    apply h.known r hr
  · intro r' hr' hactive
    rw [hview] at hr' ⊢
    obtain ⟨r, hr, rfl⟩ := DB.mem_updateRuns.mp hr'
    by_cases hid : r.id = id
    · have hr' := hrun r hr hid
      obtain ⟨hlocked, hfree⟩ := hrepo (by rw [← hr']; apply h.known r hr)
      right
      rw [RunUpdate.repoID_apply, hr']
      refine ⟨hL hlocked, ?_⟩
      intro k' hk' hkactive hkrepo
      obtain ⟨k, hk, rfl⟩ := DB.mem_updateRuns.mp hk'
      rw [RunUpdate.repoID_apply, RunUpdate.repoID_apply, hr'] at hkrepo
      by_cases hkid : k.id = id
      · rw [Table.eq_of_key_eq hk hr (hkid.trans hid.symm)]
      · rw [hother k hkid] at hkactive
        apply absurd hkrepo (hfree k hk hkactive)
    · rw [hother r hid] at hactive ⊢
      apply (h.active r hr hactive).imp_right
      rintro ⟨hlocked, halone⟩
      refine ⟨hL hlocked, ?_⟩
      intro k' hk' hkactive hkrepo
      obtain ⟨k, hk, rfl⟩ := DB.mem_updateRuns.mp hk'
      by_cases hkid : k.id = id
      · rw [RunUpdate.repoID_apply, hrun k hk hkid] at hkrepo
        obtain ⟨-, hfree⟩ := hrepo (by rw [hkrepo]; apply h.known r hr)
        apply absurd hkrepo.symm (hfree r hr hactive)
      · rw [hother k hkid] at hkactive hkrepo ⊢
        apply halone k hk hkactive hkrepo

/-! ### Locking and checking -/

open Protocol

theorem leads_lockRepo (done : List RepoID) (id : RepoID) :
  repoProtocol.Leads unguarded (lockedRepos done) (.lockRepo id) (fun _ => lockedRepos (id :: done))
  := by
  intro L p s howns hinv h hguard b v hexec id' hid' hknown
  rcases List.mem_cons.mp hid' with rfl | hid'
  · apply List.mem_append_right
    apply List.mem_append_left
    obtain ⟨repo, hrepo⟩ := Option.isSome_iff_exists.mp hknown
    have hid := (Table.find?_eq_some.mp hrepo).2
    change _ ∈ (p.view s).repoKey id'
    have hview : (p.view s).repos.find? id' = some repo := hrepo
    simp [DB.repoKey, hview, hid]
  · apply List.mem_append_left _ (h id' hid' hknown)

/-- The repositories are locked one after another. -/
theorem triple_lockRepos (repoIDs ids done rest : List RepoID) :
  repoProtocol.Triple unguarded (guarded ⊓ selectedRepos repoIDs ids ⊓ lockedRepos done)
    (lockRepos rest) (fun _ => guarded ⊓ selectedRepos repoIDs ids ⊓ lockedRepos (rest ++ done))
  := by
  induction rest generalizing done with
  | nil => exact Triple.pure fun _ _ _ _ h => h
  | cons id rest ih =>
    apply Triple.bind (A := fun _ =>
      guarded ⊓ selectedRepos repoIDs ids ⊓ lockedRepos (id :: done))
    · apply Triple.issue
      apply Leads.inf _ (leads_lockRepo done id)
      apply Leads.inf (keeps_guarded_runless rfl) (keeps_selectedRepos _ _)
    · intro _
      apply (ih (id :: done)).strengthen
      rintro _ L p s _ ⟨h, hlocked⟩
      refine ⟨h, ?_⟩
      intro id' hid'
      apply hlocked id'
      simp only [List.cons_append, List.mem_cons, List.mem_append] at hid' ⊢
      tauto

/-- All repositories that are named are locked. -/
theorem triple_lockRunRepositories (repoIDs : List RepoID) :
  repoProtocol.Triple unguarded guarded (lockRunRepositories repoIDs)
    (fun _ => guarded ⊓ lockedRepos repoIDs)
  := by
  apply Triple.bind (A := fun ids => guarded ⊓ selectedRepos repoIDs ids)
  · apply Triple.issue
    apply Leads.and (keeps_guarded_runless rfl)
    apply leads_of
    rintro L L' p p' s b v - - - - - - hexec - id hid hknown
    cases hexec
    obtain ⟨repo, hrepo⟩ := Option.isSome_iff_exists.mp hknown
    obtain ⟨hmem, rfl⟩ := Table.find?_eq_some.mp hrepo
    rw [(List.perm_insertionSort _ _).mem_iff, List.mem_filter]
    exact ⟨List.mem_map_of_mem hmem, by simpa using hid⟩
  · intro ids
    apply ((triple_lockRepos repoIDs ids [] ids).weaken _).strengthen
    · rintro _ L p s _ ⟨⟨h, hselected⟩, hlocked⟩
      refine ⟨h, ?_⟩
      intro id hid hknown
      apply hlocked id _ hknown
      rw [List.append_nil]
      apply hselected id hid hknown
    · intro L p s _ h
      exact ⟨h, fun _ hid => nomatch hid⟩

theorem activeRun_eq_none {db : DB} {repoID : RepoID} (h : activeRun db repoID = none)
    (hknown : db.Knows repoID) :
  ∀ k ∈ db.runs, k.active = true → k.repoID ≠ repoID
  := by
  obtain ⟨repo, hrepo⟩ := Option.isSome_iff_exists.mp hknown
  simp only [activeRun, hrepo, Option.bind_some, Option.map_eq_none_iff,
    List.head?_eq_none_iff] at h
  have hnone := List.perm_nil.mp ((List.perm_insertionSort runBefore _).symm.trans
    (List.Perm.of_eq h))
  intro k hk hactive hid
  have hk' := List.filter_eq_nil_iff.mp hnone k hk
  simp [hid, hactive] at hk'

/-- A locked repository that passes the check is free. -/
theorem triple_requireRepoWithoutActiveRun {repoIDs : List RepoID} {repoID : RepoID}
    (hmem : repoID ∈ repoIDs) :
  repoProtocol.Triple unguarded (guarded ⊓ lockedRepos repoIDs)
    (requireRepoWithoutActiveRun repoID) (fun _ => guarded ⊓ freeRepo repoID)
  := by
  apply Triple.bind (A := fun o =>
    guarded ⊓ match o with
      | none => freeRepo repoID
      | some _ => ⊤)
  · apply Triple.issue
    apply Leads.inf (keeps_guarded_runless rfl)
    apply leads_of
    rintro L L' p p' s b v hL - - - - hlocked hexec hview
    cases hexec
    cases hfound : activeRun (p.view s) repoID with
    | some x => trivial
    | none =>
      intro hknown
      refine ⟨hL (hlocked repoID hmem hknown), ?_⟩
      rw [hview]
      apply activeRun_eq_none hfound hknown
  · intro o
    cases o with
    | none => exact Triple.pure fun _ _ _ _ h => h
    | some x => apply Triple.fail

/-! ### Transactions -/

theorem guarded_of_clean {L : List RowKey} {p : Writes} {s : DB} (hinv : repoProtocol.invariant s)
    (hclean : p = isolation.clean) :
  guarded.holds L p s
  := by
  have hview : p.view s = s := by
    rw [hclean]
    apply isolation.view_clean
  change RepoGuarantee L p s
  constructor
  · rw [hview]
    apply hinv.2
  · intro r hr hactive
    rw [hview] at hr
    exact Or.inl ⟨r, hr, rfl, rfl, hactive⟩

theorem triple_of_guarded {α : Type} {x : Tx α} {post : α → repoProtocol.Assertion}
    (h : repoProtocol.Triple unguarded guarded x post) :
  repoProtocol.Triple unguarded (Assertion.clean repoProtocol) x post
  := h.weaken fun _ _ _ hinv hclean => guarded_of_clean hinv hclean

theorem triple_ending {α : Type} {x : Tx α} (h : EndingProgram x) :
  repoProtocol.Triple unguarded guarded x (fun _ => guarded)
  := Triple.keep (Issues.mono h fun _ hq => keeps_guarded_ending hq)

theorem triple_runless {α : Type} {x : Tx α} (h : RunlessProgram x) :
  repoProtocol.Triple unguarded guarded x (fun _ => guarded)
  := Triple.keep (Issues.mono h fun _ hq => keeps_guarded_runless hq)

/-- Runs are created for repositories that are locked and free. -/
theorem triple_createRuns (ids : Nat → Nat → JobID) (wave : CreateWaveParams)
    (repoIDs : List RepoID)
    (k : Nat) (plans : List RunPlan) (hplans : ∀ plan ∈ plans, plan.repoID ∈ repoIDs) :
  repoProtocol.Triple unguarded (guarded ⊓ lockedRepos repoIDs) (createRuns ids wave k plans)
    (fun _ => guarded ⊓ lockedRepos repoIDs)
  := by
  induction plans generalizing k with
  | nil => exact Triple.pure fun _ _ _ _ h => h
  | cons plan rest ih =>
    have hlocks : ∀ {α : Type} (x : Tx α), x.Issues fun q =>
        repoProtocol.Keeps unguarded (lockedRepos repoIDs) q := by
      intro α x
      apply issues_of_forall
      intro β q
      apply keeps_lockedRepos
    have hcheck := triple_requireRepoWithoutActiveRun (hplans plan List.mem_cons_self)
    apply Triple.bind (A := fun _ => guarded ⊓ freeRepo plan.repoID ⊓ lockedRepos repoIDs)
    · apply (hcheck.frame (hlocks _)).weaken
      intro L p s _ h
      exact ⟨h, h.2⟩
    · intro _
      apply Triple.bind (A := fun _ => guarded ⊓ lockedRepos repoIDs)
      · apply Triple.mapError
        exact Triple.issue (Leads.inf (leads_insertRun wave plan) (keeps_lockedRepos _))
      · intro run
        apply Triple.bind (A := fun _ => guarded ⊓ lockedRepos repoIDs)
        · apply Triple.mapError
          exact (triple_runless (runless_createPlannedJobs _ _ _)).frame (hlocks _)
        · intro jobs
          apply (ih (k + 1) fun p hp => hplans p (List.mem_cons_of_mem _ hp)).bind
          intro later
          exact Triple.pure fun _ _ _ _ h => h

theorem triple_createWaveWithRuns (ids : Nat → Nat → JobID) (arg : CreateWaveWithRunsParams) :
  repoProtocol.Triple unguarded guarded (createWaveWithRuns ids arg) (fun _ => guarded)
  := by
  apply Triple.after (issues_rejectIf _ _)
  intro _
  apply Triple.bind (triple_lockRunRepositories _).mapError
  intro _
  apply Triple.bind (A := fun _ => guarded ⊓ lockedRepos (arg.runs.map RunPlan.repoID))
  · apply Triple.mapError
    exact Triple.issue (Leads.inf (keeps_guarded_runless rfl) (keeps_lockedRepos _))
  · intro wave
    apply Triple.bind (triple_createRuns ids arg.wave _ 0 arg.runs fun plan hplan =>
      List.mem_map_of_mem hplan)
    intro materialized
    exact Triple.pure fun _ _ _ _ h => h.1

/-- A run is reopened while its repository is free. -/
theorem triple_reopenRun (run : Run) (arg : RestartRunParams) (hid : run.id = arg.runID) :
  repoProtocol.Triple unguarded
    (guarded ⊓ freeRepo run.repoID ⊓ seenRun repoProtocol run)
    (reopenRun run arg) (fun _ => guarded)
  := by
  have hrepo : ∀ {p : Writes} {s : DB}, run ∈ (p.view s).runs →
      ∀ r ∈ (p.view s).runs, r.id = arg.runID → r.repoID = run.repoID := by
    intro p s hrun r hr hr'
    rw [Table.eq_of_key_eq hr hrun (hr'.trans hid.symm)]
  have hkeeps : ∀ {β : Type} {q : Query β}, q.writesRuns = false →
      repoProtocol.Keeps unguarded
        (guarded ⊓ freeRepo run.repoID ⊓ seenRun repoProtocol run)
        q := by
    intro β q hq
    apply Leads.inf (Leads.inf (keeps_guarded_runless hq) (keeps_freeRepo hq _))
    apply keeps_seenRun hq
  unfold reopenRun
  split
  · apply Triple.after (issues_rejectIf _ _)
    intro _
    apply Triple.after (issues_issue (hkeeps rfl))
    intro jobs
    apply Triple.after (issues_orFail _ _)
    intro suffix
    apply Triple.after (Issues.mono (runless_resetJobs _ _ _) fun _ hq => hkeeps hq)
    intro _
    apply Triple.issue
    apply leads_of
    rintro L L' p p' s b v hL - - - - ⟨⟨h, hfree⟩, -, hrun⟩ hexec hview
    simp only [Query.exec] at hexec
    split at hexec
    · cases hexec
    · cases hexec
      rw [hid] at hview
      apply guarantee_reopened h hfree (hrepo hrun) hL hview
  · apply Triple.after (Issues.mapError (issues_issue (hkeeps rfl)) _)
    intro _
    apply Triple.mapError
    apply Triple.issue
    apply leads_of
    rintro L L' p p' s b v hL - - - - ⟨⟨h, hfree⟩, -, hrun⟩ hexec hview
    simp only [Query.exec] at hexec
    split at hexec
    · cases hexec
    · cases hexec
      apply guarantee_reopened h hfree (hrepo hrun) hL hview

/-- A restart opens its run only if the repository is free. -/
theorem triple_restartRun (ids : Nat → JobID) (arg : RestartRunParams) :
  repoProtocol.Triple unguarded guarded (restartRun ids arg) (fun _ => guarded)
  := by
  apply Triple.bind
  · apply Triple.mapError
    exact triple_one (Leads.and (keeps_guarded_runless rfl) (leads_getRunForUpdate arg.runID))
  intro run
  apply Triple.weaken (A := guarded ⊓ seenRun repoProtocol run
    ⊓ Assertion.pure repoProtocol (run.id = arg.runID))
  swap
  · rintro L p s - ⟨h, hlocked, hid⟩
    exact ⟨⟨h, hlocked⟩, hid⟩
  apply Triple.of_pure
  intro hid
  have hlocked : ∀ {β : Type} {q : Query β}, q.writesRuns = false →
      repoProtocol.Keeps unguarded (seenRun repoProtocol run) q :=
    fun hq => keeps_seenRun hq run
  have hkeeps : ∀ {β : Type} {q : Query β}, q.writesRuns = false →
      repoProtocol.Keeps unguarded
        (guarded ⊓ seenRun repoProtocol run) q :=
    fun hq => Leads.inf (keeps_guarded_runless hq) (hlocked hq)
  apply Triple.after (issues_rejectIf _ _)
  intro _
  apply Triple.after (Issues.mono (Issues.mapError (calm_one rfl).runless _) fun _ hq => hkeeps hq)
  intro wave
  apply Triple.after (issues_rejectIf _ _)
  intro _
  apply Triple.bind
  · apply Triple.mapError
    apply (triple_lockRunRepositories [run.repoID]).frame
    apply Issues.mono (calm_lockRunRepositories _).runless fun _ hq => hlocked hq
  · intro _
    apply Triple.bind
    · apply (triple_requireRepoWithoutActiveRun (List.mem_singleton_self run.repoID)).frame
      apply Issues.mono (calm_requireRepoWithoutActiveRun _).runless fun _ hq => hlocked hq
    · intro _
      apply Triple.bind (triple_reopenRun run arg hid)
      intro _
      apply triple_runless
      apply Issues.bind (Issues.when fun _ => Issues.mapError (issues_issue rfl) _)
      intro _
      apply Issues.bind (Issues.mapError (calm_one rfl).runless _)
      intro updated
      apply Issues.bind
      · apply Issues.when
        intro _
        apply Issues.mapError
        apply Issues.bind (runless_createPlannedJobs ids updated arg.jobs)
        intro _
        apply issues_pure
      · intro _
        apply issues_pure

/-! ### Executions -/

theorem triple_program (l : TransactionRequest) :
  repoProtocol.Triple unguarded guarded l.program (fun _ => guarded)
  := by
  have hunit : ∀ {α : Type} {x : Tx α}, repoProtocol.Triple unguarded guarded x (fun _ => guarded) →
      repoProtocol.Triple unguarded guarded (x >>= fun _ => pure ()) (fun _ => guarded) :=
    fun h => h.bind fun _ => Triple.pure fun _ _ _ _ h => h
  cases l with
  | createWaveWithRuns ids arg => exact hunit (triple_createWaveWithRuns ids arg)
  | claimJob nodeID skipLocked => exact hunit (triple_ending (calm_claim nodeID skipLocked).ending)
  | unclaimJob id nodeID => exact triple_ending (calm_unclaim id nodeID).ending
  | completeJob input => exact hunit (triple_ending (ending_completeJob input))
  | cancelRun runID => exact triple_ending (ending_cancelRun runID)
  | cancelWave waveID => exact triple_ending (ending_cancelWave waveID)
  | restartRun ids arg => exact hunit (triple_restartRun ids arg)

/-- Every transaction guarantees what the protocol asks for, whatever its statements see. -/
def repoContracts : Contracts repoProtocol TransactionRequest.program where
  guard _ := unguarded
  post _ := guarded
  keeps l := triple_of_guarded (triple_program l)
  guarantees _ _ _ _ _ h := h

theorem repoContracts_passes (c : ClientState) (e : ClientEvent) :
  repoContracts.passes c e = true
  := by
  cases e <;> simp only [Contracts.passes]
  split <;> rfl

/-- The waves, the runs and the jobs are the same. -/
def DB.SameRows (db db' : DB) : Prop :=
  db'.waves = db.waves ∧ db'.runs = db.runs ∧ db'.jobs = db.jobs

/-- A transaction has ended without an error. -/
def ClientSession.Succeeded (x : ClientSession) : Prop :=
  x.program = .done (.ok ())

/-- A transaction has ended with an error. -/
def ClientSession.refused (x : ClientSession) : Bool :=
  match x.program with
  | .done (.error _) => true
  | _ => false

theorem sameRows_or_committed {c c' : ClientState} {e : ClientEvent}
    (h : clientMachine.step e c = some c') :
  c.store.SameRows c'.store ∨ ∃ i x, e = .commit i ∧ c.sessions[i]? = some x
    ∧ ClientSession.Succeeded x
  := by
  cases client_moves h with
  | begin | statement | ended | outside => exact Or.inl ⟨rfl, rfl, rfl⟩
  | @commit s before after l p L =>
    right
    exact ⟨_, _, rfl, Interleaved.getElem?_place before after _, rfl⟩

/-- In every interleaving of transactions, at most one run is active on a repository in what is
committed, and whatever is not the commit of a transaction that succeeded leaves waves, runs and
jobs as they are. -/
theorem one_active_run {past : List (ClientState × ClientEvent)} {c : ClientState}
    (h : clientMachine.Execution past c) :
  OneActive c.store ∧ ∀ e c', clientMachine.step e c = some c' →
    c.store.SameRows c'.store
      ∨ ∃ i x, e = .commit i ∧ c.sessions[i]? = some x ∧ ClientSession.Succeeded x
  := by
  constructor
  · have hsound : repoContracts.Sound c := by
      apply Contracts.sound_of_execution _ h fun x _ => repoContracts_passes x.1 x.2
      rintro s ⟨-, hruns, -⟩
      have hnone : ∀ r, r ∉ s.runs := by
        intro r hr
        change r ∈ s.runs.rows at hr
        rw [hruns] at hr
        cases hr
      constructor
      · intro r hr
        apply absurd hr (hnone r)
      · intro r hr
        apply absurd hr (hnone r)
    apply hsound.invariant.1
  · intro e c' hstep
    apply sameRows_or_committed hstep

/-- Two clients create a run on one repository. The one that locks the repository second finds the
run of the other. -/
theorem one_active_run_sample :
  ∃ past c, clientMachine.Execution past c ∧ (∃ r ∈ c.store.runs, r.active = true)
    ∧ (∃ x ∈ c.sessions, ClientSession.refused x = true) ∧ OneActive c.store
  := by
  have hrun : ((clientMachine.follow Sample.clients
      ([.begin (Sample.creating "w" "r" Sample.plans),
        .begin (Sample.creating "v" "q" Sample.plans),
        .statement 1]
        ++ List.replicate 7 (.statement 0) ++ .commit 0 :: List.replicate 3 (.statement 0))).map
        fun c => decide ((∃ r ∈ c.store.runs.rows, r.active = true)
          ∧ ∃ x ∈ c.sessions, ClientSession.refused x = true)) = some true := by
    decide
  obtain ⟨c, hfollow, hc⟩ := Option.map_eq_some_iff.mp hrun
  obtain ⟨hactive, hrefused⟩ := of_decide_eq_true hc
  obtain ⟨past, hexec, -⟩ := (Machine.Execution.start Sample.clients_init).follow hfollow
  exact ⟨_, c, hexec, hactive, hrefused, (one_active_run hexec).1⟩

end Ploy
