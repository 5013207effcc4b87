import Ploy.Foundations.Execution
import Ploy.Node.Snapshot

/-!
# The sticky workspace of a run

A run's jobs share one directory on their node. The first job of an attempt hydrates it from the
snapshot of the source commit, later jobs and retries reuse it; whether it is reused is decided by
its `.git` directory alone. The machine follows the directory through every history of attempts,
failed and killed hydrations, and jobs that edit and commit in it.
-/

namespace Ploy

/-! ### Preparing the workspace -/

/-- What the node's tools read off a directory: the commit at its head, and whether a symbolic
link leads to a directory. -/
structure Tools where
  resolveGitHEAD : Files → Option String
  linksToDir : Files → String → Bool

/-- Whether a workspace is there and has a `.git` directory. -/
def hasGitDir (tools : Tools) : Option Files → Bool
  | none => false
  | some t =>
    match t [".git"] with
    | some .dir => true
    | some (.symlink target) => tools.linksToDir t target
    | _ => false

/-- What a job is started with, as far as its workspace depends on it. -/
structure WorkspaceRequest where
  jobType : JobType
  resumeCount : Nat
  repoSHAIn : String
  commitSHA : String

/-- What the host does while a workspace is prepared. A removal that fails leaves some paths; the
host can fail to write an entry, and the node can be killed when some entries are unpacked. -/
structure Host where
  statFails : Bool := false
  removeInvalid : Option (List String → Bool) := none
  mkdirParentFails : Bool := false
  removeStaleFails : Bool := false
  mkdirFails : Bool := false
  unreachable : Bool := false
  diskFullAfter : Option Nat := none
  killedAfter : Option Nat := none
  cleanup : Option (List String → Bool) := none

/-- How preparing a workspace ends. -/
inductive Prepared where
  | ready
  | failed (message : String)
  | killed
  deriving DecidableEq, Repr

/-- A directory removed, or what is left of it where the removal fails. -/
def removeAll (fails : Option (List String → Bool)) (workspace : Option Files) :
    Option Files × Bool :=
  match fails with
  | none => (none, true)
  | some kept => (workspace.map (·.keep kept), false)

/-- Whether the hydrated directory is at the wanted commit. -/
def verifyWorkspaceHEAD (tools : Tools) (t : Files) (want : String) : Prepared :=
  match tools.resolveGitHEAD t with
  | none => .failed "verify hydrated snapshot HEAD"
  | some head =>
    if head = trimSpace want then .ready
    else .failed ("hydrated snapshot HEAD mismatch: got " ++ head ++ " want " ++ trimSpace want)

/-- The archive's entries unpacked into the new directory, then its head verified. -/
def hydrate (tools : Tools) (host : Host) (want : String) (archive : TarGz) : Prepared × Files :=
  match host.killedAfter with
  | some k => (.killed, (unpackEntries FileTree.empty (archive.entries.take k)).1)
  | none =>
    match host.diskFullAfter with
    | some k =>
      (.failed "unpack snapshot", (unpackEntries FileTree.empty (archive.entries.take k)).1)
    | none =>
      match unpackTarGz FileTree.empty archive with
      | (t, .error message) => (.failed ("unpack snapshot: " ++ message), t)
      | (t, .ok ()) => (verifyWorkspaceHEAD tools t want, t)

/-- The snapshot of the run's commit downloaded into a new directory. -/
def downloadSnapshot (tools : Tools) (host : Host) (req : WorkspaceRequest)
    (response : SnapshotResponse) : Prepared × Option Files :=
  if trimSpace req.commitSHA = "" then
    (.failed "commit_sha is required for snapshot hydration", none)
  else if host.mkdirFails then (.failed "create workspace", none)
  else if host.unreachable then (.failed "download snapshot", some FileTree.empty)
  else
    match response with
    | .status code =>
      (.failed ("download snapshot failed: status " ++ toString code), some FileTree.empty)
    | .archive body => Prod.map id some (hydrate tools host req.commitSHA body)

/-- The workspace built anew. A hydration that fails is removed again; a node that is killed
removes nothing. -/
def rebuildWorkspace (tools : Tools) (host : Host) (req : WorkspaceRequest)
    (response : SnapshotResponse) (workspace : Option Files) : Prepared × Option Files :=
  if host.statFails then (.failed "inspect sticky workspace", workspace)
  else if workspace.isSome ∧ (removeAll host.removeInvalid workspace).2 = false then
    (.failed "remove invalid workspace", (removeAll host.removeInvalid workspace).1)
  else if host.mkdirParentFails then (.failed "create sticky workspace parent dir", none)
  else if host.removeStaleFails then
    (.failed "remove stale sticky workspace before hydration", none)
  else
    match downloadSnapshot tools host req response with
    | (.ready, workspace) => (.ready, workspace)
    | (.killed, workspace) => (.killed, workspace)
    | (.failed message, workspace) =>
      (.failed ("hydrate sticky workspace: " ++ message), (removeAll host.cleanup workspace).1)

/-- The run's workspace, reused if it has a `.git` directory and hydrated anew for the head of a
chain otherwise. -/
def prepareStickyWorkspace (tools : Tools) (host : Host) (req : WorkspaceRequest)
    (response : SnapshotResponse) (workspace : Option Files) : Prepared × Option Files :=
  if hasGitDir tools workspace then (.ready, workspace)
  else if 0 < req.resumeCount then
    (.failed ("cannot resume: retained workspace is missing on the original node; "
      ++ "use a full restart"), workspace)
  else if trimSpace req.repoSHAIn = "" then
    (.failed ("sticky workspace missing for " ++ req.jobType.text
      ++ " job; linear repo chains must "
      ++ "continue on the node that hydrated the chain head"), workspace)
  else rebuildWorkspace tools host req response workspace

/-- Whether a workspace is hydrated for a request rather than reused or refused. -/
def hydrates (tools : Tools) (resumeCount : Nat) (repoSHAIn : String) (workspace : Option Files) :
    Bool :=
  !hasGitDir tools workspace && resumeCount == 0 && trimSpace repoSHAIn != ""

variable {host : Host} {req : WorkspaceRequest} {response : SnapshotResponse}
  {workspace workspace' : Option Files}

/-- A workspace that is not hydrated is handed on as it is. -/
theorem prepareStickyWorkspace_reuse
    {tools : Tools}
    (hreuse : hydrates tools req.resumeCount req.repoSHAIn workspace = false)
    (h : prepareStickyWorkspace tools host req response workspace = (.ready, workspace')) :
  workspace' = workspace
  := by
  unfold prepareStickyWorkspace at h
  by_cases hgit : hasGitDir tools workspace = true
  · rw [if_pos hgit] at h
    cases h
    rfl
  · rw [if_neg hgit] at h
    by_cases hcount : 0 < req.resumeCount
    · rw [if_pos hcount] at h
      cases h
    · rw [if_neg hcount] at h
      have hsha : trimSpace req.repoSHAIn = "" := by
        have hzero : req.resumeCount = 0 := Nat.eq_zero_of_not_pos hcount
        simpa [hydrates, hgit, hzero] using hreuse
      rw [if_pos hsha] at h
      cases h

theorem verifyWorkspaceHEAD_ready
    {tools : Tools} {t : Files} {want : String} (h : verifyWorkspaceHEAD tools t want = .ready) :
  tools.resolveGitHEAD t = some (trimSpace want)
  := by
  unfold verifyWorkspaceHEAD at h
  cases hhead : tools.resolveGitHEAD t with
  | none =>
    rw [hhead] at h
    cases h
  | some head =>
    rw [hhead] at h
    by_cases heq : head = trimSpace want
    · rw [heq]
    · simp [heq] at h

/-- A hydrated workspace was unpacked to the end, and has the commit asked for. -/
theorem hydrate_ready
    {tools : Tools} {want : String} {archive : TarGz} {t : Files}
    (h : hydrate tools host want archive = (.ready, t)) :
  unpackTarGz FileTree.empty archive = (t, .ok ())
    ∧ tools.resolveGitHEAD t = some (trimSpace want)
  := by
  unfold hydrate at h
  cases hkilled : host.killedAfter with
  | some k =>
    rw [hkilled] at h
    cases h
  | none =>
    cases hdisk : host.diskFullAfter with
    | some k =>
      rw [hkilled, hdisk] at h
      cases h
    | none =>
      rw [hkilled, hdisk] at h
      rcases hunpack : unpackTarGz FileTree.empty archive with ⟨t₁, message | ⟨⟩⟩
      · rw [hunpack] at h
        cases h
      · rw [hunpack] at h
        obtain ⟨hverify, rfl⟩ := Prod.mk.injEq _ _ _ _ ▸ h
        exact ⟨rfl, verifyWorkspaceHEAD_ready hverify⟩

/-- A snapshot that is ready is the whole answer of the server. -/
theorem downloadSnapshot_ready
    {tools : Tools}
    {workspace : Option Files} (h : downloadSnapshot tools host req response
      = (.ready, workspace)) :
  ∃ archive t, response = .archive archive ∧ unpackTarGz FileTree.empty archive = (t, .ok ())
    ∧ tools.resolveGitHEAD t = some (trimSpace req.commitSHA) ∧ workspace = some t
  := by
  unfold downloadSnapshot at h
  split at h
  · cases h
  split at h
  · cases h
  split at h
  · cases h
  cases response with
  | status code => cases h
  | archive body =>
    have hhydrate : hydrate tools host req.commitSHA body
        = (.ready, (hydrate tools host req.commitSHA body).2) := by
      rw [Prod.ext_iff] at h ⊢
      exact ⟨h.1, rfl⟩
    obtain ⟨hunpack, hcommit⟩ := hydrate_ready hhydrate
    exact ⟨body, _, rfl, hunpack, hcommit, (Prod.ext_iff.mp h).2.symm⟩

/-- A workspace that was rebuilt was downloaded. -/
theorem rebuildWorkspace_ready
    {tools : Tools}
    (h : rebuildWorkspace tools host req response workspace = (.ready, workspace')) :
  downloadSnapshot tools host req response = (.ready, workspace')
  := by
  unfold rebuildWorkspace at h
  split at h
  · cases h
  split at h
  · cases h
  split at h
  · cases h
  split at h
  · cases h
  rcases hdownload : downloadSnapshot tools host req response with ⟨⟨⟩ | message | ⟨⟩, left⟩
  · rw [hdownload] at h
    exact h
  · rw [hdownload] at h
    cases h
  · rw [hdownload] at h
    cases h

theorem prepareStickyWorkspace_hydrate
    {tools : Tools}
    (hgit : hasGitDir tools workspace = false)
    (h : prepareStickyWorkspace tools host req response workspace = (.ready, workspace')) :
  ∃ archive t, response = .archive archive ∧ unpackTarGz FileTree.empty archive = (t, .ok ())
    ∧ tools.resolveGitHEAD t = some (trimSpace req.commitSHA) ∧ workspace' = some t
  := by
  unfold prepareStickyWorkspace at h
  rw [hgit, if_neg Bool.false_ne_true] at h
  split at h
  · cases h
  split at h
  · cases h
  apply downloadSnapshot_ready (rebuildWorkspace_ready h)

/-! ### A run on its node -/

/-- An execution that has ended, and the workspace it left. -/
structure EndedExecution where
  attempt : Nat
  position : Nat
  resumeCount : Nat
  success : Bool
  workspace : Option Files

/-- A run's job is waited for or is executing, or the attempt has failed. -/
inductive AttemptPhase where
  | waiting
  | executing
  | failed
  deriving DecidableEq, Repr

/-- A run as its node meets it: the job that comes next or executes, by its place in the chain, the
run's workspace, and the executions that have ended, the latest first. -/
structure RunOnNode where
  attempt : Nat
  position : Nat
  resumeCount : Nat
  phase : AttemptPhase
  workspace : Option Files
  past : List EndedExecution

inductive RunOnNodeEvent where
  /-- the next job is claimed with an input and its workspace prepared -/
  | prepare (repoSHAIn : String) (snapshot : Materialized) (host : Host)
  /-- the executing job edits or commits in the workspace -/
  | write (edit : Files → Files)
  | finish (success : Bool)
  /-- a restart from the failed job keeps the attempt and counts up -/
  | resume
  /-- a full restart starts a new attempt at its first job -/
  | restart

namespace RunOnNode

/-- A run before its first job is claimed. -/
def fresh : RunOnNode where
  attempt := 1
  position := 0
  resumeCount := 0
  phase := .waiting
  workspace := none
  past := []

/-- The record of the execution that ends now. -/
def ended (s : RunOnNode) (success : Bool) (workspace : Option Files) : EndedExecution where
  attempt := s.attempt
  position := s.position
  resumeCount := s.resumeCount
  success := success
  workspace := workspace

/-- The run when its execution has failed and left a workspace. -/
def fail (s : RunOnNode) (workspace : Option Files) : RunOnNode :=
  { s with phase := .failed, workspace := workspace, past := s.ended false workspace :: s.past }

/-- The first job of an attempt that was not resumed. -/
def atHead (s : RunOnNode) : Bool :=
  s.position == 0 && s.resumeCount == 0

/-- What the next job is started with. -/
def request (s : RunOnNode) (commitSHA repoSHAIn : String) (jobType : JobType) :
    WorkspaceRequest where
  jobType := jobType
  resumeCount := s.resumeCount
  repoSHAIn := repoSHAIn
  commitSHA := commitSHA

variable (tools : Tools) (commitSHA : String) (chain : List JobType)

/-- The workspace as it is prepared for the next job. -/
def prepared (s : RunOnNode) (repoSHAIn : String) (jobType : JobType) (snapshot : Materialized)
    (host : Host) : Prepared × Option Files :=
  prepareStickyWorkspace tools host (s.request commitSHA repoSHAIn jobType)
    (getRunSnapshotHandler snapshot) s.workspace

def step : RunOnNodeEvent → RunOnNode → Option RunOnNode
  | .prepare repoSHAIn snapshot host, s =>
    if s.phase = .waiting then
      chain[s.position]?.map fun jobType =>
        match s.prepared tools commitSHA repoSHAIn jobType snapshot host with
        | (.ready, workspace) => { s with phase := .executing, workspace := workspace }
        | (.failed _, workspace) => s.fail workspace
        | (.killed, workspace) => s.fail workspace
    else none
  | .write edit, s =>
    if s.phase = .executing then some { s with workspace := s.workspace.map edit } else none
  | .finish true, s =>
    if s.phase = .executing then
      some { s with position := s.position + 1, phase := .waiting,
                    past := s.ended true s.workspace :: s.past }
    else none
  | .finish false, s => if s.phase = .executing then some (s.fail s.workspace) else none
  | .resume, s =>
    if s.phase = .failed then
      some { s with resumeCount := s.resumeCount + 1, phase := .waiting }
    else none
  | .restart, s =>
    if s.phase = .executing then none
    else
      some { s with attempt := s.attempt + 1, position := 0, resumeCount := 0, phase := .waiting }

def machine : Machine RunOnNode RunOnNodeEvent where
  init s := s = fresh
  step := step tools commitSHA chain

/-! ### What the next job finds -/

/-- The execution whose workspace the next job continues in: the predecessor's, which succeeded, or
its own, which failed and is resumed. -/
structure ContinuedBy (e : EndedExecution) (s : RunOnNode) : Prop where
  attempt : e.attempt = s.attempt
  workspace : e.workspace = s.workspace
  place : (e.success = true ∧ e.position + 1 = s.position ∧ e.resumeCount = s.resumeCount)
    ∨ (e.success = false ∧ e.position = s.position ∧ e.resumeCount + 1 = s.resumeCount)

/-- A job that is waited for is the head of an attempt or continues the latest execution. An attempt
that has failed ended with an execution of the job it is at. -/
structure Continued (s : RunOnNode) : Prop where
  waiting : s.phase = .waiting → s.atHead = true ∨ ∃ e ∈ s.past.head?, ContinuedBy e s
  failed : s.phase = .failed → s.past.head? = some (s.ended false s.workspace)

variable {tools commitSHA chain}

theorem continued_fail (s : RunOnNode) (workspace : Option Files) :
  (s.fail workspace).Continued
  := by
  constructor
  · intro h
    cases h
  · intro _
    rfl

/-- A preparation ends in an execution or a failure. -/
theorem step_prepare
    {s s' : RunOnNode} {repoSHAIn : String} {snapshot : Materialized} {host : Host}
    (hstep : step tools commitSHA chain (.prepare repoSHAIn snapshot host) s = some s') :
  s.phase = .waiting ∧ ∃ jobType, chain[s.position]? = some jobType
    ∧ ((s'.phase = .executing
        ∧ s.prepared tools commitSHA repoSHAIn jobType snapshot host = (.ready, s'.workspace))
      ∨ ∃ left, s' = s.fail left)
  := by
  simp only [step] at hstep
  split at hstep
  · rename_i hwaiting
    obtain ⟨jobType, hjob, hstep⟩ := Option.map_eq_some_iff.mp hstep
    use hwaiting, jobType, hjob
    subst hstep
    rcases hprepared : s.prepared tools commitSHA repoSHAIn jobType snapshot host with
      ⟨⟨⟩ | message | ⟨⟩, left⟩
    · left
      exact ⟨rfl, rfl⟩
    · right
      exact ⟨left, rfl⟩
    · right
      exact ⟨left, rfl⟩
  · cases hstep

/-- Every event keeps what a job continues from. -/
theorem continued_step
    {s s' : RunOnNode} {event : RunOnNodeEvent} (h : s.Continued)
    (hstep : step tools commitSHA chain event s = some s') :
  s'.Continued
  := by
  cases event with
  | prepare repoSHAIn snapshot host =>
    rcases step_prepare hstep with ⟨-, jobType, -, ⟨hphase, -⟩ | ⟨left, rfl⟩⟩
    · constructor
      · intro hwaiting
        cases hphase.symm.trans hwaiting
      · intro hfailed
        cases hphase.symm.trans hfailed
    · apply continued_fail
  | write edit =>
    simp only [step] at hstep
    split at hstep
    · rename_i hphase
      cases hstep
      constructor <;> (intro h; rw [hphase] at h; cases h)
    · cases hstep
  | finish success =>
    cases success with
    | false =>
      simp only [step] at hstep
      split at hstep
      · cases hstep
        apply continued_fail
      · cases hstep
    | true =>
      simp only [step] at hstep
      split at hstep
      · cases hstep
        constructor
        · intro _
          right
          use s.ended true s.workspace
          constructor
          · rfl
          · constructor
            · rfl
            · rfl
            · left
              exact ⟨rfl, rfl, rfl⟩
        · intro hphase
          cases hphase
      · cases hstep
  | resume =>
    simp only [step] at hstep
    split at hstep
    · rename_i hphase
      cases hstep
      constructor
      · intro _
        right
        use s.ended false s.workspace
        constructor
        · apply h.failed hphase
        · constructor
          · rfl
          · rfl
          · right
            exact ⟨rfl, rfl, rfl⟩
      · intro hphase
        cases hphase
    · cases hstep
  | restart =>
    simp only [step] at hstep
    split at hstep
    · cases hstep
    · cases hstep
      constructor
      · intro _
        left
        rfl
      · intro hphase
        cases hphase

theorem continued
    {past : List (RunOnNode × RunOnNodeEvent)} {s : RunOnNode}
    (h : (machine tools commitSHA chain).Execution past s) :
  s.Continued
  := by
  apply h.invariant
  · rintro s rfl
    constructor
    · intro _
      left
      rfl
    · intro hphase
      cases hphase
  · intro s event s' hs hstep
    apply continued_step hs hstep

/-! ### Every attempt starts from the source commit -/

variable (tools) in
/-- A workspace is hydrated for the head job of an attempt, from a whole archive, and for no other
job. -/
def hydratedAtHead (s : RunOnNode) : RunOnNodeEvent → Bool
  | .prepare repoSHAIn snapshot _ =>
    if s.atHead then !hasGitDir tools s.workspace && Materialized.whole snapshot
    else !hydrates tools s.resumeCount repoSHAIn s.workspace
  | _ => true

/-- In every history in which workspaces are hydrated for the head jobs of attempts only, a
workspace that was prepared is the complete checkout of the source commit for the head job of an
attempt with no resume, and for any other job exactly what its predecessor or its own failed
execution left. -/
theorem workspace_of_prepare
    {past : List (RunOnNode × RunOnNodeEvent)} {s s' : RunOnNode} {repoSHAIn : String}
    {snapshot : Materialized} {host : Host}
    (h : (machine tools commitSHA chain).Execution
      ((s, .prepare repoSHAIn snapshot host) :: past) s')
    (hallowed : ∀ x ∈ (s, RunOnNodeEvent.prepare repoSHAIn snapshot host) :: past,
      hydratedAtHead tools x.1 x.2 = true)
    (hready : s'.phase = .executing) :
  if s.atHead then
    ∃ files, snapshot = .checkout files none ∧ s'.workspace = some files.tree
      ∧ tools.resolveGitHEAD files.tree = some (trimSpace commitSHA)
  else ∃ e ∈ s.past.head?, ContinuedBy e s ∧ s'.workspace = e.workspace
  := by
  cases h with
  | step hexec hstep =>
    obtain ⟨hwaiting, jobType, -, ⟨-, hprepared⟩ | ⟨left, rfl⟩⟩ := step_prepare hstep
    case inr => cases hready
    have hhere := hallowed _ List.mem_cons_self
    simp only [hydratedAtHead] at hhere
    split at hhere
    · rename_i hhead
      rw [if_pos hhead]
      simp only [Bool.and_eq_true, Bool.not_eq_true'] at hhere
      obtain ⟨archive, t, hresponse, hunpack, hcommit, hworkspace⟩ :=
        prepareStickyWorkspace_hydrate hhere.1 hprepared
      cases snapshot with
      | refused status => cases hresponse
      | checkout files failure =>
        cases failure with
        | some k => cases hhere.2
        | none =>
          have hplain : ∀ e ∈ files.entries, plainPath e.1 = true := by
            simpa [Materialized.whole] using hhere.2
          cases hresponse
          rw [unpackTarGz_checkout hplain, Prod.mk.injEq] at hunpack
          obtain ⟨rfl, -⟩ := hunpack
          exact ⟨files, rfl, hworkspace, hcommit⟩
    · rename_i hhead
      rw [if_neg hhead]
      rw [Bool.not_eq_true'] at hhere
      have hsame := prepareStickyWorkspace_reuse hhere hprepared
      rcases (continued hexec).waiting hwaiting with habsurd | ⟨e, he, hcontinued⟩
      · exact absurd habsurd hhead
      · use e, he, hcontinued
        rw [hsame, hcontinued.workspace]

end RunOnNode

/-! ### Histories -/

namespace RunOnNode

namespace Sample

/-- A checkout with a file `README`, and one whose file has a blank behind its name. -/
def checkout (name : String) (h : SlashPath.Proper name.toList) (hne : name ≠ ".git") :
    Checkout where
  entries := [([".git"], .dir), ([".git", "HEAD"], .file "c0"), ([name], .file "one")]
  ne_nil := by simp
  nodup := by simp [hne.symm]
  parents := Listing.parents_of_parentsFirst (by simp [Listing.parentsFirst])
  proper := by
    intro e he
    simp only [List.mem_cons, List.not_mem_nil, or_false] at he
    rcases he with rfl | rfl | rfl
    · decide
    · decide
    · simpa using h

def plain : Checkout :=
  checkout "README" (by decide) (by decide)

def blank : Checkout :=
  checkout "README " (by decide) (by decide)

/-- The commit at the head is what `.git/HEAD` holds. -/
def tools : Tools where
  resolveGitHEAD t :=
    match t [".git", "HEAD"] with
    | some (.file content) => some content
    | _ => none
  linksToDir _ _ := false

def chain : List JobType :=
  [.mig, .mig]

def prepare (snapshot : Materialized) (host : Host) : RunOnNodeEvent :=
  .prepare "c0" snapshot host

def edit : RunOnNodeEvent :=
  .write fun t => (t.set ["README"] (.file "two")).set [".git", "HEAD"] (.file "c1")

end Sample

/-- The first job of a run is given the checkout; the second, after the first has changed the
workspace and succeeded, what the first has left. -/
theorem workspace_of_prepare_sample :
  (∃ s s', (machine Sample.tools "c0" Sample.chain).Execution
        [(s, Sample.prepare (.checkout Sample.plain none) {})] s'
      ∧ s'.phase = .executing ∧ s'.workspace = some Sample.plain.tree)
    ∧ ∃ past s s', (machine Sample.tools "c0" Sample.chain).Execution
        ((s, Sample.prepare (.checkout Sample.plain none) {}) :: past) s'
      ∧ past.map Prod.snd
        = [.finish true, Sample.edit, Sample.prepare (.checkout Sample.plain none) {}]
      ∧ s.position = 1 ∧ s'.phase = .executing
      ∧ ∃ e ∈ s.past.head?, ContinuedBy e s ∧ s'.workspace = e.workspace
  := by
  constructor
  · have hrun : ((((machine Sample.tools "c0" Sample.chain).restrict
        (hydratedAtHead Sample.tools)).follow fresh []).bind fun s =>
        (((machine Sample.tools "c0" Sample.chain).restrict (hydratedAtHead Sample.tools)).step
          (Sample.prepare (.checkout Sample.plain none) {}) s).map fun s' =>
            s.atHead && s'.phase = .executing) = some true := by
      decide +kernel
    obtain ⟨past, s, s', hexec, hlabels, hp⟩ := Machine.Execution.of_follow_step rfl hrun
    obtain rfl := List.map_eq_nil_iff.mp hlabels
    obtain ⟨hexec, hall⟩ := hexec.of_restrict
    simp only [Bool.and_eq_true, decide_eq_true_eq] at hp
    have htheorem := workspace_of_prepare hexec hall hp.2
    rw [if_pos hp.1] at htheorem
    obtain ⟨files, hfiles, hworkspace, -⟩ := htheorem
    cases hfiles
    exact ⟨s, s', hexec, hp.2, hworkspace⟩
  · have hrun : ((((machine Sample.tools "c0" Sample.chain).restrict
        (hydratedAtHead Sample.tools)).follow fresh
          [Sample.prepare (.checkout Sample.plain none) {}, Sample.edit, .finish true]).bind
            fun s =>
        (((machine Sample.tools "c0" Sample.chain).restrict (hydratedAtHead Sample.tools)).step
          (Sample.prepare (.checkout Sample.plain none) {}) s).map fun s' =>
            !s.atHead && s.position = 1 && s'.phase = .executing) = some true := by
      decide +kernel
    obtain ⟨past, s, s', hexec, hlabels, hp⟩ := Machine.Execution.of_follow_step rfl hrun
    obtain ⟨hexec, hall⟩ := hexec.of_restrict
    simp only [Bool.and_eq_true, Bool.not_eq_true', decide_eq_true_eq] at hp
    have htheorem := workspace_of_prepare hexec hall hp.2
    rw [if_neg (by simp [hp.1.1])] at htheorem
    exact ⟨past, s, s', hexec, hlabels, hp.1.2, hp.2, htheorem⟩

/-- After the history the head job of an attempt is given a workspace that is not the checkout the
server answers with. -/
def Sample.GivesOther (history : List RunOnNodeEvent) (checkout : Checkout)
    (failure : Option (Nat × WalkError)) : Prop :=
  ∃ past s s', (machine Sample.tools "c0" Sample.chain).Execution
      ((s, Sample.prepare (.checkout checkout failure) {}) :: past) s'
    ∧ past.map Prod.snd = history.reverse
    ∧ s.atHead = true ∧ s'.phase = .executing ∧ s'.workspace ≠ some checkout.tree

theorem Sample.givesOther_of_readme
    {history : List RunOnNodeEvent} {checkout : Checkout} {failure : Option (Nat × WalkError)}
    (hdiffers : (((machine Sample.tools "c0" Sample.chain).follow fresh history).bind fun s =>
      ((machine Sample.tools "c0" Sample.chain).step
        (Sample.prepare (.checkout checkout failure) {}) s).map fun s' =>
          s.atHead && s'.phase = .executing
            && (s'.workspace.bind fun t => t ["README"]) ≠ checkout.tree ["README"]) = some true) :
  Sample.GivesOther history checkout failure
  := by
  obtain ⟨past, s, s', hexec, hlabels, hp⟩ := Machine.Execution.of_follow_step rfl hdiffers
  simp only [Bool.and_eq_true, decide_eq_true_eq] at hp
  refine ⟨past, s, s', hexec, hlabels, hp.1.1, hp.1.2, ?_⟩
  intro hsame
  apply hp.2
  rw [hsame]
  rfl

/-- The head job of an attempt is given a workspace that is not the checkout: one with the changes
of the attempt before a full restart; one that a killed node left when only `.git` was unpacked; one
that was unpacked from the archive of a walk that failed after it; and one in which a file has lost
the blank at the end of its name. -/
theorem attempt_on_other_workspace :
  Sample.GivesOther
      [Sample.prepare (.checkout Sample.plain none) {}, Sample.edit, .finish true, .restart]
      Sample.plain none
    ∧ Sample.GivesOther
      [Sample.prepare (.checkout Sample.plain none) { killedAfter := some 2 }, .restart]
      Sample.plain none
    ∧ Sample.GivesOther [] Sample.plain (some (2, WalkError.metadata))
    ∧ Sample.GivesOther [] Sample.blank none
  := by
  refine ⟨?_, ?_, ?_, ?_⟩
  all_goals
    apply Sample.givesOther_of_readme
    decide +kernel

end RunOnNode

end Ploy
