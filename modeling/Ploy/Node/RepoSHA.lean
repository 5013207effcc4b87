import Ploy.Foundations.Fallible
import Ploy.Foundations.Staging
import Ploy.Node.MigJob

/-!
# The output SHA of a migration step

A migration step is told the SHA of the tree it starts from and reports one of the tree it leaves.
The node stages the workspace three times for that, each time in an index of its own: from nothing
before the container runs, from the head for the diff, and from the tree of the first staging for
the output SHA. The output SHA is a new one exactly if there is a diff, and made from the tree of
the new head, when head and first staging agree on what is left; they do in a clean workspace that
ignores no tracked path.
-/

namespace Ploy.RepoSHA

open ContentTree

variable {κ β : Type}

/-! ### What git has at hand -/

variable (κ β) in
/-- What a commit is made of. -/
structure CommitObject where
  tree : ContentTree κ β
  parent : String
  author : String
  committer : String
  title : String

variable (κ β) in
/-- The rules of what is ignored, the commits that are at hand, and how commits are hashed: no
commit has the hash of its parent. -/
structure Git where
  ignored : IgnoreRules κ β
  commitTree : String → Option (ContentTree κ β)
  hashObject : CommitObject κ β → String
  hashObject_ne_parent : ∀ c, hashObject c ≠ c.parent

variable (κ β) in
/-- A repository: the tree of its head, its index and its worktree. -/
structure Repository where
  head : ContentTree κ β
  index : ContentTree κ β
  work : ContentTree κ β

/-- A commit SHA as it is decoded: without white space around it. -/
structure CommitSHA where
  text : String
  trimmed : trimSpace text = text

inductive StepError where
  | nothingToCommit
  | repoSHAInMissing
  | repoSHAInFormat
  | repoSHAOutFormat
  deriving DecidableEq, Repr

variable (git : Git κ β)

/-! ### The tree of a workspace -/

/-- The tree of the workspace, staged in a temporary index that starts from a tree or from nothing.
-/
def computeWorkspaceTreeSHAWithBaseTree (work : ContentTree κ β)
    (baseTree : Option (ContentTree κ β)) :
    ContentTree κ β :=
  addAll git.ignored (baseTree.getD .empty) work

def computeWorkspaceTreeSHA (work : ContentTree κ β) : ContentTree κ β :=
  computeWorkspaceTreeSHAWithBaseTree git work none

/-! ### A tidy workspace -/

/-- Nothing is reported by `git status`: nothing is staged, and nothing would be. -/
def IsClean (r : Repository κ β) : Prop :=
  r.index = r.head ∧ addAll git.ignored r.index r.work = r.index

/-- The workspace is clean and no tracked path is ignored. -/
structure Tidy (r : Repository κ β) : Prop where
  clean : IsClean git r
  unignored : ∀ k, (r.head k).isSome = true → git.ignored r.work k = false

theorem Tidy.computeWorkspaceTreeSHA
    {git : Git κ β} {r : Repository κ β} (h : Tidy git r) :
  computeWorkspaceTreeSHA git r.work = r.head
  := by
  obtain ⟨⟨hindex, hstaged⟩, hunignored⟩ := h
  rw [hindex] at hstaged
  apply addAll_empty hstaged hunignored

/-! ### Stagings that agree -/

/-- The head and the tree staged from nothing before a step agree on what the step leaves: they
track the same of its ignored paths, and if they are not the same tree, what is staged of it is
neither. -/
structure Agrees (r : Repository κ β) (left : ContentTree κ β) : Prop where
  tracked : ∀ k, git.ignored left k = true → (left k).isSome = true →
    (r.head k).isSome = (computeWorkspaceTreeSHA git r.work k).isSome
  moved : addAll git.ignored r.head left = r.head
      ∨ addAll git.ignored r.head left = computeWorkspaceTreeSHA git r.work →
    r.head = computeWorkspaceTreeSHA git r.work

theorem Tidy.agrees {git : Git κ β} {r : Repository κ β} (h : Tidy git r) (left : ContentTree κ β) :
  Agrees git r left
  := by
  constructor
  · intro k _ _
    rw [h.computeWorkspaceTreeSHA]
  · intro _
    rw [h.computeWorkspaceTreeSHA]

/-- They agree exactly if both stage the same, and both change by that or neither does. -/
theorem agrees_iff {git : Git κ β} {r : Repository κ β} {left : ContentTree κ β} :
  Agrees git r left
    ↔ (r.head = addAll git.ignored r.head left
        ↔ addAll git.ignored (computeWorkspaceTreeSHA git r.work) left
          = computeWorkspaceTreeSHA git r.work)
      ∧ addAll git.ignored (computeWorkspaceTreeSHA git r.work) left
        = addAll git.ignored r.head left
  := by
  constructor
  · rintro ⟨htracked, hmoved⟩
    have hstaged := addAll_eq_addAll_iff.mpr htracked
    rw [← hstaged]
    refine ⟨⟨?_, ?_⟩, rfl⟩
    · intro hhead
      exact hhead.symm.trans (hmoved (Or.inl hhead.symm))
    · intro htree
      exact (hmoved (Or.inr htree)).trans htree.symm
  · rintro ⟨hsame, hstaged⟩
    rw [hstaged] at hsame
    refine ⟨addAll_eq_addAll_iff.mp hstaged.symm, ?_⟩
    rintro (hhead | htree)
    · exact hhead.symm.trans (hsame.mp hhead.symm)
    · exact (hsame.mpr htree).trans htree

/-! ### The output SHA -/

def repoSHAV1AuthorLine : String := "author node <node@ploy.local> 0 +0000"

def repoSHAV1CommitLine : String := "committer node <node@ploy.local> 0 +0000"

def repoSHAV1CommitTitle : String := "ploy repo_sha_v1"

/-- The tree the input SHA stands for: the one that is given, else that of the commit if it is at
hand, else that of the head. -/
def resolveInputTree (r : Repository κ β) (repoSHAIn : String)
    (inputTree : Option (ContentTree κ β)) :
    ContentTree κ β :=
  match inputTree with
  | some tree => tree
  | none => (git.commitTree repoSHAIn).getD r.head

/-- The commit whose hash is the output SHA of a changed tree. -/
def syntheticCommit (tree : ContentTree κ β) (repoSHAIn : String) : CommitObject κ β where
  tree := tree
  parent := repoSHAIn
  author := repoSHAV1AuthorLine
  committer := repoSHAV1CommitLine
  title := repoSHAV1CommitTitle

section Step

variable [DecidableEq (ContentTree κ β)]

/-- The output SHA: that of the input if the workspace has its tree, else that of a commit on top of
it. -/
def computeRepoSHAV1 (r : Repository κ β) (repoSHAIn : String)
    (inputTree : Option (ContentTree κ β)) :
    Except StepError String :=
  if !isCanonicalFullCommitSHA repoSHAIn then .error .repoSHAInFormat
  else
    let inTree := resolveInputTree git r repoSHAIn inputTree
    let snapshotTree := computeWorkspaceTreeSHAWithBaseTree git r.work (some inTree)
    if snapshotTree = inTree then .ok repoSHAIn
    else
      let repoSHAOut := git.hashObject (syntheticCommit snapshotTree repoSHAIn)
      if !isCanonicalFullCommitSHA repoSHAOut then .error .repoSHAOutFormat
      else .ok repoSHAOut

def computeRepoSHAOut (r : Repository κ β) (repoSHAIn : CommitSHA)
    (inputTree : Option (ContentTree κ β)) : Except StepError String :=
  if trimSpace repoSHAIn.text = "" then .error .repoSHAInMissing
  else computeRepoSHAV1 git r (trimSpace repoSHAIn.text) inputTree

/-! ### The diff and the baseline -/

/-- The edit from the head to the worktree, staged in a temporary index that starts from the head. A
diff is taken as the exact edit, as git gives it for contents that are text. -/
def generateGitDiff [DecidableEq β] (r : Repository κ β) : Patch κ β :=
  Patch.between r.head (addAll git.ignored r.head r.work)

instance (r : Repository κ β) : Decidable (IsClean git r) :=
  inferInstanceAs (Decidable (_ ∧ _))

/-- Everything committed, if there is anything. A commit without a change is refused. -/
def ensureCommit (r : Repository κ β) : Except StepError (Repository κ β) :=
  if IsClean git r then .ok r
  else
    let staged := addAll git.ignored r.index r.work
    if staged = r.head then .error .nothingToCommit
    else .ok { r with head := staged, index := staged }

/-! ### A step -/

variable (κ β) in
/-- What a successful step leaves. -/
structure Outcome where
  diff : Patch κ β
  repository : Repository κ β
  repoSHAOut : String

/-- A migration step whose container leaves the given worktree: the tree is taken before it runs,
and after it the diff is generated, the baseline advanced and the output SHA computed. -/
def runMigContainerJob [DecidableEq β] (repoSHAIn : CommitSHA) (r : Repository κ β)
    (left : ContentTree κ β) : Except StepError (Outcome κ β) := do
  let preWorkspaceTree := computeWorkspaceTreeSHA git r.work
  let r := { r with work := left }
  let diff := generateGitDiff git r
  let r ← ensureCommit git r
  let repoSHAOut ← computeRepoSHAOut git r repoSHAIn (some preWorkspaceTree)
  return ⟨diff, r, repoSHAOut⟩

variable {git}

/-- A commit takes what was staged, and leaves the working tree. -/
theorem ensureCommit_eq_ok
    {r r' : Repository κ β} (hindex : r.index = r.head) (h : ensureCommit git r = .ok r') :
  r' = ⟨addAll git.ignored r.head r.work, addAll git.ignored r.head r.work,
    r.work⟩
  := by
  unfold ensureCommit at h
  split at h
  case isTrue hclean =>
    cases h
    obtain ⟨-, hstaged⟩ := hclean
    rw [hindex] at hstaged
    rw [hstaged]
    obtain ⟨head, index, work⟩ := r
    cases hindex
    rfl
  case isFalse =>
    dsimp only at h
    split at h
    · cases h
    · cases h
      rw [hindex]

variable {r : Repository κ β}

/-- The output differs from the input exactly if the tree does. -/
theorem computeRepoSHAV1_eq_ok
    {repoSHAIn out : String} {inTree : ContentTree κ β}
    (h : computeRepoSHAV1 git r repoSHAIn (some inTree) = .ok out) :
  out ≠ repoSHAIn ↔ computeWorkspaceTreeSHAWithBaseTree git r.work (some inTree) ≠ inTree
  := by
  unfold computeRepoSHAV1 at h
  split at h
  · cases h
  dsimp only [resolveInputTree] at h
  split at h
  case isTrue hsame =>
    cases h
    simp [hsame]
  case isFalse hchanged =>
    split at h
    · cases h
    · cases h
      apply iff_of_true _ hchanged
      apply git.hashObject_ne_parent

variable {repoSHAIn : CommitSHA} {left : ContentTree κ β} {o : Outcome κ β}

/-- What a step leaves when it succeeds: its diff and its repository. -/
theorem runMigContainerJob_eq_ok
    [DecidableEq β]
    (hindex : r.index = r.head)
    (h : runMigContainerJob git repoSHAIn r left = .ok o) :
  o.diff = Patch.between r.head (addAll git.ignored r.head left)
    ∧ o.repository = ⟨addAll git.ignored r.head left,
        addAll git.ignored r.head left, left⟩
    ∧ (o.repoSHAOut ≠ repoSHAIn.text
      ↔ computeWorkspaceTreeSHAWithBaseTree git left (some (computeWorkspaceTreeSHA git r.work))
        ≠ computeWorkspaceTreeSHA git r.work)
  := by
  unfold runMigContainerJob at h
  obtain ⟨r', hcommit, h⟩ := Fallible.bind_eq_ok.mp h
  obtain ⟨out, hout, h⟩ := Fallible.bind_eq_ok.mp h
  cases h
  have hr' := ensureCommit_eq_ok (r := ⟨r.head, r.index, left⟩) hindex hcommit
  unfold computeRepoSHAOut at hout
  split at hout
  · cases hout
  rw [repoSHAIn.trimmed] at hout
  have hsha := computeRepoSHAV1_eq_ok hout
  rw [hr'] at hsha
  exact ⟨rfl, hr', hsha⟩

/-- A step that ignores nothing that was tracked leaves its workspace clean. -/
theorem tidy_runMigContainerJob
    [DecidableEq β]
    (hindex : r.index = r.head)
    (h : runMigContainerJob git repoSHAIn r left = .ok o)
    (hunignored : ∀ k, (r.head k).isSome = true → git.ignored left k = false) :
  Tidy git o.repository
  := by
  obtain ⟨-, hrepository, -⟩ := runMigContainerJob_eq_ok hindex h
  rw [hrepository]
  constructor
  · apply And.intro rfl
    apply addAll_addAll
  · intro k htracked
    cases hk : (r.head k).isSome with
    | true => apply hunignored k hk
    | false =>
      have hnone : r.head k = none := by simpa using hk
      cases hignored : git.ignored left k with
      | false => rfl
      | true =>
        have hstaged := addAll_of_ignored hnone hignored
        dsimp only at htracked
        rw [hstaged] at htracked
        cases htracked

/-- A successful step has a diff exactly if its output SHA is not its input SHA, and the tree the
output SHA is made from is that of the new head, if and only if head and first staging agree on what
the step leaves. -/
theorem repoSHAOut_ne_iff_diff
    [DecidableEq β] (git : Git κ β) (repoSHAIn : CommitSHA) (r : Repository κ β)
    (left : ContentTree κ β) (o : Outcome κ β) (hindex : r.index = r.head)
    (h : runMigContainerJob git repoSHAIn r left = .ok o) :
  ((¬ o.diff.Empty ↔ o.repoSHAOut ≠ repoSHAIn.text)
    ∧ computeWorkspaceTreeSHAWithBaseTree git o.repository.work
        (some (computeWorkspaceTreeSHA git r.work)) = o.repository.head) ↔ Agrees git r left
  := by
  obtain ⟨hdiff, hrepository, hsha⟩ := runMigContainerJob_eq_ok hindex h
  rw [hdiff, Patch.between_empty_iff, hsha, hrepository, not_iff_not, agrees_iff]
  rfl

/-! A repository with two paths, `true` and `false`. -/

def sampleSHA (c : Char) : String := String.ofList (List.replicate 40 c)

/-- Commits are hashed to one of two SHAs, and the rules of what is ignored stay the same. -/
def sampleGit (ignored : Bool → Bool) : Git Bool Bool where
  ignored := fun _ => ignored
  commitTree := fun _ => none
  hashObject := fun c => if c.parent = sampleSHA 'a' then sampleSHA 'b' else sampleSHA 'a'
  hashObject_ne_parent := by
    intro c
    split
    case isTrue h =>
      rw [h]
      decide
    case isFalse h =>
      apply Ne.symm h

def sampleIn : CommitSHA where
  text := sampleSHA 'a'
  trimmed := by decide

/-- The tree with the given contents at the two paths. -/
def sampleTree (first second : Option Bool) : ContentTree Bool Bool :=
  fun k => if k then second else first

/-- A tracked file is edited, beside an untracked one that a gate left and that is kept. -/
theorem repoSHAOut_ne_iff_diff_edit :
  ∃ o, runMigContainerJob (sampleGit fun _ => false) sampleIn
      ⟨sampleTree (some false) none, sampleTree (some false) none,
        sampleTree (some false) (some false)⟩
      (sampleTree (some true) (some false)) = .ok o
    ∧ (¬ o.diff.Empty ↔ o.repoSHAOut ≠ sampleIn.text)
    ∧ computeWorkspaceTreeSHAWithBaseTree (sampleGit fun _ => false) o.repository.work
        (some (computeWorkspaceTreeSHA (sampleGit fun _ => false)
          (sampleTree (some false) (some false)))) = o.repository.head
  := by
  refine ⟨⟨_, _, sampleSHA 'b'⟩, rfl, ?_⟩
  apply (repoSHAOut_ne_iff_diff (sampleGit fun _ => false) sampleIn
    ⟨sampleTree (some false) none, sampleTree (some false) none,
      sampleTree (some false) (some false)⟩
    (sampleTree (some true) (some false)) _ rfl rfl).mpr
  exact ⟨by decide, by decide⟩

/-- A step that has a diff and keeps its SHA, whose tree is not that of the new head: it edits a
tracked file that is ignored, or it leaves alone a file that was untracked before it. -/
theorem repoSHAOut_keeps_diff :
  (∃ o, runMigContainerJob (sampleGit id) sampleIn
        ⟨sampleTree (some false) (some false), sampleTree (some false) (some false),
          sampleTree (some false) (some false)⟩
        (sampleTree (some false) (some true)) = .ok o
      ∧ ¬ o.diff.Empty ∧ o.repoSHAOut = sampleIn.text
      ∧ computeWorkspaceTreeSHAWithBaseTree (sampleGit id) o.repository.work
          (some (computeWorkspaceTreeSHA (sampleGit id)
            (sampleTree (some false) (some false)))) ≠ o.repository.head)
    ∧ ∃ o, runMigContainerJob (sampleGit fun _ => false) sampleIn
        ⟨sampleTree (some false) none, sampleTree (some false) none,
          sampleTree (some false) (some false)⟩
        (sampleTree (some false) (some false)) = .ok o
      ∧ ¬ o.diff.Empty ∧ o.repoSHAOut = sampleIn.text
  := by
  constructor
  · refine ⟨⟨_, _, sampleSHA 'a'⟩, rfl, ?_, rfl, ?_⟩
    · intro h
      cases h true
    · intro h
      cases congrFun h true
  · refine ⟨⟨_, _, sampleSHA 'a'⟩, rfl, ?_, rfl⟩
    intro h
    cases h true

/-! ### Steps one after another -/

/-- Steps that succeed one after another in one workspace. Each is told the output SHA of the one
before it, and none leaves a tracked path ignored. -/
inductive MigSteps [DecidableEq β] (git : Git κ β) :
    CommitSHA → Repository κ β → List (Outcome κ β) → Repository κ β → Prop
  | nil (repoSHAIn : CommitSHA) (r : Repository κ β) : MigSteps git repoSHAIn r [] r
  | cons {repoSHAIn next : CommitSHA} {r r' : Repository κ β} {left : ContentTree κ β}
      {o : Outcome κ β} {os : List (Outcome κ β)}
      (step : runMigContainerJob git repoSHAIn r left = .ok o)
      (unignored : ∀ k, (r.head k).isSome = true → git.ignored left k = false)
      (handover : next.text = o.repoSHAOut) (rest : MigSteps git next o.repository os r') :
      MigSteps git repoSHAIn r (o :: os) r'

/-- From a tidy workspace on, every workspace is tidy, the diffs, each the exact edit it stands for,
apply cleanly one after another and lead from the first head to the last, and a step keeps the SHA
it is told exactly if its diff is empty. -/
theorem migSteps_replay
    [DecidableEq β] {os : List (Outcome κ β)} {r' : Repository κ β} (htidy : Tidy git r)
    (h : MigSteps git repoSHAIn r os r') :
  Tidy git r' ∧ Patch.Replay (os.map Outcome.diff) r.head r'.head
    ∧ ∀ p ∈ (repoSHAIn.text :: os.map Outcome.repoSHAOut).zip os,
      p.2.repoSHAOut = p.1 ↔ p.2.diff.Empty
  := by
  induction h with
  | nil => exact ⟨htidy, rfl, by simp⟩
  | @cons repoSHAIn next r r' left o os step unignored handover rest ih =>
    obtain ⟨hlast, hreplay, hshas⟩ := ih (tidy_runMigContainerJob htidy.clean.1 step unignored)
    obtain ⟨hdiff, hrepository, hsha⟩ := runMigContainerJob_eq_ok htidy.clean.1 step
    have hhead : o.diff.apply r.head = o.repository.head := by
      rw [hdiff, hrepository, Patch.apply_between]
    refine ⟨hlast, ⟨?_, ?_⟩, ?_⟩
    · rw [hdiff]
      apply Patch.between_applies
    · rw [hhead]
      apply hreplay
    · rw [handover] at hshas
      intro p hp
      rcases List.mem_cons.mp hp with rfl | hp
      · rw [hdiff, Patch.between_empty_iff, (agrees_iff.mp (htidy.agrees left)).1]
        apply not_iff_not.mp hsha
      · apply hshas p hp

/-- A step that edits a file of a clean workspace. -/
theorem migSteps_replay_edit :
  ∃ r o, MigSteps (sampleGit id) sampleIn r [o] o.repository ∧ o.repoSHAOut = sampleSHA 'b'
    ∧ Tidy (sampleGit id) o.repository ∧ Patch.Replay [o.diff] r.head o.repository.head
  := by
  have hstep : runMigContainerJob (sampleGit id) sampleIn
      ⟨sampleTree (some false) none, sampleTree (some false) none, sampleTree (some false) none⟩
      (sampleTree (some true) none) = .ok ⟨_, _, sampleSHA 'b'⟩ := rfl
  have hsteps := MigSteps.cons hstep (by decide)
    (rfl : (CommitSHA.mk (sampleSHA 'b') (by decide)).text = _) (.nil _ _)
  obtain ⟨htidy, hreplay, -⟩ := migSteps_replay ⟨by decide, by decide⟩ hsteps
  exact ⟨_, _, hsteps, rfl, htidy, hreplay⟩

end Step

end Ploy.RepoSHA

