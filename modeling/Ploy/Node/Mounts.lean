import Ploy.Foundations.Dictionary
import Ploy.Foundations.Fallible
import Ploy.Spec.Hydra

/-!
# The mounts of a container

A container has its workspace, the directories of its job, run and node, read-only files in its home
directory and a socket mounted at targets. No two targets may overlap, except for the read-only
files, which are below the home directory.
-/

namespace Ploy

open SlashPath
open Fallible

namespace Mounts

/-! ### Mounts -/

structure ContainerMount where
  source : Str
  target : Str
  readOnly : Bool
  deriving DecidableEq, Repr

/-- The directories of the host that a job uses. A text that is no job type is none. -/
structure JobMounts where
  cache : Str
  home : Str
  input : Str
  out : Str
  staging : Str
  tmp : Str
  share : Str
  runtimeShare : Str
  nodeCache : Str
  commonConfig : Str
  jobConfig : Str
  jobType : Option JobType
  deriving DecidableEq, Repr

structure NestedMountContract where
  parent : Str
  child : Str
  deriving DecidableEq, Repr

inductive MountError where
  | jobSourceEmpty (name : String)
  | jobType
  | homeNotAbsolute (target : Str)
  | homeNotCanonical (target : Str)
  | sourceEmpty (target : Str)
  | notAbsolute (target : Str)
  | notCanonical (target : Str)
  | duplicate (target : Str)
  | mustBeReadOnly (target : Str)
  | overlap (first second : Str)
  deriving DecidableEq, Repr

def jobCacheContainerDir : Str := "/ploy/cache/job".toList
def nodeCacheContainerDir : Str := "/ploy/cache/node".toList
def nodeConfigContainerDir : Str := "/ploy/config/common".toList
def jobConfigContainerDir : Str := "/ploy/config/job".toList
def jobInContainerDir : Str := "/in".toList
def jobOutContainerDir : Str := "/out".toList
def jobTmpContainerDir : Str := "/tmp".toList
def jobShareContainerDir : Str := "/share".toList
def jobRuntimeContainerDir : Str := "/run-share".toList
def jobDefaultHomeContainer : Str := "/root".toList
def nodeConfigContainerRoot : Str := "/ploy/config".toList

def validateJobMountSources (jobMounts : JobMounts) : Except MountError Unit := do
  [("cache", jobMounts.cache), ("home", jobMounts.home), ("in", jobMounts.input),
    ("out", jobMounts.out), ("staging", jobMounts.staging), ("tmp", jobMounts.tmp),
    ("share", jobMounts.share), ("runtime-share", jobMounts.runtimeShare),
    ("node cache", jobMounts.nodeCache), ("common config", jobMounts.commonConfig),
    ("job config", jobMounts.jobConfig)].forM fun source =>
      if trim source.2 = [] then .error (.jobSourceEmpty source.1) else .ok ()
  if jobMounts.jobType.isNone then .error .jobType else .ok ()

def validateJobHomeTarget (homeTarget : Str) : Except MountError Unit :=
  if isAbs homeTarget = false then .error (.homeNotAbsolute homeTarget)
  else if clean homeTarget ≠ homeTarget then .error (.homeNotCanonical homeTarget)
  else .ok ()

def isNodeOwnedTarget (target : Str) : Bool :=
  target = nodeCacheContainerDir || (nodeCacheContainerDir ++ ['/']).isPrefixOf target
    || target = nodeConfigContainerRoot || (nodeConfigContainerRoot ++ ['/']).isPrefixOf target

/-- The parent and the child, where one target is below the other. -/
def mountOverlap (first second : Str) : Option (Str × Str) :=
  if (first ++ ['/']).isPrefixOf second then some (first, second)
  else if (second ++ ['/']).isPrefixOf first then some (second, first)
  else none

def permitsNestedMount (contracts : List NestedMountContract) (parent child : Str) : Bool :=
  contracts.any fun contract => contract.parent = parent && contract.child = child

/-- Each mount has a source and a clean absolute target, with white space around it at most, that no
mount before it has. What the node owns is read-only. -/
def checkTargets (seen : List Str) : List ContainerMount → Except MountError Unit
  | [] => .ok ()
  | mount :: rest =>
    let target := trim mount.target
    if trim mount.source = [] then .error (.sourceEmpty mount.target)
    else if isAbs target = false then .error (.notAbsolute mount.target)
    else if clean target ≠ target then .error (.notCanonical mount.target)
    else if target ∈ seen then .error (.duplicate target)
    else if isNodeOwnedTarget target && !mount.readOnly then .error (.mustBeReadOnly target)
    else checkTargets (target :: seen) rest

/-- Two mounts do not overlap, or they may. -/
def checkPair (nested : List NestedMountContract) (mount mount' : ContainerMount) :
    Except MountError Unit :=
  match mountOverlap mount.target mount'.target with
  | some (parent, child) =>
    if permitsNestedMount nested parent child then .ok ()
    else .error (.overlap mount.target mount'.target)
  | none => .ok ()

/-- Each mount is compared with all behind it. -/
def checkOverlaps (nested : List NestedMountContract) :
    List ContainerMount → Except MountError Unit
  | [] => .ok ()
  | mount :: rest => do
      rest.forM (checkPair nested mount)
      checkOverlaps nested rest

def validateContainerMounts (mounts : List ContainerMount) (nested : List NestedMountContract) :
    Except MountError Unit := do
  checkTargets [] mounts
  checkOverlaps nested mounts

def commonJobMounts (jobMounts : JobMounts) (homeTarget : Str) : List ContainerMount :=
  [⟨jobMounts.input, jobInContainerDir, true⟩,
    ⟨jobMounts.out, jobOutContainerDir, false⟩,
    ⟨jobMounts.tmp, jobTmpContainerDir, false⟩,
    ⟨jobMounts.cache, jobCacheContainerDir, false⟩,
    ⟨jobMounts.home, homeTarget, false⟩,
    ⟨jobMounts.share, jobShareContainerDir, false⟩,
    ⟨jobMounts.runtimeShare, jobRuntimeContainerDir, false⟩,
    ⟨jobMounts.nodeCache, nodeCacheContainerDir, true⟩,
    ⟨jobMounts.commonConfig, nodeConfigContainerDir, true⟩,
    ⟨jobMounts.jobConfig, jobConfigContainerDir, true⟩]

def buildCommonJobMounts (jobMounts : JobMounts) (homeTarget : Str) :
    Except MountError (List ContainerMount) := do
  validateJobMountSources jobMounts
  validateJobHomeTarget homeTarget
  validateContainerMounts (commonJobMounts jobMounts homeTarget) []
  return commonJobMounts jobMounts homeTarget

/-! ### Environments -/

abbrev Env := List (Str × Str)

def resolveJobHome (env : Env) : Except MountError Str := do
  let homeTarget := match Dictionary.get env "HOME".toList with
    | some configured => if configured ≠ [] then configured else jobDefaultHomeContainer
    | none => jobDefaultHomeContainer
  validateJobHomeTarget homeTarget
  return homeTarget

def mergeEnv (base override : Env) : Env :=
  override.foldl (fun env entry => Dictionary.set env entry.1 entry.2) base

def applyReservedJobEnv (base : Env) (jobMounts : JobMounts) : Except MountError Env := do
  validateJobMountSources jobMounts
  let homeTarget ← resolveJobHome base
  return mergeEnv base
    [("PLOY_JOB_CACHE_DIR".toList, jobCacheContainerDir),
      ("PLOY_NODE_CACHE_DIR".toList, nodeCacheContainerDir),
      ("PLOY_JOB_HOME_DIR".toList, homeTarget),
      ("PLOY_RUN_SHARE_DIR".toList, jobShareContainerDir),
      ("PLOY_RUN_RUNTIME_SHARE_DIR".toList, jobRuntimeContainerDir),
      ("PLOY_NODE_CONFIG_DIR".toList, nodeConfigContainerDir),
      ("PLOY_JOB_CONFIG_DIR".toList, jobConfigContainerDir),
      ("PLOY_JOB_TYPE".toList, (jobMounts.jobType.map fun t => t.text.toList).getD [])]

/-! ### Containers of steps -/

/-- The files of the host that are no directories. The root is one. -/
structure Host where
  isFile : Str → Bool
  root_isFile : isFile ['/'] = false

/-- Where an input is mounted. -/
structure StepInput where
  mountPath : Str
  readOnly : Bool
  deriving DecidableEq, Repr

/-- What a step says about its container. -/
structure StepManifest where
  inputs : List StepInput
  envs : Env
  entries : HydraFileKind → List Str
  mountDockerSocket : Bool
  workingDir : Str

inductive BuildError where
  | resolveHome (error : MountError)
  | commonMounts (error : MountError)
  | entry (kind : HydraFileKind) (entry : Str) (error : RecordError)
  | validate (error : MountError)
  | environment (error : MountError)
  deriving DecidableEq, Repr

structure ContainerSpec where
  workingDir : Str
  env : Env
  mounts : List ContainerMount
  deriving DecidableEq, Repr

def workspaceMount (manifest : StepManifest) (workspace : Str) : ContainerMount :=
  match manifest.inputs with
  | input :: _ => ⟨workspace, input.mountPath, input.readOnly⟩
  | [] => ⟨workspace, "/workspace".toList, false⟩

/-- The file of the host with the content of a record. -/
def stagedContent (staging hash : Str) : Str :=
  clean (staging ++ '/' :: (hash ++ "/content".toList))

/-- All records of a step, read. -/
def parseEntries (manifest : StepManifest) :
    Except BuildError (List (HydraFileKind × ParsedStoredEntry)) :=
  (HydraFileKind.all.flatMap fun kind => (manifest.entries kind).map fun entry =>
    (kind, entry)).mapM
    fun record => ((parseStoredEntry record.1 record.2).mapError (.entry record.1 record.2)).map
      fun parsed => (record.1, parsed)

/-- The mounts of the read-only records of the home directory. The others are copied into it. -/
def homeMounts (homeDir staging : Str) (parsed : List (HydraFileKind × ParsedStoredEntry)) :
    List ContainerMount :=
  parsed.filterMap fun record =>
    if record.1 ≠ .home ∨ record.2.readOnly = false then none
    else some ⟨stagedContent staging record.2.hash, joined homeDir record.2.dst, true⟩

def dockerSocket : Str := "/var/run/docker.sock".toList

def socketMounts (host : Host) (manifest : StepManifest) : List ContainerMount :=
  if manifest.mountDockerSocket && host.isFile dockerSocket then
    [⟨dockerSocket, dockerSocket, false⟩]
  else []

def buildContainerSpec (host : Host) (manifest : StepManifest) (workspace : Str)
    (jobMounts : JobMounts) : Except BuildError ContainerSpec := do
  let homeDir ← (resolveJobHome manifest.envs).mapError .resolveHome
  let common ← (buildCommonJobMounts jobMounts homeDir).mapError .commonMounts
  let parsed ← parseEntries manifest
  let home := homeMounts homeDir jobMounts.staging parsed
  let nested := home.map fun mount => NestedMountContract.mk homeDir mount.target
  let mounts := workspaceMount manifest workspace :: common ++ home ++ socketMounts host manifest
  (validateContainerMounts mounts nested).mapError .validate
  let env ← (applyReservedJobEnv manifest.envs jobMounts).mapError .environment
  let workingDir := match manifest.inputs with
    | input :: _ => if manifest.workingDir = [] then input.mountPath else manifest.workingDir
    | [] => manifest.workingDir
  return { workingDir, env, mounts }

/-! ### Containers of gates -/

def dockerHostSocketPathFromEnv (env : Env) : Str :=
  let dockerHost := trim ((Dictionary.get env "DOCKER_HOST".toList).getD [])
  if "unix://".toList.isPrefixOf dockerHost then
    let socketPath := trim (dockerHost.drop "unix://".length)
    if isAbs socketPath then socketPath else []
  else []

def appendDockerHostSocketMount (host : Host) (mounts : List ContainerMount) (env : Env) :
    List ContainerMount :=
  let socketPath := dockerHostSocketPathFromEnv env
  if socketPath = [] then mounts
  else if host.isFile socketPath then mounts ++ [⟨socketPath, socketPath, false⟩]
  else mounts

def assembleGateMounts (workspace : Str) (jobMounts : JobMounts) (homeDir : Str) :
    Except BuildError (List ContainerMount) := do
  let common ← (buildCommonJobMounts jobMounts homeDir).mapError .commonMounts
  return ⟨workspace, "/workspace".toList, false⟩ :: common

def gateContainer (host : Host) (env : Env) (workspace : Str) (jobMounts : JobMounts) :
    Except BuildError ContainerSpec := do
  let homeDir ← (resolveJobHome env).mapError .resolveHome
  let assembled ← assembleGateMounts workspace jobMounts homeDir
  let reserved ← (applyReservedJobEnv env jobMounts).mapError .environment
  let mounts := appendDockerHostSocketMount host assembled reserved
  (validateContainerMounts mounts []).mapError .validate
  return { workingDir := "/workspace".toList, env := reserved, mounts }

/-! ### What is checked -/

/-- A mount that passes on its own. -/
structure Sound (mount : ContainerMount) : Prop where
  isAbs : isAbs (trim mount.target) = true
  clean : clean (trim mount.target) = trim mount.target
  readOnly : isNodeOwnedTarget (trim mount.target) = true → mount.readOnly = true

/-- Targets that pass the check are sound and different. -/
theorem checkTargets_cons
    {seen : List Str} {mount : ContainerMount} {rest : List ContainerMount}
    (h : checkTargets seen (mount :: rest) = .ok ()) :
  Sound mount ∧ trim mount.target ∉ seen ∧ checkTargets (trim mount.target :: seen) rest = .ok ()
  := by
  rw [checkTargets] at h
  split at h
  · cases h
  · split at h
    · cases h
    · rename_i habs
      split at h
      · cases h
      · rename_i hclean
        split at h
        · cases h
        · rename_i hseen
          split at h
          · cases h
          · rename_i howned
            refine ⟨⟨by simpa using habs, by simpa using hclean, ?_⟩, hseen, h⟩
            intro hnode
            rw [hnode] at howned
            simpa using howned

variable {mounts : List ContainerMount}

/-- Targets that pass the check are sound, new and pairwise different. -/
theorem checkTargets_spec
    {seen : List Str}
    (h : checkTargets seen mounts = .ok ()) :
  (∀ mount ∈ mounts, Sound mount) ∧ (∀ mount ∈ mounts, trim mount.target ∉ seen)
    ∧ mounts.Pairwise fun mount mount' => trim mount.target ≠ trim mount'.target
  := by
  induction mounts generalizing seen with
  | nil => simp
  | cons mount rest ih =>
    obtain ⟨hsound, hseen, hrest⟩ := checkTargets_cons h
    obtain ⟨hsounds, hseens, hpairs⟩ := ih hrest
    refine ⟨?_, ?_, ?_⟩
    · exact List.forall_mem_cons.mpr ⟨hsound, hsounds⟩
    · refine List.forall_mem_cons.mpr ⟨hseen, fun m hm hmem => ?_⟩
      exact hseens m hm (List.mem_cons_of_mem _ hmem)
    · refine List.pairwise_cons.mpr ⟨fun m hm heq => ?_, hpairs⟩
      exact hseens m hm (heq ▸ List.mem_cons_self)

/-- Targets that overlap may do so. -/
def Permitted (nested : List NestedMountContract) (mount mount' : ContainerMount) : Prop :=
  ∀ parent child, mountOverlap mount.target mount'.target = some (parent, child) →
    NestedMountContract.mk parent child ∈ nested

variable {nested : List NestedMountContract}

/-- Two mounts that pass the check are permitted together. -/
theorem checkPair_eq_ok
    {mount mount' : ContainerMount}
    (h : checkPair nested mount mount' = .ok ()) :
  Permitted nested mount mount'
  := by
  intro parent child hoverlap
  rw [checkPair, hoverlap] at h
  simp only at h
  split at h
  · rename_i hpermits
    rw [permitsNestedMount, List.any_eq_true] at hpermits
    obtain ⟨contract, hcontract, heq⟩ := hpermits
    simp only [Bool.and_eq_true, decide_eq_true_eq] at heq
    obtain ⟨rfl, rfl⟩ := heq
    exact hcontract
  · cases h

theorem checkOverlaps_spec
    (h : checkOverlaps nested mounts = .ok ()) :
  mounts.Pairwise (Permitted nested)
  := by
  induction mounts with
  | nil => exact List.Pairwise.nil
  | cons mount rest ih =>
    rw [checkOverlaps] at h
    obtain ⟨u, hfirst, hrest⟩ := bind_eq_ok.mp h
    refine List.pairwise_cons.mpr ⟨fun m hm => ?_, ih hrest⟩
    exact checkPair_eq_ok (forM_eq_ok.mp hfirst m hm)

/-! ### Disjoint targets -/

/-- A directory is another or lies above it. A target is taken as it is, with the white space around
it, and one that is not absolute is no directory of the container. -/
def Covers (p q : Str) : Prop :=
  isAbs p = true ∧ isAbs q = true ∧ elements p <+: elements q

instance (p q : Str) : Decidable (Covers p q) :=
  inferInstanceAs (Decidable (isAbs p = true ∧ isAbs q = true ∧ elements p <+: elements q))

/-- A target is not another and not above it, except for the home directory, which is above the
given read-only ones. -/
def NotAbove (home : Str) (files : List Str) (target target' : Str) : Prop :=
  Covers target target' → target = home ∧ target' ∈ files

instance (home : Str) (files : List Str) :
    Std.Symm fun target target' => NotAbove home files target target'
        ∧ NotAbove home files target' target :=
  ⟨fun _ _ h => h.symm⟩

/-- The targets of a container: none is another or above another, except for the home directory,
which is above the given read-only ones. What the node owns is read-only, and the read-only ones in
the home directory do not lie in each other. -/
structure Separate (mounts : List ContainerMount) (home : Str)
    (files : List Str) : Prop where
  disjoint : (mounts.map (·.target)).Pairwise fun target target' =>
    NotAbove home files target target' ∧ NotAbove home files target' target
  readOnly : ∀ mount ∈ mounts, Covers nodeCacheContainerDir mount.target ∨
    Covers nodeConfigContainerRoot mount.target → mount.readOnly = true
  files : files.Pairwise fun target target' => ¬ Covers target target' ∧ ¬ Covers target' target

theorem mountOverlap_of_below
    {first second : Str} (h : first ++ ['/'] <+: second) :
  mountOverlap first second = some (first, second)
  := if_pos (List.isPrefixOf_iff_prefix.mpr h)

theorem mountOverlap_of_below_right
    {first second : Str} (h : second ++ ['/'] <+: first) :
  mountOverlap first second = some (second, first)
  := by
  have hnot : ¬ first ++ ['/'] <+: second := by
    intro hother
    have hlength := h.length_le
    have hlength' := hother.length_le
    simp only [List.length_append, List.length_singleton] at hlength hlength'
    omega
  rw [mountOverlap, if_neg fun hp => hnot (List.isPrefixOf_iff_prefix.mp hp),
    if_pos (List.isPrefixOf_iff_prefix.mpr h)]

/-- A clean path is clean with white space behind it. -/
theorem clean_append_space {p space : Str} (habs : isAbs p = true) (hclean : clean p = p)
    (hspace : ∀ c ∈ space, isSpace c = true) :
  clean (p ++ space) = p ++ space
  := by
  have hslash : '/' ∉ space := fun h => absurd (hspace _ h) (by decide)
  have hdot : '.' ∉ space := fun h => absurd (hspace _ h) (by decide)
  by_cases hnil : space = []
  · rw [hnil, List.append_nil, hclean]
  obtain ⟨hp, hproper⟩ := eq_slash_join habs hclean
  rcases List.eq_nil_or_concat (elements p) with hroot | ⟨es, e, hes⟩
  · have hjoin : p ++ space = '/' :: join [space] := by
      rw [hp, hroot]
      simp [join, List.intercalate]
    rw [hjoin]
    refine clean_slash_join (fun e he => ?_) (List.cons_ne_nil _ _)
    obtain rfl := List.mem_singleton.mp he
    refine ⟨hnil, ?_, ?_, hslash⟩ <;> rintro rfl <;> simp [dot, dotDot] at hdot
  · rw [hes] at hp hproper
    have he := hproper e (by simp)
    have hjoin : p ++ space = '/' :: join (es ++ [e ++ space]) := by
      rw [hp]
      by_cases hnil' : es = []
      · simp [hnil', join, List.intercalate]
      · rw [List.concat_eq_append, join_append hnil' (List.cons_ne_nil _ _),
          join_append hnil' (List.cons_ne_nil _ _)]
        simp [join, List.intercalate]
    rw [hjoin]
    refine clean_slash_join (fun f hf => ?_) (by simp)
    rcases List.mem_append.mp hf with hf | hf
    · exact hproper f (by simp [hf])
    · obtain rfl := List.mem_singleton.mp hf
      refine ⟨fun h => hnil (List.append_eq_nil_iff.mp h).2, ?_, ?_, ?_⟩
      · intro h
        have hlast : space.getLast? = some '.' := by
          rw [← List.getLast?_append_of_ne_nil e hnil, h]
          rfl
        exact hdot (List.mem_of_getLast? hlast)
      · intro h
        have hlast : space.getLast? = some '.' := by
          rw [← List.getLast?_append_of_ne_nil e hnil, h]
          rfl
        exact hdot (List.mem_of_getLast? hlast)
      · intro h
        exact (List.mem_append.mp h).elim he.no_slash hslash

/-- Only the end of an absolute path is trimmed. -/
theorem trim_of_isAbs {target : Str} (habs : isAbs target = true) :
  trim target = (target.reverse.dropWhile isSpace).reverse
  := by
  cases target with
  | nil => cases habs
  | cons c rest =>
    rw [isAbs, List.head?_cons, decide_eq_true_eq, Option.some.injEq] at habs
    subst habs
    rfl

/-- The absolute target of a sound mount is clean. -/
theorem clean_target {mount : ContainerMount} (h : Sound mount) (habs : isAbs mount.target = true) :
  clean mount.target = mount.target
  := by
  have hsplit : mount.target
      = trim mount.target ++ (mount.target.reverse.takeWhile isSpace).reverse := by
    rw [trim_of_isAbs habs, ← List.reverse_append, List.takeWhile_append_dropWhile,
      List.reverse_reverse]
  rw [hsplit]
  apply clean_append_space h.isAbs h.clean
  intro c hc
  exact List.mem_takeWhile_imp (List.mem_reverse.mp hc)

/-- What is below a directory is so without the white space behind it. -/
theorem prefix_trim {dir target : Str} (habs : isAbs target = true)
    (h : dir ++ ['/'] <+: target) :
  dir ++ ['/'] <+: trim target
  := by
  obtain ⟨rest, rfl⟩ := h
  have hslash : (dir ++ ['/']).reverse.dropWhile isSpace = (dir ++ ['/']).reverse := by
    rw [List.reverse_append]
    exact List.dropWhile_cons_of_neg (by decide)
  rw [trim_of_isAbs habs, List.reverse_append, List.dropWhile_append, hslash]
  split
  · rw [List.reverse_reverse]
  · rw [List.reverse_append, List.reverse_reverse]
    exact List.prefix_append _ _

/-- What covers a directory of the node is refused. -/
theorem isNodeOwnedTarget_of_covers {mount : ContainerMount} (hsound : Sound mount)
    (h : Covers nodeCacheContainerDir mount.target ∨ Covers nodeConfigContainerRoot mount.target) :
  isNodeOwnedTarget (trim mount.target) = true
  := by
  have hcover : ∀ dir : Str, isAbs dir = true → clean dir = dir → dir ≠ ['/'] →
      trim dir = dir → Covers dir mount.target →
      trim mount.target = dir ∨ (dir ++ ['/']).isPrefixOf (trim mount.target) = true := by
    rintro dir hdir hdirclean hroot htrim ⟨-, habs, hcovers⟩
    rcases prefix_of_elements_prefix hdir hdirclean hroot habs (clean_target hsound habs) hcovers
      with h | h
    · exact Or.inl (h ▸ htrim)
    · exact Or.inr (List.isPrefixOf_iff_prefix.mpr (prefix_trim habs h))
  rw [isNodeOwnedTarget]
  rcases h with h | h
  · rcases hcover _ (by decide) (by decide) (by decide) (by decide) h with heq | hprefixed
    · simp [heq]
    · simp [hprefixed]
  · rcases hcover _ (by decide) (by decide) (by decide) (by decide) h with heq | hprefixed
    · simp [heq]
    · simp [hprefixed]

/-- What lies below a target other than the root is seen to do so. -/
theorem prefix_of_covers
    {mount mount' : ContainerMount} (hsound : Sound mount) (hsound' : Sound mount')
    (hroot : mount.target ≠ ['/']) (hne : trim mount.target ≠ trim mount'.target)
    (h : Covers mount.target mount'.target) :
  mount.target ++ ['/'] <+: mount'.target
  := by
  obtain ⟨habs, habs', h⟩ := h
  rcases prefix_of_elements_prefix habs (clean_target hsound habs) hroot habs'
    (clean_target hsound' habs') h with heq | hbelow
  · rw [heq] at hne
    exact absurd rfl hne
  · exact hbelow

/-- Mounts that are accepted are separate exactly if none is at the root. -/
theorem separate_iff_of_valid
    {home : Str}
    {files : List Str} (hvalid : validateContainerMounts mounts nested = .ok ())
    (hnested : ∀ contract ∈ nested, contract.parent = home ∧ contract.child ∈ files)
    (hfiles : (home :: files).Sublist (mounts.map (·.target)))
    (hin : (jobInContainerDir :: files).Sublist (mounts.map (·.target))) :
  Separate mounts home files ↔ ['/'] ∉ mounts.map (·.target)
  := by
  obtain ⟨u, htargets, hoverlaps⟩ := bind_eq_ok.mp hvalid
  obtain ⟨hsound, -, hdistinct⟩ := checkTargets_spec htargets
  have hpermitted := checkOverlaps_spec hoverlaps
  have hnodup : (mounts.map (·.target)).Nodup := by
    rw [List.Nodup, List.pairwise_map]
    refine hdistinct.imp fun hne heq => hne ?_
    rw [heq]
  constructor
  · -- The root is above the input of the job, which is no file of the home directory.
    intro hseparate hmem
    have hpair := hseparate.disjoint.forall hmem (hin.mem List.mem_cons_self) (by decide)
    exact (List.nodup_cons.mp (hnodup.sublist hin)).1 (hpair.1 (by decide)).2
  · intro hroot
    replace hroot : ∀ mount ∈ mounts, mount.target ≠ ['/'] := by
      intro mount hm heq
      exact hroot (heq ▸ List.mem_map_of_mem hm)
    have hdisjoint : (mounts.map (·.target)).Pairwise fun target target' =>
        NotAbove home files target target' ∧ NotAbove home files target' target := by
      apply List.pairwise_map.mpr
      apply List.Pairwise.imp_of_mem _ (hdistinct.and hpermitted)
      rintro mount mount' hm hm' ⟨hne, hpermit⟩
      constructor
      · intro hcovers
        have hbelow := prefix_of_covers (hsound mount hm) (hsound mount' hm') (hroot mount hm) hne
          hcovers
        exact hnested _ (hpermit _ _ (mountOverlap_of_below hbelow))
      · intro hcovers
        have hbelow := prefix_of_covers (hsound mount' hm') (hsound mount hm) (hroot mount' hm')
          hne.symm hcovers
        exact hnested _ (hpermit _ _ (mountOverlap_of_below_right hbelow))
    have hhome : home ∉ files := (List.nodup_cons.mp (hnodup.sublist hfiles)).1
    refine ⟨hdisjoint, ?_, ?_⟩
    · intro mount hm hcovers
      exact (hsound mount hm).readOnly (isNodeOwnedTarget_of_covers (hsound mount hm) hcovers)
    · -- A file in another one would be in the home directory itself, which is no file.
      have hpairs := (List.pairwise_cons.mp (hdisjoint.sublist hfiles)).2
      refine hpairs.imp_of_mem fun ht ht' hpair => ⟨fun hcovers => ?_, fun hcovers => ?_⟩
      · exact hhome ((hpair.1 hcovers).1 ▸ ht)
      · exact hhome ((hpair.2 hcovers).1 ▸ ht')

/-! ### Containers -/

/-- The targets of the read-only records of the home directory. -/
def readOnlyHomeTargets (manifest : StepManifest) (homeDir : Str) : List Str :=
  match parseEntries manifest with
  | .ok parsed => (homeMounts homeDir [] parsed).map (·.target)
  | .error _ => []

/-- The targets that a step says itself. -/
def manifestTargets (manifest : StepManifest) (homeDir : Str) : List Str :=
  (workspaceMount manifest []).target :: homeDir :: readOnlyHomeTargets manifest homeDir

theorem homeMounts_target (homeDir staging staging' : Str)
    (parsed : List (HydraFileKind × ParsedStoredEntry)) :
  (homeMounts homeDir staging parsed).map (·.target)
    = (homeMounts homeDir staging' parsed).map (·.target)
  := by
  rw [homeMounts, homeMounts, List.map_filterMap, List.map_filterMap]
  congr 1
  funext record
  split <;> rfl

theorem workspaceMount_target (manifest : StepManifest) (workspace workspace' : Str) :
  (workspaceMount manifest workspace).target = (workspaceMount manifest workspace').target
  := by
  rw [workspaceMount, workspaceMount]
  split <;> rfl

variable {homeDir : Str}

theorem buildCommonJobMounts_eq_ok
    {jobMounts : JobMounts} {common : List ContainerMount}
    (h : buildCommonJobMounts jobMounts homeDir = .ok common) :
  common = commonJobMounts jobMounts homeDir
  := by
  obtain ⟨u, -, h⟩ := bind_eq_ok.mp h
  obtain ⟨u, -, h⟩ := bind_eq_ok.mp h
  obtain ⟨u, -, h⟩ := bind_eq_ok.mp h
  cases h
  rfl

/-- The targets of the common mounts are fixed, but for the home directory. -/
theorem commonJobMounts_target (jobMounts : JobMounts) (homeDir : Str) :
  (commonJobMounts jobMounts homeDir).map (·.target)
    = [jobInContainerDir, jobOutContainerDir, jobTmpContainerDir, jobCacheContainerDir]
      ++ homeDir :: [jobShareContainerDir, jobRuntimeContainerDir, nodeCacheContainerDir,
        nodeConfigContainerDir, jobConfigContainerDir]
  := rfl

theorem root_mem_commonJobMounts (jobMounts : JobMounts) (homeDir : Str) :
  ['/'] ∈ (commonJobMounts jobMounts homeDir).map (·.target) ↔ homeDir = ['/']
  := by
  rw [commonJobMounts_target, List.mem_append, or_iff_right (by decide), List.mem_cons,
    or_iff_left (by decide), eq_comm]

theorem home_mem_commonJobMounts (jobMounts : JobMounts) (homeDir : Str) :
  homeDir ∈ (commonJobMounts jobMounts homeDir).map (·.target)
  := by
  simp [commonJobMounts_target]

theorem in_mem_commonJobMounts (jobMounts : JobMounts) (homeDir : Str) :
  jobInContainerDir ∈ (commonJobMounts jobMounts homeDir).map (·.target)
  := List.mem_cons_self

/-- The mounts of a container are separate unless one is at the root. -/
theorem buildContainerSpec_separate_iff
    {host : Host} {manifest : StepManifest} {workspace : Str} {jobMounts : JobMounts}
    {spec : ContainerSpec}
    (hhome : resolveJobHome manifest.envs = .ok homeDir)
    (h : buildContainerSpec host manifest workspace jobMounts = .ok spec) :
  Separate spec.mounts homeDir (readOnlyHomeTargets manifest homeDir)
    ↔ ['/'] ∉ manifestTargets manifest homeDir
  := by
  obtain ⟨homeDir', hhome', h⟩ := bind_eq_ok.mp h
  rw [mapError_eq_ok, hhome] at hhome'
  cases hhome'
  obtain ⟨common, hcommon, h⟩ := bind_eq_ok.mp h
  obtain rfl := buildCommonJobMounts_eq_ok (mapError_eq_ok.mp hcommon)
  obtain ⟨parsed, hparsed, h⟩ := bind_eq_ok.mp h
  obtain ⟨u, hvalid, h⟩ := bind_eq_ok.mp h
  obtain ⟨env, -, h⟩ := bind_eq_ok.mp h
  cases h
  have hfiles : readOnlyHomeTargets manifest homeDir
      = (homeMounts homeDir jobMounts.staging parsed).map (·.target) := by
    rw [readOnlyHomeTargets, hparsed]
    exact homeMounts_target homeDir [] jobMounts.staging parsed
  have hsublist : ∀ target ∈ (commonJobMounts jobMounts homeDir).map (·.target),
      (target :: readOnlyHomeTargets manifest homeDir).Sublist
        ((workspaceMount manifest workspace :: commonJobMounts jobMounts homeDir
          ++ homeMounts homeDir jobMounts.staging parsed
          ++ socketMounts host manifest).map (·.target)) := by
    intro target htarget
    rw [hfiles, List.append_assoc, List.map_append, List.map_append]
    exact (List.singleton_sublist.mpr (List.mem_cons_of_mem _ htarget)).append
      (List.sublist_append_left _ _)
  have hsocket : ['/'] ∉ (socketMounts host manifest).map (·.target) := by
    unfold socketMounts
    split <;> decide
  rw [separate_iff_of_valid (mapError_eq_ok.mp hvalid) _
    (hsublist _ (home_mem_commonJobMounts jobMounts homeDir))
    (hsublist _ (in_mem_commonJobMounts jobMounts homeDir))]
  · rw [List.map_append, List.map_append, List.map_cons, List.mem_append, List.mem_append,
      List.mem_cons, root_mem_commonJobMounts, ← hfiles, or_iff_left hsocket, manifestTargets,
      List.mem_cons, List.mem_cons, or_assoc, workspaceMount_target manifest workspace [],
      eq_comm (a := homeDir)]
  · intro contract hcontract
    obtain ⟨mount, hmount, rfl⟩ := List.mem_map.mp hcontract
    rw [hfiles]
    exact ⟨rfl, List.mem_map_of_mem hmount⟩

/-- The mounts of a gate are those from before the socket, or have a socket that is not at the root.
-/
theorem appendDockerHostSocketMount_cases (host : Host) (mounts : List ContainerMount) (env : Env) :
  ∃ socket, appendDockerHostSocketMount host mounts env = mounts ++ socket
    ∧ ['/'] ∉ socket.map (·.target)
  := by
  unfold appendDockerHostSocketMount
  dsimp only
  split
  · exact ⟨[], (List.append_nil _).symm, List.not_mem_nil⟩
  · split
    · next hfile =>
        refine ⟨_, rfl, fun hroot => ?_⟩
        have hroot : ['/'] = dockerHostSocketPathFromEnv env := List.mem_singleton.mp hroot
        rw [← hroot, host.root_isFile] at hfile
        cases hfile
    · exact ⟨[], (List.append_nil _).symm, List.not_mem_nil⟩

/-- The mounts of a gate are separate unless home is the root. -/
theorem gateContainer_separate_iff
    {host : Host} {env : Env} {workspace : Str} {jobMounts : JobMounts}
    {spec : ContainerSpec} (hhome : resolveJobHome env = .ok homeDir)
    (h : gateContainer host env workspace jobMounts = .ok spec) :
  Separate spec.mounts homeDir [] ↔ homeDir ≠ ['/']
  := by
  obtain ⟨homeDir', hhome', h⟩ := bind_eq_ok.mp h
  rw [mapError_eq_ok, hhome] at hhome'
  cases hhome'
  obtain ⟨assembled, hassembled, h⟩ := bind_eq_ok.mp h
  obtain ⟨common, hcommon, hassembled⟩ := bind_eq_ok.mp hassembled
  obtain rfl := buildCommonJobMounts_eq_ok (mapError_eq_ok.mp hcommon)
  cases hassembled
  obtain ⟨reserved, -, h⟩ := bind_eq_ok.mp h
  obtain ⟨u, hvalid, h⟩ := bind_eq_ok.mp h
  cases h
  obtain ⟨socket, hmounts, hsocket⟩ := appendDockerHostSocketMount_cases host
    (⟨workspace, "/workspace".toList, false⟩ :: commonJobMounts jobMounts homeDir) reserved
  rw [hmounts] at hvalid ⊢
  have hsublist : ∀ target ∈ (commonJobMounts jobMounts homeDir).map (·.target),
      [target].Sublist ((⟨workspace, "/workspace".toList, false⟩ :: commonJobMounts
        jobMounts homeDir
        ++ socket).map (·.target)) := by
    intro target htarget
    rw [List.map_append]
    exact List.singleton_sublist.mpr (List.mem_append_left _ (List.mem_cons_of_mem _ htarget))
  rw [separate_iff_of_valid (mapError_eq_ok.mp hvalid) nofun
    (hsublist _ (home_mem_commonJobMounts jobMounts homeDir))
    (hsublist _ (in_mem_commonJobMounts jobMounts homeDir))]
  have hworkspace : ['/'] ≠ "/workspace".toList := by decide
  rw [List.map_append, List.mem_append, or_iff_left hsocket, List.map_cons, List.mem_cons,
    or_iff_right hworkspace, root_mem_commonJobMounts]

/-- The mounts of a container that is built are separate exactly if none of the targets a step says
itself is the root, and those of a gate exactly if its home directory is not. -/
theorem container_mounts_separate (host : Host) (workspace : Str) (jobMounts : JobMounts) :
  (∀ (manifest : StepManifest) (spec : ContainerSpec) (homeDir : Str),
    resolveJobHome manifest.envs = .ok homeDir →
    buildContainerSpec host manifest workspace jobMounts = .ok spec →
    (Separate spec.mounts homeDir (readOnlyHomeTargets manifest homeDir)
      ↔ ['/'] ∉ manifestTargets manifest homeDir)) ∧
  (∀ (env : Env) (spec : ContainerSpec) (homeDir : Str), resolveJobHome env = .ok homeDir →
    gateContainer host env workspace jobMounts = .ok spec →
    (Separate spec.mounts homeDir [] ↔ homeDir ≠ ['/']))
  := by
  constructor
  · intro manifest spec homeDir hhome h
    exact buildContainerSpec_separate_iff hhome h
  · intro env spec homeDir hhome h
    exact gateContainer_separate_iff hhome h

/-! #### The root as home directory -/

namespace Sample

def jobMounts : JobMounts where
  cache := "/j/cache".toList
  home := "/j/home".toList
  input := "/j/in".toList
  out := "/j/out".toList
  staging := "/j/staging".toList
  tmp := "/j/tmp".toList
  share := "/r/share".toList
  runtimeShare := "/r/runtime".toList
  nodeCache := "/n/cache".toList
  commonConfig := "/n/common".toList
  jobConfig := "/n/job".toList
  jobType := some .mig

/-- A host with the usual socket. -/
def host : Host where
  isFile := fun path => path = dockerSocket
  root_isFile := by decide

/-- A step with a home directory, a mount path and one read-only file. -/
def manifest (home mountPath : String) : StepManifest where
  inputs := [⟨mountPath.toList, false⟩]
  envs := [("HOME".toList, home.toList)]
  entries := fun kind => if kind = .home then ["abcdef0:.npmrc:ro".toList] else []
  mountDockerSocket := true
  workingDir := []

/-- The targets of the container of a step. -/
def targets (home mountPath : String) : Except BuildError (List String) :=
  (buildContainerSpec host (manifest home mountPath) "/w".toList jobMounts).map
    fun spec => spec.mounts.map fun mount => String.ofList mount.target

def gateTargets (home : String) : Except BuildError (List String) :=
  (gateContainer host [("HOME".toList, home.toList)] "/w".toList jobMounts).map
    fun spec => spec.mounts.map fun mount => String.ofList mount.target

theorem exists_of_targets
    {home mountPath : String} {texts : List String} (h : targets home mountPath = .ok texts) :
  ∃ spec, buildContainerSpec host (manifest home mountPath) "/w".toList jobMounts = .ok spec
    ∧ spec.mounts.map (fun mount => String.ofList mount.target) = texts
  := by
  unfold targets at h
  cases hspec : buildContainerSpec host (manifest home mountPath) "/w".toList jobMounts with
  | error e =>
    rw [hspec] at h
    cases h
  | ok spec =>
    rw [hspec] at h
    exact ⟨spec, rfl, Except.ok.inj h⟩

theorem exists_of_gateTargets
    {home : String} {texts : List String} (h : gateTargets home = .ok texts) :
  ∃ spec, gateContainer host [("HOME".toList, home.toList)] "/w".toList jobMounts = .ok spec
    ∧ spec.mounts.map (fun mount => String.ofList mount.target) = texts
  := by
  unfold gateTargets at h
  cases hspec : gateContainer host [("HOME".toList, home.toList)] "/w".toList jobMounts with
  | error e =>
    rw [hspec] at h
    cases h
  | ok spec =>
    rw [hspec] at h
    exact ⟨spec, rfl, Except.ok.inj h⟩

end Sample

theorem container_mounts_separate_sample :
  (∃ spec, buildContainerSpec Sample.host (Sample.manifest "/home/u" "/workspace") "/w".toList
      Sample.jobMounts = .ok spec
    ∧ Separate spec.mounts "/home/u".toList
      (readOnlyHomeTargets (Sample.manifest "/home/u" "/workspace") "/home/u".toList)) ∧
  ∃ spec, gateContainer Sample.host [("HOME".toList, "/home/u".toList)] "/w".toList
      Sample.jobMounts = .ok spec ∧ Separate spec.mounts "/home/u".toList []
  := by
  have htargets : Sample.targets "/home/u" "/workspace" = .ok ["/workspace", "/in", "/out", "/tmp",
      "/ploy/cache/job", "/home/u", "/share", "/run-share", "/ploy/cache/node",
      "/ploy/config/common", "/ploy/config/job", "/home/u/.npmrc", "/var/run/docker.sock"] := by
    decide +kernel
  have hgate : Sample.gateTargets "/home/u" = .ok ["/workspace", "/in", "/out", "/tmp",
      "/ploy/cache/job", "/home/u", "/share", "/run-share", "/ploy/cache/node",
      "/ploy/config/common", "/ploy/config/job"] := by
    decide +kernel
  obtain ⟨spec, hspec, -⟩ := Sample.exists_of_targets htargets
  obtain ⟨gate, hgate, -⟩ := Sample.exists_of_gateTargets hgate
  refine ⟨⟨spec, hspec, ?_⟩, gate, hgate, ?_⟩
  · exact ((container_mounts_separate _ _ _).1 _ _ _ (by decide) hspec).mpr (by decide +kernel)
  · exact ((container_mounts_separate _ _ _).2 _ _ _ (by decide) hgate).mpr (by decide)

/-- With the root as home directory, every target is below it, in the container of a step and in
that of a gate. Nothing is refused, as the root with a slash behind it is the beginning of no
target. -/
theorem container_mounts_overlap :
  (∃ spec, buildContainerSpec Sample.host (Sample.manifest "/" "/workspace") "/w".toList
      Sample.jobMounts = .ok spec
    ∧ spec.mounts.map (fun mount => String.ofList mount.target) = ["/workspace", "/in", "/out",
      "/tmp", "/ploy/cache/job", "/", "/share", "/run-share", "/ploy/cache/node",
      "/ploy/config/common", "/ploy/config/job", "/.npmrc", "/var/run/docker.sock"]) ∧
  (∃ spec, gateContainer Sample.host [("HOME".toList, "/".toList)] "/w".toList Sample.jobMounts
      = .ok spec
    ∧ spec.mounts.map (fun mount => String.ofList mount.target) = ["/workspace", "/in", "/out",
      "/tmp", "/ploy/cache/job", "/", "/share", "/run-share", "/ploy/cache/node",
      "/ploy/config/common", "/ploy/config/job"]) ∧
  Covers "/".toList "/in".toList ∧ Covers "/".toList "/ploy/config/job".toList
  := by
  refine ⟨?_, ?_, by decide, by decide⟩
  · apply Sample.exists_of_targets
    decide +kernel
  · apply Sample.exists_of_gateTargets
    decide +kernel

end Mounts

end Ploy
