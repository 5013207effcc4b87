import Ploy.Spec.Composition
import Ploy.Spec.Placeholders

/-!
# The compiler of specs

A spec is read, the steps it refers to are put in place, its placeholders are filled in, and the
files its records name are taken up. What results has to keep the contract of a spec.
-/

namespace Ploy

open Dictionary
open Bounded
open JsonText (Value)
open Yaml (Node)
open Contract (StackExpectation Numbers ContractError)

/-- The members of an object. -/
abbrev Object := List (Str × Value)

/-- What a compiler works with. -/
structure Compiler where
  source : Source
  yaml : YamlReader
  numbers : Numbers
  lookupEnv : Environment
  applyOverlay : Object → Except Str Object
  /-- Stores the archive with a content identifier, and names it. -/
  bundles : Option (Str → List UInt8 → Except Str Str)
  archiveShortHash : List UInt8 → Str
  bundleCID : List UInt8 → Str

/-! ### Failures -/

/-- Why a text is no spec. -/
inductive ParseError where
  | workingDir (error : Str)
  | compose (error : ComposeError)
  | expectedObject
  | empty
  deriving DecidableEq, Repr

/-- Why a step cannot be selected by its name. -/
inductive SelectError where
  | stepsNoArray (path : Str)
  | stepNoObject (path : Str) (i : Nat)
  | nameRequired (path : Str) (i : Nat)
  | duplicateName (path : Str) (i : Nat) (name : Str) (first : Nat)
  | notFound (path name : Str)
  deriving DecidableEq, Repr

/-- Why the step that another refers to cannot be put in place. -/
inductive RefError where
  | step (i : Nat) (error : RefError)
  | wrapperKeys
  | refRequired
  | expectedPathAndName
  | pathRequired
  | nameRequired
  | resolve (error : Str)
  | load (error : Str)
  | cycle (ids : List Str)
  | read (path error : Str)
  | parse (path : Str) (error : ParseError)
  | select (error : SelectError)
  | envsNoObject
  | importedEnvsNoObject
  | envNoString (key : Str)
  deriving DecidableEq, Repr

/-- Where a placeholder stands. -/
inductive PlaceholderSite where
  | stepImage (i : Nat)
  | stepImageOf (i : Nat) (stack : Str)
  | env (key : Str)
  | stepEnv (i : Nat) (key : Str)
  deriving DecidableEq, Repr

/-- Why the placeholders of a spec cannot be filled in. -/
inductive PlaceholderError where
  | unresolved (site : PlaceholderSite) (names : List Str)
  | envNoString (site : PlaceholderSite)
  | buildGateNoObject
  | ruleStackNoObject (i : Nat)
  | ruleLanguage (i : Nat)
  | ruleTool (i : Nat)
  | ruleRelease (i : Nat)
  | ruleImage (i : Nat) (fault : TemplateFault)
  deriving DecidableEq, Repr

/-- Why a file that a record names cannot be taken up. -/
inductive SourceFault where
  | resolve (error : Str)
  | stat (path error : Str)
  | archive (error : Str)
  | persist (error : Str)
  deriving DecidableEq, Repr

/-- Why the include of a mounted file leads nowhere. -/
inductive MountFault where
  | read (dst error : Str)
  | decode (dst error : Str)
  | emptyPath (ref : Str)
  | fragmentWithoutSlash (ref : Str)
  | notBelowIn (ref target : Str)
  | stat (ref path error : Str)
  | notMounted (ref target : Str)
  deriving DecidableEq, Repr

/-- Why the variables of a caller cannot be put over those of a step. -/
inductive StepEnvError where
  | stepsNoArray
  | stepNoObject (i : Nat)
  | notUnique (name : Str)
  | notFound (name : Str)
  | envsNoObject (name : Str)
  | noAssignment (raw : Str)
  | emptyKey (raw : Str)
  deriving DecidableEq, Repr

inductive CompileError where
  | resolveBaseDir (error : Str)
  | resolveSpec (path error : Str)
  | readSpec (path error : Str)
  | workingDir (error : Str)
  | parse (error : ParseError)
  | refs (error : RefError)
  | select (error : SelectError)
  | stepEnvs (error : StepEnvError)
  | placeholders (error : PlaceholderError)
  | overlay (error : Str)
  | marshal
  | contract (error : ContractError)
  | records (step : Nat) (error : BlockError SourceFault)
  | mounts (step : Nat) (fault : MountFault)
  | noBundlePersistence
  | compileRecords (step : Nat) (error : BlockError SourceFault)

/-! ### Reading -/

def composeSpecRootPath (source : Source) (specBaseDir : Str) :
    Except Str Str := do
  let base ← if trim specBaseDir = [] then source.workingDir else .ok (trim specBaseDir)
  return SlashPath.joined base ".root-spec.yaml".toList

namespace Compiler

variable (c : Compiler)

/-- The object that a text in YAML stands for. -/
def parseYAML (fuel : Nat) (data specBaseDir : Str) : Bounded ParseError Object := do
  let rootPath ← lift ((composeSpecRootPath c.source specBaseDir).mapError .workingDir)
  let composed ← (composeSpecYAML fuel c.source c.yaml data rootPath).mapError .compose
  let value ← lift ((decodeComposed c.yaml composed).mapError .compose)
  match value with
  | .object members => return members
  | .null => fail .empty
  | _ => fail .expectedObject

/-- The object that a text stands for, which is taken for YAML when it is no object in JSON. -/
def parseSpecInputToMap (fuel : Nat) (data specBaseDir : Str) :
    Bounded ParseError Object :=
  match JsonText.parse data with
  | some .null => fail .empty
  | some (.object members) =>
    match JsonDocument.decodeMembers c.numbers.float members [] with
    | some members => return members
    | none => c.parseYAML fuel data specBaseDir
  | _ => c.parseYAML fuel data specBaseDir

end Compiler

/-! ### Steps of other specs -/

def stepsKey : Str := "steps".toList

/-- The names of the steps, each once. -/
def stepNames (sourcePath : Str) : Nat → List Value → List (Str × Nat × Object) →
    Except SelectError (List (Str × Nat × Object))
  | _, [], named => .ok named
  | i, .object step :: rest, named =>
    match get step "name".toList with
    | some (.string raw) =>
      if trim raw = [] then .error (.nameRequired sourcePath i)
      else
        match get named (trim raw) with
        | some (first, _) => .error (.duplicateName sourcePath i (trim raw) first)
        | none => stepNames sourcePath (i + 1) rest (named ++ [(trim raw, i, step)])
    | _ => .error (.nameRequired sourcePath i)
  | i, _ :: _, _ => .error (.stepNoObject sourcePath i)

def selectNamedStep (spec : Object) (name sourcePath : Str) : Except SelectError Object :=
  match get spec stepsKey with
  | some (.array steps) => do
      let named ← stepNames sourcePath 0 steps []
      match get named name with
      | some (_, step) => return step
      | none => .error (.notFound sourcePath name)
  | _ => .error (.stepsNoArray sourcePath)

/-- The only step of a spec, if one is asked for. -/
def selectStepInPlace (spec : Object) (selector sourcePath : Str) :
    Except SelectError Object :=
  if trim selector = [] then .ok spec
  else do
    let step ← selectNamedStep spec (trim selector) sourcePath
    return set spec stepsKey (.array [.object step])

/-- A step that refers to another may only change its variables and its image. -/
def validateRefWrapperKeys (step : Object) : Except RefError Unit :=
  if step.all fun member =>
      member.1 = "ref".toList || member.1 = "envs".toList || member.1 = "image".toList then .ok ()
  else .error .wrapperKeys

/-- Variables put over others. -/
def overlayEnvs : Object → Object → Except RefError Object
  | [], merged => .ok merged
  | (key, .string value) :: rest, merged =>
    overlayEnvs rest (set merged key (.string value))
  | (key, _) :: _, _ => .error (.envNoString key)

/-- The variables of a step that is put in place. -/
def importedEnvs (imported : Object) : Except RefError Object :=
  match get imported "envs".toList with
  | none => .ok []
  | some (.object envs) => .ok envs
  | some _ => .error .importedEnvsNoObject

def applyRefStepEnvOverlay (imported wrapper : Object) : Except RefError Object :=
  match get wrapper "envs".toList with
  | none => .ok imported
  | some (.object overlay) => do
      let existing ← importedEnvs imported
      let merged ← overlayEnvs overlay existing
      return if merged = [] then imported
        else set imported "envs".toList (.object merged)
  | some _ => .error .envsNoObject

def applyRefStepImageOverride (imported wrapper : Object) : Object :=
  match get wrapper "image".toList with
  | some image => set imported "image".toList image
  | none => imported

/-- The records of a step, which are taken from the directory of a file. -/
def normalizeStepLocalPaths (sourcePath outputBaseDir : Str) (step : Object) : Object :=
  HydraFileKind.all.foldl (fun step kind =>
    match get step kind.text with
    | some (.array entries) =>
      set step kind.text (.array (entries.map fun
        | .string entry => .string (rebaseMountEntrySource kind entry sourcePath outputBaseDir)
        | entry => entry))
    | _ => step) step

/-- The file and the name of a step that is referred to. A directory stands for the spec in it. -/
def parseSpecStepRef (source : Source) (raw sourcePath : Str) :
    Except RefError (Str × Str) := do
  let ref := trim raw
  if ':' ∉ ref then .error .expectedPathAndName
  let path := trim (beforeLastColon ref)
  let name := trim (afterLastColon ref)
  if path = [] then .error .pathRequired
  if name = [] then .error .nameRequired
  let specPath ← (source.resolveReference path (SlashPath.dirName sourcePath)).mapError .resolve
  let isDir ← (source.stat specPath).mapError .load
  if isDir then do
    let specPath := SlashPath.joined specPath "mig.yaml".toList
    let _ ← (source.stat specPath).mapError .load
    return (specPath, name)
  else return (specPath, name)

namespace Compiler

variable (c : Compiler)

/-- The step that is referred to, where `expand` puts the steps in place that its own spec refers
to. -/
def loadReferencedStepWith
    (expand : Object → Str → List Str → Bounded RefError Object) (fuel : Nat)
    (outputBaseDir raw sourcePath : Str) (stack : List Str) :
    Bounded RefError Object := do
  let (refSpecPath, name) ← lift (parseSpecStepRef c.source raw sourcePath)
  let id := refSpecPath ++ ':' :: name
  match cycleFrom stack id with
  | some cycle => fail (.cycle cycle)
  | none =>
    let data ← lift ((c.source.readFile refSpecPath).mapError (.read refSpecPath))
    let spec ← (c.parseSpecInputToMap fuel data (SlashPath.dirName refSpecPath)).mapError
      (.parse refSpecPath)
    let spec ← expand spec refSpecPath (stack ++ [id])
    let step ← lift ((selectNamedStep spec name refSpecPath).mapError .select)
    return normalizeStepLocalPaths refSpecPath outputBaseDir step

/-- A step of a spec, with the one it refers to in its place. -/
def expandStepWith (load : Str → Bounded RefError Object) (step : Value) :
    Bounded RefError Value :=
  match step with
  | .object wrapper =>
    match get wrapper "ref".toList with
    | none => return step
    | some raw => do
        lift (validateRefWrapperKeys wrapper)
        match raw with
        | .string ref =>
          if trim ref = [] then fail .refRequired
          else do
            let imported ← load ref
            let imported ← lift (applyRefStepEnvOverlay imported wrapper)
            return .object (applyRefStepImageOverride imported wrapper)
        | _ => fail .refRequired
  | _ => return step

def expandStepsWith (load : Str → Bounded RefError Object) :
    Nat → List Value → Bounded RefError (List Value)
  | _, [] => return []
  | i, step :: rest => do
      let step ← (expandStepWith load step).mapError (.step i)
      let rest ← expandStepsWith load (i + 1) rest
      return step :: rest

def expandSpecRefsInPlaceWithStack (outputBaseDir : Str) :
    Nat → Object → Str → List Str → Bounded RefError Object
  | 0, _, _, _ => exhausted
  | fuel + 1, spec, sourcePath, stack =>
    match get spec stepsKey with
    | some (.array steps) => do
        let steps ← expandStepsWith (fun ref =>
          c.loadReferencedStepWith (expandSpecRefsInPlaceWithStack outputBaseDir fuel) fuel
            outputBaseDir ref sourcePath stack) 0 steps
        return set spec stepsKey (.array steps)
    | _ => return spec

/-- The steps that the steps of a spec refer to are put in their places. -/
def expandSpecRefsInPlace (fuel : Nat) (spec : Object) (sourcePath : Str) :
    Bounded RefError Object :=
  c.expandSpecRefsInPlaceWithStack (SlashPath.dirName sourcePath) fuel spec sourcePath []

end Compiler

/-! ### Placeholders -/

/-- A change of a list, element by element, that may fail. -/
def mapWithIndex {ε : Type} (f : Nat → Value → Except ε Value) : Nat → List Value →
    Except ε (List Value)
  | _, [] => .ok []
  | i, v :: rest => do
      let v ← f i v
      let rest ← mapWithIndex f (i + 1) rest
      return v :: rest

/-- A change of the values of an object that may fail. -/
def mapMembers {ε : Type} (f : Str → Value → Except ε Value) : Object → Except ε Object
  | [] => .ok []
  | (key, v) :: rest => do
      let v ← f key v
      let rest ← mapMembers f rest
      return (key, v) :: rest

/-- A change of the steps of a spec that are objects. -/
def mapSteps {ε : Type} (f : Nat → Object → Except ε Object) (spec : Object) :
    Except ε Object :=
  match get spec stepsKey with
  | some (.array steps) => do
      let steps ← mapWithIndex (fun i step =>
        match step with
        | .object step => (f i step).map .object
        | step => .ok step) 0 steps
      return set spec stepsKey (.array steps)
  | _ => .ok spec

/-- A part of the stack of a rule. -/
def ruleText (fault : PlaceholderError) : Option Value → Except PlaceholderError Str
  | none | some .null => .ok []
  | some (.string s) => .ok (trim s)
  | some _ => .error fault

/-- The release of the stack of a rule, which may be a number. -/
def ruleReleaseText (numbers : Numbers) (fault : PlaceholderError) :
    Option Value → Except PlaceholderError Str
  | some (.number literal) =>
    match numbers.scalarRelease literal with
    | some release => .ok (trim release)
    | none => .error fault
  | v => ruleText fault v

def stackExpectationFromBuildGateRule (numbers : Numbers) (i : Nat) (rule : Object) :
    Except PlaceholderError (Option StackExpectation) :=
  match get rule "stack".toList with
  | none | some .null => .ok none
  | some (.object stack) => do
      let language ← ruleText (.ruleLanguage i) (get stack "language".toList)
      let tool ← ruleText (.ruleTool i) (get stack "tool".toList)
      let release ← ruleReleaseText numbers (.ruleRelease i) (get stack "release".toList)
      return some ⟨language, tool, release⟩
  | some _ => .error (.ruleStackNoObject i)

/-- The image of a rule of the build gate. Its variables are those of the process. -/
def resolveImageRule (numbers : Numbers) (process : Environment) (i : Nat) (rule : Value) :
    Except PlaceholderError Value :=
  match rule with
  | .object members =>
    match get members "image".toList with
    | some (.string image) => do
        let stack ← stackExpectationFromBuildGateRule numbers i members
        let expanded ← (expandImageTemplate process image stack).mapError (.ruleImage i)
        return .object (set members "image".toList (.string expanded))
    | _ => .ok rule
  | _ => .ok rule

def resolveBuildGateImageRulesInPlace (numbers : Numbers) (process : Environment)
    (gate : Object) : Except PlaceholderError Object :=
  match get gate "images".toList with
  | some (.array images) => do
      let images ← mapWithIndex (resolveImageRule numbers process) 0 images
      return set gate "images".toList (.array images)
  | _ => .ok gate

namespace Compiler

variable (c : Compiler)

def expandSpecEnvValue (site : PlaceholderSite) (raw : Str) :
    Except PlaceholderError Str :=
  (expandEnv c.lookupEnv raw).mapError (.unresolved site)

def resolveImageInSection (i : Nat) (step : Object) : Except PlaceholderError Object :=
  match get step "image".toList with
  | some (.string image) => do
      let expanded ← c.expandSpecEnvValue (.stepImage i) image
      return set step "image".toList (.string expanded)
  | some (.object images) => do
      let images ← mapMembers (fun stack image =>
        match image with
        | .string image => (c.expandSpecEnvValue (.stepImageOf i stack) image).map .string
        | image => .ok image) images
      return set step "image".toList (.object images)
  | _ => .ok step

def resolveImageEnvInPlace (process : Environment) (spec : Object) :
    Except PlaceholderError Object := do
  let spec ← mapSteps c.resolveImageInSection spec
  match get spec "build_gate".toList with
  | none => return spec
  | some (.object gate) =>
    let gate ← resolveBuildGateImageRulesInPlace c.numbers process gate
    return set spec "build_gate".toList (.object gate)
  | some _ => .error .buildGateNoObject

/-- The variables of a spec or of a step. -/
def resolveEnvsInPlace (site : Str → PlaceholderSite) (spec : Object) :
    Except PlaceholderError Object :=
  match get spec "envs".toList with
  | some (.object envs) => do
      let envs ← mapMembers (fun key value =>
        match value with
        | .string value => (c.expandSpecEnvValue (site key) value).map .string
        | _ => .error (.envNoString (site key))) envs
      return set spec "envs".toList (.object envs)
  | _ => .ok spec

/-- All placeholders of a spec. -/
def preprocessMigsSpecInPlace (process : Environment) (spec : Object) :
    Except PlaceholderError Object := do
  let spec ← c.resolveImageEnvInPlace process spec
  let spec ← c.resolveEnvsInPlace .env spec
  mapSteps (fun i => c.resolveEnvsInPlace (.stepEnv i)) spec

end Compiler

/-! ### The files of the records -/

/-- A file that a step mounts below `/in`. One that is stored already has no source here. -/
structure LocalInMount where
  dst : Str
  src : Str
  isDir : Bool
  deriving DecidableEq, Repr

/-- The extension of a path. -/
def pathExt (p : Str) : Str :=
  let name := (p.reverse.takeWhile (· ≠ '/')).reverse
  if '.' ∈ name then '.' :: (name.reverse.takeWhile (· ≠ '.')).reverse else []

def lowerAscii (s : Str) : Str :=
  s.map fun c => if 'A' ≤ c ∧ c ≤ 'Z' then Char.ofNat (c.toNat + 32) else c

def isYAMLPath (p : Str) : Bool :=
  let ext := lowerAscii (pathExt p)
  ext = ".yaml".toList || ext = ".yml".toList

/-- Where the include of a mounted file leads: the file beside it, and where that is mounted. -/
def parseMountedIncludeRef (src dst raw : Str) :
    Except MountFault (Option Str × Str) := do
  let (path, pointer) := splitIncludeRef raw
  if trim raw = [] then .error (.emptyPath raw)
  if pointer ≠ [] ∧ pointer.head? ≠ some '/' then .error (.fragmentWithoutSlash raw)
  if path = [] then .error (.emptyPath raw)
  let (localPath, runtimePath) :=
    if SlashPath.isAbs path then (none, SlashPath.clean path)
    else
      (some (SlashPath.clean (SlashPath.joined (SlashPath.dirName src) path)),
        SlashPath.clean (SlashPath.joined (SlashPath.dirName dst) path))
  if HydraFileKind.in.root <+: runtimePath then return (localPath, runtimePath)
  else .error (.notBelowIn raw runtimePath)

/-- What is mounted at a path, or the directory that is mounted above it. -/
def findMountForRuntimePath (runtimePath : Str)
    (byDst : List (Str × LocalInMount)) : Option LocalInMount :=
  match get byDst runtimePath with
  | some mount => some mount
  | none =>
    (byDst.find? fun entry =>
      let below := (entry.2.dst.reverse.dropWhile (· = '/')).reverse ++ ['/']
      entry.2.isDir && below.isPrefixOf runtimePath).map Prod.snd

namespace Compiler

variable (c : Compiler)

def statLocalFileRecordSource (specBaseDir src : Str) :
    Except SourceFault (Str × Bool) := do
  let resolved ← (c.source.resolveFileRecord src specBaseDir).mapError .resolve
  let isDir ← (c.source.stat resolved).mapError (.stat resolved)
  return (resolved, isDir)

/-- The records of one field from a place on. Every record is read, and the source of one that is
not stored yet has to be there. -/
def validateLocalEntries (specBaseDir : Str) (kind : HydraFileKind) :
    Nat → List Value → Except (BlockError SourceFault) (List LocalInMount)
  | _, [] => .ok []
  | i, .string value :: rest =>
    if isAlreadyCanonical value then
      if kind = .in then do
        let parsed ← (parseStoredEntry kind value).mapError fun e => ⟨kind, i, .record e⟩
        let mounts ← validateLocalEntries specBaseDir kind (i + 1) rest
        return ⟨parsed.dst, [], false⟩ :: mounts
      else validateLocalEntries specBaseDir kind (i + 1) rest
    else do
      let entry ← (parseAuthoringEntry kind value).mapError fun e => ⟨kind, i, .record e⟩
      let (resolved, isDir) ← (c.statLocalFileRecordSource specBaseDir entry.src).mapError
        fun e => ⟨kind, i, .source e⟩
      let mounts ← validateLocalEntries specBaseDir kind (i + 1) rest
      return if kind = .in then ⟨entry.dst, resolved, isDir⟩ :: mounts else mounts
  | i, raw :: _ => .error ⟨kind, i, .expectedString raw⟩

def validateLocalHydraEntries (specBaseDir : Str) (step : Object) :
    List HydraFileKind → Except (BlockError SourceFault) (List LocalInMount)
  | [] => .ok []
  | kind :: kinds =>
    match get step kind.text with
    | some (.array entries) => do
        let mounts ← c.validateLocalEntries specBaseDir kind 0 entries
        let more ← validateLocalHydraEntries specBaseDir step kinds
        return mounts ++ more
    | _ => validateLocalHydraEntries specBaseDir step kinds

def collectYAMLIncludeRefs (fuel : Nat) (mount : LocalInMount) :
    Bounded MountFault (List Str) := do
  let data ← lift ((c.source.readFile mount.src).mapError (.read mount.dst))
  match c.yaml.load data with
  | .error e => fail (.decode mount.dst e)
  | .ok none => return []
  | .ok (some file) =>
    ofOption (collectYAMLIncludeRefsFromNode file.anchored fuel file.root)

/-- The includes of a mounted file, from one on, where `visit` looks at what they lead to. -/
def validateMountRefs (byDst : List (Str × LocalInMount)) (mount : LocalInMount)
    (visit : LocalInMount → List (Str × Str) →
      Bounded MountFault (List (Str × Str))) :
    List Str → List (Str × Str) →
      Bounded MountFault (List (Str × Str))
  | [], seen => return seen
  | ref :: refs, seen => do
      let (localPath, runtimePath) ←
        lift (parseMountedIncludeRef mount.src mount.dst ref)
      match localPath with
      | some path =>
        let _ ← lift ((c.source.stat path).mapError (.stat ref path))
      | none => pure ()
      match findMountForRuntimePath runtimePath byDst with
      | none => fail (.notMounted ref runtimePath)
      | some target =>
        let seen ← visit target seen
        validateMountRefs byDst mount visit refs seen

/-- A mounted file and what it includes, each once. -/
def validateMountYAMLIncludes (byDst : List (Str × LocalInMount)) :
    Nat → LocalInMount → List (Str × Str) →
      Bounded MountFault (List (Str × Str))
  | 0, _, _ => exhausted
  | fuel + 1, mount, seen =>
    if mount.src = [] ∨ mount.isDir ∨ isYAMLPath mount.src = false then return seen
    else if (mount.src, mount.dst) ∈ seen then return seen
    else do
      let refs ← c.collectYAMLIncludeRefs fuel mount
      c.validateMountRefs byDst mount (validateMountYAMLIncludes byDst fuel) refs
        ((mount.src, mount.dst) :: seen)

def validateMounts (fuel : Nat) (byDst : List (Str × LocalInMount)) :
    List LocalInMount → List (Str × Str) → Bounded MountFault Unit
  | [], _ => return ()
  | mount :: mounts, seen => do
      let seen ← c.validateMountYAMLIncludes byDst fuel mount seen
      validateMounts fuel byDst mounts seen

/-- What the files mounted below `/in` include has to be mounted, too. -/
def validateMountedYAMLIncludes (fuel : Nat) (mounts : List LocalInMount) :
    Bounded MountFault Unit :=
  let byDst := mounts.foldl (fun d mount =>
    if mount.dst = [] then d else set d mount.dst mount) []
  c.validateMounts fuel byDst mounts []

def validateLocalStepFileRecords (fuel : Nat) (specBaseDir : Str) (i : Nat)
    (step : Object) : Bounded CompileError Unit := do
  let mounts ← lift
    ((c.validateLocalHydraEntries specBaseDir step HydraFileKind.all).mapError (.records i))
  (c.validateMountedYAMLIncludes fuel mounts).mapError (.mounts i)

def validateLocalSteps (fuel : Nat) (specBaseDir : Str) :
    Nat → List Value → Bounded CompileError Unit
  | _, [] => return ()
  | i, .object step :: rest => do
      c.validateLocalStepFileRecords fuel specBaseDir i step
      validateLocalSteps fuel specBaseDir (i + 1) rest
  | i, _ :: rest => validateLocalSteps fuel specBaseDir (i + 1) rest

def validateLocalFileRecords (fuel : Nat) (spec : Object) (specBaseDir : Str) :
    Bounded CompileError Unit :=
  match get spec stepsKey with
  | some (.array steps) => c.validateLocalSteps fuel specBaseDir 0 steps
  | _ => return ()

def recordArchive (specBaseDir src : Str) : Except SourceFault (List UInt8) := do
  let resolved ← (c.source.resolveFileRecord src specBaseDir).mapError .resolve
  (c.source.archive resolved).mapError .archive

def localFileRecordHash (specBaseDir src : Str) : Except SourceFault Str := do
  let archive ← c.recordArchive specBaseDir src
  return c.archiveShortHash archive

/-- The records of a step, taken up but not stored. -/
def compileHydraBlockLocal (specBaseDir : Str) (i : Nat) (step : Object) :
    Except CompileError Object :=
  ((compileHydraBlock (fun src (st : Unit) =>
    (c.localFileRecordHash specBaseDir src).map fun hash => (hash, st)) step ()).mapError
      (.compileRecords i)).map Prod.fst

def compileHydraRecordsLocalInPlace (spec : Object) (specBaseDir : Str) :
    Except CompileError Object :=
  mapSteps (c.compileHydraBlockLocal specBaseDir) spec

end Compiler

/-- What is stored in the course of one compilation: the bundles by their content, and by the short
hashes of their archives. -/
structure Taken where
  seen : List (Str × Str)
  bundleMap : List (Str × Str)

namespace Compiler

variable (c : Compiler)

/-- The source of a record is taken up and stored, once. -/
def compileFileRecord
    (ensure : Str → List UInt8 → Except Str Str) (specBaseDir src : Str)
    (taken : Taken) : Except SourceFault (Str × Taken) := do
  let archive ← c.recordArchive specBaseDir src
  let hash := c.archiveShortHash archive
  let cid := c.bundleCID archive
  match get taken.seen cid with
  | some id => return (hash, { taken with bundleMap := set taken.bundleMap hash id })
  | none =>
    let id ← (ensure cid archive).mapError .persist
    return (hash, ⟨set taken.seen cid id, set taken.bundleMap hash id⟩)

/-- The steps whose records have to be compiled, one after the other. -/
def compileSteps (ensure : Str → List UInt8 → Except Str Str)
    (specBaseDir : Str) :
    Nat → List Value → Taken → Except CompileError (List Value × Taken)
  | _, [], taken => .ok ([], taken)
  | i, .object step :: rest, taken =>
    if hasAuthoringEntries step then do
      let (step, taken) ← (compileHydraBlock (c.compileFileRecord ensure specBaseDir) step
        taken).mapError (.compileRecords i)
      let (rest, taken) ← compileSteps ensure specBaseDir (i + 1) rest taken
      return (.object step :: rest, taken)
    else do
      let (rest, taken) ← compileSteps ensure specBaseDir (i + 1) rest taken
      return (.object step :: rest, taken)
  | i, step :: rest, taken => do
      let (rest, taken) ← compileSteps ensure specBaseDir (i + 1) rest taken
      return (step :: rest, taken)

end Compiler

def bundleMapKey : Str := "bundle_map".toList

/-- The strings of an object. -/
def stringMembers : Object → List (Str × Str)
  | [] => []
  | (key, .string s) :: rest => (key, s) :: stringMembers rest
  | _ :: rest => stringMembers rest

/-- The bundles that a spec names already. -/
def existingBundles (spec : Object) : List (Str × Str) :=
  match get spec bundleMapKey with
  | some (.object bundles) => stringMembers bundles
  | _ => []

/-- A map of strings as an object. -/
def stringObject (d : List (Str × Str)) : Value :=
  .object (d.map fun entry => (entry.1, .string entry.2))

/-- Whether a step has records to be compiled. -/
def isAuthoringStep : Value → Bool
  | .object step => hasAuthoringEntries step
  | _ => false

namespace Compiler

variable (c : Compiler)

/-- All records of a spec, taken up and stored. -/
def compileHydraRecordsInPlace (spec : Object) (specBaseDir : Str) :
    Except CompileError Object :=
  match get spec stepsKey with
  | some (.array steps) =>
    if steps.any isAuthoringStep then
      match c.bundles with
      | none => .error .noBundlePersistence
      | some ensure => do
          let (steps, taken) ← c.compileSteps ensure specBaseDir 0 steps ⟨[], existingBundles spec⟩
          let spec := set spec stepsKey (.array steps)
          return if taken.bundleMap = [] then spec
            else set spec bundleMapKey (stringObject taken.bundleMap)
    else .ok spec
  | _ => .ok spec

/-! ### The whole compilation -/

/-- The JSON text of a spec. -/
def marshalSpec (spec : Object) : Except CompileError Value :=
  match JsonDocument.marshal (.object spec) with
  | some text => .ok text
  | none => .error .marshal

/-- A spec meets the schema. -/
def validateSpecShape (spec : Object) : Except CompileError Unit := do
  let text ← marshalSpec spec
  if Contract.validateMigSpecJSON text then return () else .error (.contract .schema)

/-- The text of a compiled spec, which has to keep the contract. -/
def finish (spec : Object) : Except CompileError Value := do
  let text ← marshalSpec spec
  let _ ← (Contract.parseMigSpecJSON c.numbers text).mapError .contract
  return text

/-- A spec is compiled, and its files are stored. -/
def normalizeWithStepSelector (fuel : Nat) (process : Environment)
    (data specBaseDir selector : Str) : Bounded CompileError Value := do
  let specBaseDir ← lift ((c.source.resolveBaseDir specBaseDir).mapError .resolveBaseDir)
  let raw ← (c.parseSpecInputToMap fuel data specBaseDir).mapError .parse
  let sourcePath ← lift
    ((composeSpecRootPath c.source specBaseDir).mapError .workingDir)
  let raw ← (c.expandSpecRefsInPlace fuel raw sourcePath).mapError .refs
  let raw ← lift ((selectStepInPlace raw selector sourcePath).mapError .select)
  let raw ← lift ((c.preprocessMigsSpecInPlace process raw).mapError .placeholders)
  let raw ← lift ((c.applyOverlay raw).mapError .overlay)
  lift (validateSpecShape raw)
  c.validateLocalFileRecords fuel raw specBaseDir
  let raw ← lift (c.compileHydraRecordsInPlace raw specBaseDir)
  lift (c.finish raw)

def normalize (fuel : Nat) (process : Environment) (data specBaseDir : Str) :
    Bounded CompileError Value :=
  c.normalizeWithStepSelector fuel process data specBaseDir []

/-- A spec is compiled, and its files are not stored. -/
def validate (fuel : Nat) (process : Environment) (data specBaseDir : Str) :
    Bounded CompileError Value := do
  let specBaseDir ← lift ((c.source.resolveBaseDir specBaseDir).mapError .resolveBaseDir)
  let raw ← (c.parseSpecInputToMap fuel data specBaseDir).mapError .parse
  let sourcePath ← lift
    ((composeSpecRootPath c.source specBaseDir).mapError .workingDir)
  let raw ← (c.expandSpecRefsInPlace fuel raw sourcePath).mapError .refs
  let raw ← lift ((c.preprocessMigsSpecInPlace process raw).mapError .placeholders)
  let raw ← lift ((c.applyOverlay raw).mapError .overlay)
  c.validateLocalFileRecords fuel raw specBaseDir
  let raw ← lift (c.compileHydraRecordsLocalInPlace raw specBaseDir)
  lift (c.finish raw)

end Compiler

/-! ### Building a spec from its file -/

/-- What a caller puts over a spec. -/
structure Overrides where
  envs : List Str := []
  stepEnvs : List (Str × List Str) := []
  image : Str := []
  command : Str := []

def stepPlaces : Nat → List Value → List (Str × Nat) →
    Except StepEnvError (List (Str × Nat))
  | _, [], places => .ok places
  | i, .object step :: rest, places =>
    let name :=
      match get step "name".toList with
      | some (.string raw) => trim raw
      | _ => []
    if name = [] then stepPlaces (i + 1) rest places
    else if (get places name).isSome then .error (.notUnique name)
    else stepPlaces (i + 1) rest (set places name i)
  | i, _ :: _, _ => .error (.stepNoObject i)

/-- The parts of an assignment `KEY=VALUE`. -/
def splitStepEnvAssignment (raw : Str) : Except StepEnvError (Str × Str) :=
  if '=' ∈ raw then
    let key := trim (raw.takeWhile (· ≠ '='))
    if key = [] then .error (.emptyKey raw) else .ok (key, (raw.dropWhile (· ≠ '=')).drop 1)
  else .error (.noAssignment raw)

def assignEnvs : List Str → Object → Except StepEnvError Object
  | [], envs => .ok envs
  | raw :: rest, envs => do
      let (key, value) ← splitStepEnvAssignment raw
      assignEnvs rest (set envs key (.string value))

def stepEnvMap (name : Str) (step : Object) : Except StepEnvError Object :=
  match get step "envs".toList with
  | none | some .null => .ok []
  | some (.object envs) => .ok envs
  | some _ => .error (.envsNoObject name)

/-- The variables of one step with those of a caller over them. -/
def overrideStepEnvs (name : Str) (assignments : List Str) (step : Value) :
    Except StepEnvError Value :=
  match step with
  | .object members => do
      let envs ← stepEnvMap name members
      let envs ← assignEnvs assignments envs
      return .object (set members "envs".toList (.object envs))
  | step => .ok step

def overrideSteps (places : List (Str × Nat)) :
    List (Str × List Str) → List Value → Except StepEnvError (List Value)
  | [], steps => .ok steps
  | (name, assignments) :: rest, steps =>
    match get places name with
    | none => .error (.notFound name)
    | some i =>
      match steps[i]? with
      | none => .error (.notFound name)
      | some step => do
          let step ← overrideStepEnvs name assignments step
          overrideSteps places rest (steps.set i step)

def applyStepEnvOverridesInPlace (spec : Object)
    (overrides : List (Str × List Str)) : Except StepEnvError Object :=
  if overrides = [] then .ok spec
  else
    match get spec stepsKey with
    | some (.array steps) => do
        let places ← stepPlaces 0 steps []
        let steps ← overrideSteps places overrides steps
        return set spec stepsKey (.array steps)
    | _ => .error .stepsNoArray

/-- The assignment of a caller. One without a value gives the empty one. -/
def callerEnv (raw : Str) (envs : Object) : Object :=
  let kv := trim raw
  let key := if '=' ∈ kv then trim (kv.takeWhile (· ≠ '=')) else kv
  let value := (kv.dropWhile (· ≠ '=')).drop 1
  if kv = [] ∨ key = [] then envs else set envs key (.string value)

/-- The variables of a spec with those of a caller over them. -/
def overrideEnvs (envs : List Str) (spec : Object) : Object :=
  if envs = [] then spec
  else
    let current : Object :=
      match get spec "envs".toList with
      | some (.object existing) => existing.filter fun
          | (_, .string _) => true
          | _ => false
      | _ => []
    let current := envs.foldl (fun current raw => callerEnv raw current) current
    if current.isEmpty then spec else set spec "envs".toList (.object current)

/-- A command that is written as a list of texts is one. -/
def commandValue (command : Str) : Value :=
  if ['['].isPrefixOf command && [']'].isSuffixOf command then
    match JsonText.parse command with
    | some (.array l) =>
      match Contract.readStrings (.array l) [] with
      | .ok (arg :: args) => .array ((arg :: args).map .string)
      | _ => .string command
    | _ => .string command
  else .string command

/-- The image and the command of a caller, put over those of the only step. -/
def overrideOnlyStep (image command : Str) (spec : Object) : Object :=
  let steps :=
    match get spec stepsKey with
    | some (.array steps) => steps
    | _ => []
  if 1 < steps.length ∨ (image = [] ∧ command = []) then spec
  else
    let step : Object :=
      match steps with
      | [.object step] => step
      | _ => []
    let step := if image = [] then step else set step "image".toList (.string image)
    let step :=
      if command = [] then step else set step "command".toList (commandValue command)
    set spec stepsKey (.array [.object step])

namespace Compiler

variable (c : Compiler)

/-- The spec of a file before it is compiled, with the directory and the path of the file. -/
def loadSpecFile (fuel : Nat) (specFile : Str) :
    Bounded CompileError (Object × Str × Str) :=
  if specFile = [] then do
    let sourcePath ← lift ((composeSpecRootPath c.source []).mapError .workingDir)
    return ([], [], sourcePath)
  else do
    let path ← lift ((c.source.resolveSpec specFile).mapError (.resolveSpec specFile))
    let data ← lift ((c.source.readFile path).mapError (.readSpec path))
    let spec ← (c.parseSpecInputToMap fuel data (SlashPath.dirName path)).mapError .parse
    return (spec, SlashPath.dirName path, path)

/-- A spec with its steps in place and those of its variables that a caller gives. -/
def prepareSpecFile (fuel : Nat) (specFile selector : Str) (overrides : Overrides) :
    Bounded CompileError (Object × Str) := do
  let (spec, specBaseDir, sourcePath) ← c.loadSpecFile fuel specFile
  let spec ← (c.expandSpecRefsInPlace fuel spec sourcePath).mapError .refs
  let spec ← lift ((selectStepInPlace spec selector sourcePath).mapError .select)
  let spec ← lift
    ((applyStepEnvOverridesInPlace spec overrides.stepEnvs).mapError .stepEnvs)
  return (spec, specBaseDir)

/-- What comes after the placeholders of a spec are filled in. There is no text when there is
neither a spec nor anything to put over it. -/
def completeSpec (fuel : Nat) (overrides : Overrides) (spec : Object) (specBaseDir : Str) :
    Bounded CompileError (Option Value) := do
  let spec ← lift ((c.applyOverlay spec).mapError .overlay)
  let hasOverrides := !overrides.envs.isEmpty || !overrides.stepEnvs.isEmpty
    || !overrides.image.isEmpty || !overrides.command.isEmpty
  if spec.isEmpty && !hasOverrides then return none
  if (get spec stepsKey).isSome || !hasOverrides then
    lift (validateSpecShape spec)
  let spec := overrideOnlyStep overrides.image overrides.command (overrideEnvs overrides.envs spec)
  if spec.isEmpty then return none
  lift (validateSpecShape spec)
  c.validateLocalFileRecords fuel spec specBaseDir
  let spec ← lift (c.compileHydraRecordsInPlace spec specBaseDir)
  let text ← lift (c.finish spec)
  return some text

/-- The spec of a file is compiled, and its files are stored. -/
def buildSelected (fuel : Nat) (process : Environment) (specFile selector : Str)
    (overrides : Overrides) : Bounded CompileError (Option Value) := do
  let (spec, specBaseDir) ← c.prepareSpecFile fuel specFile selector overrides
  let spec ← lift ((c.preprocessMigsSpecInPlace process spec).mapError .placeholders)
  c.completeSpec fuel overrides spec specBaseDir

def build (fuel : Nat) (process : Environment) (specFile : Str) (overrides : Overrides) :
    Bounded CompileError (Option Value) :=
  c.buildSelected fuel process specFile [] overrides

end Compiler

end Ploy
