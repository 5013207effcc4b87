import Ploy.Foundations.Fallible
import Ploy.Foundations.JsonDocument
import Ploy.Foundations.JsonSchema
import Ploy.Foundations.Text
import Ploy.Spec.Hydra

/-!
# The contract of a spec

A spec is a JSON text. It has to meet a schema, which names its fields as they are spelled, and it
is then read into a record, field by field, where a field may be spelled in any case. The record is
checked once more as a whole.
-/

namespace Ploy.Contract

open JsonText (Value readMembers)

/-- What is made of the numbers of a text. They are held as floating-point numbers. -/
structure Numbers where
  /-- The text of the number that a literal stands for, unless it is out of range. -/
  float : Str → Option Str
  /-- The number that a literal stands for, as the name of a release. -/
  release : Str → Str
  /-- A scalar of a document as the name of a release, if it is a number. -/
  scalarRelease : Str → Option Str

/-- Integers are kept as they are written, and other numbers are refused. -/
def Numbers.integers : Numbers where
  float l := if (JsonText.readInt l).map JsonText.intText = some l then some l else none
  release l := l
  scalarRelease l := some l

/-! ### The record -/

/-- The stack a repository is expected to have. What is not given may be anything. -/
structure StackExpectation where
  language : Str := []
  tool : Str := []
  release : Str := []
  deriving DecidableEq, Repr

def StackExpectation.isEmpty (e : StackExpectation) : Bool :=
  e.language = [] && e.tool = [] && e.release = []

structure StackGatePhaseSpec where
  enabled : Bool := false
  expect : Option StackExpectation := none
  deriving DecidableEq, Repr

structure StackGateSpec where
  inbound : Option StackGatePhaseSpec := none
  outbound : Option StackGatePhaseSpec := none
  deriving DecidableEq, Repr

/-- An image for all stacks, or one for each. -/
structure JobImage where
  universal : Str := []
  byStack : List (Str × Str) := []
  deriving DecidableEq, Repr

def JobImage.isEmpty (image : JobImage) : Bool :=
  image.universal = [] && image.byStack.isEmpty

/-- A command for the shell, or one with its arguments. -/
structure CommandSpec where
  shell : Str := []
  exec : List Str := []
  deriving DecidableEq, Repr

structure MigStepOptions where
  mountDockerSocket : Bool := false
  deriving DecidableEq, Repr

structure MigStep where
  name : Str := []
  image : JobImage := {}
  command : CommandSpec := {}
  envs : List (Str × Str) := []
  options : MigStepOptions := {}
  records : HydraFileKind → List Str := fun _ => []
  stack : Option StackGateSpec := none

structure BuildGateImageRule where
  stack : StackExpectation := {}
  image : Str := []
  deriving DecidableEq, Repr

structure BuildGateStackConfig where
  mode : Str := []
  expect : StackExpectation := {}
  deriving DecidableEq, Repr

structure BuildGatePhaseConfig where
  stack : Option BuildGateStackConfig := none
  deriving DecidableEq, Repr

structure BuildGateConfig where
  disabled : Bool := false
  pre : Option BuildGatePhaseConfig := none
  post : Option BuildGatePhaseConfig := none
  images : List BuildGateImageRule := []
  deriving DecidableEq, Repr

structure MigSpec where
  jobID : Str := []
  apiVersion : Str := []
  name : Str := []
  description : Str := []
  steps : List MigStep := []
  envs : List (Str × Str) := []
  buildGate : Option BuildGateConfig := none
  bundleMap : List (Str × Str) := []

/-! ### Identifiers -/

/-- The digit of a character. What is no letter and no digit counts as a letter, too. -/
def ksuidDigit (b : UInt8) : Nat :=
  if 48 ≤ b.toNat ∧ b.toNat ≤ 57 then b.toNat - 48
  else if 65 ≤ b.toNat ∧ b.toNat ≤ 90 then 10 + (b.toNat - 65)
  else (36 + b.toNat + 256 - 97) % 256

/-- Whether a text is an identifier: 27 digits to the base 62 of a number of 160 bits. -/
def isKSUID (s : Str) : Bool :=
  let digits := (Utf8.encode s).map ksuidDigit
  digits.length = 27 && digits.foldl (fun n d => 62 * n + d) 0 < 2 ^ 160

/-! ### The schema -/

namespace Schema

open JsonSchema

def stringMap : Schema := mapOf string

def release : Schema := either string number

def image : Schema := either string stringMap

def command : Schema := either string (arrayOf string)

def hydraEntries : Schema := arrayOf string

def stackExpectation : Schema :=
  object [("language".toList, string), ("tool".toList, string), ("release".toList, release)]

def stepStackPhase : Schema :=
  object [("enabled".toList, boolean), ("expect".toList, stackExpectation)]

def stepStack : Schema :=
  object [("inbound".toList, stepStackPhase), ("outbound".toList, stepStackPhase)]

def stepOptions : Schema :=
  object [("mount_docker_socket".toList, boolean)]

def step : Schema :=
  object [("name".toList, string), ("image".toList, image), ("command".toList, command),
    ("envs".toList, stringMap), ("options".toList, stepOptions), ("in".toList, hydraEntries),
    ("out".toList, hydraEntries), ("home".toList, hydraEntries), ("tmp".toList, hydraEntries),
    ("stack".toList, stepStack)]

/-- A string that is one of some texts. -/
def oneOfTexts (texts : List Str) : Schema
  | .string s => texts.contains s
  | _ => false

/-- An object with a member that is a given text. -/
def hasText (key text : Str) : Schema
  | .object l => (Dictionary.get l key).any (oneOfTexts [text])
  | _ => false

/-- Which of the three fields have to be there goes with the mode. -/
def buildGateStack : Schema :=
  both
    (object [("mode".toList, oneOfTexts ["forced".toList, "strict".toList, "fallback".toList]),
      ("language".toList, string), ("tool".toList, string), ("release".toList, release)])
    fun v =>
      let language := has "language".toList v
      let tool := has "tool".toList v
      let release := has "release".toList v
      (!hasText "mode".toList "forced".toList v || (language && release))
        && (!hasText "mode".toList "fallback".toList v || (language && tool && release))
        && (!hasText "mode".toList "strict".toList v || (language || tool || release))
        && (has "mode".toList v || !(language || tool || release))

def buildGatePhase : Schema :=
  object [("stack".toList, buildGateStack)]

def buildGateImageRule : Schema :=
  object [("stack".toList, stackExpectation), ("image".toList, string)]

def buildGate : Schema :=
  object [("disabled".toList, boolean), ("pre".toList, buildGatePhase),
    ("post".toList, buildGatePhase), ("images".toList, arrayOf buildGateImageRule)]

def isNameChar (c : Char) : Bool :=
  ('0' ≤ c && c ≤ '9') || ('a' ≤ c && c ≤ 'z') || c = '.' || c = '_' || c = '-'

def name : Schema
  | .string s => !s.isEmpty && s.all isNameChar
  | _ => false

/-- At least one step. -/
def steps : Schema
  | .array l => !l.isEmpty && l.all step
  | _ => false

/-- The schema of a spec. -/
def mig : Schema :=
  both (has "steps".toList)
    (object [("apiVersion".toList, string), ("name".toList, name), ("description".toList, string),
      ("job_id".toList, string), ("steps".toList, steps), ("envs".toList, stringMap),
      ("build_gate".toList, buildGate), ("bundle_map".toList, stringMap)])

end Schema

/-- Whether a text meets the schema. It is read with its numbers as they are written. -/
def validateMigSpecJSON (text : Value) : Bool :=
  (JsonDocument.decode some text).any Schema.mig

/-! ### Reading the record -/

/-- Why a field cannot be read. -/
inductive DecodeFault where
  | mismatch
  | emptyID
  | invalidID
  | release
  | image
  | command
  deriving DecidableEq, Repr

abbrev Decoded := Except DecodeFault

section Readers

variable {σ α : Type}

/-- A field that is null is left alone, if it is no list, map or pointer. -/
def readString (set : Str → σ → σ) (v : Value) (s : σ) : Decoded σ :=
  match v with
  | .string t => .ok (set t s)
  | .null => .ok s
  | _ => .error .mismatch

def readBool (set : Bool → σ → σ) (v : Value) (s : σ) : Decoded σ :=
  match v with
  | .bool b => .ok (set b s)
  | .null => .ok s
  | _ => .error .mismatch

/-- A text in a list or a map. Null stands for the empty one, or for what was there. -/
def readText (old : Str) : Value → Decoded Str
  | .string t => .ok t
  | .null => .ok old
  | _ => .error .mismatch

/-- The members of a map are put into the one that is there. -/
def readStringMembers :
    List (Str × Value) → List (Str × Str) →
      Decoded (List (Str × Str))
  | [], d => .ok d
  | (key, v) :: rest, d => do
      let t ← readText [] v
      readStringMembers rest (Dictionary.set d key t)

def readStringMap (v : Value) (old : List (Str × Str)) :
    Decoded (List (Str × Str)) :=
  match v with
  | .null => .ok []
  | .object l => readStringMembers l old
  | _ => .error .mismatch

/-- The elements of a list are read into those that are there. -/
def readElements (read : Value → α → Decoded α) (zero : α) :
    List Value → List α → Decoded (List α)
  | [], _ => .ok []
  | v :: rest, old => do
      let a ← read v (old.headD zero)
      let l ← readElements read zero rest old.tail
      return a :: l

def readList (read : Value → α → Decoded α) (zero : α) (v : Value) (old : List α) :
    Decoded (List α) :=
  match v with
  | .null => .ok []
  | .array l => readElements read zero l old
  | _ => .error .mismatch

def readStrings : Value → List Str → Decoded (List Str) :=
  readList (fun v old => readText old v) []

/-- The members of an object are read into a record. Others than its fields are left out. -/
def readFields (fields : List (String × (Value → σ → Decoded σ))) (v : Value) (s : σ) :
    Decoded σ :=
  match v with
  | .null => .ok s
  | .object l => readMembers fields (fun _ s => .ok s) l s
  | _ => .error .mismatch

def readPointer (read : Value → α → Decoded α) (zero : α) (v : Value) (old : Option α) :
    Decoded (Option α) :=
  match v with
  | .null => .ok none
  | v => (read v (old.getD zero)).map some

end Readers

/-- The identifier of a job, which must not be null. -/
def readJobID : Value → Decoded Str
  | .string t =>
    if trim t = [] then .error .emptyID
    else if isKSUID (trim t) then .ok (trim t)
    else .error .invalidID
  | .null => .error .emptyID
  | _ => .error .mismatch

section Numbers

variable (numbers : Numbers)

/-- The name of a release may be written as a number. -/
def readRelease : Value → Decoded Str
  | .null => .ok []
  | .string s => .ok (trim s)
  | .number literal =>
    match numbers.float literal with
    | some _ => .ok (numbers.release literal)
    | none => .error .release
  | _ => .error .release

/-- An expectation whose release is kept as it is written until all members are read. -/
def expectationFields : List (String × (Value → StackExpectation × Option Value →
    Decoded (StackExpectation × Option Value))) :=
  [("release", fun v s => .ok (s.1, some v)),
    ("language", readString fun t s => ({ s.1 with language := t }, s.2)),
    ("tool", readString fun t s => ({ s.1 with tool := t }, s.2))]

def readExpectation (v : Value) (old : StackExpectation) : Decoded StackExpectation := do
  let (e, raw) ← readFields expectationFields v (old, none)
  match raw with
  | none => return e
  | some raw =>
    let release ← readRelease numbers raw
    return { e with release := release }

def phaseSpecFields : List (String × (Value → StackGatePhaseSpec → Decoded StackGatePhaseSpec)) :=
  [("enabled", readBool fun b s => { s with enabled := b }),
    ("expect", fun v s =>
      (readPointer (readExpectation numbers) {} v s.expect).map fun e => { s with expect := e })]

def stackGateFields : List (String × (Value → StackGateSpec → Decoded StackGateSpec)) :=
  [("inbound", fun v s =>
      (readPointer (readFields (phaseSpecFields numbers)) {} v s.inbound).map fun p =>
        { s with inbound := p }),
    ("outbound", fun v s =>
      (readPointer (readFields (phaseSpecFields numbers)) {} v s.outbound).map fun p =>
        { s with outbound := p })]

end Numbers

/-- The names of the stacks and their images are trimmed. -/
def trimImages : List (Str × Str) → List (Str × Str) →
    List (Str × Str)
  | [], d => d
  | (key, t) :: rest, d => trimImages rest (Dictionary.set d (trim key) (trim t))

def readImage : Value → Decoded JobImage
  | .null => .ok {}
  | .string s => .ok { universal := trim s }
  | .object l =>
    match readStringMembers l [] with
    | .ok raw => .ok { byStack := trimImages raw [] }
    | .error _ => .error .image
  | _ => .error .image

def readCommand : Value → Decoded CommandSpec
  | .null => .ok {}
  | .string s => .ok { shell := trim s }
  | .array l =>
    match readStrings (.array l) [] with
    | .ok exec => .ok { exec := exec }
    | .error _ => .error .command
  | _ => .error .command

def optionsFields : List (String × (Value → MigStepOptions → Decoded MigStepOptions)) :=
  [("mount_docker_socket", readBool fun b s => { s with mountDockerSocket := b })]

def readRecords (kind : HydraFileKind) (v : Value) (s : MigStep) : Decoded MigStep :=
  (readStrings v (s.records kind)).map fun l =>
    { s with records := fun k => if k = kind then l else s.records k }

section Numbers

variable (numbers : Numbers)

def stepFields : List (String × (Value → MigStep → Decoded MigStep)) :=
  [("name", readString fun t s => { s with name := t }),
    ("image", fun v s => (readImage v).map fun image => { s with image := image }),
    ("command", fun v s => (readCommand v).map fun command => { s with command := command }),
    ("envs", fun v s => (readStringMap v s.envs).map fun envs => { s with envs := envs }),
    ("options", fun v s =>
      (readFields optionsFields v s.options).map fun options => { s with options := options }),
    ("in", readRecords .in), ("out", readRecords .out), ("home", readRecords .home),
    ("tmp", readRecords .tmp),
    ("stack", fun v s =>
      (readPointer (readFields (stackGateFields numbers)) {} v s.stack).map fun stack =>
        { s with stack := stack })]

def readStep : Value → MigStep → Decoded MigStep :=
  readFields (stepFields numbers)

def imageRuleFields : List (String × (Value → BuildGateImageRule → Decoded BuildGateImageRule)) :=
  [("stack", fun v s => (readExpectation numbers v s.stack).map fun e => { s with stack := e }),
    ("image", readString fun t s => { s with image := t })]

/-- A stack of a gate is read as an expectation is, with a mode. -/
def stackConfigFields : List (String × (Value → BuildGateStackConfig × Option Value →
    Decoded (BuildGateStackConfig × Option Value))) :=
  [("release", fun v s => .ok (s.1, some v)),
    ("mode", readString fun t s => ({ s.1 with mode := t }, s.2)),
    ("language", readString fun t s =>
      ({ s.1 with expect := { s.1.expect with language := t } }, s.2)),
    ("tool", readString fun t s => ({ s.1 with expect := { s.1.expect with tool := t } }, s.2))]

def readStackConfig (v : Value) (old : BuildGateStackConfig) : Decoded BuildGateStackConfig := do
  let (c, raw) ← readFields stackConfigFields v (old, none)
  match raw with
  | none => return c
  | some raw =>
    let release ← readRelease numbers raw
    return { c with expect := { c.expect with release := release } }

def phaseConfigFields :
    List (String × (Value → BuildGatePhaseConfig → Decoded BuildGatePhaseConfig)) :=
  [("stack", fun v s =>
    (readPointer (readStackConfig numbers) {} v s.stack).map fun stack =>
      { s with stack := stack })]

def buildGateFields : List (String × (Value → BuildGateConfig → Decoded BuildGateConfig)) :=
  [("disabled", readBool fun b s => { s with disabled := b }),
    ("pre", fun v s =>
      (readPointer (readFields (phaseConfigFields numbers)) {} v s.pre).map fun p =>
        { s with pre := p }),
    ("post", fun v s =>
      (readPointer (readFields (phaseConfigFields numbers)) {} v s.post).map fun p =>
        { s with post := p }),
    ("images", fun v s =>
      (readList (readFields (imageRuleFields numbers)) {} v s.images).map fun images =>
        { s with images := images })]

def specFields : List (String × (Value → MigSpec → Decoded MigSpec)) :=
  [("job_id", fun v s => (readJobID v).map fun id => { s with jobID := id }),
    ("apiVersion", readString fun t s => { s with apiVersion := t }),
    ("name", readString fun t s => { s with name := t }),
    ("description", readString fun t s => { s with description := t }),
    ("steps", fun v s => (readList (readStep numbers) {} v s.steps).map fun l =>
      { s with steps := l }),
    ("envs", fun v s => (readStringMap v s.envs).map fun envs => { s with envs := envs }),
    ("build_gate", fun v s =>
      (readPointer (readFields (buildGateFields numbers)) {} v s.buildGate).map fun gate =>
        { s with buildGate := gate }),
    ("bundle_map", fun v s =>
      (readStringMap v s.bundleMap).map fun l => { s with bundleMap := l })]

theorem specFields_names :
  ((specFields numbers).map Prod.fst).Nodup
  := by
  have hnames : (specFields numbers).map Prod.fst = ["job_id", "apiVersion", "name", "description",
      "steps", "envs", "build_gate", "bundle_map"] := rfl
  rw [hnames]
  decide

def readSpec (text : Value) : Decoded MigSpec :=
  readFields (specFields numbers) text {}

end Numbers

/-! ### Checking the record -/

/-- A phase of the stack gate of a step. -/
inductive StepPhase where
  | inbound | outbound
  deriving DecidableEq, Repr

inductive GatePhase where
  | pre | post
  deriving DecidableEq, Repr

/-- What is wrong with a spec, and where. -/
inductive SpecFault where
  | stepsRequired
  | imageRequired (step : Nat)
  | disabledWithExpect (step : Nat) (phase : StepPhase)
  | enabledWithoutExpect (step : Nat) (phase : StepPhase)
  | records (step : Nat) (kind : HydraFileKind) (error : EntriesError)
  | ruleLanguageRequired (rule : Nat)
  | ruleImageRequired (rule : Nat)
  | duplicateSelector (rule : Nat) (key : Str)
  | modeRequired (phase : GatePhase)
  | unknownMode (phase : GatePhase)
  | strictRequiresAny (phase : GatePhase)
  | languageRequired (phase : GatePhase)
  | toolRequired (phase : GatePhase)
  | releaseRequired (phase : GatePhase)
  deriving DecidableEq, Repr

/-- A phase is enabled exactly when it expects something. -/
def validateStackGatePhaseSpec (step : Nat) (phase : StepPhase) :
    Option StackGatePhaseSpec → Except SpecFault Unit
  | none => .ok ()
  | some spec =>
    let expects := spec.expect.any fun e => !e.isEmpty
    if !spec.enabled && expects then .error (.disabledWithExpect step phase)
    else if spec.enabled && !expects then .error (.enabledWithoutExpect step phase)
    else .ok ()

def validateStackGateSpec (step : Nat) : Option StackGateSpec → Except SpecFault Unit
  | none => .ok ()
  | some spec => do
      validateStackGatePhaseSpec step .inbound spec.inbound
      validateStackGatePhaseSpec step .outbound spec.outbound

def validateHydraFields (step : Nat) (records : HydraFileKind → List Str) :
    List HydraFileKind → Except SpecFault Unit
  | [] => .ok ()
  | kind :: kinds => do
      (validateHydraEntries kind (records kind)).mapError (.records step kind)
      validateHydraFields step records kinds

def validateStep (i : Nat) (step : MigStep) : Except SpecFault Unit := do
  if step.image.isEmpty then .error (.imageRequired i)
  validateStackGateSpec i step.stack
  validateHydraFields i step.records HydraFileKind.all

def validateSteps : Nat → List MigStep → Except SpecFault Unit
  | _, [] => .ok ()
  | i, step :: rest => do
      validateStep i step
      validateSteps (i + 1) rest

/-- What a rule matches, as a text. -/
def BuildGateImageRule.selectorKey (rule : BuildGateImageRule) : Str :=
  let orStar (s : Str) := if s = [] then ['*'] else s
  rule.stack.language ++ ':' :: (orStar rule.stack.release ++ ':' :: orStar rule.stack.tool)

/-- Every rule has a language and an image, and no two match the same. -/
def validateImageRules : Nat → List Str → List BuildGateImageRule → Except SpecFault Unit
  | _, _, [] => .ok ()
  | i, seen, rule :: rest =>
    if trim rule.stack.language = [] then .error (.ruleLanguageRequired i)
    else if trim rule.image = [] then .error (.ruleImageRequired i)
    else if rule.selectorKey ∈ seen then .error (.duplicateSelector i rule.selectorKey)
    else validateImageRules (i + 1) (rule.selectorKey :: seen) rest

def validateBuildGateStackConfig (phase : GatePhase) :
    Option BuildGateStackConfig → Except SpecFault Unit
  | none => .ok ()
  | some stack =>
    let mode := trim stack.mode
    let language := trim stack.expect.language
    let tool := trim stack.expect.tool
    let release := trim stack.expect.release
    if mode = [] then
      if language ≠ [] ∨ tool ≠ [] ∨ release ≠ [] then .error (.modeRequired phase) else .ok ()
    else if mode ≠ "forced".toList ∧ mode ≠ "strict".toList ∧ mode ≠ "fallback".toList then
      .error (.unknownMode phase)
    else if mode = "strict".toList then
      if language = [] ∧ tool = [] ∧ release = [] then .error (.strictRequiresAny phase)
      else .ok ()
    else if language = [] then .error (.languageRequired phase)
    else if mode = "fallback".toList ∧ tool = [] then .error (.toolRequired phase)
    else if release = [] then .error (.releaseRequired phase)
    else .ok ()

def validateBuildGate : Option BuildGateConfig → Except SpecFault Unit
  | none => .ok ()
  | some gate => do
      validateImageRules 0 [] gate.images
      validateBuildGateStackConfig .pre (gate.pre.bind BuildGatePhaseConfig.stack)
      validateBuildGateStackConfig .post (gate.post.bind BuildGatePhaseConfig.stack)

def MigSpec.validate (spec : MigSpec) : Except SpecFault Unit := do
  if spec.steps.isEmpty then .error .stepsRequired
  validateSteps 0 spec.steps
  validateBuildGate spec.buildGate

/-- Why a text is no spec. -/
inductive ContractError where
  | schema
  | decode (fault : DecodeFault)
  | invalid (fault : SpecFault)
  deriving DecidableEq, Repr

def parseMigSpecJSON (numbers : Numbers) (text : Value) : Except ContractError MigSpec :=
  if validateMigSpecJSON text then do
    let spec ← (readSpec numbers text).mapError .decode
    spec.validate.mapError .invalid
    return spec
  else .error .schema

end Ploy.Contract
