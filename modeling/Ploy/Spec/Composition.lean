import Ploy.Foundations.Bounded
import Ploy.Foundations.Yaml
import Ploy.Spec.FileRecords

/-!
# Composition of specs

A spec in YAML may include other files, as a whole or a fragment of them, and its mappings may take
over the entries of others with the key `<<`. The document that results is written and read again.
-/

namespace Ploy

open JsonText (Value)
open Yaml (Node)

/-! ### Sources of other files

The source of a record is written as a path from the directory of the file that declares it. When
the record is taken over into another file, its source is written as a path from the directory of
that one. -/

/-- A path that is taken from the directory of a file, as a path from another directory. -/
def rebaseLocalSourcePath (sourcePath outputBaseDir path : Str) : Str :=
  let resolved := SlashPath.clean (SlashPath.joined (SlashPath.dirName sourcePath) path)
  (SlashPath.rel outputBaseDir resolved).getD resolved

/-- Paths that begin at the root, at home or with a variable are left alone. -/
def isLocalSource (path : Str) : Bool :=
  !(path.isEmpty || ['$'].isPrefixOf path || ['~', '/'].isPrefixOf path || SlashPath.isAbs path
    || path.contains '\n' || path.contains '\r')

def normalizeLocalSourcePath (sourcePath outputBaseDir raw : Str) : Str :=
  if isLocalSource (trim raw) then rebaseLocalSourcePath sourcePath outputBaseDir (trim raw)
  else trim raw

/-- A record whose source is taken from the directory of a file. A record that has its hash already
and one without a source are left alone. -/
def rebaseMountEntrySource (kind : HydraFileKind) (entry sourcePath outputBaseDir : Str) :
    Str :=
  let (body, readOnly) := splitReadOnly kind (trim entry)
  if trim entry = [] then entry
  else if isAlreadyCanonical body then entry
  else if ':' ∉ body ∨ beforeLastColon body = [] then entry
  else
    normalizeLocalSourcePath sourcePath outputBaseDir (trim (beforeLastColon body))
      ++ ':' :: afterLastColon body ++ (if readOnly then readOnlySuffix else [])

/-- A reference to a step of another spec, `path:name`, whose path is taken from the directory of a
file. -/
def rebaseRef (ref sourcePath outputBaseDir : Str) : Str :=
  let raw := trim ref
  let path := trim (beforeLastColon raw)
  let name := trim (afterLastColon raw)
  if ':' ∉ raw ∨ path = [] ∨ name = [] ∨ SlashPath.isAbs path then ref
  else rebaseLocalSourcePath sourcePath outputBaseDir path ++ ':' :: name

/-! ### Files -/

/-- Where the files of a spec come from. It decides which paths lead where. -/
structure Source where
  resolveSpec : Str → Except Str Str
  resolveBaseDir : Str → Except Str Str
  resolveReference : Str → Str → Except Str Str
  resolveFileRecord : Str → Str → Except Str Str
  readFile : Str → Except Str Str
  /-- Whether a file is a directory, if there is one. -/
  stat : Str → Except Str Bool
  /-- The archive of a file or a directory. -/
  archive : Str → Except Str (List UInt8)
  workingDir : Except Str Str

/-- How YAML is read: the file of a text, if it has a root, and the value of a tagged scalar. -/
structure YamlReader where
  load : Str → Except Str (Option Yaml.File)
  scalar : Str → Str → Option Value

/-- Why a fragment does not lead to a node. -/
inductive PointerFault where
  | keyNotFound (key : Str)
  | invalidIndex (token : Str)
  | outOfRange (index : Int)
  | cannotTraverse
  deriving DecidableEq, Repr

/-- Why a spec cannot be composed. -/
inductive ComposeError where
  | decode (path error : Str)
  | noRoot (path : Str)
  | read (path error : Str)
  | emptyInclude (path : Str)
  | resolveInclude (path target error : Str)
  | fragmentWithoutSlash (path : Str)
  | includeCycle (ids : List Str)
  | fragment (path pointer : Str) (fault : PointerFault)
  | mergeExpectsMappings
  | encoded (error : Yaml.DecodeError)
  | noMapping
  deriving DecidableEq, Repr

/-! ### Includes -/

def includeTag : Str := "!include".toList

/-- The path and the fragment of an include. -/
def splitIncludeRef (raw : Str) : Str × Str :=
  let value := trim raw
  if '#' ∈ value then
    (trim (value.takeWhile (· ≠ '#')), trim ((value.dropWhile (· ≠ '#')).drop 1))
  else (value, [])

/-- The file of an include and the fragment of it, where a fragment begins with a slash. -/
def parseIncludeRef (source : Source) (sourcePath raw : Str) :
    Except ComposeError (Str × Str) :=
  let (path, pointer) := splitIncludeRef raw
  if path = [] then .error (.emptyInclude sourcePath)
  else
    match source.resolveReference path (SlashPath.dirName sourcePath) with
    | .error e => .error (.resolveInclude sourcePath path e)
    | .ok resolved =>
      if pointer ≠ [] ∧ pointer.head? ≠ some '/' then .error (.fragmentWithoutSlash sourcePath)
      else .ok (resolved, pointer)

/-- A text with one text put in place of another. -/
def replaceAll (old new : Str) : Nat → Str → Str
  | 0, s => s
  | _ + 1, [] => []
  | n + 1, c :: s =>
    if old.isPrefixOf (c :: s) then new ++ replaceAll old new n ((c :: s).drop old.length)
    else c :: replaceAll old new n s

def decodePointerPart (part : Str) : Str :=
  let slashes := replaceAll ['~', '1'] ['/'] part.length part
  replaceAll ['~', '0'] ['~'] slashes.length slashes

/-- The number that a token stands for, if it has 64 bits. -/
def readIndex (token : Str) : Option Int :=
  let index :=
    match token with
    | '+' :: digits => (JsonText.readNat digits).map Int.ofNat
    | token => JsonText.readInt token
  index.filter fun n => -2 ^ 63 ≤ n ∧ n < 2 ^ 63

/-- The part of a node that a token names. -/
def pointerStep (node : Node) (token : Str) : Except PointerFault Node :=
  match node with
  | .mapping _ entries =>
    match entries.find? fun entry => entry.1.isScalar && entry.1.value = token with
    | some entry => .ok entry.2
    | none => .error (.keyNotFound token)
  | .sequence _ items =>
    match readIndex token with
    | none => .error (.invalidIndex token)
    | some index =>
      if index < 0 then .error (.outOfRange index)
      else
        match items[index.toNat]? with
        | some item => .ok item
        | none => .error (.outOfRange index)
  | _ => .error .cannotTraverse

def pointerSteps : Node → List Str → Except PointerFault Node
  | node, [] => .ok node
  | node, part :: parts => do
      let next ← pointerStep node (decodePointerPart part)
      pointerSteps next parts

/-- The part of a file that a fragment names. -/
def selectNode (root : Node) (pointer sourcePath : Str) : Except ComposeError Node :=
  if pointer = [] then .ok root
  else
    (pointerSteps root ((trimSlash pointer).splitOn '/')).mapError (.fragment sourcePath pointer)

/-- The files and fragments from a target to itself. -/
def cycleFrom (stack : List Str) (target : Str) : Option (List Str) :=
  if target ∈ stack then some (stack.dropWhile (· ≠ target) ++ [target]) else none

/-! #### Records and references of an included file -/

/-- The records of a list. -/
def normalizeMountEntries (kind : HydraFileKind) (sourcePath outputBaseDir : Str) :
    Node → Node
  | .sequence anchor items =>
    .sequence anchor (items.map (Node.onTarget fun
      | .scalar anchor tag value =>
        .scalar anchor tag (rebaseMountEntrySource kind value sourcePath outputBaseDir)
      | node => node))
  | node => node

def normalizeRefEntry (sourcePath outputBaseDir : Str) : Node → Node
  | .scalar anchor tag value => .scalar anchor tag (rebaseRef value sourcePath outputBaseDir)
  | node => node

/-- The value of an entry whose key is a text. -/
def normalizeEntry (sourcePath outputBaseDir key : Str) (node : Node) : Node :=
  let node :=
    match HydraFileKind.all.find? fun kind => kind.text = key with
    | some kind => node.onTarget (normalizeMountEntries kind sourcePath outputBaseDir)
    | none => node
  if key = "ref".toList then node.onTarget (normalizeRefEntry sourcePath outputBaseDir) else node

mutual

/-- The records and the references to steps below a node. -/
def normalizeIncludedLocalPaths (sourcePath outputBaseDir : Str) : Node → Node
  | .copy name target => .copy name (normalizeIncludedLocalPaths sourcePath outputBaseDir target)
  | .sequence anchor items => .sequence anchor (normalizeItems sourcePath outputBaseDir items)
  | .mapping anchor entries => .mapping anchor (normalizeEntries sourcePath outputBaseDir entries)
  | node => node

def normalizeItems (sourcePath outputBaseDir : Str) : List Node → List Node
  | [] => []
  | node :: rest =>
    normalizeIncludedLocalPaths sourcePath outputBaseDir node
      :: normalizeItems sourcePath outputBaseDir rest

/-- Below a list of records there are no further ones, so a value is looked at as a whole after
what is below it. -/
def normalizeEntries (sourcePath outputBaseDir : Str) :
    List (Node × Node) → List (Node × Node)
  | [] => []
  | (key, node) :: rest =>
    let node := normalizeIncludedLocalPaths sourcePath outputBaseDir node
    (key, if key.isScalar then normalizeEntry sourcePath outputBaseDir key.value node else node)
      :: normalizeEntries sourcePath outputBaseDir rest

end

/-! #### Resolution -/

/-- The file at a path. The document that is composed stands for the file at its own path. -/
def loadYAMLFromCache (source : Source) (yaml : YamlReader) (rootPath : Str)
    (root : Yaml.File) (path : Str) : Except ComposeError Yaml.File :=
  if path = rootPath then .ok root
  else
    match source.readFile path with
    | .error e => .error (.read path e)
    | .ok data =>
      match yaml.load data with
      | .error e => .error (.decode path e)
      | .ok none => .error (.noRoot path)
      | .ok (some file) => .ok file

section Resolve

variable (source : Source) (load : Str → Except ComposeError Yaml.File)
  (outputBaseDir : Str)

/-- What an include stands for before its own includes are resolved, with the path of its file and
what the include is known by. -/
def includeTarget (fuel : Nat) (sourcePath : Str) (stack : List Str)
    (value : Str) : Bounded ComposeError (Node × Str × Str) := do
  let (file, pointer) ← Bounded.lift (parseIncludeRef source sourcePath value)
  let id := if pointer = [] then file else file ++ '#' :: pointer
  match cycleFrom stack id with
  | some cycle => Bounded.fail (.includeCycle cycle)
  | none =>
    let target ← Bounded.lift (load file)
    let selected ← Bounded.lift (selectNode target.root pointer file)
    let replacement ← Bounded.ofOption (Yaml.cloneNode target.anchored fuel selected)
    return (normalizeIncludedLocalPaths file outputBaseDir replacement, file, id)

/-- A node of a file with its includes in place. The aliases of the file are followed, too. What is
included is looked at with the includes that led to it. -/
def resolveIncludes : Nat → List Node → Str → List Str → Node →
    Bounded ComposeError Node
  | 0, _, _, _, _ => Bounded.exhausted
  | fuel + 1, _, sourcePath, stack, .scalar anchor tag value =>
    if tag = includeTag then do
      let (replacement, file, id) ←
        includeTarget source load outputBaseDir fuel sourcePath stack value
      resolveIncludes fuel [] file (stack ++ [id]) replacement
    else return .scalar anchor tag value
  | fuel + 1, anchored, sourcePath, stack, .sequence anchor items => do
      let items ← items.mapM (resolveIncludes fuel anchored sourcePath stack)
      return .sequence anchor items
  | fuel + 1, anchored, sourcePath, stack, .mapping anchor entries => do
      let entries ← entries.mapM (Yaml.onEntry (resolveIncludes fuel anchored sourcePath stack))
      return .mapping anchor entries
  | fuel + 1, anchored, sourcePath, stack, .reference name target =>
    match anchored[target]? with
    | some node => do
        let node ← resolveIncludes fuel anchored sourcePath stack node
        return .copy name node
    | none => return .reference name target
  | fuel + 1, anchored, sourcePath, stack, .copy name target => do
      let target ← resolveIncludes fuel anchored sourcePath stack target
      return .copy name target

end Resolve

/-! ### Merging -/

/-- The entry of a mapping whose key is a text. -/
def findEntry (entries : List (Node × Node)) (key : Str) : Option Node :=
  (entries.find? fun entry => entry.1.isScalar && entry.1.value = key).map Prod.snd

/-- The entries with another value for a key that is there. -/
def replaceEntry (key : Str) (value : Node) : List (Node × Node) → List (Node × Node)
  | [] => []
  | entry :: rest =>
    if entry.1.isScalar && entry.1.value = key then (entry.1, value) :: rest
    else entry :: replaceEntry key value rest

/-- A key as it is written into a merged mapping. -/
def keyNode (key : Str) : Node :=
  .scalar [] "!!str".toList key

mutual

/-- A value overlaid on what a mapping has for a key. Mappings are merged. -/
def setOrDeepMergeKey (into : List (Node × Node)) (key : Str) :
    Node → List (Node × Node)
  | .mapping anchor entries =>
    match findEntry into key with
    | none => into ++ [(keyNode key, .mapping anchor entries)]
    | some existing =>
      match existing.deref with
      | .mapping anchor' base =>
        replaceEntry key (.mapping anchor' (mergeMappingInto base entries)) into
      | _ => replaceEntry key (.mapping anchor entries) into
  | .copy name (.mapping anchor entries) =>
    match findEntry into key with
    | none => into ++ [(keyNode key, .copy name (.mapping anchor entries))]
    | some existing =>
      match existing.deref with
      | .mapping anchor' base =>
        replaceEntry key (.mapping anchor' (mergeMappingInto base entries)) into
      | _ => replaceEntry key (.copy name (.mapping anchor entries)) into
  | node =>
    match findEntry into key with
    | none => into ++ [(keyNode key, node)]
    | some _ => replaceEntry key node into

def mergeMappingInto (into : List (Node × Node)) : List (Node × Node) → List (Node × Node)
  | [] => into
  | (key, value) :: rest => mergeMappingInto (setOrDeepMergeKey into key.value value) rest

end

def mappingsOf : List Node → Except ComposeError (List (List (Node × Node)))
  | [] => .ok []
  | node :: rest =>
    match node.deref with
    | .mapping _ entries => do
        let l ← mappingsOf rest
        return entries :: l
    | _ => .error .mergeExpectsMappings

/-- The mappings that a merge key takes over. -/
def collectMergeSources (value : Node) : Except ComposeError (List (List (Node × Node))) :=
  match value.deref with
  | .mapping _ entries => .ok [entries]
  | .sequence _ items => mappingsOf items
  | _ => .error .mergeExpectsMappings

/-- The key under which other mappings are taken over. -/
def isMergeKey (key : Node) : Bool :=
  key.isScalar && key.value = ['<', '<']

/-- The entries of a mapping, one after the other, where later ones overlay earlier ones. -/
def mergeEntries : List (Node × Node) → List (Node × Node) →
    Except ComposeError (List (Node × Node))
  | [], into => .ok into
  | (key, value) :: rest, into =>
    if isMergeKey key then do
      let sources ← collectMergeSources value
      mergeEntries rest (sources.foldl mergeMappingInto into)
    else mergeEntries rest (setOrDeepMergeKey into key.value value)

mutual

/-- The merge keys below a node, the innermost first. -/
def expandDeepMergeKeys : Node → Except ComposeError Node
  | .copy name target => do
      let target ← expandDeepMergeKeys target
      return .copy name target
  | .sequence anchor items => do
      let items ← expandItems items
      return .sequence anchor items
  | .mapping anchor entries => do
      let entries ← expandEntries entries
      let entries ← mergeEntries entries []
      return .mapping anchor entries
  | node => .ok node

def expandItems : List Node → Except ComposeError (List Node)
  | [] => .ok []
  | node :: rest => do
      let node ← expandDeepMergeKeys node
      let rest ← expandItems rest
      return node :: rest

def expandEntries : List (Node × Node) → Except ComposeError (List (Node × Node))
  | [] => .ok []
  | (key, value) :: rest => do
      let key ← expandDeepMergeKeys key
      let value ← expandDeepMergeKeys value
      let rest ← expandEntries rest
      return (key, value) :: rest

end

/-! ### The composed document -/

def loadYAMLDocumentBytes (yaml : YamlReader) (data sourcePath : Str) :
    Except ComposeError Yaml.File :=
  match yaml.load data with
  | .error e => .error (.decode sourcePath e)
  | .ok none => .error (.noRoot sourcePath)
  | .ok (some file) => .ok file

/-- The document that a spec at a path is composed to. -/
def composeSpecYAML (fuel : Nat) (source : Source) (yaml : YamlReader)
    (data sourcePath : Str) : Bounded ComposeError Node := do
  let root ← Bounded.lift (loadYAMLDocumentBytes yaml data sourcePath)
  let load := loadYAMLFromCache source yaml sourcePath root
  let resolved ← resolveIncludes source load (SlashPath.dirName sourcePath) fuel root.anchored
    sourcePath [sourcePath] root.root
  Bounded.lift (expandDeepMergeKeys resolved)

/-- The value of a composed document, which is written and read again. -/
def decodeComposed (yaml : YamlReader) (node : Node) : Except ComposeError Value :=
  match Yaml.decode yaml.scalar node .empty with
  | .ok (v, _) => .ok v
  | .error e => .error (.encoded e)

/-! ### Includes of mounted files -/

/-- The includes below a node of a file, whose aliases are followed. -/
def collectYAMLIncludeRefsFromNode (anchored : List Node) :
    Nat → Node → Option (List Str)
  | 0, _ => none
  | _ + 1, .scalar _ tag value => some (if tag = includeTag then [value] else [])
  | fuel + 1, .sequence _ items =>
    (items.mapM (collectYAMLIncludeRefsFromNode anchored fuel)).map List.flatten
  | fuel + 1, .mapping _ entries =>
    (entries.mapM (Yaml.onEntry (collectYAMLIncludeRefsFromNode anchored fuel))).map
      fun l => (l.map fun refs => refs.1 ++ refs.2).flatten
  | fuel + 1, .reference _ target =>
    match anchored[target]? with
    | some node => collectYAMLIncludeRefsFromNode anchored fuel node
    | none => some []
  | fuel + 1, .copy _ target => collectYAMLIncludeRefsFromNode anchored fuel target

end Ploy
