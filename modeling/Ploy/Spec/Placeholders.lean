import Ploy.Spec.Contract

/-!
# Placeholders

The texts of a spec refer to variables of an environment, and the images of the build gate also to
the stack they are for.
-/

namespace Ploy

open Contract (StackExpectation)

/-- The variables of an environment. -/
abbrev Environment := Str → Option Str

def isNameStart (c : Char) : Bool :=
  ('A' ≤ c && c ≤ 'Z') || ('a' ≤ c && c ≤ 'z') || c = '_'

def isNamePart (c : Char) : Bool :=
  isNameStart c || ('0' ≤ c && c ≤ '9')

/-- The name a text begins with, and what comes after it. -/
def variableName : Str → Option (Str × Str)
  | [] => none
  | c :: rest =>
    if isNameStart c then some (c :: rest.takeWhile isNamePart, rest.dropWhile isNamePart)
    else none

/-- A placeholder `${NAME}` or `$NAME` at the head of a text. -/
def envPlaceholder : Str → Option (Str × Str)
  | '$' :: '\x7b' :: rest =>
    match variableName rest with
    | some (name, '\x7d' :: rest) => some (name, rest)
    | _ => none
  | '$' :: rest => variableName rest
  | _ => none

/-- The key of a placeholder `${stack.KEY}` at the head of a text. -/
def stackPlaceholder (text : Str) : Option (Str × Str) :=
  if "$\x7bstack.".toList.isPrefixOf text then
    let rest := text.drop "$\x7bstack.".toList.length
    match rest.takeWhile (· ≠ '\x7d'), rest.dropWhile (· ≠ '\x7d') with
    | _ :: _, '\x7d' :: after => some (trim (rest.takeWhile (· ≠ '\x7d')), after)
    | _, _ => none
  else none

/-- A name put into a list in order, once. -/
def insertName (name : Str) : List Str → List Str
  | [] => [name]
  | x :: rest =>
    if name = x then x :: rest
    else if name < x then name :: x :: rest
    else x :: insertName name rest

/-- The names in order, each once. -/
def sortNames (names : List Str) : List Str :=
  names.foldl (fun l name => insertName name l) []

def missingNames (value : Environment) (names : List Str) : List Str :=
  sortNames (names.filter fun name => (value name).isNone)

/-- A text with its variables filled in, or the names of those that are missing. -/
def expandEnv (lookup : Environment) (text : Str) :
    Except (List Str) Str :=
  match missingNames lookup (Template.holes envPlaceholder text) with
  | [] => .ok (Template.fill lookup (Template.parse envPlaceholder text))
  | missing => .error missing

/-- The stack of a rule without the white space around its parts, if it says anything. -/
def normalizeStackExpectation (stack : Option StackExpectation) : Option StackExpectation :=
  match stack with
  | none => none
  | some e =>
    let e : StackExpectation := ⟨trim e.language, trim e.tool, trim e.release⟩
    if e.isEmpty then none else some e

/-- Why a template cannot be filled in. -/
inductive TemplateFault where
  | unknownStack (placeholders : List Str)
  | unresolvedStack (placeholders : List Str)
  | unresolvedEnv (names : List Str)
  deriving DecidableEq, Repr

def isStackKey (key : Str) : Bool :=
  key = "language".toList || key = "release".toList || key = "tool".toList

/-- The part of a stack that a key names. -/
def stackValue (stack : Option StackExpectation) (key : Str) : Str :=
  match stack with
  | none => []
  | some e =>
    if key = "language".toList then e.language
    else if key = "release".toList then e.release
    else if key = "tool".toList then e.tool
    else []

def stackHole (stack : Option StackExpectation) (key : Str) : Option Str :=
  let value := stackValue stack key
  if trim value = [] then none else some value

/-- An image with the parts of its stack filled in. -/
def expandStack (stack : Option StackExpectation) (image : Str) :
    Except TemplateFault Str :=
  let keys := Template.holes stackPlaceholder image
  let named (keys : List Str) := sortNames (keys.map fun key => "stack.".toList ++ key)
  match named (keys.filter fun key => !isStackKey key) with
  | unknown :: more => .error (.unknownStack (unknown :: more))
  | [] =>
    match named (keys.filter fun key => (stackHole stack key).isNone) with
    | missing :: more => .error (.unresolvedStack (missing :: more))
    | [] => .ok (Template.fill (stackHole stack) (Template.parse stackPlaceholder image))

/-- An image with its stack and then its variables filled in. -/
def expandImageTemplateWithLookup (image : Str) (stack : Option StackExpectation)
    (lookup : Environment) : Except TemplateFault Str := do
  let image ← expandStack (normalizeStackExpectation stack) image
  (expandEnv lookup image).mapError .unresolvedEnv

/-- The variables of an image template are those of the process. -/
def expandImageTemplate (process : Environment) (image : Str)
    (stack : Option StackExpectation) : Except TemplateFault Str :=
  expandImageTemplateWithLookup image stack process

/-! ### What the placeholders look at -/

theorem expandEnv_congr
    {lookup lookup' : Environment} {text : Str}
    (h : ∀ name ∈ Template.holes envPlaceholder text, lookup name = lookup' name) :
  expandEnv lookup text = expandEnv lookup' text
  := by
  have hmissing : missingNames lookup (Template.holes envPlaceholder text)
      = missingNames lookup' (Template.holes envPlaceholder text) := by
    rw [missingNames, missingNames]
    congr 1
    apply List.filter_congr
    intro name hname
    rw [h name hname]
  have hfill : Template.fill lookup (Template.parse envPlaceholder text)
      = Template.fill lookup' (Template.parse envPlaceholder text) :=
    Template.fill_congr fun name hname => h name (Template.mem_holes hname)
  rw [expandEnv, expandEnv, hmissing, hfill]

/-- Where no variable is set, a text that refers to one cannot be filled in. -/
theorem expandEnv_of_none {text : Str} (h : Template.holes envPlaceholder text ≠ []) :
  ∃ names, expandEnv (fun _ => none) text = .error names
  := by
  have hinsert : ∀ name l, insertName name l ≠ [] := by
    intro name l
    cases l with
    | nil => simp [insertName]
    | cons x rest =>
      rw [insertName]
      split
      · simp
      · split <;> simp
  obtain ⟨name, rest, hholes⟩ := List.exists_cons_of_ne_nil h
  have hmissing : missingNames (fun _ => none) (Template.holes envPlaceholder text) ≠ [] := by
    rw [hholes, missingNames, List.filter_eq_self.mpr fun _ _ => Option.isNone_none]
    exact List.foldlRecOn (motive := (· ≠ [])) rest _ (hinsert name []) fun l _ name _ =>
      hinsert name l
  rw [expandEnv]
  split
  · next hnil => exact absurd hnil hmissing
  · exact ⟨_, rfl⟩

/-- Where all variables are set, every text can be filled in. -/
theorem expandEnv_of_some (value text : Str) :
  ∃ filled, expandEnv (fun _ => some value) text = .ok filled
  := by
  have hnone : missingNames (fun _ => some value) (Template.holes envPlaceholder text) = [] := by
    rw [missingNames, List.filter_eq_nil_iff.mpr (by simp)]
    rfl
  rw [expandEnv, hnone]
  exact ⟨_, rfl⟩

end Ploy
