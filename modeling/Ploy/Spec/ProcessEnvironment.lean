import Ploy.Spec.Compiler

/-!
# What a compiled spec shows of the process

A compiler is given the variables a spec may refer to. The images of the build gate are filled in
from the variables of the process instead, so a spec can read those. A spec in which no image of
the build gate that is filled in refers to a variable is compiled in the same way in every process,
and no other spec is.
-/

namespace Ploy

open JsonText (Value)
open Contract (Numbers)

/-- What there is to a rule of the build gate before the process is looked at: an image that is a
text, with its stack filled in, one whose stack cannot be filled in, or none. -/
inductive RuleReading where
  | untouched
  | refused
  | image (text : Str)
  deriving DecidableEq

def readRule (numbers : Numbers) : Value → RuleReading
  | .object members =>
    match Dictionary.get members "image".toList with
    | some (.string image) =>
      match stackExpectationFromBuildGateRule numbers 0 members with
      | .ok stack =>
        match expandStack (normalizeStackExpectation stack) image with
        | .ok text => .image text
        | .error _ => .refused
      | .error _ => .refused
    | _ => .untouched
  | _ => .untouched

/-- An image in which no variable is left. -/
def RuleReading.isClosed : RuleReading → Bool
  | .image text => Template.holes envPlaceholder text = []
  | _ => true

/-- No image of a list of rules that is filled in refers to a variable. What follows a rule that is
refused is not looked at. -/
def rulesAreClosed (numbers : Numbers) (rules : List Value) : Bool :=
  ((rules.map (readRule numbers)).takeWhile (· ≠ .refused)).all RuleReading.isClosed

/-- No image of the build gate of a spec that is filled in refers to a variable. -/
def gateWithoutVariables (numbers : Numbers) (spec : Object) : Bool :=
  match Dictionary.get spec "build_gate".toList with
  | some (.object gate) =>
    match Dictionary.get gate "images".toList with
    | some (.array images) => rulesAreClosed numbers images
    | _ => true
  | _ => true

theorem ruleText_fault
    {fault : PlaceholderError} (fault' : PlaceholderError) {v : Option Value} {t : Str}
    (h : ruleText fault v = .ok t) :
  ruleText fault' v = .ok t
  := by
  rcases v with _ | v
  · exact h
  · cases v <;> first | exact h | cases h

/-- A release that is read does not depend on the fault that would be reported. -/
theorem ruleReleaseText_fault
    {numbers : Numbers} {fault : PlaceholderError} (fault' : PlaceholderError) {v : Option Value}
    {t : Str} (h : ruleReleaseText numbers fault v = .ok t) :
  ruleReleaseText numbers fault' v = .ok t
  := by
  rcases v with _ | v
  · exact h
  · cases v with
    | number literal =>
      rw [ruleReleaseText] at h ⊢
      cases hrelease : numbers.scalarRelease literal with
      | none =>
        rw [hrelease] at h
        cases h
      | some release =>
        rw [hrelease] at h
        exact h
    | null | string => exact h
    | bool | array | object => cases h

theorem stackExpectationFromBuildGateRule_place
    (numbers : Numbers) {i : Nat} (j : Nat) {rule : Object}
    {stack : Option Contract.StackExpectation}
    (h : stackExpectationFromBuildGateRule numbers i rule = .ok stack) :
  stackExpectationFromBuildGateRule numbers j rule = .ok stack
  := by
  unfold stackExpectationFromBuildGateRule at h ⊢
  split at h
  · exact h
  · exact h
  · obtain ⟨language, hlanguage, h⟩ := Fallible.bind_eq_ok.mp h
    obtain ⟨tool, htool, h⟩ := Fallible.bind_eq_ok.mp h
    obtain ⟨release, hrelease, h⟩ := Fallible.bind_eq_ok.mp h
    refine Fallible.bind_eq_ok.mpr ⟨language, ruleText_fault _ hlanguage, ?_⟩
    refine Fallible.bind_eq_ok.mpr ⟨tool, ruleText_fault _ htool, ?_⟩
    exact Fallible.bind_eq_ok.mpr ⟨release, ruleReleaseText_fault _ hrelease, h⟩
  · cases h

/-- A variable of the process is missing in an image of the build gate. -/
def Unresolved (e : PlaceholderError) : Prop :=
  ∃ i names, e = .ruleImage i (.unresolvedEnv names)

section Rules

variable {numbers : Numbers}

/-- Reading the stack of a rule fails for no variable. -/
theorem not_unresolved_of_stack {i : Nat} {members : Object} {e : PlaceholderError}
    (h : stackExpectationFromBuildGateRule numbers i members = .error e) :
  ¬ Unresolved e
  := by
  have htext : ∀ (fault : PlaceholderError) v, ¬ Unresolved fault →
      Fallible.Avoids Unresolved (ruleText fault v) := by
    intro fault v hfault e h
    rcases v with _ | v
    · cases h
    · cases v <;> cases h <;> exact hfault
  have hrelease : ∀ (fault : PlaceholderError) v, ¬ Unresolved fault →
      Fallible.Avoids Unresolved (ruleReleaseText numbers fault v) := by
    intro fault v hfault
    rcases v with _ | v
    · exact Fallible.avoids_ok _
    · cases v with
      | number literal =>
        intro e h
        rw [ruleReleaseText] at h
        split at h <;> cases h
        exact hfault
      | null | string | bool | array | object =>
        rw [ruleReleaseText]
        · exact htext fault _ hfault
        · nofun
  refine (?_ : Fallible.Avoids Unresolved _) e h
  rw [stackExpectationFromBuildGateRule]
  split
  · exact Fallible.avoids_ok _
  · exact Fallible.avoids_ok _
  · apply (htext _ _ (by rintro ⟨_, _, ⟨⟩⟩)).bind
    intro language
    apply (htext _ _ (by rintro ⟨_, _, ⟨⟩⟩)).bind
    intro tool
    apply (hrelease _ _ (by rintro ⟨_, _, ⟨⟩⟩)).bind
    exact fun release => Fallible.avoids_ok _
  · rintro e ⟨⟩ ⟨_, _, ⟨⟩⟩

/-- What becomes of a rule: it is left as it is, it is refused in every process alike, or its
variables are filled in. -/
theorem resolveImageRule_cases (numbers : Numbers) (i : Nat) (rule : Value) :
  (readRule numbers rule = .untouched
      ∧ ∀ process, resolveImageRule numbers process i rule = .ok rule)
    ∨ (∃ e, readRule numbers rule = .refused ∧ ¬ Unresolved e
      ∧ ∀ process, resolveImageRule numbers process i rule = .error e)
    ∨ ∃ text result, readRule numbers rule = .image text
      ∧ ∀ process, resolveImageRule numbers process i rule
        = ((expandEnv process text).mapError fun names => .ruleImage i (.unresolvedEnv names)).map
          result
  := by
  cases rule with
  | object members =>
    unfold resolveImageRule readRule
    by_cases himage : ∃ image, Dictionary.get members "image".toList = some (.string image)
    · obtain ⟨image, himage⟩ := himage
      simp only [himage]
      cases hstack : stackExpectationFromBuildGateRule numbers i members with
      | error e =>
        refine Or.inr (Or.inl ⟨e, ?_, not_unresolved_of_stack hstack, fun _ => rfl⟩)
        split
        · next stack hok =>
            rw [stackExpectationFromBuildGateRule_place numbers i hok] at hstack
            cases hstack
        · rfl
      | ok stack =>
        simp only [stackExpectationFromBuildGateRule_place numbers 0 hstack, Fallible.ok_bind,
          expandImageTemplate, expandImageTemplateWithLookup]
        cases hexpand : expandStack (normalizeStackExpectation stack) image with
        | error fault =>
          refine Or.inr (Or.inl ⟨.ruleImage i fault, rfl, ?_, fun _ => rfl⟩)
          rintro ⟨_, names, ⟨⟩⟩
          rw [expandStack] at hexpand
          dsimp only at hexpand
          split at hexpand
          · cases hexpand
          · split at hexpand <;> cases hexpand
        | ok text =>
          refine Or.inr (Or.inr ⟨text,
            fun filled => .object (Dictionary.set members "image".toList (.string filled)), rfl,
              ?_⟩)
          intro process
          rw [Fallible.ok_bind]
          cases expandEnv process text <;> rfl
    · have hother : ∀ image, Dictionary.get members "image".toList ≠ some (.string image) :=
        not_exists.mp himage
      left
      constructor
      · dsimp only
        split
        · next image h => exact absurd h (hother image)
        · rfl
      · intro process
        dsimp only
        split
        · next image h => exact absurd h (hother image)
        · rfl
  | null | bool | number | string | array => exact Or.inl ⟨rfl, fun _ => rfl⟩

theorem rulesAreClosed_cons (rule : Value) (rules : List Value) :
  rulesAreClosed numbers (rule :: rules) = true
    ↔ readRule numbers rule = .refused
      ∨ ((readRule numbers rule).isClosed = true ∧ rulesAreClosed numbers rules = true)
  := by
  rw [rulesAreClosed, List.map_cons, List.takeWhile_cons]
  by_cases hrefused : readRule numbers rule = .refused
  · simp [hrefused]
  · simp [hrefused, rulesAreClosed]

/-- Rules whose images have no variables are filled in alike in every process. -/
theorem mapWithIndex_of_closed {rules : List Value} (h : rulesAreClosed numbers rules = true)
    (process process' : Environment) (i : Nat) :
  mapWithIndex (resolveImageRule numbers process) i rules
    = mapWithIndex (resolveImageRule numbers process') i rules
  := by
  induction rules generalizing i with
  | nil => rfl
  | cons rule rules ih =>
    rw [mapWithIndex, mapWithIndex]
    rw [rulesAreClosed_cons] at h
    rcases resolveImageRule_cases numbers i rule with
      ⟨hread, hrule⟩ | ⟨e, hread, -, hrule⟩ | ⟨text, result, hread, hrule⟩
    · rw [hrule, hrule, ih (h.resolve_left (by simp [hread])).2]
    · rw [hrule, hrule, Fallible.error_bind, Fallible.error_bind]
    · have hclosed := h.resolve_left (by simp [hread])
      rw [hread, RuleReading.isClosed, decide_eq_true_eq] at hclosed
      have hsame : expandEnv process text = expandEnv process' text := by
        apply expandEnv_congr
        rw [hclosed.1]
        intro name hname
        cases hname
      rw [hrule, hrule, hsame, ih hclosed.2]

/-- In a process without variables the first image that refers to one is refused. -/
theorem mapWithIndex_of_open {rules : List Value} (h : rulesAreClosed numbers rules = false)
    (i : Nat) :
  ∃ e, Unresolved e
    ∧ mapWithIndex (resolveImageRule numbers fun _ => none) i rules = .error e
  := by
  induction rules generalizing i with
  | nil => cases h
  | cons rule rules ih =>
    rw [mapWithIndex]
    rw [← Bool.not_eq_true, rulesAreClosed_cons, not_or, not_and, Bool.not_eq_true] at h
    rcases resolveImageRule_cases numbers i rule with
      ⟨hread, hrule⟩ | ⟨e, hread, -, hrule⟩ | ⟨text, result, hread, hrule⟩
    · obtain ⟨e, he, hrest⟩ := ih (h.2 (by rw [hread]; rfl)) (i + 1)
      exact ⟨e, he, by rw [hrule, Fallible.ok_bind, hrest, Fallible.error_bind]⟩
    · exact absurd hread h.1
    · by_cases hholes : Template.holes envPlaceholder text = []
      · have hfilled : ∃ filled, expandEnv (fun _ => none) text = .ok filled := by
          rw [expandEnv, hholes]
          exact ⟨_, rfl⟩
        obtain ⟨filled, hfilled⟩ := hfilled
        have hclosed : (readRule numbers rule).isClosed = true := by
          rw [hread]
          exact decide_eq_true hholes
        obtain ⟨e, he, hrest⟩ := ih (h.2 hclosed) (i + 1)
        refine ⟨e, he, ?_⟩
        rw [hrule, hfilled]
        change (mapWithIndex _ _ _ >>= _) = _
        rw [hrest, Fallible.error_bind]
      · obtain ⟨names, hnames⟩ := expandEnv_of_none hholes
        refine ⟨_, ⟨i, names, rfl⟩, ?_⟩
        rw [hrule, hnames]
        rfl

end Rules

theorem avoids_mapWithIndex {ε : Type} {P : ε → Prop} {f : Nat → Value → Except ε Value}
    (h : ∀ i v, Fallible.Avoids P (f i v)) (i : Nat) (l : List Value) :
  Fallible.Avoids P (mapWithIndex f i l)
  := by
  induction l generalizing i with
  | nil => exact Fallible.avoids_ok _
  | cons v l ih => exact (h i v).bind fun _ => (ih (i + 1)).bind fun _ => Fallible.avoids_ok _

theorem avoids_mapMembers {ε : Type} {P : ε → Prop} {f : Str → Value → Except ε Value}
    (h : ∀ key v, Fallible.Avoids P (f key v)) (l : Object) :
  Fallible.Avoids P (mapMembers f l)
  := by
  induction l with
  | nil => exact Fallible.avoids_ok _
  | cons v l ih => exact (h v.1 v.2).bind fun _ => ih.bind fun _ => Fallible.avoids_ok _

theorem avoids_mapSteps {ε : Type} {P : ε → Prop} {f : Nat → Object → Except ε Object}
    (h : ∀ i step, Fallible.Avoids P (f i step)) (spec : Object) :
  Fallible.Avoids P (mapSteps f spec)
  := by
  rw [mapSteps]
  split
  · refine (avoids_mapWithIndex ?_ 0 _).bind fun _ => Fallible.avoids_ok _
    intro i v
    split
    · exact (h i _).map _
    · exact Fallible.avoids_ok _
  · exact Fallible.avoids_ok _

theorem get_mapSteps
    {ε : Type} {f : Nat → Object → Except ε Object} {spec spec' : Object}
    (h : mapSteps f spec = .ok spec') {key : Str} (hkey : key ≠ stepsKey) :
  Dictionary.get spec' key = Dictionary.get spec key
  := by
  rw [mapSteps] at h
  split at h
  · obtain ⟨steps, -, h⟩ := Fallible.bind_eq_ok.mp h
    cases h
    exact Dictionary.get_set_of_ne _ _ hkey
  · cases h
    rfl

namespace Compiler

variable (c : Compiler)

/-- No image of the build gate that is filled in refers to a variable. The build gate is reached
when the images of the steps are filled in. -/
def imagesAreClosed (spec : Object) : Bool :=
  match mapSteps c.resolveImageInSection spec with
  | .error _ => true
  | .ok _ => gateWithoutVariables c.numbers spec

/-- The process makes no difference to a spec whose images are closed, and one without variables
refuses any other. -/
theorem resolveImageEnvInPlace_cases (spec : Object) :
  (c.imagesAreClosed spec = true ∧ ∀ process process',
      c.resolveImageEnvInPlace process spec = c.resolveImageEnvInPlace process' spec)
    ∨ (c.imagesAreClosed spec = false
      ∧ ∃ e, Unresolved e ∧ c.resolveImageEnvInPlace (fun _ => none) spec = .error e)
  := by
  unfold resolveImageEnvInPlace imagesAreClosed
  cases hsteps : mapSteps c.resolveImageInSection spec with
  | error e => exact Or.inl ⟨rfl, fun _ _ => rfl⟩
  | ok spec' =>
    unfold gateWithoutVariables resolveBuildGateImageRulesInPlace
    simp only [Fallible.ok_bind, get_mapSteps hsteps
      (show "build_gate".toList ≠ stepsKey by decide)]
    rcases Dictionary.get spec "build_gate".toList with _ | gate
    · exact Or.inl ⟨rfl, fun _ _ => rfl⟩
    · cases gate with
      | object gate =>
        dsimp only
        rcases Dictionary.get gate "images".toList with _ | images
        · exact Or.inl ⟨rfl, fun _ _ => rfl⟩
        · cases images with
          | array images =>
            dsimp only
            cases hclosed : rulesAreClosed c.numbers images with
            | true =>
              refine Or.inl ⟨rfl, fun process process' => ?_⟩
              rw [mapWithIndex_of_closed hclosed process process']
            | false =>
              obtain ⟨e, he, hfails⟩ := mapWithIndex_of_open hclosed 0
              refine Or.inr ⟨rfl, e, he, ?_⟩
              rw [hfails, Fallible.error_bind, Fallible.error_bind]
          | null | bool | number | string | object => exact Or.inl ⟨rfl, fun _ _ => rfl⟩
      | null | bool | number | string | array => exact Or.inl ⟨rfl, fun _ _ => rfl⟩

/-- In a process with all variables none is missing. -/
theorem avoids_preprocess (value : Str) (spec : Object) :
  Fallible.Avoids Unresolved (c.preprocessMigsSpecInPlace (fun _ => some value) spec)
  := by
  have henv : ∀ site raw, Fallible.Avoids Unresolved (c.expandSpecEnvValue site raw) := by
    intro site raw
    exact Fallible.avoids_mapError (by rintro _ ⟨_, _, ⟨⟩⟩) _
  have henvs : ∀ site spec, Fallible.Avoids Unresolved (c.resolveEnvsInPlace site spec) := by
    intro site spec
    rw [resolveEnvsInPlace]
    split
    · refine (avoids_mapMembers ?_ _).bind fun _ => Fallible.avoids_ok _
      intro key v
      split
      · exact (henv _ _).map _
      · rintro e ⟨⟩ ⟨_, _, ⟨⟩⟩
    · exact Fallible.avoids_ok _
  have hrule : ∀ i rule,
      Fallible.Avoids Unresolved (resolveImageRule c.numbers (fun _ => some value) i rule) := by
    intro i rule
    rcases resolveImageRule_cases c.numbers i rule with
      ⟨-, hrule⟩ | ⟨e, -, he, hrule⟩ | ⟨text, result, -, hrule⟩
    · rw [hrule]
      exact Fallible.avoids_ok _
    · rw [hrule]
      rintro _ ⟨⟩
      exact he
    · obtain ⟨filled, hfilled⟩ := expandEnv_of_some value text
      rw [hrule, hfilled]
      exact Fallible.avoids_ok _
  have hsteps : ∀ i step, Fallible.Avoids Unresolved (c.resolveImageInSection i step) := by
    intro i step
    rw [resolveImageInSection]
    split
    · exact (henv _ _).bind fun _ => Fallible.avoids_ok _
    · refine (avoids_mapMembers ?_ _).bind fun _ => Fallible.avoids_ok _
      intro key v
      split
      · exact (henv _ _).map _
      · exact Fallible.avoids_ok _
    · exact Fallible.avoids_ok _
  have himages : Fallible.Avoids Unresolved (c.resolveImageEnvInPlace
      (fun _ => some value) spec) := by
    refine (avoids_mapSteps hsteps spec).bind fun spec => ?_
    split
    · exact Fallible.avoids_ok _
    · rw [resolveBuildGateImageRulesInPlace]
      split
      · exact ((avoids_mapWithIndex hrule 0 _).bind fun _ => Fallible.avoids_ok _).bind
          fun _ => Fallible.avoids_ok _
      · exact Fallible.avoids_ok _
    · rintro e ⟨⟩ ⟨_, _, ⟨⟩⟩
  exact himages.bind fun spec => (henvs _ spec).bind fun spec =>
    avoids_mapSteps (fun i => henvs _) spec

/-- A failure to fill in placeholders. -/
def OfPlaceholders (e : CompileError) : Prop :=
  ∃ e', e = .placeholders e'

theorem avoids_marshalSpec (spec : Object) :
  Fallible.Avoids OfPlaceholders (marshalSpec spec)
  := by
  rw [marshalSpec]
  split
  · exact Fallible.avoids_ok _
  · rintro e ⟨⟩ ⟨_, ⟨⟩⟩

theorem avoids_validateSpecShape (spec : Object) :
  Bounded.Avoids OfPlaceholders (Bounded.lift (validateSpecShape spec))
  := by
  refine Bounded.avoids_lift ((avoids_marshalSpec spec).bind fun text => ?_)
  split
  · exact Fallible.avoids_ok _
  · rintro e ⟨⟩ ⟨_, ⟨⟩⟩

/-- The checks of the local files do not fail for a placeholder. -/
theorem avoids_validateLocalSteps (fuel : Nat) (specBaseDir : Str) (i : Nat) (steps : List Value) :
  Bounded.Avoids OfPlaceholders (c.validateLocalSteps fuel specBaseDir i steps)
  := by
  induction steps generalizing i with
  | nil => exact Bounded.avoids_pure _
  | cons step steps ih =>
    cases step with
    | object step =>
      refine Bounded.Avoids.bind ?_ fun _ => ih (i + 1)
      refine Bounded.Avoids.bind (Bounded.avoids_lift ?_) fun _ => ?_
      · exact Fallible.avoids_mapError (by rintro _ ⟨_, ⟨⟩⟩) _
      · exact Bounded.avoids_mapError (by rintro _ ⟨_, ⟨⟩⟩) _
    | null | bool | number | string | array => exact ih (i + 1)

/-- Neither do the file records of the steps. -/
theorem avoids_compileSteps (ensure : Str → List UInt8 → Except Str Str) (specBaseDir : Str)
    (i : Nat) (steps : List Value) (taken : Taken) :
  Fallible.Avoids OfPlaceholders (c.compileSteps ensure specBaseDir i steps taken)
  := by
  induction steps generalizing i taken with
  | nil => exact Fallible.avoids_ok _
  | cons step steps ih =>
    cases step with
    | object step =>
      rw [compileSteps]
      split
      · refine (Fallible.avoids_mapError ?_ _).bind fun _ => ?_
        · rintro _ ⟨_, ⟨⟩⟩
        · exact (ih (i + 1) _).bind fun _ => Fallible.avoids_ok _
      · exact (ih (i + 1) _).bind fun _ => Fallible.avoids_ok _
    | null | bool | number | string | array =>
      exact (ih (i + 1) taken).bind fun _ => Fallible.avoids_ok _

theorem avoids_compileHydraRecords (spec : Object) (specBaseDir : Str) :
  Fallible.Avoids OfPlaceholders (c.compileHydraRecordsInPlace spec specBaseDir)
  := by
  rw [compileHydraRecordsInPlace]
  split
  · split
    · split
      · rintro e ⟨⟩ ⟨_, ⟨⟩⟩
      · exact (c.avoids_compileSteps _ _ _ _ _).bind fun _ => Fallible.avoids_ok _
    · exact Fallible.avoids_ok _
  · exact Fallible.avoids_ok _

theorem avoids_finish (spec : Object) :
  Fallible.Avoids OfPlaceholders (c.finish spec)
  := by
  refine (avoids_marshalSpec spec).bind fun text => ?_
  exact (Fallible.avoids_mapError (by rintro _ ⟨_, ⟨⟩⟩) _).bind fun _ => Fallible.avoids_ok _

/-- After the placeholders nothing fails for one. -/
theorem avoids_completeSpec (fuel : Nat) (overrides : Overrides) (spec : Object)
    (specBaseDir : Str) :
  Bounded.Avoids OfPlaceholders (c.completeSpec fuel overrides spec specBaseDir)
  := by
  have hrest : ∀ spec, Bounded.Avoids OfPlaceholders (do
      if spec.isEmpty then return none
      Bounded.lift (validateSpecShape spec)
      c.validateLocalFileRecords fuel spec specBaseDir
      let spec ← Bounded.lift (c.compileHydraRecordsInPlace spec specBaseDir)
      let text ← Bounded.lift (c.finish spec)
      return some text) := by
    intro spec
    split
    · exact Bounded.avoids_pure _
    · refine (avoids_validateSpecShape spec).bind fun _ => Bounded.Avoids.bind ?_ fun _ => ?_
      · rw [validateLocalFileRecords]
        split
        · exact c.avoids_validateLocalSteps _ _ _ _
        · exact Bounded.avoids_pure _
      · exact (Bounded.avoids_lift (c.avoids_compileHydraRecords spec _)).bind fun spec =>
          (Bounded.avoids_lift (c.avoids_finish spec)).bind fun _ => Bounded.avoids_pure _
  refine Bounded.Avoids.bind (Bounded.avoids_lift ?_) fun spec => ?_
  · exact Fallible.avoids_mapError (by rintro _ ⟨_, ⟨⟩⟩) _
  · dsimp only
    split
    · exact Bounded.avoids_pure _
    · split
      · exact (avoids_validateSpecShape spec).bind fun _ => hrest _
      · exact hrest _

/-- The same for the spec of a file, once the steps it refers to and the variables of the caller are
in place. -/
def gateIsClosed (fuel : Nat) (specFile selector : Str) (overrides : Overrides) : Bool :=
  match (c.prepareSpecFile fuel specFile selector overrides).run with
  | some (.ok (spec, _)) => c.imagesAreClosed spec
  | _ => true

end Compiler

/-- A spec is compiled to the same text, or fails for the same reason, whatever the variables of the
process are, exactly if no image of its build gate that is filled in refers to a variable. -/
theorem build_ignores_process
    (c : Compiler) (fuel : Nat) (specFile selector : Str) (overrides : Overrides) :
  (∀ process process', c.buildSelected fuel process specFile selector overrides
      = c.buildSelected fuel process' specFile selector overrides)
    ↔ c.gateIsClosed fuel specFile selector overrides = true
  := by
  unfold Compiler.buildSelected Compiler.gateIsClosed
  rcases hprepared : (c.prepareSpecFile fuel specFile selector overrides).run with _ | e
    | ⟨spec, dir⟩
  · refine iff_of_true (fun process process' => Bounded.bind_congr fun a ha => ?_) rfl
    rw [Bounded.Yields, hprepared] at ha
    cases ha
  · refine iff_of_true (fun process process' => Bounded.bind_congr fun a ha => ?_) rfl
    rw [Bounded.Yields, hprepared] at ha
    cases ha
  · rw [show c.prepareSpecFile fuel specFile selector overrides
      = Bounded.lift (.ok (spec, dir)) from
      ExceptT.ext hprepared]
    rcases c.resolveImageEnvInPlace_cases spec with ⟨hclosed, hsame⟩ | ⟨hopen, e, he, hnone⟩
    · refine iff_of_true (fun process process' => ?_) hclosed
      have hpreprocess : c.preprocessMigsSpecInPlace process spec
          = c.preprocessMigsSpecInPlace process' spec := by
        rw [Compiler.preprocessMigsSpecInPlace, hsame process process',
          Compiler.preprocessMigsSpecInPlace]
      apply Bounded.bind_congr
      rintro _ ⟨⟩
      dsimp only
      rw [hpreprocess]
    · refine iff_of_false (fun hsame => ?_) (by simp [hopen])
      -- In a process without variables the image is refused, in one with all variables it is not.
      have hunset : (Bounded.lift ((c.preprocessMigsSpecInPlace (fun _ => none) spec).mapError
          .placeholders) >>= fun spec => c.completeSpec fuel overrides spec dir).run
            = some (.error (.placeholders e)) := by
        rw [Compiler.preprocessMigsSpecInPlace, hnone]
        rfl
      have hset : Bounded.Avoids (fun e' => e' = CompileError.placeholders e)
          (Bounded.lift ((c.preprocessMigsSpecInPlace (fun _ => some []) spec).mapError
            .placeholders) >>= fun spec => c.completeSpec fuel overrides spec dir) := by
        refine Bounded.Avoids.bind (Bounded.avoids_lift ?_) fun spec e' h hplaceholders => ?_
        · intro e' h hsame
          cases hresult : c.preprocessMigsSpecInPlace (fun _ => some []) spec with
          | ok spec' =>
            rw [hresult] at h
            cases h
          | error e'' =>
            rw [hresult, hsame] at h
            cases h
            exact c.avoids_preprocess [] spec e hresult he
        · exact c.avoids_completeSpec fuel overrides spec dir e' h ⟨e, hplaceholders⟩
      exact hset _ ((congrArg ExceptT.run (hsame (fun _ => some []) fun _ => none)).trans hunset)
        rfl

namespace ProcessSample

/-- One file, at the root. -/
def source (text : String) : Source where
  resolveSpec p := .ok ('/' :: p)
  resolveBaseDir p := .ok p
  resolveReference p dir := .ok (SlashPath.joined dir p)
  resolveFileRecord p dir := .ok (SlashPath.joined dir p)
  readFile p := if p = "/spec.json".toList then .ok text.toList else .error "no such file".toList
  stat p := if p = "/spec.json".toList then .ok false else .error "no such file".toList
  archive _ := .error "no such file".toList
  workingDir := .ok ['/']

/-- A compiler that is given no variables. -/
def compiler (text : String) : Compiler where
  source := source text
  yaml := ⟨fun _ => .error "no YAML".toList, fun _ s => some (.string s)⟩
  numbers := .integers
  lookupEnv _ := none
  applyOverlay := .ok
  bundles := none
  archiveShortHash _ := []
  bundleCID _ := []

/-- A process with one variable. -/
def process (value : String) : Environment :=
  fun name => if name = "TOKEN".toList then some value.toList else none

/-- The image of the first rule of the build gate of a compiled spec. -/
def firstImage (r : Bounded CompileError (Option Value)) : Option Str :=
  match r.run with
  | some (.ok (some (.object spec))) =>
    match Dictionary.get spec "build_gate".toList with
    | some (.object gate) =>
      match Dictionary.get gate "images".toList with
      | some (.array (.object rule :: _)) =>
        match Dictionary.get rule "image".toList with
        | some (.string image) => some image
        | _ => none
      | _ => none
    | _ => none
  | _ => none

/-- A spec with one step and one rule of the build gate. -/
def spec (image : String) : String :=
  "\x7b\"steps\":[\x7b\"image\":\"a\"\x7d],\"build_gate\":\x7b\"images\":[\x7b\"stack\":"
    ++ "\x7b\"language\":\"go\"\x7d,\"image\":\"" ++ image ++ "\"\x7d]\x7d\x7d"

end ProcessSample

open ProcessSample in
example :
  (compiler (spec "r/$\x7bstack.language\x7d")).gateIsClosed 1 "spec.json".toList [] {} = true ∧
    firstImage ((compiler (spec "r/$\x7bstack.language\x7d")).build 1 (process "x")
      "spec.json".toList {}) = some "r/go".toList
  := by
  refine ⟨?_, ?_⟩ <;> decide +kernel

open ProcessSample in
/-- The compiler is given no variable `TOKEN`, but the compiled spec shows the one of the process.
-/
theorem compiled_spec_shows_process_variable :
  (compiler (spec "r/$TOKEN")).lookupEnv "TOKEN".toList = none ∧
    firstImage ((compiler (spec "r/$TOKEN")).build 1 (process "x") "spec.json".toList {})
      = some "r/x".toList ∧
    firstImage ((compiler (spec "r/$TOKEN")).build 1 (process "y") "spec.json".toList {})
      = some "r/y".toList
  := by
  refine ⟨rfl, ?_, ?_⟩ <;> decide +kernel

end Ploy
