import Ploy.Spec.Compiler

/-!
# Validation agrees with compilation

Validation takes up the files of a spec as compilation does, and stores nothing. Compilation checks
the schema before the files are taken up, validation afterwards only; compilation looks only at the
steps that have something to be taken up, validation at all of them. Taking up a file changes the
text of a record and nothing the schema looks at, so the two succeed together, and what they give
differs in the bundles only.
-/

namespace Ploy

open Dictionary (get erase get_erase)
open Compiler
open JsonSchema
open Bounded
open Fallible
open JsonDocument
open Contract
open JsonText (Value)
open JsonDocument (Alike)
open Contract (Numbers MigSpec)

/-! ### Taking up the same files -/

/-- Two computations give the same result, whatever they remember. -/
def SameResult {α σ τ ε ε' : Type} (x : Except ε (α × σ)) (y : Except ε' (α × τ)) : Prop :=
  ∀ a, (∃ s, x = .ok (a, s)) ↔ ∃ t, y = .ok (a, t)

namespace SameResult

variable {α β σ τ ε ε' : Type}

theorem ok (a : α) (s : σ) (t : τ) :
  SameResult (.ok (a, s) : Except ε (α × σ)) (.ok (a, t) : Except ε' (α × τ))
  := by
  intro b
  constructor
  · rintro ⟨s', h⟩
    cases h
    exact ⟨t, rfl⟩
  · rintro ⟨t', h⟩
    cases h
    exact ⟨s, rfl⟩

theorem error (e : ε) (e' : ε') :
  SameResult (.error e : Except ε (α × σ)) (.error e' : Except ε' (α × τ))
  := by
  intro b
  constructor
  · rintro ⟨s', h⟩
    cases h
  · rintro ⟨t', h⟩
    cases h

theorem bind
    {x : Except ε (α × σ)} {y : Except ε' (α × τ)} {f : α × σ → Except ε (β × σ)}
    {g : α × τ → Except ε' (β × τ)} (hxy : SameResult x y)
    (hfg : ∀ a s t, SameResult (f (a, s)) (g (a, t))) :
  SameResult (x >>= f) (y >>= g)
  := by
  intro b
  constructor
  · rintro ⟨s', h⟩
    obtain ⟨⟨a, s⟩, hx, hf⟩ := bind_eq_ok.mp h
    obtain ⟨t, hy⟩ := (hxy a).mp ⟨s, hx⟩
    obtain ⟨t', hg⟩ := (hfg a s t b).mp ⟨s', hf⟩
    exact ⟨t', bind_eq_ok.mpr ⟨(a, t), hy, hg⟩⟩
  · rintro ⟨t', h⟩
    obtain ⟨⟨a, t⟩, hy, hg⟩ := bind_eq_ok.mp h
    obtain ⟨s, hx⟩ := (hxy a).mpr ⟨t, hy⟩
    obtain ⟨s', hf⟩ := (hfg a s t b).mpr ⟨t', hg⟩
    exact ⟨s', bind_eq_ok.mpr ⟨(a, s), hx, hf⟩⟩

theorem mapError
    {δ δ' : Type} {x : Except ε (α × σ)} {y : Except ε' (α × τ)} (h : SameResult x y) (f : ε → δ)
    (g : ε' → δ') :
  SameResult (x.mapError f) (y.mapError g)
  := by
  intro a
  simp only [mapError_eq_ok]
  exact h a

end SameResult

section Compile

variable {σ τ ε ε' : Type} {hashFile : Str → σ → Except ε (Str × σ)}
  {hashFile' : Str → τ → Except ε' (Str × τ)}

/-- Two ways to hash files that give the same hashes compile entries alike. -/
theorem compileEntries_same
    (h : ∀ src s t, SameResult (hashFile src s) (hashFile' src t)) (kind : HydraFileKind)
    (i : Nat) (entries : List Value) (s : σ) (t : τ) :
  SameResult (compileEntries kind hashFile i entries s) (compileEntries kind hashFile' i entries t)
  := by
  induction entries generalizing i s t with
  | nil => exact SameResult.ok _ _ _
  | cons entry entries ih =>
    cases entry with
    | string raw =>
      rw [compileEntries, compileEntries]
      split
      · exact (ih (i + 1) s t).bind fun _ _ _ => SameResult.ok _ _ _
      · cases parseAuthoringEntry kind raw with
        | error e => exact SameResult.error _ _
        | ok parsed =>
          apply ((h parsed.src s t).mapError _ _).bind
          intro hash s' t'
          exact (ih (i + 1) s' t').bind fun _ _ _ => SameResult.ok _ _ _
    | null | bool | number | array | object => exact SameResult.error _ _

theorem compileField_same
    (h : ∀ src s t, SameResult (hashFile src s) (hashFile' src t)) (kind : HydraFileKind)
    (block : Object) (s : σ) (t : τ) :
  SameResult (compileField hashFile kind block s) (compileField hashFile' kind block t)
  := by
  rw [compileField, compileField]
  split
  · exact (compileEntries_same h kind 0 _ s t).bind fun _ _ _ => SameResult.ok _ _ _
  · exact SameResult.ok _ _ _

theorem compileFields_same
    (h : ∀ src s t, SameResult (hashFile src s) (hashFile' src t)) (kinds : List HydraFileKind)
    (block : Object) (s : σ) (t : τ) :
  SameResult (compileFields hashFile kinds block s) (compileFields hashFile' kinds block t)
  := by
  induction kinds generalizing block s t with
  | nil => exact SameResult.ok _ _ _
  | cons kind kinds ih =>
    exact (compileField_same h kind block s t).bind fun block s t => ih block s t

end Compile

theorem compileFileRecord_same
    (c : Compiler) {ensure : Str → List UInt8 → Except Str Str}
    (hensure : ∀ cid archive, ∃ id, ensure cid archive = .ok id) (dir src : Str)
    (taken : Taken) (t : Unit) :
  SameResult (c.compileFileRecord ensure dir src taken)
    ((c.localFileRecordHash dir src).map fun hash => (hash, t))
  := by
  rw [compileFileRecord, localFileRecordHash]
  cases c.recordArchive dir src with
  | error e => exact SameResult.error _ _
  | ok archive =>
    rw [ok_bind, ok_bind]
    simp only
    split
    · exact SameResult.ok _ _ _
    · obtain ⟨id, hid⟩ := hensure (c.bundleCID archive) archive
      rw [hid]
      exact SameResult.ok _ _ _

/-! ### Records that are texts -/

def Texts (entries : List Value) : Prop :=
  ∀ entry ∈ entries, ∃ s, entry = .string s

/-- All records of a step are texts. -/
def TextRecords (step : Object) : Prop :=
  ∀ kind : HydraFileKind, ∀ entries,
    get step kind.text = some (.array entries) → Texts entries

theorem mem_all_kinds (kind : HydraFileKind) :
  kind ∈ HydraFileKind.all
  := by
  cases kind <;> decide

theorem Texts.cons
    {s : Str} {entries : List Value} (h : Texts entries) :
  Texts (.string s :: entries)
  := by
  intro entry hentry
  rcases List.mem_cons.mp hentry with rfl | hentry
  · exact ⟨s, rfl⟩
  · exact h entry hentry

/-- Entries that are validated are texts. -/
theorem texts_of_validateLocalEntries
    {c : Compiler} {dir : Str} {kind : HydraFileKind} {i : Nat} {entries : List Value}
    {mounts : List LocalInMount} (h : c.validateLocalEntries dir kind i entries = .ok mounts) :
  Texts entries
  := by
  induction entries generalizing i mounts with
  | nil => exact nofun
  | cons entry entries ih =>
    cases entry with
    | string s =>
      rw [validateLocalEntries] at h
      split at h
      · split at h
        · obtain ⟨parsed, -, h⟩ := bind_eq_ok.mp h
          obtain ⟨rest, hrest, -⟩ := bind_eq_ok.mp h
          exact (ih hrest).cons
        · exact (ih h).cons
      · obtain ⟨parsed, -, h⟩ := bind_eq_ok.mp h
        obtain ⟨resolved, -, h⟩ := bind_eq_ok.mp h
        obtain ⟨rest, hrest, -⟩ := bind_eq_ok.mp h
        exact (ih hrest).cons
    | null | bool | number | array | object => cases h

/-- The entries of all kinds that are validated are texts. -/
theorem texts_of_validateLocalHydraEntries
    {c : Compiler} {dir : Str} {step : Object} {kinds : List HydraFileKind}
    {mounts : List LocalInMount} (h : c.validateLocalHydraEntries dir step kinds = .ok mounts) :
  ∀ kind ∈ kinds, ∀ entries, get step kind.text = some (.array entries) → Texts entries
  := by
  induction kinds generalizing mounts with
  | nil => exact nofun
  | cons kind kinds ih =>
    rw [validateLocalHydraEntries] at h
    intro kind' hkind' entries' hget'
    split at h
    · next entries hget =>
        obtain ⟨first, hfirst, h⟩ := bind_eq_ok.mp h
        obtain ⟨more, hmore, -⟩ := bind_eq_ok.mp h
        rcases List.mem_cons.mp hkind' with rfl | hkind'
        · rw [hget] at hget'
          cases hget'
          exact texts_of_validateLocalEntries hfirst
        · exact ih hmore kind' hkind' entries' hget'
    · next hnone =>
        rcases List.mem_cons.mp hkind' with rfl | hkind'
        · exact absurd hget' (hnone entries')
        · exact ih h kind' hkind' entries' hget'

/-- The entries of all steps that are validated are texts. -/
theorem textRecords_of_validateLocalSteps
    {c : Compiler} {fuel : Nat} {dir : Str} {i : Nat} {steps : List Value} {u : Unit}
    (h : Yields (c.validateLocalSteps fuel dir i steps) u) :
  ∀ step, .object step ∈ steps → TextRecords step
  := by
  induction steps generalizing i with
  | nil => exact nofun
  | cons v steps ih =>
    intro step hstep
    cases v with
    | object first =>
      rw [validateLocalSteps] at h
      obtain ⟨checked, hfirst, h⟩ := yields_bind.mp h
      rcases List.mem_cons.mp hstep with heq | hstep
      · cases heq
        obtain ⟨mounts, hmounts, -⟩ := yields_bind.mp hfirst
        have hmounts := mapError_eq_ok.mp (yields_lift.mp hmounts)
        intro kind
        exact texts_of_validateLocalHydraEntries hmounts kind (mem_all_kinds kind)
      · exact ih h step hstep
    | null | bool | number | string | array =>
      exact ih h step ((List.mem_cons.mp hstep).resolve_left nofun)

theorem compileHydraBlock_of_not_hasAuthoringEntries
    {σ ε : Type} {hashFile : Str → σ → Except ε (Str × σ)} {step : Object}
    (htexts : TextRecords step) (h : hasAuthoringEntries step = false) (st : σ) :
  compileHydraBlock hashFile step st = .ok (step, st)
  := by
  apply compileFields_of_canonical
  intro kind hkind entries hget entry hentry
  obtain ⟨s, rfl⟩ := htexts kind entries hget entry hentry
  rw [hasAuthoringEntries, List.any_eq_false] at h
  have hnone := h kind hkind
  rw [hget] at hnone
  simp only [Bool.not_eq_true, List.any_eq_false] at hnone
  have hs := hnone _ hentry
  exact ⟨s, rfl, by simpa [isAuthoring] using hs⟩

/-! ### The steps -/

section Steps

variable (c : Compiler) {ensure : Str → List UInt8 → Except Str Str}
  (hensure : ∀ cid archive, ∃ id, ensure cid archive = .ok id) (dir : Str)

/-- What validation makes of a step. -/
def localStep (i : Nat) (step : Value) : Except CompileError Value :=
  match step with
  | .object step => (c.compileHydraBlockLocal dir i step).map .object
  | step => .ok step

include hensure in
/-- A step is compiled locally exactly if it is compiled with an upload. -/
theorem compileHydraBlockLocal_iff (i : Nat) (step step' : Object) (taken : Taken) :
  c.compileHydraBlockLocal dir i step = .ok step' ↔
    ∃ taken', compileHydraBlock (c.compileFileRecord ensure dir) step taken = .ok (step', taken')
  := by
  have hsame := compileFields_same (fun src (s : Taken) (t : Unit) =>
    compileFileRecord_same c hensure dir src s t) HydraFileKind.all step taken ()
  rw [compileHydraBlockLocal, compileHydraBlock, compileHydraBlock]
  constructor
  · intro h
    apply (hsame step').mpr
    generalize compileFields _ HydraFileKind.all step () = r at h ⊢
    cases r with
    | error e => cases h
    | ok r =>
      cases h
      exact ⟨(), rfl⟩
  · intro h
    obtain ⟨t, ht⟩ := (hsame step').mp h
    rw [ht]
    rfl

include hensure in
/-- Steps are compiled locally exactly if they are compiled with an upload. -/
theorem compileSteps_iff
    {steps : List Value} (htexts : ∀ step, .object step ∈ steps → TextRecords step) (i : Nat)
    (steps' : List Value) (taken : Taken) :
  mapWithIndex (localStep c dir) i steps = .ok steps' ↔
    ∃ taken', c.compileSteps ensure dir i steps taken = .ok (steps', taken')
  := by
  induction steps generalizing i steps' taken with
  | nil =>
    rw [mapWithIndex, compileSteps]
    constructor
    · intro h
      cases h
      exact ⟨taken, rfl⟩
    · rintro ⟨taken', h⟩
      cases h
      rfl
  | cons v steps ih =>
    have ih := ih fun step hstep => htexts step (List.mem_cons_of_mem _ hstep)
    -- what is left as it is, is left as it is in both
    have hkeep : ∀ v, (do
          let rest ← mapWithIndex (localStep c dir) (i + 1) steps
          return v :: rest) = .ok steps' ↔
        ∃ taken', (c.compileSteps ensure dir (i + 1) steps taken >>= fun x =>
          .ok (v :: x.1, x.2)) = .ok (steps', taken') := by
      intro v
      constructor
      · intro h
        obtain ⟨rest, hrest, h⟩ := bind_eq_ok.mp h
        cases h
        obtain ⟨taken', hrest⟩ := (ih (i + 1) rest taken).mp hrest
        exact ⟨taken', bind_eq_ok.mpr ⟨_, hrest, rfl⟩⟩
      · rintro ⟨taken', h⟩
        obtain ⟨⟨rest, taken₁⟩, hrest, h⟩ := bind_eq_ok.mp h
        cases h
        exact bind_eq_ok.mpr ⟨rest, (ih (i + 1) rest taken).mpr ⟨_, hrest⟩, rfl⟩
    cases v with
    | object step =>
      rw [mapWithIndex, compileSteps, localStep]
      split
      · constructor
        · intro h
          obtain ⟨w, hw, h⟩ := bind_eq_ok.mp h
          obtain ⟨rest, hrest, h⟩ := bind_eq_ok.mp h
          cases h
          cases hlocal : c.compileHydraBlockLocal dir i step with
          | error e =>
            rw [hlocal] at hw
            cases hw
          | ok step' =>
            rw [hlocal] at hw
            cases hw
            obtain ⟨taken₁, hstep⟩ :=
              (compileHydraBlockLocal_iff c hensure dir i step step' taken).mp hlocal
            obtain ⟨taken₂, hrest⟩ := (ih (i + 1) rest taken₁).mp hrest
            refine ⟨taken₂, bind_eq_ok.mpr
              ⟨_, mapError_eq_ok.mpr hstep, ?_⟩⟩
            exact bind_eq_ok.mpr ⟨_, hrest, rfl⟩
        · rintro ⟨taken', h⟩
          obtain ⟨⟨step', taken₁⟩, hstep, h⟩ := bind_eq_ok.mp h
          obtain ⟨⟨rest, taken₂⟩, hrest, h⟩ := bind_eq_ok.mp h
          cases h
          have hlocal := (compileHydraBlockLocal_iff c hensure dir i step step' taken).mpr
            ⟨taken₁, mapError_eq_ok.mp hstep⟩
          refine bind_eq_ok.mpr ⟨.object step', ?_, ?_⟩
          · rw [hlocal]
            rfl
          · exact bind_eq_ok.mpr ⟨rest, (ih (i + 1) rest taken₁).mpr ⟨_, hrest⟩, rfl⟩
      · next hnone =>
          have hblock : compileHydraBlock (c.compileFileRecord ensure dir) step taken
              = .ok (step, taken) :=
            compileHydraBlock_of_not_hasAuthoringEntries (htexts step List.mem_cons_self)
              (Bool.not_eq_true _ ▸ hnone) taken
          have hlocal := (compileHydraBlockLocal_iff c hensure dir i step step taken).mpr
            ⟨taken, hblock⟩
          rw [hlocal]
          exact hkeep _
    | null | bool | number | string | array => exact hkeep _

end Steps

/-! ### What the schema looks at -/

/-- A list of records in place of another. -/
def RecordsFor (key : Str) (v w : Value) : Prop :=
  (∃ kind : HydraFileKind, key = kind.text) ∧
    ∃ entries entries', v = .array entries ∧ w = .array entries' ∧ Texts entries ∧ Texts entries'

theorem RecordsFor.trans
    (key : Str) (u v w : Value) (h : RecordsFor key u v) (h' : RecordsFor key v w) :
  RecordsFor key u w
  := by
  obtain ⟨hkind, es, fs, rfl, rfl, hes, -⟩ := h
  obtain ⟨-, fs', gs, hfs, rfl, -, hgs⟩ := h'
  exact ⟨hkind, es, gs, rfl, rfl, hes, hgs⟩

/-- Only texts are compiled, and to texts. -/
theorem texts_of_compileEntries
    {σ ε : Type} {hashFile : Str → σ → Except ε (Str × σ)} {kind : HydraFileKind}
    {i : Nat} {entries compiled : List Value} {st st' : σ}
    (h : compileEntries kind hashFile i entries st = .ok (compiled, st')) :
  Texts entries ∧ Texts compiled
  := by
  induction entries generalizing i st compiled with
  | nil =>
    cases h
    exact ⟨nofun, nofun⟩
  | cons entry entries ih =>
    cases entry with
    | string s =>
      rw [compileEntries] at h
      split at h
      · obtain ⟨⟨rest, st₁⟩, hrest, h⟩ := bind_eq_ok.mp h
        cases h
        obtain ⟨hbefore, hafter⟩ := ih hrest
        exact ⟨hbefore.cons, hafter.cons⟩
      · obtain ⟨parsed, -, h⟩ := bind_eq_ok.mp h
        obtain ⟨⟨hash, st₁⟩, -, h⟩ := bind_eq_ok.mp h
        obtain ⟨⟨rest, st₂⟩, hrest, h⟩ := bind_eq_ok.mp h
        cases h
        obtain ⟨hbefore, hafter⟩ := ih hrest
        exact ⟨hbefore.cons, hafter.cons⟩
    | null | bool | number | array | object => cases h

/-- Compiling the records of a step changes nothing else in it. -/
theorem alike_of_compileFields
    {σ ε : Type} {hashFile : Str → σ → Except ε (Str × σ)} {kinds : List HydraFileKind}
    {step step' : Object} {st st' : σ}
    (h : compileFields hashFile kinds step st = .ok (step', st')) :
  Alike RecordsFor step step'
  := by
  induction kinds generalizing step st with
  | nil =>
    cases h
    exact Alike.refl _
  | cons kind kinds ih =>
    obtain ⟨⟨step₁, st₁⟩, hfield, h⟩ := bind_eq_ok.mp h
    have hfirst : Alike RecordsFor step step₁ := by
      rw [compileField] at hfield
      split at hfield
      · next entry rest hget =>
          obtain ⟨⟨compiled, st₂⟩, hcompiled, hfield⟩ := bind_eq_ok.mp hfield
          cases hfield
          obtain ⟨hbefore, hafter⟩ := texts_of_compileEntries hcompiled
          exact Alike.set hget ⟨⟨kind, rfl⟩, _, _, rfl, rfl, hbefore, hafter⟩
      · cases hfield
        exact Alike.refl _
    exact hfirst.trans RecordsFor.trans (ih h)

/-- A step in place of another from which it differs in its records only. -/
def StepFor (v w : Value) : Prop :=
  w = v ∨ ∃ step step', v = .object step ∧ w = .object step' ∧ Alike RecordsFor step step'

/-- Steps in place of others. -/
def StepsFor (key : Str) (v w : Value) : Prop :=
  key = stepsKey ∧ ∃ steps steps', v = .array steps ∧ w = .array steps' ∧
    List.Forall₂ StepFor steps steps'

/-- Compiling steps changes nothing but their records. -/
theorem stepsFor_of_localSteps
    {c : Compiler} {dir : Str} {i : Nat} {steps steps' : List Value}
    (h : mapWithIndex (localStep c dir) i steps = .ok steps') :
  List.Forall₂ StepFor steps steps'
  := by
  induction steps generalizing i steps' with
  | nil =>
    cases h
    exact .nil
  | cons v steps ih =>
    obtain ⟨w, hw, h⟩ := bind_eq_ok.mp h
    obtain ⟨rest, hrest, h⟩ := bind_eq_ok.mp h
    cases h
    refine .cons ?_ (ih hrest)
    cases v with
    | object step =>
      rw [localStep, compileHydraBlockLocal, compileHydraBlock] at hw
      generalize hr : compileFields _ HydraFileKind.all step () = r at hw
      cases r with
      | error e => cases hw
      | ok r =>
        cases hw
        exact Or.inr ⟨step, r.1, rfl, rfl, alike_of_compileFields hr⟩
    | null | bool | number | string | array => cases hw; exact Or.inl rfl

theorem marshalElements_of_texts
    {entries : List Value} (h : Texts entries) :
  marshalElements entries = some entries
  := by
  induction entries with
  | nil => rfl
  | cons entry entries ih =>
    obtain ⟨s, rfl⟩ := h entry List.mem_cons_self
    rw [marshalElements, ih fun e he => h e (List.mem_cons_of_mem _ he)]
    rfl

theorem kept_recordsFor :
  Alike.Kept RecordsFor RecordsFor
  := by
  rintro key v w ⟨hkind, es, fs, rfl, rfl, hes, hfs⟩
  refine Or.inr ⟨.array es, .array fs, ?_, ?_, hkind, es, fs, rfl, rfl, hes, hfs⟩
  · rw [marshal, marshalElements_of_texts hes]
    rfl
  · rw [marshal, marshalElements_of_texts hfs]
    rfl

theorem hydraEntries_of_texts
    {entries : List Value} (h : Texts entries) :
  Schema.hydraEntries (.array entries) = true
  := by
  rw [Schema.hydraEntries, arrayOf, List.all_eq_true]
  intro entry hentry
  obtain ⟨s, rfl⟩ := h entry hentry
  rfl

theorem schema_of_kind
    {p : Str × Schema} {kind : HydraFileKind}
    (hp : p ∈ [("name".toList, string), ("image".toList, Schema.image),
      ("command".toList, Schema.command), ("envs".toList, Schema.stringMap),
      ("options".toList, Schema.stepOptions), ("in".toList, Schema.hydraEntries),
      ("out".toList, Schema.hydraEntries), ("home".toList, Schema.hydraEntries),
      ("tmp".toList, Schema.hydraEntries), ("stack".toList, Schema.stepStack)])
    (hkind : p.1 = kind.text) :
  p.2 = Schema.hydraEntries
  := by
  simp only [List.mem_cons, List.not_mem_nil, or_false] at hp
  rcases hp with rfl | rfl | rfl | rfl | rfl | rfl | rfl | rfl | rfl | rfl
  all_goals first | rfl | (cases kind <;> exact absurd hkind (by decide))

theorem schema_step_congr
    {t t' : Object}
    (h : ∀ key, get t' key = get t key ∨
      ∃ v w, get t key = some v ∧ get t' key = some w ∧ RecordsFor key v w) :
  Schema.step (.object t') = Schema.step (.object t)
  := by
  apply object_congr
  intro p hp
  rcases h p.1 with heq | ⟨v, w, hv, hw, ⟨kind, hkind⟩, es, fs, rfl, rfl, hes, hfs⟩
  · rw [heq]
  · rw [hv, hw, schema_of_kind hp hkind]
    simp only [Option.all_some, hydraEntries_of_texts hes, hydraEntries_of_texts hfs]

/-- What is written for steps in place of others keeps the schema of a step where those do. -/
def StepTextsFor (v w : Value) : Prop :=
  Schema.step w = Schema.step v

/-- Steps that differ in their records only are written alike. -/
theorem marshalElements_stepsFor
    {steps steps' : List Value} (h : List.Forall₂ StepFor steps steps') :
  (marshalElements steps = none ∧ marshalElements steps' = none) ∨
    ∃ t t', marshalElements steps = some t ∧
      marshalElements steps' = some t' ∧ List.Forall₂ StepTextsFor t t'
  := by
  induction h with
  | nil => exact Or.inr ⟨[], [], rfl, rfl, .nil⟩
  | @cons v w steps steps' hvw hsteps ih =>
    have hstep : (marshal v = none ∧ marshal w = none) ∨
        ∃ v' w', marshal v = some v' ∧ marshal w = some w' ∧
          StepTextsFor v' w' := by
      rcases hvw with rfl | ⟨step, step', rfl, rfl, halike⟩
      · cases hv : marshal w with
        | none => exact Or.inl ⟨rfl, rfl⟩
        | some v' => exact Or.inr ⟨v', v', rfl, rfl, rfl⟩
      · rcases halike.marshal kept_recordsFor with hnone | ⟨t, t', ht, ht', hkeys⟩
        · exact Or.inl hnone
        · exact Or.inr ⟨_, _, ht, ht', schema_step_congr hkeys⟩
    rw [marshalElements, marshalElements]
    rcases hstep with ⟨hv, hw⟩ | ⟨v', w', hv, hw, hstep⟩
    · rw [hv, hw]
      exact Or.inl ⟨rfl, rfl⟩
    · rw [hv, hw]
      rcases ih with ⟨hl, hl'⟩ | ⟨t, t', hl, hl', ht⟩
      · rw [hl, hl']
        exact Or.inl ⟨rfl, rfl⟩
      · rw [hl, hl']
        exact Or.inr ⟨_, _, rfl, rfl, .cons hstep ht⟩

/-- Texts of steps in place of others. -/
def StepArrayFor (key : Str) (v w : Value) : Prop :=
  key = stepsKey ∧ Schema.steps w = Schema.steps v

theorem schema_steps_congr
    {t t' : List Value} (h : List.Forall₂ StepTextsFor t t') :
  Schema.steps (.array t') = Schema.steps (.array t)
  := by
  have hall : t'.all Schema.step = t.all Schema.step := by
    induction h with
    | nil => rfl
    | @cons v w t t' hvw ht ih => rw [List.all_cons, List.all_cons, hvw, ih]
  have hempty : t'.isEmpty = t.isEmpty := by
    cases h <;> rfl
  rw [Schema.steps, Schema.steps, hall, hempty]

theorem kept_stepsFor :
  Alike.Kept StepsFor StepArrayFor
  := by
  rintro key v w ⟨hkey, steps, steps', rfl, rfl, hsteps⟩
  rw [marshal, marshal]
  rcases marshalElements_stepsFor hsteps with ⟨hl, hl'⟩ | ⟨t, t', hl, hl', ht⟩
  · rw [hl, hl']
    exact Or.inl ⟨rfl, rfl⟩
  · rw [hl, hl']
    exact Or.inr ⟨_, _, rfl, rfl, hkey, schema_steps_congr ht⟩

/-! ### Reading a spec without its bundles -/

section Bundles

variable {numbers : Numbers}

def withoutBundles (spec : MigSpec) : MigSpec :=
  { spec with bundleMap := [] }

theorem readStringMembers_status
    (l : List (Str × Value)) (d d' : List (Str × Str)) :
  (readStringMembers l d).map (fun _ => ()) = (readStringMembers l d').map fun _ => ()
  := by
  induction l generalizing d d' with
  | nil => rfl
  | cons m l ih =>
    obtain ⟨key, v⟩ := m
    rw [readStringMembers, readStringMembers]
    cases readText [] v with
    | error e => rfl
    | ok t => exact ih _ _

theorem readStringMap_status (v : Value) (d d' : List (Str × Str)) :
  (readStringMap v d).map (fun _ => ()) = (readStringMap v d').map fun _ => ()
  := by
  cases v with
  | object l => exact readStringMembers_status l d d'
  | null | bool | number | string | array => rfl

/-- No field but the bundle map reads it. -/
theorem specFields_withoutBundles
    {name : String} {set : Value → MigSpec → Decoded MigSpec}
    (h : (name, set) ∈ specFields numbers) (v : Value) (s : MigSpec)
    (bundles : List (Str × Str)) :
  (set v { s with bundleMap := bundles }).map withoutBundles = (set v s).map withoutBundles
  := by
  have hmap : ∀ {α : Type} (x : Decoded α) (f g : α → MigSpec),
      (∀ a, withoutBundles (f a) = withoutBundles (g a)) →
      (x.map f).map withoutBundles = (x.map g).map withoutBundles := by
    intro α x f g hfg
    cases x with
    | error e => rfl
    | ok a => exact congrArg Except.ok (hfg a)
  simp only [specFields, List.mem_cons, List.not_mem_nil, or_false, Prod.mk.injEq] at h
  rcases h with ⟨-, rfl⟩ | ⟨-, rfl⟩ | ⟨-, rfl⟩ | ⟨-, rfl⟩ | ⟨-, rfl⟩ | ⟨-, rfl⟩
    | ⟨-, rfl⟩ | ⟨-, rfl⟩
  · exact hmap _ _ _ fun _ => rfl
  · cases v <;> rfl
  · cases v <;> rfl
  · cases v <;> rfl
  · exact hmap _ _ _ fun _ => rfl
  · exact hmap _ _ _ fun _ => rfl
  · exact hmap _ _ _ fun _ => rfl
  · have hstatus := readStringMap_status v bundles s.bundleMap
    dsimp only
    generalize readStringMap v bundles = x at hstatus ⊢
    generalize readStringMap v s.bundleMap = y at hstatus ⊢
    cases x with
    | error e =>
      cases y with
      | error e' =>
        cases hstatus
        rfl
      | ok b => cases hstatus
    | ok a =>
      cases y with
      | error e' => cases hstatus
      | ok b => rfl

theorem readMember_withoutBundles
    (key : Str) (v : Value) {s s' : MigSpec} (h : withoutBundles s' = withoutBundles s) :
  (((JsonText.lookupField (specFields numbers) key).elim
      (.ok s' : Decoded MigSpec) fun set => set v s').map withoutBundles)
    = ((JsonText.lookupField (specFields numbers) key).elim
      (.ok s : Decoded MigSpec) fun set => set v s).map withoutBundles
  := by
  cases hfield : JsonText.lookupField (specFields numbers) key with
  | none => exact congrArg Except.ok h
  | some set =>
    obtain ⟨name, hmem⟩ := JsonText.mem_of_lookupField hfield
    have hs : s' = { s with bundleMap := s'.bundleMap } := by
      have h := congrArg (fun t : MigSpec => { t with bundleMap := s'.bundleMap }) h
      exact h
    rw [hs]
    exact specFields_withoutBundles hmem v s s'.bundleMap

/-- A bundle map of texts is read, and changes nothing else. -/
theorem readBundles
    {v : Value} (h : Schema.stringMap v = true) (s : MigSpec) :
  ∃ s', (JsonText.lookupField (specFields numbers) bundleMapKey).elim
      (.ok s : Decoded MigSpec) (fun set => set v s) = .ok s' ∧
    withoutBundles s' = withoutBundles s
  := by
  have hread : ∀ (l : List (Str × Value)) (d : List (Str × Str)),
      (l.all fun m => string m.2) = true →
      ∃ d', readStringMembers l d = .ok d' := by
    intro l
    induction l with
    | nil => exact fun d _ => ⟨d, rfl⟩
    | cons m l ih =>
      obtain ⟨key, w⟩ := m
      intro d hall
      rw [List.all_cons, Bool.and_eq_true] at hall
      cases w with
      | string t => exact ih _ hall.2
      | null | bool | number | array | object => exact absurd hall.1 Bool.false_ne_true
  cases v with
  | object l =>
    obtain ⟨d, hd⟩ := hread l s.bundleMap h
    refine ⟨{ s with bundleMap := d }, ?_, rfl⟩
    have hfield : JsonText.lookupField (specFields numbers) bundleMapKey
        = some fun v s => (readStringMap v s.bundleMap).map fun l =>
          { s with bundleMap := l } := by
      have hmem : ("bundle_map", fun (v : Value) (s : MigSpec) =>
          (readStringMap v s.bundleMap).map fun l => { s with bundleMap := l })
          ∈ specFields numbers := by simp [specFields]
      exact JsonText.lookupField_of_mem hmem (specFields_names numbers)
    rw [hfield, Option.elim_some]
    change (readStringMembers l s.bundleMap).map _ = _
    rw [hd]
    rfl
  | null | bool | number | string | array => exact absurd h Bool.false_ne_true

/-- A spec is read in the same way without its bundle map. -/
theorem readMembers_erase_bundles
    {l : Object} (h : ∀ m ∈ l, m.1 = bundleMapKey → Schema.stringMap m.2 = true)
    {s s' : MigSpec} (hs : withoutBundles s' = withoutBundles s) :
  (JsonText.readMembers (specFields numbers) (fun _ s => .ok s) l s).map withoutBundles
    = (JsonText.readMembers (specFields numbers) (fun _ s => .ok s)
      (erase l bundleMapKey) s').map withoutBundles
  := by
  induction l generalizing s s' with
  | nil => exact congrArg Except.ok hs.symm
  | cons m l ih =>
    obtain ⟨key, v⟩ := m
    have ih := @ih fun m hm => h m (List.mem_cons_of_mem _ hm)
    by_cases hkey : key = bundleMapKey
    · subst hkey
      obtain ⟨s₁, hread, hs₁⟩ := @readBundles numbers _ (h _ List.mem_cons_self rfl) s
      rw [JsonText.readMembers, hread, erase, List.filter_cons_of_neg (by simp)]
      exact ih (hs.trans hs₁.symm)
    · have hmember := @readMember_withoutBundles numbers key v _ _ hs
      rw [erase, List.filter_cons_of_pos (by simpa using hkey), JsonText.readMembers,
        JsonText.readMembers]
      generalize (JsonText.lookupField (specFields numbers) key).elim
        (.ok s : Decoded MigSpec) (fun set => set v s) = x at hmember ⊢
      generalize (JsonText.lookupField (specFields numbers) key).elim
        (.ok s' : Decoded MigSpec) (fun set => set v s') = y at hmember ⊢
      cases x with
      | error e =>
        cases y with
        | error e' =>
          cases hmember
          rfl
        | ok b => cases hmember
      | ok a =>
        cases y with
        | error e' => cases hmember
        | ok b => exact ih (Except.ok.inj hmember)

/-- A text is read into a spec that passes its check. -/
def Accepted (numbers : Numbers) (t : Object) : Prop :=
  ∃ spec, readSpec numbers (.object t) = .ok spec ∧ spec.validate = .ok ()

/-- The bundle map does not decide whether a spec is accepted. -/
theorem accepted_iff_withoutBundles (t : Object) :
  Accepted numbers t ↔
    ∃ spec, (readSpec numbers (.object t)).map withoutBundles = .ok spec ∧
      spec.validate = .ok ()
  := by
  rw [Accepted]
  cases readSpec numbers (.object t) with
  | error e =>
    constructor
    · rintro ⟨spec, h, -⟩
      cases h
    · rintro ⟨spec, h, -⟩
      cases h
  | ok spec =>
    constructor
    · rintro ⟨spec', h, hvalid⟩
      cases h
      exact ⟨withoutBundles spec, rfl, hvalid⟩
    · rintro ⟨spec', h, hvalid⟩
      cases h
      exact ⟨spec, rfl, hvalid⟩

theorem accepted_congr
    {t t' : Object} (h : ∀ m ∈ t, m.1 = bundleMapKey → Schema.stringMap m.2 = true)
    (h' : ∀ m ∈ t', m.1 = bundleMapKey → Schema.stringMap m.2 = true)
    (heq : erase t bundleMapKey = erase t' bundleMapKey) :
  Accepted numbers t ↔ Accepted numbers t'
  := by
  have hread : (readSpec numbers (.object t)).map withoutBundles
      = (readSpec numbers (.object t')).map withoutBundles := by
    have hleft := @readMembers_erase_bundles numbers t h {} {} rfl
    have hright := @readMembers_erase_bundles numbers t' h' {} {} rfl
    rw [heq] at hleft
    exact hleft.trans hright.symm
  rw [accepted_iff_withoutBundles, accepted_iff_withoutBundles, hread]

end Bundles

/-! ### What is written for a compiled spec -/

/-- The schema does not tell specs apart that differ in records and bundles only. -/
theorem schema_mig_congr
    {t t' : Object}
    (h : ∀ key ≠ bundleMapKey, get t' key = get t key ∨
      ∃ v w, get t key = some v ∧ get t' key = some w ∧ StepArrayFor key v w)
    (hbundles : (get t' bundleMapKey).all Schema.stringMap
      = (get t bundleMapKey).all Schema.stringMap) :
  Schema.mig (.object t') = Schema.mig (.object t)
  := by
  have hhas : has "steps".toList (.object t') = has "steps".toList (.object t) := by
    rw [has, has]
    rcases h "steps".toList (by decide) with heq | ⟨v, w, hv, hw, -⟩
    · rw [heq]
    · rw [hv, hw]
      rfl
  rw [Schema.mig, both, both, hhas]
  congr 1
  apply object_congr
  intro p hp
  by_cases hkey : p.1 = bundleMapKey
  · have hschema : p.2 = Schema.stringMap := by
      simp only [List.mem_cons, List.not_mem_nil, or_false] at hp
      rcases hp with rfl | rfl | rfl | rfl | rfl | rfl | rfl | rfl
      all_goals first | rfl | exact absurd hkey (by decide)
    rw [hkey, hschema]
    exact hbundles
  · rcases h p.1 hkey with heq | ⟨v, w, hv, hw, hsteps, hsame⟩
    · rw [heq]
    · have hschema : p.2 = Schema.steps := by
        simp only [List.mem_cons, List.not_mem_nil, or_false] at hp
        rcases hp with rfl | rfl | rfl | rfl | rfl | rfl | rfl | rfl
        all_goals first | rfl | exact absurd hsteps (by decide)
      rw [hv, hw, hschema]
      exact hsame

theorem marshalSpec_eq_ok {spec : Object} {text : Value} :
  marshalSpec spec = .ok text ↔ marshal (.object spec) = some text
  := by
  rw [marshalSpec]
  cases marshal (.object spec) with
  | none | some => simp

theorem validateMigSpecJSON_of_marshal
    {spec : Object} {text : Value} (h : marshal (.object spec) = some text) :
  validateMigSpecJSON text = Schema.mig text
  := by
  rw [validateMigSpecJSON,
    decode_marshal readsScalars_some h]
  rfl

theorem validateSpecShape_iff (spec : Object) :
  validateSpecShape spec = .ok () ↔
    ∃ text, marshal (.object spec) = some text ∧ Schema.mig text = true
  := by
  rw [validateSpecShape]
  constructor
  · intro h
    obtain ⟨text, htext, h⟩ := bind_eq_ok.mp h
    have htext := marshalSpec_eq_ok.mp htext
    rw [validateMigSpecJSON_of_marshal htext] at h
    split at h
    · next hschema => exact ⟨text, htext, hschema⟩
    · cases h
  · rintro ⟨text, htext, hschema⟩
    refine bind_eq_ok.mpr ⟨text, marshalSpec_eq_ok.mpr htext, ?_⟩
    rw [validateMigSpecJSON_of_marshal htext, if_pos hschema]
    rfl

/-- A spec is finished if it can be written, meets the schema and is accepted. -/
theorem finish_iff (c : Compiler) (spec : Object) (v : Value) :
  c.finish spec = .ok v ↔
    marshal (.object spec) = some v ∧ Schema.mig v = true ∧
      ∃ t, v = .object t ∧ Accepted c.numbers t
  := by
  rw [finish]
  constructor
  · intro h
    obtain ⟨text, htext, h⟩ := bind_eq_ok.mp h
    have htext := marshalSpec_eq_ok.mp htext
    obtain ⟨parsed, hparsed, h⟩ := bind_eq_ok.mp h
    cases h
    have hparsed := mapError_eq_ok.mp hparsed
    rw [parseMigSpecJSON, validateMigSpecJSON_of_marshal htext] at hparsed
    split at hparsed
    · next hschema =>
        obtain ⟨t, rfl, -⟩ := marshal_object htext
        obtain ⟨spec', hread, hparsed⟩ := bind_eq_ok.mp hparsed
        obtain ⟨valid, hvalid, -⟩ := bind_eq_ok.mp hparsed
        exact ⟨htext, hschema, t, rfl, spec', mapError_eq_ok.mp hread,
          mapError_eq_ok.mp hvalid⟩
    · cases hparsed
  · rintro ⟨htext, hschema, t, rfl, spec', hread, hvalid⟩
    refine bind_eq_ok.mpr ⟨_, marshalSpec_eq_ok.mpr htext, ?_⟩
    refine bind_eq_ok.mpr ⟨spec', mapError_eq_ok.mpr ?_, rfl⟩
    rw [parseMigSpecJSON, validateMigSpecJSON_of_marshal htext, if_pos hschema]
    refine bind_eq_ok.mpr ⟨spec', mapError_eq_ok.mpr hread, ?_⟩
    exact bind_eq_ok.mpr ⟨(), mapError_eq_ok.mpr hvalid, rfl⟩

/-- A document with other bundles, or with the same. -/
def BundlesOver (a b : Object) : Prop :=
  b = a ∨ ∃ d, b = Dictionary.set a bundleMapKey (stringObject d)

theorem marshalMembers_strings (d : List (Str × Str)) :
  marshalMembers (d.map fun entry => (entry.1, .string entry.2))
    = some (d.map fun entry => (entry.1, .string entry.2))
  := by
  induction d with
  | nil => rfl
  | cons entry d ih =>
    rw [List.map_cons, marshalMembers, ih]
    rfl

theorem marshal_stringObject (d : List (Str × Str)) :
  ∃ v, marshal (stringObject d) = some v ∧ Schema.stringMap v = true
  := by
  rw [stringObject, marshal, marshalMembers_strings]
  refine ⟨_, rfl, ?_⟩
  rw [Schema.stringMap, mapOf, List.all_eq_true]
  intro m hm
  obtain ⟨entry, -, rfl⟩ := List.mem_map.mp (mem_sortMembers hm)
  rfl

theorem mem_set
    {d : Object} {key : Str} {v : Value} {m : Str × Value}
    (h : m ∈ Dictionary.set d key v) :
  m ∈ d ∨ m.2 = v
  := by
  induction d with
  | nil =>
    rw [List.mem_singleton.mp h]
    exact Or.inr rfl
  | cons entry d ih =>
    rw [Dictionary.set] at h
    split at h
    · rcases List.mem_cons.mp h with rfl | h
      · exact Or.inr rfl
      · exact Or.inl (List.mem_cons_of_mem _ h)
    · rcases List.mem_cons.mp h with rfl | h
      · exact Or.inl List.mem_cons_self
      · exact (ih h).imp (List.mem_cons_of_mem _) id

/-- Specs that differ in their bundle map are written alike but for it. -/
theorem marshal_bundlesOver
    {a b t : Object} (h : BundlesOver a b) (ha : marshal (.object a) = some (.object t)) :
  ∃ t', marshal (.object b) = some (.object t') ∧
    (∀ key ≠ bundleMapKey, get t' key = get t key) ∧
    (get t' bundleMapKey = get t bundleMapKey ∨
      (get t' bundleMapKey).all Schema.stringMap = true)
  := by
  rcases h with rfl | ⟨d, rfl⟩
  · exact ⟨t, ha, fun _ _ => rfl, Or.inl rfl⟩
  · obtain ⟨v, hv, hschema⟩ := marshal_stringObject d
    obtain ⟨t₁, heq, -, hget⟩ := marshal_object ha
    cases heq
    have hsome : (marshalMembers (Dictionary.set a bundleMapKey (stringObject d))).isSome := by
      rw [marshalMembers_isSome]
      intro m hm
      rcases mem_set hm with hm | hm
      · rw [marshal, Option.map_eq_some_iff] at ha
        obtain ⟨l, hl, -⟩ := ha
        exact (marshalMembers_isSome a).mp (Option.isSome_of_eq_some hl) m hm
      · rw [hm, hv]
        rfl
    obtain ⟨l, hl⟩ := Option.isSome_iff_exists.mp hsome
    have hb : marshal (.object (Dictionary.set a bundleMapKey (stringObject d)))
        = some (.object (sortMembers l)) := by
      rw [marshal, hl]
      rfl
    refine ⟨_, hb, ?_, Or.inr ?_⟩
    · intro key hkey
      rw [get_sortMembers, get_marshalMembers hl,
        Dictionary.get_set_of_ne _ _ hkey, hget]
    · rw [get_sortMembers, get_marshalMembers hl,
        Dictionary.get_set_self, Option.bind_some, hv]
      exact hschema

/-! ### The two compilations -/

section Compilations

variable (c : Compiler) {ensure : Str → List UInt8 → Except Str Str}

theorem compileLocal_eq (spec : Object) (dir : Str) :
  c.compileHydraRecordsLocalInPlace spec dir =
    match get spec stepsKey with
    | some (.array steps) => do
        let steps ← mapWithIndex (localStep c dir) 0 steps
        return Dictionary.set spec stepsKey (.array steps)
    | _ => .ok spec
  := rfl

theorem alike_of_compileLocal
    {spec spec' : Object} {dir : Str}
    (h : c.compileHydraRecordsLocalInPlace spec dir = .ok spec') :
  Alike StepsFor spec spec'
  := by
  rw [compileLocal_eq] at h
  split at h
  · next steps hget =>
      obtain ⟨steps', hsteps, h⟩ := bind_eq_ok.mp h
      cases h
      exact Alike.set hget ⟨rfl, steps, steps', rfl, rfl, stepsFor_of_localSteps hsteps⟩
  · cases h
    exact Alike.refl _

theorem compileSteps_of_none
    {steps : List Value} (h : steps.any isAuthoringStep = false) (dir : Str) (i : Nat)
    (taken : Taken) :
  c.compileSteps ensure dir i steps taken = .ok (steps, taken)
  := by
  induction steps generalizing i with
  | nil => rfl
  | cons v steps ih =>
    rw [List.any_cons, Bool.or_eq_false_iff] at h
    have hrest := ih h.2 (i + 1)
    cases v with
    | object step =>
      have hnone : hasAuthoringEntries step = false := h.1
      rw [compileSteps, hnone, hrest]
      rfl
    | null | bool | number | string | array => rw [compileSteps, hrest]; rfl; exact nofun

theorem together_of_eq (spec : Object) :
  (∀ a, (.ok spec : Except CompileError Object) = .ok a →
    ∃ b, (.ok spec : Except CompileError Object) = .ok b ∧ BundlesOver a b) ∧
  ∀ b, (.ok spec : Except CompileError Object) = .ok b →
    ∃ a, (.ok spec : Except CompileError Object) = .ok a ∧ BundlesOver a b
  := by
  constructor
  · intro a h
    exact ⟨spec, rfl, Or.inl (Except.ok.inj h)⟩
  · intro b h
    exact ⟨spec, rfl, Or.inl (Except.ok.inj h).symm⟩

variable (hbundles : c.bundles = some ensure)
  (hensure : ∀ cid archive, ∃ id, ensure cid archive = .ok id)

include hbundles hensure in
/-- Compiling locally and compiling with an upload succeed together. -/
theorem compile_together
    {spec : Object} (dir : Str)
    (htexts : ∀ steps, get spec stepsKey = some (.array steps) →
      ∀ step, .object step ∈ steps → TextRecords step) :
  (∀ local', c.compileHydraRecordsLocalInPlace spec dir = .ok local' →
    ∃ stored, c.compileHydraRecordsInPlace spec dir = .ok stored ∧ BundlesOver local' stored) ∧
  ∀ stored, c.compileHydraRecordsInPlace spec dir = .ok stored →
    ∃ local', c.compileHydraRecordsLocalInPlace spec dir = .ok local' ∧ BundlesOver local' stored
  := by
  by_cases hsteps : ∃ steps, get spec stepsKey = some (.array steps)
  · obtain ⟨steps, hget⟩ := hsteps
    have hiff := compileSteps_iff c hensure dir (htexts steps hget) 0
    rw [compileLocal_eq, compileHydraRecordsInPlace, hget, hbundles]
    simp only
    cases hany : steps.any isAuthoringStep with
    | true =>
      rw [if_pos rfl]
      constructor
      · intro local' h
        obtain ⟨steps', hsteps, h⟩ := bind_eq_ok.mp h
        cases h
        obtain ⟨taken, htaken⟩ := (hiff steps' ⟨[], existingBundles spec⟩).mp hsteps
        refine ⟨_, bind_eq_ok.mpr ⟨_, htaken, rfl⟩, ?_⟩
        split
        · exact Or.inl rfl
        · exact Or.inr ⟨taken.bundleMap, rfl⟩
      · intro stored h
        obtain ⟨⟨steps', taken⟩, hsteps, h⟩ := bind_eq_ok.mp h
        cases h
        refine ⟨_, bind_eq_ok.mpr ⟨steps', (hiff steps' _).mpr ⟨taken, hsteps⟩, rfl⟩, ?_⟩
        split
        · exact Or.inl rfl
        · exact Or.inr ⟨taken.bundleMap, rfl⟩
    | false =>
      rw [if_neg Bool.false_ne_true]
      have hsteps := (hiff steps ⟨[], []⟩).mpr ⟨_, compileSteps_of_none c hany dir 0 ⟨[], []⟩⟩
      have hlocal : (do
          let steps ← mapWithIndex (localStep c dir) 0 steps
          return Dictionary.set spec stepsKey (.array steps))
              = (.ok spec : Except CompileError Object) := by
        rw [hsteps, ok_bind, Dictionary.set_of_get hget]
        rfl
      rw [hlocal]
      exact together_of_eq spec
  · have hlocal : c.compileHydraRecordsLocalInPlace spec dir = .ok spec := by
      rw [compileLocal_eq]
      split
      · next steps hget => exact absurd ⟨steps, hget⟩ hsteps
      · rfl
    have hstored : c.compileHydraRecordsInPlace spec dir = .ok spec := by
      rw [compileHydraRecordsInPlace]
      split
      · next steps hget => exact absurd ⟨steps, hget⟩ hsteps
      · rfl
    rw [hlocal, hstored]
    exact together_of_eq spec

def EqualUpToBundles (v w : Value) : Prop :=
  ∃ t t', v = .object t ∧ w = .object t' ∧
    erase t bundleMapKey = erase t' bundleMapKey

theorem bundles_of_mig
    {t : Object} (h : Schema.mig (.object t) = true) :
  (get t bundleMapKey).all Schema.stringMap = true
  := by
  rw [Schema.mig, both, Bool.and_eq_true] at h
  have hall := List.all_eq_true.mp h.2
  exact hall ("bundle_map".toList, Schema.stringMap) (by simp)

theorem stringMap_of_mem
    {t : Object} (hsorted : Sorted t) (h : Schema.mig (.object t) = true) :
  ∀ m ∈ t, m.1 = bundleMapKey → Schema.stringMap m.2 = true
  := by
  intro m hm hkey
  have hbundles := bundles_of_mig h
  rw [← hkey, hsorted.get_of_mem hm] at hbundles
  exact hbundles

/-- Compiling records keeps the shape of a spec. -/
theorem shape_together
    {spec local' : Object} (h : Alike StepsFor spec local') :
  validateSpecShape spec = .ok () ↔ validateSpecShape local' = .ok ()
  := by
  rw [validateSpecShape_iff, validateSpecShape_iff]
  rcases h.marshal kept_stepsFor with ⟨hspec, hlocal⟩ | ⟨t, t', hspec, hlocal, hget⟩
  · rw [hspec, hlocal]
  · have hschema : Schema.mig (.object t') = Schema.mig (.object t) := by
      apply schema_mig_congr (fun key _ => hget key)
      rcases hget bundleMapKey with heq | ⟨v, w, -, -, hkey, -⟩
      · rw [heq]
      · exact absurd hkey (by decide)
    rw [hspec, hlocal]
    constructor
    · rintro ⟨text, htext, hmig⟩
      cases htext
      exact ⟨_, rfl, hschema.trans hmig⟩
    · rintro ⟨text, htext, hmig⟩
      cases htext
      exact ⟨_, rfl, hschema.symm.trans hmig⟩

/-- Specs that differ in their bundle map are finished together. -/
theorem finish_together
    {a b : Object} (h : BundlesOver a b) (hshape : validateSpecShape a = .ok ()) :
  (∀ v, c.finish a = .ok v → ∃ w, c.finish b = .ok w ∧ EqualUpToBundles v w) ∧
  ∀ w, c.finish b = .ok w → ∃ v, c.finish a = .ok v ∧ EqualUpToBundles v w
  := by
  obtain ⟨text, ha, hmig⟩ := (validateSpecShape_iff a).mp hshape
  obtain ⟨t, rfl, hsorted, -⟩ := marshal_object ha
  obtain ⟨t', hb, hother, hbundles⟩ := marshal_bundlesOver h ha
  obtain ⟨t₁, heq, hsorted', -⟩ := marshal_object hb
  cases heq
  have hmig' : Schema.mig (.object t') = true := by
    rw [← hmig]
    apply schema_mig_congr (fun key hkey => Or.inl (hother key hkey))
    rcases hbundles with heq | hall
    · rw [heq]
    · rw [hall, bundles_of_mig hmig]
  have herase : erase t bundleMapKey = erase t' bundleMapKey := by
    apply Sorted.ext (hsorted.erase _) (hsorted'.erase _)
    intro key
    rw [get_erase, get_erase]
    split
    · rfl
    · next hkey => exact (hother key hkey).symm
  have haccepted : Accepted c.numbers t ↔ Accepted c.numbers t' :=
    accepted_congr (stringMap_of_mem hsorted hmig) (stringMap_of_mem hsorted' hmig') herase
  constructor
  · intro v hv
    obtain ⟨htext, -, t₂, rfl, hacc⟩ := (finish_iff c a v).mp hv
    rw [ha] at htext
    cases htext
    exact ⟨.object t', (finish_iff c b _).mpr ⟨hb, hmig', t', rfl, haccepted.mp hacc⟩,
      t, t', rfl, rfl, herase⟩
  · intro w hw
    obtain ⟨htext, -, t₂, rfl, hacc⟩ := (finish_iff c b w).mp hw
    rw [hb] at htext
    cases htext
    exact ⟨.object t, (finish_iff c a _).mpr ⟨ha, hmig, t, rfl, haccepted.mpr hacc⟩,
      t, t', rfl, rfl, herase⟩

theorem shape_of_finish
    {spec : Object} {v : Value} (h : c.finish spec = .ok v) :
  validateSpecShape spec = .ok ()
  := by
  obtain ⟨htext, hmig, -⟩ := (finish_iff c spec v).mp h
  exact (validateSpecShape_iff spec).mpr ⟨v, htext, hmig⟩

include hbundles hensure in
/-- After validation both ways go on together. -/
theorem tails_together
    {spec : Object} (dir : Str)
    (htexts : ∀ steps, get spec stepsKey = some (.array steps) →
      ∀ step, .object step ∈ steps → TextRecords step) :
  (∀ v, (c.compileHydraRecordsLocalInPlace spec dir >>= c.finish) = .ok v →
    validateSpecShape spec = .ok () ∧
      ∃ w, (c.compileHydraRecordsInPlace spec dir >>= c.finish) = .ok w ∧ EqualUpToBundles v w) ∧
  (validateSpecShape spec = .ok () →
    ∀ w, (c.compileHydraRecordsInPlace spec dir >>= c.finish) = .ok w →
      ∃ v, (c.compileHydraRecordsLocalInPlace spec dir >>= c.finish) = .ok v ∧
        EqualUpToBundles v w)
  := by
  obtain ⟨hstore, hlocal⟩ := compile_together c hbundles hensure dir htexts
  constructor
  · intro v h
    obtain ⟨a, ha, hfinish⟩ := bind_eq_ok.mp h
    obtain ⟨b, hb, hover⟩ := hstore a ha
    have hshape := shape_of_finish c hfinish
    obtain ⟨w, hw, hequal⟩ := (finish_together c hover hshape).1 v hfinish
    exact ⟨(shape_together (alike_of_compileLocal c ha)).mpr hshape, w,
      bind_eq_ok.mpr ⟨b, hb, hw⟩, hequal⟩
  · intro hshape w h
    obtain ⟨b, hb, hfinish⟩ := bind_eq_ok.mp h
    obtain ⟨a, ha, hover⟩ := hlocal b hb
    have hshape := (shape_together (alike_of_compileLocal c ha)).mp hshape
    obtain ⟨v, hv, hequal⟩ := (finish_together c hover hshape).2 w hfinish
    exact ⟨v, bind_eq_ok.mpr ⟨a, ha, hv⟩, hequal⟩

theorem texts_of_validateLocalFileRecords
    {fuel : Nat} {spec : Object} {dir : Str} {u : Unit}
    (h : Yields (c.validateLocalFileRecords fuel spec dir) u) :
  ∀ steps, get spec stepsKey = some (.array steps) →
    ∀ step, .object step ∈ steps → TextRecords step
  := by
  intro steps hget
  rw [validateLocalFileRecords, hget] at h
  exact textRecords_of_validateLocalSteps h

/-- A result that one of two computations gives, the other gives, too, but for the bundles. -/
def Together (x y : Bounded CompileError Value) : Prop :=
  ((∃ v, Yields x v) ↔ ∃ w, Yields y w) ∧
    ∀ v w, Yields x v → Yields y w → EqualUpToBundles v w

theorem Together.of_results
    {x y : Bounded CompileError Value}
    (hxy : ∀ v, Yields x v → ∃ w, Yields y w ∧ EqualUpToBundles v w)
    (hyx : ∀ w, Yields y w → ∃ v, Yields x v) :
  Together x y
  := by
  refine ⟨⟨?_, ?_⟩, ?_⟩
  · rintro ⟨v, hv⟩
    obtain ⟨w, hw, -⟩ := hxy v hv
    exact ⟨w, hw⟩
  · rintro ⟨w, hw⟩
    exact hyx w hw
  · intro v w hv hw
    obtain ⟨w', hw', hequal⟩ := hxy v hv
    rw [Yields, hw] at hw'
    cases hw'
    exact hequal

theorem Together.bind
    {α : Type} {x : Bounded CompileError α} {f g : α → Bounded CompileError Value}
    (h : ∀ a, Together (f a) (g a)) :
  Together (x >>= f) (x >>= g)
  := by
  apply Together.of_results
  · intro v hv
    obtain ⟨a, ha, hv⟩ := yields_bind.mp hv
    obtain ⟨w, hw⟩ := (h a).1.mp ⟨v, hv⟩
    exact ⟨w, yields_bind.mpr ⟨a, ha, hw⟩, (h a).2 v w hv hw⟩
  · intro w hw
    obtain ⟨a, ha, hw⟩ := yields_bind.mp hw
    obtain ⟨v, hv⟩ := (h a).1.mpr ⟨w, hw⟩
    exact ⟨v, yields_bind.mpr ⟨a, ha, hv⟩⟩

include hbundles hensure in
/-- From one document on both ways succeed together, with the same spec. -/
theorem together_of_document (fuel : Nat) (spec : Object) (dir : Str) :
  Together
    (do
      c.validateLocalFileRecords fuel spec dir
      let spec ← lift (c.compileHydraRecordsLocalInPlace spec dir)
      lift (c.finish spec))
    (do
      lift (validateSpecShape spec)
      c.validateLocalFileRecords fuel spec dir
      let spec ← lift (c.compileHydraRecordsInPlace spec dir)
      lift (c.finish spec))
  := by
  have hjoin : ∀ {x : Except CompileError Object} {v : Value},
      Yields (lift x >>= fun spec => lift (c.finish spec)) v ↔
        (x >>= c.finish) = .ok v := by
    intro x v
    simp only [yields_bind, yields_lift, bind_eq_ok]
  apply Together.of_results
  · intro v h
    obtain ⟨checked, hchecked, h⟩ := yields_bind.mp h
    have htexts := texts_of_validateLocalFileRecords c hchecked
    obtain ⟨hshape, w, hw, hequal⟩ :=
      (tails_together c hbundles hensure dir htexts).1 v (hjoin.mp h)
    refine ⟨w, yields_bind.mpr ⟨(), yields_lift.mpr hshape, ?_⟩, hequal⟩
    exact yields_bind.mpr ⟨checked, hchecked, hjoin.mpr hw⟩
  · intro w h
    obtain ⟨shaped, hshape, h⟩ := yields_bind.mp h
    obtain ⟨checked, hchecked, h⟩ := yields_bind.mp h
    have htexts := texts_of_validateLocalFileRecords c hchecked
    obtain ⟨v, hv, -⟩ := (tails_together c hbundles hensure dir htexts).2
      (yields_lift.mp hshape) w (hjoin.mp h)
    exact ⟨v, yields_bind.mpr ⟨checked, hchecked, hjoin.mpr hv⟩⟩

end Compilations

/-- With a store that never fails, a spec is valid exactly when it is compiled, and the two texts
are equal up to the bundles. -/
theorem validate_agrees_with_normalize
    (c : Compiler) (ensure : Str → List UInt8 → Except Str Str)
    (hbundles : c.bundles = some ensure)
    (hensure : ∀ cid archive, ∃ id, ensure cid archive = .ok id) (fuel : Nat)
    (process : Environment) (data specBaseDir : Str) :
  ((∃ v, Yields (c.validate fuel process data specBaseDir) v) ↔
      ∃ w, Yields (c.normalize fuel process data specBaseDir) w) ∧
    ∀ v w, Yields (c.validate fuel process data specBaseDir) v →
      Yields (c.normalize fuel process data specBaseDir) w → EqualUpToBundles v w
  := by
  have htogether : Together (c.validate fuel process data specBaseDir)
      (c.normalize fuel process data specBaseDir) := by
    rw [validate, Compiler.normalize, normalizeWithStepSelector]
    apply Together.bind
    intro dir
    apply Together.bind
    intro raw
    apply Together.bind
    intro sourcePath
    apply Together.bind
    intro raw
    have hselect : lift ((selectStepInPlace raw [] sourcePath).mapError CompileError.select)
        = pure raw := rfl
    rw [hselect, pure_bind]
    apply Together.bind
    intro raw
    apply Together.bind
    intro raw
    exact together_of_document c hbundles hensure fuel raw dir
  exact htogether

namespace AgreementSample

/-- One file beside the spec. -/
def source : Source where
  resolveSpec p := .ok ('/' :: p)
  resolveBaseDir p := .ok p
  resolveReference p dir := .ok (SlashPath.joined dir p)
  resolveFileRecord p dir := .ok (SlashPath.joined dir p)
  readFile _ := .error "no such file".toList
  stat p := if p = "/notes.md".toList then .ok false else .error "no such file".toList
  archive p := if p = "/notes.md".toList then .ok [1, 2, 3] else .error "no such file".toList
  workingDir := .ok ['/']

/-- A store that names every archive by its content identifier. -/
def ensure (cid : Str) (_ : List UInt8) : Except Str Str :=
  .ok cid

def compiler : Compiler where
  source := source
  yaml := ⟨fun _ => .error "no YAML".toList, fun _ s => some (.string s)⟩
  numbers := .integers
  lookupEnv _ := none
  applyOverlay := .ok
  bundles := some ensure
  archiveShortHash _ := "0123456".toList
  bundleCID _ := "cid".toList

/-- A spec with one step that takes the file. -/
def spec : Str :=
  "\x7b\"steps\":[\x7b\"image\":\"a\",\"in\":[\"notes.md:notes.md\"]\x7d]\x7d".toList

/-- The text of a result. -/
def text (x : Bounded CompileError Value) : Option Str :=
  match x.run with
  | some (.ok v) => some (JsonText.render v)
  | _ => none

theorem yields_of_text
    {x : Bounded CompileError Value} {t : Str} (h : text x = some t) :
  ∃ v, Yields x v
  := by
  unfold text at h
  split at h
  · next v hv => exact ⟨v, hv⟩
  · cases h

end AgreementSample

open AgreementSample in
theorem validate_agrees_with_normalize_sample :
  text (compiler.normalize 1 (fun _ => none) spec ['/']) = some
      ("\x7b\"bundle_map\":\x7b\"0123456\":\"cid\"\x7d,\"steps\":[\x7b\"image\":\"a\","
        ++ "\"in\":[\"0123456:/in/notes.md\"]\x7d]\x7d").toList ∧
    ∃ v w, Yields (compiler.validate 1 (fun _ => none) spec ['/']) v ∧
      Yields (compiler.normalize 1 (fun _ => none) spec ['/']) w ∧ EqualUpToBundles v w
  := by
  have htext : text (compiler.normalize 1 (fun _ => none) spec ['/']) = some
      ("\x7b\"bundle_map\":\x7b\"0123456\":\"cid\"\x7d,\"steps\":[\x7b\"image\":\"a\","
        ++ "\"in\":[\"0123456:/in/notes.md\"]\x7d]\x7d").toList := by decide +kernel
  obtain ⟨w, hw⟩ := yields_of_text htext
  obtain ⟨hiff, hequal⟩ := validate_agrees_with_normalize compiler ensure rfl
    (fun cid _ => ⟨cid, rfl⟩) 1 (fun _ => none) spec ['/']
  obtain ⟨v, hv⟩ := hiff.mpr ⟨w, hw⟩
  exact ⟨htext, v, w, hv, hw, hequal v w hv hw⟩

end Ploy
