import Ploy.Server.Reconcile

/-!
# The plan of a specification

The jobs that a run executes are planned from its specification: a step for each step of the
specification, between two gates unless gates are disabled.
-/

namespace Ploy

/-- A step of a specification, as far as planning reads it. -/
structure MigStep where
  name : String
  universalImage : String
  deriving DecidableEq, Repr

/-- A specification, as far as planning reads it. -/
structure MigSpec where
  buildGateDisabled : Bool
  steps : List MigStep
  deriving DecidableEq, Repr

/-- The members of the metadata of a planned job. Those that are empty are left out. -/
def migJobMeta (stepName : String) (stepIndex : Option Nat) (gateCycle : String) :
    List (String × JSONValue) :=
  [("kind", .other "mig")]
    ++ (if stepName = "" then [] else [("mig_step_name", .other stepName)])
    ++ (stepIndex.map fun i => ("mig_step_index", .int i)).toList
    ++ (if gateCycle = "" then [] else [("gate_cycle_name", .other gateCycle)])

def gatePlan (name : String) (jobType : JobType) : JobPlan where
  name := name
  jobType := jobType
  jobImage := ""
  metadata := .document (.object (migJobMeta "" none name))

def stepPlan (i : Nat) (step : MigStep) : JobPlan where
  name := "mig-" ++ toString i
  jobType := .mig
  jobImage := if step.universalImage = "" then "" else trimSpace step.universalImage
  metadata := .document (.object (migJobMeta step.name (some i) ""))

/-- The jobs of a specification. One without steps is planned as one with an empty step. -/
def planJobsFromSpec (spec : MigSpec) : List JobPlan :=
  (if spec.buildGateDisabled then [] else [gatePlan "pre-gate" .preGate])
    ++ (if 1 < spec.steps.length then spec.steps.mapIdx stepPlan
        else [stepPlan 0 (spec.steps.head?.getD ⟨"", ""⟩)])
    ++ (if spec.buildGateDisabled then [] else [gatePlan "post-gate" .postGate])

/-- A plan has gates and steps only. -/
theorem mem_planJobsFromSpec {spec : MigSpec} {plan : JobPlan} (h : plan ∈ planJobsFromSpec spec) :
  plan = gatePlan "pre-gate" .preGate ∨ plan = gatePlan "post-gate" .postGate
    ∨ ∃ i step, plan = stepPlan i step
  := by
  simp only [planJobsFromSpec, List.mem_append] at h
  rcases h with (h | h) | h
  · split at h
    · cases h
    · apply Or.inl (List.mem_singleton.mp h)
  · right
    right
    split at h
    · obtain ⟨i, hi, rfl⟩ := List.mem_mapIdx.mp h
      exact ⟨i, _, rfl⟩
    · exact ⟨0, _, List.mem_singleton.mp h⟩
  · split at h
    · cases h
    · apply Or.inr (Or.inl (List.mem_singleton.mp h))

/-- The type that the name of a planned job stands for. -/
def typeOfName (name : String) : JobType :=
  if name = "pre-gate" then .preGate else if name = "post-gate" then .postGate else .mig

theorem stepName_ne (i : Nat) (gate : String) (h : gate.toList.head? ≠ some 'm') :
  "mig-" ++ toString i ≠ gate
  := by
  rintro rfl
  apply h
  rw [String.toList_append]
  rfl

theorem jobType_planned {spec : MigSpec} {plan : JobPlan} (h : plan ∈ planJobsFromSpec spec) :
  plan.jobType = typeOfName plan.name
  := by
  rcases mem_planJobsFromSpec h with rfl | rfl | ⟨i, step, rfl⟩
  · rfl
  · rfl
  · have hpre : "mig-" ++ toString i ≠ "pre-gate" := stepName_ne i _ (by decide)
    have hpost : "mig-" ++ toString i ≠ "post-gate" := stepName_ne i _ (by decide)
    rw [stepPlan, typeOfName, if_neg hpre, if_neg hpost]

theorem key_migJobMeta {stepName : String} {stepIndex : Option Nat} {gateCycle : String}
    {m : String × JSONValue} (h : m ∈ migJobMeta stepName stepIndex gateCycle) :
  m.1 ∈ ["kind", "mig_step_name", "mig_step_index", "gate_cycle_name"]
  := by
  simp only [migJobMeta, List.mem_append, Option.mem_toList, Option.map_eq_some_iff] at h
  rcases h with ((h | h) | ⟨i, -, rfl⟩) | h
  · rw [List.mem_singleton.mp h]
    simp
  · split at h
    · cases h
    · rw [List.mem_singleton.mp h]
      simp
  · simp
  · split at h
    · cases h
    · rw [List.mem_singleton.mp h]
      simp

theorem nextIDFromMeta_migJobMeta (stepName : String) (stepIndex : Option Nat)
    (gateCycle : String) :
  nextIDFromMeta (.object (migJobMeta stepName stepIndex gateCycle)) = none
  := by
  have hkeys : ∀ key ∈ ["kind", "mig_step_name", "mig_step_index", "gate_cycle_name"],
      key.toList.map Char.toLower ≠ "next_id".toList := by
    decide
  simp only [nextIDFromMeta]
  rw [List.filter_eq_nil_iff.mpr]
  · rfl
  · intro m hm hnext
    apply hkeys m.1 (key_migJobMeta hm) (of_decide_eq_true hnext)

theorem metadata_planned {spec : MigSpec} {plan : JobPlan} (h : plan ∈ planJobsFromSpec spec) :
  ∃ d, plan.metadata = .document d ∧ nextIDFromMeta d = none
  := by
  rcases mem_planJobsFromSpec h with rfl | rfl | ⟨i, step, rfl⟩
  · exact ⟨_, rfl, nextIDFromMeta_migJobMeta _ _ _⟩
  · exact ⟨_, rfl, nextIDFromMeta_migJobMeta _ _ _⟩
  · exact ⟨_, rfl, nextIDFromMeta_migJobMeta _ _ _⟩

theorem planByName_planned {spec : MigSpec} {plan : JobPlan} (h : plan ∈ planJobsFromSpec spec) :
  ∃ found ∈ planJobsFromSpec spec,
    (planByName (planJobsFromSpec spec) plan.name).filter (·.jobType = plan.jobType) = some found
  := by
  cases hfind : planByName (planJobsFromSpec spec) plan.name with
  | none =>
    have := List.find?_eq_none.mp hfind plan (List.mem_reverse.mpr h)
    simp at this
  | some found =>
    have hmem : found ∈ planJobsFromSpec spec := by
      simpa using List.mem_of_find?_eq_some hfind
    have hname : found.name = plan.name := by simpa using List.find?_some hfind
    use found, hmem
    apply Option.filter_some_pos
    rw [decide_eq_true_eq, jobType_planned hmem, jobType_planned h, hname]

end Ploy
