import Ploy.Foundations.Text

/-!
# Domain types

Identifiers, the states of waves, runs and jobs, and the text normalisation of commit
SHAs.
-/

namespace Ploy

/-! ### Identifiers -/

/-- What an identifier names. -/
inductive IDKind where
  | wave | run | job | node | repo | mig | spec
  deriving DecidableEq, Repr

/-- An identifier: a string that names one kind of thing. -/
structure StringID (kind : IDKind) where
  raw : String
  deriving DecidableEq, Repr

instance {kind : IDKind} : LawfulBEq (StringID kind) :=
  inferInstance

abbrev WaveID := StringID .wave
abbrev RunID := StringID .run
abbrev JobID := StringID .job
abbrev NodeID := StringID .node
abbrev RepoID := StringID .repo
abbrev MigID := StringID .mig
abbrev SpecID := StringID .spec

/-- A point in time, in milliseconds. -/
abbrev Time := Nat

/-! ### Text -/

/-- White space, as Unicode has it. -/
def isSpace (c : Char) : Bool :=
  let n := c.toNat
  (9 ≤ n && n ≤ 13) || n == 0x20 || n == 0x85 || n == 0xA0 || n == 0x1680
    || (0x2000 ≤ n && n ≤ 0x200A) || n == 0x2028 || n == 0x2029 || n == 0x202F || n == 0x205F
    || n == 0x3000

/-- A text without the white space around it. -/
def trimSpace (s : String) : String :=
  String.ofList ((s.toList.dropWhile isSpace).reverse.dropWhile isSpace).reverse

/-- An identifier is zero when it holds nothing but white space. -/
def StringID.isZero {kind : IDKind} (id : StringID kind) : Bool :=
  trimSpace id.raw = ""

/-- The first eight characters of a text. -/
def substring8 (s : String) : String :=
  String.ofList (s.toList.take 8)

/-! ### Statuses -/

inductive JobStatus where
  | created | queued | running | success | fail | error | cancelled
  deriving DecidableEq, Repr

def JobStatus.text : JobStatus → String
  | created => "Created"
  | queued => "Queued"
  | running => "Running"
  | success => "Success"
  | fail => "Fail"
  | error => "Error"
  | cancelled => "Cancelled"

/-- A job is active until it has ended: it waits, is queued or runs. -/
def JobStatus.active : JobStatus → Bool
  | created | queued | running => true
  | success | fail | error | cancelled => false

theorem JobStatus.active_iff {s : JobStatus} :
  s.active = true ↔ s = .created ∨ s = .queued ∨ s = .running
  := by
  cases s <;> simp [JobStatus.active]

def JobStatus.terminal (s : JobStatus) : Bool :=
  !s.active

inductive RunStatus where
  | queued | running | cancelled | fail | success
  deriving DecidableEq, Repr

/-- Whether a run has ended. -/
def isTerminalRunStatus : RunStatus → Bool
  | .success | .fail | .cancelled => true
  | .queued | .running => false

inductive WaveStatus where
  | started | cancelled | finished
  deriving DecidableEq, Repr

/-- Whether a wave has ended. -/
def isTerminalWaveStatus : WaveStatus → Bool
  | .finished | .cancelled => true
  | .started => false

inductive JobType where
  | preGate | mig | postGate
  deriving DecidableEq, Repr

def JobType.text : JobType → String
  | preGate => "pre_gate"
  | mig => "mig"
  | postGate => "post_gate"

/-! ### Commit SHAs -/

/-- A lowercase hexadecimal digit. -/
def isLowerHex (c : Char) : Bool :=
  ('0' ≤ c && c ≤ '9') || ('a' ≤ c && c ≤ 'f')

/-- The lowercase canonical form of a full commit SHA, which may have white space around it
and uppercase digits. -/
def normalizeFullCommitSHA (raw : String) : Option String :=
  let normalized := (trimSpace raw).toList.map Char.toLower
  if normalized.length ≠ 40 then none
  else if normalized.all isLowerHex then some (String.ofList normalized)
  else none

/-- Whether a text is exactly a lowercase full commit SHA. -/
def isCanonicalFullCommitSHA (raw : String) : Bool :=
  normalizeFullCommitSHA raw = some raw

/-- The canonical form of a commit SHA, empty where the text is none. -/
def normalizeRepoSHA (sha : String) : String :=
  (normalizeFullCommitSHA sha).getD ""

theorem isLowerHex_iff {c : Char} :
  isLowerHex c = true
    ↔ (48 ≤ c.toNat ∧ c.toNat ≤ 57) ∨ (97 ≤ c.toNat ∧ c.toNat ≤ 102)
  := by
  simp [isLowerHex, Char.le_def, UInt32.le_iff_toNat_le]

theorem isSpace_of_isLowerHex {c : Char} (h : isLowerHex c = true) :
  isSpace c = false
  := by
  have hn := isLowerHex_iff.mp h
  simp only [isSpace, Bool.or_eq_false_iff, Bool.and_eq_false_iff, decide_eq_false_iff_not,
    beq_eq_false_iff_ne]
  omega

theorem toLower_of_isLowerHex {c : Char} (h : isLowerHex c = true) :
  c.toLower = c
  := by
  have hn := isLowerHex_iff.mp h
  unfold Char.toLower
  rw [dif_neg]
  simp only [ge_iff_le, UInt32.le_iff_toNat_le, Char.toNat_val, Char.reduceToNat]
  omega

theorem dropWhile_isSpace_of_hex {l : Str} (h : ∀ c ∈ l, isLowerHex c = true) :
  l.dropWhile isSpace = l
  := by
  cases l with
  | nil => rfl
  | cons c l =>
    have hc := isSpace_of_isLowerHex (h c List.mem_cons_self)
    apply List.dropWhile_cons_of_neg
    simp [hc]

theorem normalizeFullCommitSHA_eq_some {raw sha : String} :
  normalizeFullCommitSHA raw = some sha
    ↔ (((trimSpace raw).toList.map Char.toLower).length = 40
        ∧ ∀ c ∈ (trimSpace raw).toList.map Char.toLower, isLowerHex c = true)
      ∧ String.ofList ((trimSpace raw).toList.map Char.toLower) = sha
  := by
  simp only [normalizeFullCommitSHA, List.all_eq_true]
  generalize (trimSpace raw).toList.map Char.toLower = l
  split_ifs with hlength hhex
  · simp [hlength]
  · simp [not_not.mp hlength, and_iff_right hhex]
  · simp [hhex]

theorem isCanonicalFullCommitSHA_of_normalize
    {raw sha : String} (h : normalizeFullCommitSHA raw = some sha) :
  isCanonicalFullCommitSHA sha = true
  := by
  obtain ⟨⟨hlength, hhex⟩, rfl⟩ := normalizeFullCommitSHA_eq_some.mp h
  generalize (trimSpace raw).toList.map Char.toLower = l at hlength hhex
  have htrim : trimSpace (String.ofList l) = String.ofList l := by
    rw [trimSpace, String.toList_ofList, dropWhile_isSpace_of_hex hhex,
      dropWhile_isSpace_of_hex (by simpa using hhex), List.reverse_reverse]
  have hlower : l.map Char.toLower = l := by
    rw [List.map_congr_left (fun c hc => toLower_of_isLowerHex (hhex c hc)), List.map_id']
  simp only [isCanonicalFullCommitSHA, decide_eq_true_eq]
  apply normalizeFullCommitSHA_eq_some.mpr
  rw [htrim, String.toList_ofList, hlower]
  apply And.intro ⟨hlength, hhex⟩ rfl

theorem ne_empty_of_canonical
    {sha : String} (h : isCanonicalFullCommitSHA sha = true) :
  sha ≠ ""
  := by
  rintro rfl
  revert h
  decide

theorem normalizeRepoSHA_canonical
    {sha : String} (h : normalizeRepoSHA sha ≠ "") :
  isCanonicalFullCommitSHA (normalizeRepoSHA sha) = true
  := by
  cases hn : normalizeFullCommitSHA sha with
  | none =>
    rw [normalizeRepoSHA, hn] at h
    apply absurd rfl h
  | some t =>
    rw [normalizeRepoSHA, hn]
    apply isCanonicalFullCommitSHA_of_normalize hn

end Ploy
