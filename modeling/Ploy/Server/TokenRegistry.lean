import Ploy.Foundations.Dictionary
import Ploy.Run.Machine

/-!
# The registry of repository tokens

A run may come with a token of its own for its repository. The server keeps the token in memory,
under its hash, for as long as a run needs it: snapshots are downloaded with it.
-/

namespace Ploy

open Dictionary

/-! ### The registry -/

/-- A token and the runs that need it. -/
structure TokenEntry where
  token : String
  runs : List RunID
  deriving DecidableEq, Repr

/-- The tokens by their hash, and the hash of the token of every run. -/
structure TokenRegistry where
  entries : List (String × TokenEntry)
  runHash : List (RunID × String)
  deriving DecidableEq, Repr

namespace TokenRegistry

/-- The hash of the token of a run, empty if it has none. -/
def hashOf (r : TokenRegistry) (runID : RunID) : String :=
  (get r.runHash runID).getD ""

/-- A run no longer needs its token. A token that no run needs is forgotten. -/
def releaseRun (r : TokenRegistry) (runID : RunID) : TokenRegistry :=
  if r.hashOf runID = "" then r
  else
    let runHash := erase r.runHash runID
    match get r.entries (r.hashOf runID) with
    | none => { r with runHash }
    | some e =>
      let runs := e.runs.filter (· ≠ runID)
      if runs = [] then ⟨erase r.entries (r.hashOf runID), runHash⟩
      else ⟨set r.entries (r.hashOf runID) { e with runs }, runHash⟩

def releaseRuns (r : TokenRegistry) (runIDs : List RunID) : TokenRegistry :=
  runIDs.foldl releaseRun r

def addRun (hash : String) (r : TokenRegistry) (runID : RunID) : TokenRegistry :=
  if runID.isZero then r
  else
    let r := if r.hashOf runID ≠ "" ∧ r.hashOf runID ≠ hash then r.releaseRun runID else r
    match get r.entries hash with
    | none => { r with runHash := set r.runHash runID hash }
    | some e =>
      ⟨set r.entries hash { e with runs := e.runs.insert runID },
        set r.runHash runID hash⟩

def register (r : TokenRegistry) (hash token : String) (runIDs : List RunID) : TokenRegistry :=
  let hash := trimSpace hash
  let token := trimSpace token
  if hash = "" ∨ token = "" ∨ runIDs = [] then r
  else
    let e := (get r.entries hash).getD ⟨"", []⟩
    runIDs.foldl (addRun hash) { r with entries := set r.entries hash { e with token } }

/-- The token with a hash, if a run needs it. -/
def token (r : TokenRegistry) (hash : String) : Option String :=
  let hash := trimSpace hash
  if hash = "" then none
  else
    (get r.entries hash).bind fun e =>
      if trimSpace e.token = "" then none else some e.token

/-! ### The two maps are inverse to each other -/

/-- The runs of a hash are those that have it as their hash. -/
structure Linked (r : TokenRegistry) : Prop where
  mem_runs : ∀ {hash e}, get r.entries hash = some e →
    ∀ run, run ∈ e.runs ↔ get r.runHash run = some hash
  entry : ∀ {run hash}, get r.runHash run = some hash →
    ∃ e, get r.entries hash = some e
  hash_ne : ∀ {run hash}, get r.runHash run = some hash → hash ≠ ""
  token_ne : ∀ {hash e}, get r.entries hash = some e → trimSpace e.token ≠ ""

/-- Every token is needed by a run. -/
structure Sound (r : TokenRegistry) : Prop extends Linked r where
  needed : ∀ {hash e}, get r.entries hash = some e → e.runs ≠ []

theorem Linked.not_mem
    {r : TokenRegistry} (h : Linked r) {run : RunID} {hash hash' : String} {e : TokenEntry}
    (hrun : get r.runHash run = some hash) (he : get r.entries hash' = some e)
    (hne : hash' ≠ hash) :
  run ∉ e.runs
  := by
  intro hmem
  rw [(h.mem_runs he run).mp hmem] at hrun
  exact hne (Option.some.inj hrun)

theorem Linked.not_mem_of_none
    {r : TokenRegistry} (h : Linked r) {run : RunID} {hash : String} {e : TokenEntry}
    (hrun : get r.runHash run = none) (he : get r.entries hash = some e) :
  run ∉ e.runs
  := by
  intro hmem
  rw [(h.mem_runs he run).mp hmem] at hrun
  cases hrun

/-! ### Releasing a run -/

end TokenRegistry

/-- A token without one of its runs, if others need it. -/
def TokenEntry.release (runID : RunID) (e : TokenEntry) : Option TokenEntry :=
  if runID ∈ e.runs then
    if e.runs.filter (· ≠ runID) = [] then none
    else some { e with runs := e.runs.filter (· ≠ runID) }
  else some e

theorem TokenEntry.release_of_not_mem
    {runID : RunID} {e : TokenEntry} (h : runID ∉ e.runs) :
  e.release runID = some e
  := if_neg h

theorem TokenEntry.of_release
    {runID : RunID} {e e' : TokenEntry} (h : e.release runID = some e') :
  e'.token = e.token ∧ (∀ run, run ∈ e'.runs ↔ run ∈ e.runs ∧ run ≠ runID)
    ∧ (e.runs ≠ [] → e'.runs ≠ [])
  := by
  rw [release] at h
  split at h
  · split at h
    · cases h
    · next hrest =>
        cases h
        exact ⟨rfl, fun run => by simp [List.mem_filter], fun _ => hrest⟩
  · next hmem =>
      cases h
      refine ⟨rfl, fun run => ⟨fun hrun => ⟨hrun, ?_⟩, And.left⟩, id⟩
      rintro rfl
      exact hmem hrun

theorem TokenEntry.release_isSome
    {runID run : RunID} {e : TokenEntry} (h : run ∈ e.runs) (hne : run ≠ runID) :
  ∃ e', e.release runID = some e'
  := by
  rw [release]
  split
  · have hrest : e.runs.filter (· ≠ runID) ≠ [] := by
      intro hnil
      have hmem : run ∈ e.runs.filter (· ≠ runID) := by simpa [List.mem_filter] using ⟨h, hne⟩
      rw [hnil] at hmem
      cases hmem
    rw [if_neg hrest]
    exact ⟨_, rfl⟩
  · exact ⟨e, rfl⟩

namespace TokenRegistry

variable {r : TokenRegistry}

theorem hashOf_of_get
    {run : RunID} {hash : String}
    (h : get r.runHash run = some hash) :
  r.hashOf run = hash
  := by
  rw [hashOf, h]
  rfl

theorem hashOf_of_none
    {run : RunID} (h : get r.runHash run = none) :
  r.hashOf run = ""
  := by
  rw [hashOf, h]
  rfl

theorem get_runHash_releaseRun
    (h : Linked r) (runID run : RunID) :
  get (r.releaseRun runID).runHash run
    = if run = runID then none else get r.runHash run
  := by
  cases hrun : get r.runHash runID with
  | none =>
    rw [releaseRun, if_pos (hashOf_of_none hrun)]
    split
    · next heq => rw [heq, hrun]
    · rfl
  | some hash =>
    obtain ⟨e, he⟩ := h.entry hrun
    rw [releaseRun, hashOf_of_get hrun, if_neg (h.hash_ne hrun)]
    simp only [he]
    split <;> exact get_erase _ _ _

/-- Releasing a run takes it from the entry of its token. -/
theorem get_entries_releaseRun
    (h : Linked r) (runID : RunID) (hash : String) :
  get (r.releaseRun runID).entries hash
    = (get r.entries hash).bind (TokenEntry.release runID)
  := by
  -- a token that the run does not need stays as it is
  have hother : (∀ e, get r.entries hash = some e → runID ∉ e.runs) →
      (get r.entries hash).bind (TokenEntry.release runID)
        = get r.entries hash := by
    intro hnot
    cases he : get r.entries hash with
    | none => rfl
    | some e => exact TokenEntry.release_of_not_mem (hnot e he)
  cases hrun : get r.runHash runID with
  | none =>
    rw [hother (fun e he => h.not_mem_of_none hrun he), releaseRun,
      if_pos (hashOf_of_none hrun)]
  | some own =>
    obtain ⟨e, he⟩ := h.entry hrun
    have hmem : runID ∈ e.runs := (h.mem_runs he runID).mpr hrun
    rw [releaseRun, hashOf_of_get hrun, if_neg (h.hash_ne hrun)]
    simp only [he]
    by_cases heq : hash = own
    · rw [heq, he, Option.bind_some, TokenEntry.release, if_pos hmem]
      split
      · exact get_erase_self _ _
      · exact get_set_self _ _ _
    · rw [hother (fun e' he' => h.not_mem hrun he' heq)]
      split
      · exact get_erase_of_ne _ heq
      · exact get_set_of_ne _ _ heq

/-- Releasing a run keeps runs and entries linked. -/
theorem Linked.releaseRun
    (h : Linked r) (runID : RunID) :
  Linked (r.releaseRun runID)
  := by
  constructor
  · intro hash e' he' run
    rw [get_entries_releaseRun h] at he'
    obtain ⟨e, he, hrelease⟩ := Option.bind_eq_some_iff.mp he'
    rw [(TokenEntry.of_release hrelease).2.1, h.mem_runs he, get_runHash_releaseRun h]
    by_cases heq : run = runID
    · simp [heq]
    · simp [heq]
  · intro run hash hrun
    rw [get_runHash_releaseRun h] at hrun
    split at hrun
    · cases hrun
    · next hne =>
        obtain ⟨e, he⟩ := h.entry hrun
        obtain ⟨e', he'⟩ := TokenEntry.release_isSome ((h.mem_runs he run).mpr hrun) hne
        use e'
        rw [get_entries_releaseRun h, he]
        exact he'
  · intro run hash hrun
    rw [get_runHash_releaseRun h] at hrun
    split at hrun
    · cases hrun
    · exact h.hash_ne hrun
  · intro hash e' he'
    rw [get_entries_releaseRun h] at he'
    obtain ⟨e, he, hrelease⟩ := Option.bind_eq_some_iff.mp he'
    rw [(TokenEntry.of_release hrelease).1]
    exact h.token_ne he

theorem Sound.releaseRun
    (h : Sound r) (runID : RunID) :
  Sound (r.releaseRun runID)
  := by
  refine ⟨h.toLinked.releaseRun runID, ?_⟩
  intro hash e' he'
  rw [get_entries_releaseRun h.toLinked] at he'
  obtain ⟨e, he, hrelease⟩ := Option.bind_eq_some_iff.mp he'
  exact (TokenEntry.of_release hrelease).2.2 (h.needed he)

theorem Sound.releaseRuns
    (h : Sound r) (runIDs : List RunID) :
  Sound (r.releaseRuns runIDs)
    ∧ ∀ run, get (r.releaseRuns runIDs).runHash run
        = if run ∈ runIDs then none else get r.runHash run
  := by
  induction runIDs generalizing r with
  | nil => exact ⟨h, fun run => rfl⟩
  | cons runID runIDs ih =>
    obtain ⟨hsound, hruns⟩ := ih (h.releaseRun runID)
    refine ⟨hsound, fun run => ?_⟩
    rw [TokenRegistry.releaseRuns, List.foldl_cons]
    rw [TokenRegistry.releaseRuns] at hruns
    rw [hruns run, get_runHash_releaseRun h.toLinked]
    by_cases hrest : run ∈ runIDs
    · simp [hrest]
    · simp [hrest]

/-! ### Registering runs -/

/-- The registry while runs are added to a token: only this token may still be needed by none. -/
structure Adding (hash token : String) (r : TokenRegistry) : Prop extends Linked r where
  others : ∀ {h e}, h ≠ hash → get r.entries h = some e → e.runs ≠ []
  entry_added : ∃ e, get r.entries hash = some e ∧ e.token = token
  hash_added_ne : hash ≠ ""

variable {hash token : String}

/-- What adding a run does to runs and entries. -/
theorem addRun_eq
    (h : Adding hash token r) {e : TokenEntry}
    (he : get r.entries hash = some e) {runID : RunID} (hzero : runID.isZero = false) :
  (∀ run, get (r.addRun hash runID).runHash run
      = if run = runID then some hash else get r.runHash run)
    ∧ ∀ h', get (r.addRun hash runID).entries h'
        = if h' = hash then some { e with runs := e.runs.insert runID }
          else (get r.entries h').bind (TokenEntry.release runID)
  := by
  by_cases hmoves : r.hashOf runID ≠ "" ∧ r.hashOf runID ≠ hash
  · -- the run needed another token
    have hrun : get r.runHash runID = some (r.hashOf runID) := by
      cases hget : get r.runHash runID with
      | none => exact absurd (hashOf_of_none hget) hmoves.1
      | some own => rw [hashOf_of_get hget]
    have hkept : get (r.releaseRun runID).entries hash = some e := by
      rw [get_entries_releaseRun h.toLinked, he]
      exact TokenEntry.release_of_not_mem (h.not_mem hrun he (Ne.symm hmoves.2))
    rw [addRun, hzero]
    simp only [Bool.false_eq_true, if_false, if_pos hmoves, hkept]
    constructor
    · intro run
      rw [get_set, get_runHash_releaseRun h.toLinked]
      split <;> rfl
    · intro h'
      rw [get_set, get_entries_releaseRun h.toLinked]
  · rw [addRun, hzero]
    simp only [Bool.false_eq_true, if_false, if_neg hmoves, he]
    constructor
    · intro run
      exact get_set _ _ _ _
    · intro h'
      rw [get_set]
      split
      · rfl
      · next hne =>
          -- the run has no token or this one, so that no other token knows it
          cases hother : get r.entries h' with
          | none => rfl
          | some other =>
            refine (TokenEntry.release_of_not_mem ?_).symm
            cases hget : get r.runHash runID with
            | none => exact h.not_mem_of_none hget hother
            | some own =>
              rw [hashOf_of_get hget] at hmoves
              have hown : own = hash := by
                by_contra hown
                exact hmoves ⟨h.hash_ne hget, hown⟩
              exact h.not_mem hget hother (hown ▸ hne)

/-- Runs are added one after another. -/
theorem Adding.addRun
    (h : Adding hash token r) (runID : RunID) :
  Adding hash token (r.addRun hash runID)
    ∧ ∀ run, get (r.addRun hash runID).runHash run
        = if run = runID ∧ runID.isZero = false then some hash
          else get r.runHash run
  := by
  cases hzero : runID.isZero with
  | true =>
    rw [TokenRegistry.addRun, hzero, if_pos rfl]
    exact ⟨h, fun run => by simp⟩
  | false =>
    obtain ⟨e, he, htoken⟩ := h.entry_added
    obtain ⟨hruns, hentries⟩ := addRun_eq h he hzero
    have hadded : ∀ {h' e'}, get (r.addRun hash runID).entries h' = some e' →
        (h' = hash ∧ e' = { e with runs := e.runs.insert runID })
          ∨ (h' ≠ hash ∧ ∃ e₀, get r.entries h' = some e₀
            ∧ e₀.release runID = some e') := by
      intro h' e' he'
      rw [hentries] at he'
      split at he'
      · next heq =>
          cases he'
          exact Or.inl ⟨heq, rfl⟩
      · next hne => exact Or.inr ⟨hne, Option.bind_eq_some_iff.mp he'⟩
    refine ⟨⟨⟨?_, ?_, ?_, ?_⟩, ?_, ?_, h.hash_added_ne⟩, fun run => by simp [hruns run]⟩
    · intro h' e' he' run
      rw [hruns run]
      rcases hadded he' with ⟨rfl, rfl⟩ | ⟨hne, e₀, he₀, hrelease⟩
      · rw [List.mem_insert_iff, h.mem_runs he]
        by_cases heq : run = runID
        · simp [heq]
        · simp [heq]
      · rw [(TokenEntry.of_release hrelease).2.1, h.mem_runs he₀]
        by_cases heq : run = runID
        · simp [heq, Ne.symm hne]
        · simp [heq]
    · intro run h' hrun
      rw [hruns run] at hrun
      rw [hentries]
      split at hrun
      · cases hrun
        exact ⟨_, if_pos rfl⟩
      · next hne =>
          split
          · exact ⟨_, rfl⟩
          · obtain ⟨e₀, he₀⟩ := h.entry hrun
            rw [he₀]
            exact TokenEntry.release_isSome ((h.mem_runs he₀ run).mpr hrun) hne
    · intro run h' hrun
      rw [hruns run] at hrun
      split at hrun
      · cases hrun
        exact h.hash_added_ne
      · exact h.hash_ne hrun
    · intro h' e' he'
      rcases hadded he' with ⟨-, rfl⟩ | ⟨-, e₀, he₀, hrelease⟩
      · have hne : trimSpace e.token ≠ "" := h.token_ne he
        exact hne
      · rw [(TokenEntry.of_release hrelease).1]
        exact h.token_ne he₀
    · intro h' e' hne he'
      rcases hadded he' with ⟨heq, -⟩ | ⟨-, e₀, he₀, hrelease⟩
      · exact absurd heq hne
      · exact (TokenEntry.of_release hrelease).2.2 (h.others hne he₀)
    · exact ⟨_, (hentries hash).trans (if_pos rfl), htoken⟩

theorem Adding.addRuns
    (h : Adding hash token r) (runIDs : List RunID) :
  Adding hash token (runIDs.foldl (TokenRegistry.addRun hash) r)
    ∧ ∀ run, get (runIDs.foldl (TokenRegistry.addRun hash) r).runHash run
        = if run ∈ runIDs ∧ run.isZero = false then some hash
          else get r.runHash run
  := by
  induction runIDs generalizing r with
  | nil => exact ⟨h, fun run => by simp⟩
  | cons runID runIDs ih =>
    obtain ⟨hadded, hrun⟩ := h.addRun runID
    obtain ⟨hadding, hruns⟩ := ih hadded
    refine ⟨hadding, fun run => ?_⟩
    rw [List.foldl_cons, hruns run, hrun run]
    by_cases heq : run = runID
    · by_cases hzero : runID.isZero = false
      · simp [heq, hzero]
      · simp [heq, hzero]
    · simp [heq]

/-- A text that is not blank stays so when it is trimmed. -/
theorem trimSpace_trimSpace_ne
    {t : String} (h : trimSpace t ≠ "") :
  trimSpace (trimSpace t) ≠ ""
  := by
  intro hblank
  have hkept : ((t.toList.dropWhile isSpace).reverse.dropWhile isSpace) ≠ [] := by
    intro hnil
    apply h
    rw [trimSpace, hnil]
    rfl
  -- the last character that is kept is no white space
  have hlast := List.head_dropWhile_not isSpace hkept
  generalize hmiddle : (t.toList.dropWhile isSpace).reverse.dropWhile isSpace = l at *
  have hall : ∀ c ∈ l, isSpace c = true := by
    rw [trimSpace, trimSpace, hmiddle, String.toList_ofList] at hblank
    have hnil : ((l.reverse.dropWhile isSpace).reverse.dropWhile isSpace) = [] := by
      have hlist := congrArg String.toList hblank
      rw [String.toList_ofList] at hlist
      exact List.reverse_eq_nil_iff.mp hlist
    have hrest := List.dropWhile_eq_nil_iff.mp hnil
    by_cases hd : l.reverse.dropWhile isSpace = []
    · intro c hc
      exact List.dropWhile_eq_nil_iff.mp hd c (by rwa [List.mem_reverse])
    · have hhead := List.head_dropWhile_not isSpace hd
      rw [hrest _ (by rw [List.mem_reverse]; exact List.head_mem hd)] at hhead
      cases hhead
  rw [hall _ (List.head_mem hkept)] at hlast
  cases hlast

/-- Whether a list of runs is empty or names a run. -/
def namesRun (runIDs : List RunID) : Bool :=
  runIDs.isEmpty || runIDs.any (!·.isZero)

/-- Whether a token is registered under a hash for some runs. -/
def registers (hash token : String) : Bool :=
  trimSpace hash ≠ "" && trimSpace token ≠ ""

/-- A token that is registered has an entry to add runs to. -/
theorem Sound.adding
    (h : Sound r) (hhash : hash ≠ "")
    (htoken : trimSpace token ≠ "") :
  Adding hash token { r with
    entries := set r.entries hash
      { (get r.entries hash).getD ⟨"", []⟩ with token } }
  := by
  have hentries : ∀ {h' e'}, get (set r.entries hash
      { (get r.entries hash).getD ⟨"", []⟩ with token }) h' = some e' →
      (h' = hash ∧ e' = { (get r.entries hash).getD ⟨"", []⟩ with token })
        ∨ (h' ≠ hash ∧ get r.entries h' = some e') := by
    intro h' e' he'
    rw [get_set] at he'
    split at he'
    · next heq =>
        cases he'
        exact Or.inl ⟨heq, rfl⟩
    · next hne => exact Or.inr ⟨hne, he'⟩
  refine ⟨⟨?_, ?_, h.hash_ne, ?_⟩, ?_, ⟨_, get_set_self _ _ _, rfl⟩, hhash⟩
  · intro h' e' he' run
    rcases hentries he' with ⟨rfl, rfl⟩ | ⟨-, he₀⟩
    · cases he : get r.entries h' with
      | none =>
        constructor
        · intro hmem
          cases hmem
        · intro hrun
          obtain ⟨e, hsome⟩ := h.entry hrun
          rw [he] at hsome
          cases hsome
      | some e => exact h.mem_runs he run
    · exact h.mem_runs he₀ run
  · intro run h' hrun
    obtain ⟨e, he⟩ := h.entry hrun
    rw [get_set]
    split
    · exact ⟨_, rfl⟩
    · exact ⟨e, he⟩
  · intro h' e' he'
    rcases hentries he' with ⟨-, rfl⟩ | ⟨-, he₀⟩
    · exact htoken
    · exact h.token_ne he₀
  · intro h' e' hne he'
    rcases hentries he' with ⟨heq, -⟩ | ⟨-, he₀⟩
    · exact absurd heq hne
    · exact h.needed he₀

/-- A registration adds the runs that it names. -/
theorem Sound.register
    (h : Sound r) (hash token : String) {runIDs : List RunID}
    (hnames : namesRun runIDs = true) :
  Sound (r.register hash token runIDs)
    ∧ ∀ run, get (r.register hash token runIDs).runHash run
        = if registers hash token = true ∧ run ∈ runIDs ∧ run.isZero = false
          then some (trimSpace hash) else get r.runHash run
  := by
  by_cases hnone : trimSpace hash = "" ∨ trimSpace token = "" ∨ runIDs = []
  · rw [TokenRegistry.register]
    simp only [if_pos hnone]
    refine ⟨h, fun run => ?_⟩
    rw [if_neg]
    rintro ⟨hregisters, hmem, -⟩
    rw [registers, Bool.and_eq_true, decide_eq_true_eq, decide_eq_true_eq] at hregisters
    rcases hnone with hhash | htoken | hnil
    · exact hregisters.1 hhash
    · exact hregisters.2 htoken
    · rw [hnil] at hmem
      cases hmem
  · have hgiven := hnone
    rw [not_or, not_or] at hgiven
    obtain ⟨hhash, htoken, hne⟩ := hgiven
    have hregisters : registers hash token = true := by simp [registers, hhash, htoken]
    have hadding := h.adding hhash (trimSpace_trimSpace_ne htoken)
    obtain ⟨hadded, hruns⟩ := hadding.addRuns runIDs
    rw [TokenRegistry.register]
    simp only [if_neg hnone]
    refine ⟨⟨hadded.toLinked, ?_⟩, fun run => ?_⟩
    · intro h' e he
      by_cases heq : h' = trimSpace hash
      · -- one of the runs that were added needs the token
        obtain ⟨run, hmem, hzero⟩ : ∃ run ∈ runIDs, run.isZero = false := by
          simpa [namesRun, hne] using hnames
        have hrun := hruns run
        rw [if_pos ⟨hmem, hzero⟩] at hrun
        exact List.ne_nil_of_mem ((hadded.mem_runs he run).mpr (heq ▸ hrun))
      · exact hadded.others heq he
    · rw [hruns run]
      simp [hregisters]

/-- A token is known as long as a run holds it. -/
theorem Sound.token_isSome
    (h : Sound r) (hash : String) :
  (r.token hash).isSome ↔ ∃ run, get r.runHash run = some (trimSpace hash)
  := by
  rw [token]
  by_cases hblank : trimSpace hash = ""
  · simp only [hblank, if_true, Option.isSome_none, Bool.false_eq_true, false_iff, not_exists]
    intro run hrun
    exact h.hash_ne hrun rfl
  · simp only [hblank, if_false]
    cases he : get r.entries (trimSpace hash) with
    | none =>
      simp only [Option.bind_none, Option.isSome_none, Bool.false_eq_true, false_iff, not_exists]
      intro run hrun
      obtain ⟨e, hsome⟩ := h.entry hrun
      rw [he] at hsome
      cases hsome
    | some e =>
      simp only [Option.bind_some, h.token_ne he, if_false, Option.isSome_some, true_iff]
      obtain ⟨run, hrun⟩ := List.exists_mem_of_ne_nil _ (h.needed he)
      exact ⟨run, (h.mem_runs he run).mp hrun⟩

/-- Releasing a run undoes its registration. -/
theorem Sound.releaseRuns_register
    (h : Sound r) {runID : RunID}
    (hzero : runID.isZero = false) (hrun : get r.runHash runID = none)
    (hsame : ∀ e, get r.entries (trimSpace hash) = some e → e.token = trimSpace token) :
  (r.register hash token [runID]).releaseRuns [runID] = r
  := by
  obtain ⟨entries, runHash⟩ := r
  have hrun' : get runHash runID = none := hrun
  rw [TokenRegistry.register]
  by_cases hnone : trimSpace hash = "" ∨ trimSpace token = "" ∨ [runID] = []
  · simp only [if_pos hnone, TokenRegistry.releaseRuns, List.foldl_cons, List.foldl_nil,
      TokenRegistry.releaseRun, hashOf_of_none hrun, if_true]
  · have hhash : trimSpace hash ≠ "" := fun heq => hnone (Or.inl heq)
    simp only [if_neg hnone]
    simp only [List.foldl_cons, List.foldl_nil, TokenRegistry.addRun, hzero,
      Bool.false_eq_true, if_false, hashOf, hrun', Option.getD_none, ne_eq, not_true_eq_false,
      false_and, get_set_self, TokenRegistry.releaseRuns, TokenRegistry.releaseRun,
      Option.getD_some, hhash, set_set, erase_set_of_get hrun']
    cases he : get entries (trimSpace hash) with
    | none =>
      have hnil : (([] : List RunID).insert runID).filter (· ≠ runID) = [] := by simp
      simp only [Option.getD_none, hnil, if_true, erase_set_of_get he]
    | some e =>
      have hmem : runID ∉ e.runs := h.not_mem_of_none hrun he
      have hfilter : (e.runs.insert runID).filter (· ≠ runID) = e.runs := by
        rw [List.insert_of_not_mem hmem, List.filter_cons_of_neg (by simp)]
        apply List.filter_eq_self.mpr
        intro run hin
        simpa using fun heq : run = runID => hmem (heq ▸ hin)
      have hentry : { e with token := trimSpace token } = e := by
        rw [← hsame e he]
      simp only [Option.getD_some, hfilter, if_neg (h.needed he), hentry,
        set_of_get he]

end TokenRegistry

/-! ### The registry next to the store -/

/-- The store, and the tokens that are in memory. -/
structure TokenState where
  store : DB
  tokens : TokenRegistry

/-- A request to restart a run with a token of its own, once it was checked. -/
structure TokenRestart where
  hash : String
  token : String
  ids : Nat → JobID
  arg : RestartRunParams

/-- The request is let through by the store, or not. -/
def TokenRestart.outcome (req : TokenRestart) (db : DB) : Except StoreError (Run × DB) :=
  (restartRun req.ids req.arg).transaction engine db

/-- The token is registered before the store decides, and the run is released if it refuses. -/
def restartRunHandler (req : TokenRestart) (s : TokenState) : Except StoreError Run × TokenState :=
  let registered :=
    if req.hash ≠ "" then s.tokens.register req.hash req.token [req.arg.runID] else s.tokens
  match req.outcome s.store with
  | .ok (run, db) => (.ok run, ⟨db, registered⟩)
  | .error e =>
    (.error e, ⟨s.store,
      if req.hash ≠ "" then registered.releaseRuns [req.arg.runID] else registered⟩)

def listRunsByWave (db : DB) (waveID : WaveID) : List RunID :=
  (db.runs.rows.filter (·.waveID = waveID)).map (·.id)

/-- The runs a wave releases. Nothing is released when they cannot be listed. -/
def releasedByWave (db : DB) (waveID : WaveID) (listed : Bool) : List RunID :=
  if waveID.isZero ∨ listed = false then [] else listRunsByWave db waveID

/-- What happens to the store and the tokens. -/
inductive TokenEvent where
  | register (hash token : String) (runIDs : List RunID)
  | releaseRuns (runIDs : List RunID)
  | releaseWave (waveID : WaveID) (listed : Bool)
  | restart (req : TokenRestart)
  | store (op : Operation)

namespace TokenState

def step : TokenEvent → TokenState → Option TokenState
  | .register hash token runIDs, s => some { s with tokens := s.tokens.register hash token runIDs }
  | .releaseRuns runIDs, s => some { s with tokens := s.tokens.releaseRuns runIDs }
  | .releaseWave waveID listed, s =>
    some { s with tokens := s.tokens.releaseRuns (releasedByWave s.store waveID listed) }
  | .restart req, s => some (restartRunHandler req s).2
  | .store op, s => (op.step s.store).map fun store => { s with store }

/-- The server starts without tokens. -/
def machine : Machine TokenState TokenEvent where
  init s := s.tokens = ⟨[], []⟩
  step := step

/-- What an event means for the token of a run: that it stays as it is, or what it is from now
on. A restart that the store refuses means nothing. -/
def registration (s : TokenState) (run : RunID) : TokenEvent → Option (Option String)
  | .register hash token runIDs =>
    if TokenRegistry.registers hash token = true ∧ run ∈ runIDs ∧ run.isZero = false
    then some (some (trimSpace hash)) else none
  | .releaseRuns runIDs => if run ∈ runIDs then some none else none
  | .releaseWave waveID listed =>
    if run ∈ releasedByWave s.store waveID listed then some none else none
  | .restart req =>
    match req.outcome s.store with
    | .error _ => none
    | .ok _ =>
      if req.hash ≠ "" ∧ TokenRegistry.registers req.hash req.token = true
        ∧ run = req.arg.runID ∧ run.isZero = false
      then some (some (trimSpace req.hash)) else none
  | .store _ => none

/-- The hash under which a run was registered and not released since. -/
def registered : List (TokenState × TokenEvent) → RunID → Option String
  | [], _ => none
  | (s, e) :: past, run => (s.registration run e).getD (registered past run)

/-- What is asked of requests: registrations name a run; and a restart that the store refuses is for
a run without a token, with a hash that no other token has. -/
def unrivalled (s : TokenState) : TokenEvent → Bool
  | .register _ _ runIDs => TokenRegistry.namesRun runIDs
  | .restart req =>
    req.hash = "" || (!req.arg.runID.isZero &&
      match req.outcome s.store with
      | .ok _ => true
      | .error _ =>
        get s.tokens.runHash req.arg.runID = none
          && (get s.tokens.entries (trimSpace req.hash)).all
            fun e => e.token = trimSpace req.token)
  | _ => true

/-- The registry is sound, and the runs in it are those that were registered and not released. -/
structure Follows (past : List (TokenState × TokenEvent)) (s : TokenState) : Prop where
  sound : s.tokens.Sound
  runs : ∀ run, get s.tokens.runHash run = registered past run

theorem restart_refused
    {s : TokenState} (hsound : s.tokens.Sound) {req : TokenRestart}
    (hallowed : s.unrivalled (.restart req) = true) {e : StoreError}
    (hrefused : req.outcome s.store = .error e) :
  (restartRunHandler req s).2 = s
  := by
  rw [restartRunHandler, hrefused]
  by_cases hhash : req.hash = ""
  · simp [hhash]
  · simp only [unrivalled, hrefused, hhash, decide_false, Bool.false_or, Bool.and_eq_true,
      Bool.not_eq_true', decide_eq_true_eq, Option.all_eq_true] at hallowed
    obtain ⟨hzero, hrun, hsame⟩ := hallowed
    simp only [ne_eq, hhash, not_false_eq_true, if_true]
    rw [hsound.releaseRuns_register hzero hrun hsame]

/-- Every event keeps the registry in step with the history. -/
theorem Follows.step
    {past : List (TokenState × TokenEvent)} {s s' : TokenState} {e : TokenEvent}
    (h : Follows past s) (hallowed : s.unrivalled e = true) (hstep : step e s = some s') :
  Follows ((s, e) :: past) s'
  := by
  cases e with
  | register hash token runIDs =>
    cases hstep
    obtain ⟨hsound, hruns⟩ := h.sound.register hash token hallowed
    refine ⟨hsound, fun run => ?_⟩
    rw [hruns run, registered, registration, h.runs run]
    split <;> rfl
  | releaseRuns runIDs =>
    cases hstep
    obtain ⟨hsound, hruns⟩ := h.sound.releaseRuns runIDs
    refine ⟨hsound, fun run => ?_⟩
    rw [hruns run, registered, registration, h.runs run]
    split <;> rfl
  | releaseWave waveID listed =>
    cases hstep
    obtain ⟨hsound, hruns⟩ := h.sound.releaseRuns (releasedByWave s.store waveID listed)
    refine ⟨hsound, fun run => ?_⟩
    rw [hruns run, registered, registration, h.runs run]
    split <;> rfl
  | restart req =>
    cases hstep
    cases houtcome : req.outcome s.store with
    | error e =>
      rw [restart_refused h.sound hallowed houtcome]
      refine ⟨h.sound, fun run => ?_⟩
      rw [registered, registration, houtcome, h.runs run]
      rfl
    | ok result =>
      obtain ⟨run₀, db⟩ := result
      by_cases hhash : req.hash = ""
      · rw [restartRunHandler, houtcome]
        simp only [hhash, ne_eq, not_true_eq_false, if_false]
        refine ⟨h.sound, fun run => ?_⟩
        rw [registered, registration, houtcome, h.runs run]
        simp [hhash]
      · have hnames : TokenRegistry.namesRun [req.arg.runID] = true := by
          simp only [unrivalled, hhash, decide_false, Bool.false_or, Bool.and_eq_true]
            at hallowed
          simp only [TokenRegistry.namesRun, List.any_cons, hallowed.1, Bool.true_or,
            Bool.or_true]
        obtain ⟨hsound, hruns⟩ := h.sound.register req.hash req.token hnames
        rw [restartRunHandler, houtcome]
        simp only [ne_eq, hhash, not_false_eq_true, if_true]
        refine ⟨hsound, fun run => ?_⟩
        rw [hruns run, registered, registration, houtcome, h.runs run]
        simp only [List.mem_singleton, ne_eq, hhash, not_false_eq_true, true_and]
        split <;> rfl
  | store op =>
    obtain ⟨db, -, rfl⟩ := Option.map_eq_some_iff.mp hstep
    exact ⟨h.sound, h.runs⟩

/-- The registry follows the history. -/
theorem follows_of_execution
    {past : List (TokenState × TokenEvent)} {s : TokenState} (h : machine.Execution past s)
    (hallowed : ∀ x ∈ past, x.1.unrivalled x.2 = true) :
  Follows past s
  := by
  induction h with
  | start h =>
    rw [show machine.init = fun s => s.tokens = ⟨[], []⟩ from rfl] at h
    constructor
    · rw [h]
      constructor
      · constructor <;> intro _ _ hget <;> cases hget
      · intro _ _ hget
        cases hget
    · intro run
      rw [h]
      rfl
  | step _ hs ih =>
    apply (ih (fun x hx => hallowed x (List.mem_cons_of_mem _ hx))).step _ hs
    exact hallowed _ List.mem_cons_self

/-- In every sequence of registrations, releases and restarts of which every registration names a
run and every refused restart is for a run without a token and with a hash of its own: the two maps
are inverse to each other, no token is kept without a run that needs it, a token is known exactly
when a run was registered with its hash and not released since, and such a refused restart changes
nothing. -/
theorem tokens_follow_runs
    {past : List (TokenState × TokenEvent)} {s : TokenState} (h : machine.Execution past s)
    (hallowed : ∀ x ∈ past, x.1.unrivalled x.2 = true) :
  (∀ run hash, (∃ e, get s.tokens.entries hash = some e ∧ run ∈ e.runs)
      ↔ get s.tokens.runHash run = some hash)
    ∧ (∀ hash e, get s.tokens.entries hash = some e → e.runs ≠ [])
    ∧ (∀ hash, (s.tokens.token hash).isSome ↔ ∃ run, registered past run = some (trimSpace hash))
    ∧ ∀ req e, s.unrivalled (.restart req) = true → req.outcome s.store = .error e →
        (restartRunHandler req s).2 = s
  := by
  have hfollows := follows_of_execution h hallowed
  have hsound := hfollows.sound
  refine ⟨?_, ?_, ?_, ?_⟩
  · intro run hash
    constructor
    · rintro ⟨e, he, hmem⟩
      exact (hsound.mem_runs he run).mp hmem
    · intro hrun
      obtain ⟨e, he⟩ := hsound.entry hrun
      exact ⟨e, he, (hsound.mem_runs he run).mpr hrun⟩
  · intro hash e he
    exact hsound.needed he
  · intro hash
    rw [hsound.token_isSome]
    simp only [hfollows.runs]
  · intro req e hreq hrefused
    exact restart_refused hsound hreq hrefused

end TokenState

namespace Sample

/-- A run with a token of its own. -/
def tokenEvents : List TokenEvent :=
  [.store create, .register " h " "t" [⟨"r"⟩]]

/-- Restarting the run, which still runs, with its token. -/
def tokenRestart : TokenRestart :=
  ⟨"h", "t", fun _ => ⟨""⟩, ⟨false, 0, ⟨"r"⟩, 1, none, plans⟩⟩

/-- Restarting a run that does not exist, with another token. -/
def strangeRestart : TokenRestart :=
  ⟨"h'", "t'", fun _ => ⟨""⟩, ⟨false, 0, ⟨"r'"⟩, 1, none, plans⟩⟩

def tokenStart : TokenState :=
  ⟨store, ⟨[], []⟩⟩

end Sample

namespace TokenState

theorem tokens_follow_runs_sample :
  ∃ (past : List (TokenState × TokenEvent)) (s : TokenState), machine.Execution past s
    ∧ past.length = 3 ∧ (∃ run, registered past run = some "h") ∧ (s.tokens.token "h").isSome
  := by
  have hrun : (((machine.restrict unrivalled).follow Sample.tokenStart
      (Sample.tokenEvents ++ [.restart Sample.strangeRestart])).map
        fun s => (s.tokens.token "h").isSome) = some true := by decide +kernel
  obtain ⟨s, hfollow, htoken⟩ := Option.map_eq_some_iff.mp hrun
  have hinit : (machine.restrict unrivalled).init Sample.tokenStart := rfl
  obtain ⟨past, hexec, hlabels⟩ := Machine.Execution.of_follow hinit hfollow
  obtain ⟨hexec, hallowed⟩ := hexec.of_restrict
  have hlength : past.length = 3 := by
    have hcongr := congrArg List.length hlabels
    simpa [Sample.tokenEvents] using hcongr
  have hknown := (tokens_follow_runs hexec hallowed).2.2.1 "h"
  exact ⟨past, s, hexec, hlength, hknown.mp htoken, htoken⟩

/-- A run is executing with its token. A request to restart it, which the store refuses, makes the
token unavailable to it. And a token that is registered for no run is kept. -/
theorem refused_restart_drops_token :
  (∃ (past : List (TokenState × TokenEvent)) (s s' : TokenState) (e : StoreError),
      machine.Execution past s ∧ registered past ⟨"r"⟩ = some "h" ∧ (s.tokens.token "h").isSome
        ∧ Sample.tokenRestart.outcome s.store = .error e
        ∧ machine.step (.restart Sample.tokenRestart) s = some s' ∧ s'.tokens.token "h" = none)
    ∧ TokenRegistry.register ⟨[], []⟩ "h" "t" [⟨""⟩] = ⟨[("h", ⟨"t", []⟩)], []⟩
  := by
  refine ⟨?_, by decide⟩
  have hrun : (((machine.restrict unrivalled).follow Sample.tokenStart Sample.tokenEvents).map
      fun s => (s.tokens.token "h").isSome
        && get s.tokens.runHash ⟨"r"⟩ = some "h"
        && (Sample.tokenRestart.outcome s.store).toOption.isNone
        && (restartRunHandler Sample.tokenRestart s).2.tokens.token "h" = none) = some true := by
    decide +kernel
  obtain ⟨s, hfollow, hs⟩ := Option.map_eq_some_iff.mp hrun
  have hinit : (machine.restrict unrivalled).init Sample.tokenStart := rfl
  obtain ⟨past, hexec, -⟩ := Machine.Execution.of_follow hinit hfollow
  obtain ⟨hexec, hallowed⟩ := hexec.of_restrict
  simp only [Bool.and_eq_true, decide_eq_true_eq] at hs
  obtain ⟨⟨⟨htoken, hhash⟩, hrefused⟩, hlost⟩ := hs
  cases houtcome : Sample.tokenRestart.outcome s.store with
  | ok result =>
    rw [houtcome] at hrefused
    cases hrefused
  | error e =>
    refine ⟨past, s, _, e, hexec, ?_, htoken, houtcome, rfl, hlost⟩
    rw [← (follows_of_execution hexec hallowed).runs, hhash]

end TokenState

end Ploy
