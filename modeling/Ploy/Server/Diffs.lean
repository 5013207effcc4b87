import Ploy.Store.JobChain

/-!
# The diffs of a run

Diffs are stored under the job that produced them. The effective diffs of a run are the latest one
of each job of the current attempt, in the order of the chain.
-/

namespace Ploy

/-- A stored diff, with its content. -/
structure DiffRow (π : Type) where
  id : Nat
  jobID : JobID
  patch : π
  deriving DecidableEq

/-- The stored diffs in the order of their creation, each under an identifier of its own, and an
identifier that is not used. -/
structure DiffTable (π : Type) where
  rows : List (DiffRow π)
  next : Nat
  fresh : ∀ row ∈ rows, row.id < next
  nodup : (rows.map DiffRow.id).Nodup

namespace DiffTable

variable {π : Type}

def empty : DiffTable π where
  rows := []
  next := 0
  fresh := by simp
  nodup := List.nodup_nil

def createDiff (t : DiffTable π) (jobID : JobID) (patch : π) : DiffTable π where
  rows := t.rows ++ [⟨t.next, jobID, patch⟩]
  next := t.next + 1
  fresh := by
    intro row hrow
    rcases List.mem_append.mp hrow with hrow | hrow
    · apply Nat.lt_succ_of_lt (t.fresh row hrow)
    · rw [List.mem_singleton.mp hrow]
      apply Nat.lt_succ_self
  nodup := by
    rw [List.map_append, List.nodup_append]
    refine ⟨t.nodup, List.nodup_singleton _, ?_⟩
    rintro id hid _ hnew rfl
    obtain ⟨row, hrow, rfl⟩ := List.mem_map.mp hid
    apply Nat.ne_of_lt (t.fresh row hrow) (List.mem_singleton.mp hnew)

def deleteDiff (t : DiffTable π) (id : Nat) : DiffTable π where
  rows := t.rows.filter (·.id ≠ id)
  next := t.next
  fresh row hrow := t.fresh row (List.mem_of_mem_filter hrow)
  nodup := t.nodup.sublist (List.filter_sublist.map _)

/-- The diff of a job that was created last. -/
def getLatestDiffByJob (t : DiffTable π) (jobID : JobID) : Option (DiffRow π) :=
  t.rows.reverse.find? (·.jobID = jobID)

theorem getLatestDiffByJob_createDiff (t : DiffTable π) (jobID : JobID) (patch : π) :
  (t.createDiff jobID patch).getLatestDiffByJob jobID = some ⟨t.next, jobID, patch⟩
  := by
  simp [getLatestDiffByJob, createDiff]

theorem getLatestDiffByJob_createDiff_of_ne
    (t : DiffTable π) {jobID other : JobID} (patch : π) (h : other ≠ jobID) :
  (t.createDiff jobID patch).getLatestDiffByJob other = t.getLatestDiffByJob other
  := by
  simp [getLatestDiffByJob, createDiff, h.symm]

theorem getLatestDiffByJob_some
    {t : DiffTable π} {jobID : JobID} {row : DiffRow π}
    (h : t.getLatestDiffByJob jobID = some row) :
  row ∈ t.rows ∧ row.jobID = jobID
  := by
  constructor
  · simpa using List.mem_of_find?_eq_some h
  · simpa using List.find?_some h

theorem eq_of_id
    {t : DiffTable π} {a b : DiffRow π} (ha : a ∈ t.rows) (hb : b ∈ t.rows) (h : a.id = b.id) :
  a = b
  := List.inj_on_of_nodup_map t.nodup ha hb h

end DiffTable

/-- The jobs in the order of their chains: the chains from the jobs that are the successor of none,
then the jobs on no such chain by their identifiers. -/
def deriveJobOrderByChain (jobs : List Job) : List Job :=
  let heads := (jobs.map Job.id).filter fun id => !(links Job.id Job.nextID jobs).any (·.2 = id)
  let out := walkChains Job.id Job.nextID jobs [] heads
  out ++ (jobs.filter (·.id ∉ out.map Job.id)).insertionSort (·.id.raw ≤ ·.id.raw)

/-- Jobs that form a chain are put in its order. -/
theorem deriveJobOrderByChain_linked
    {jobs chain : List Job} (hnodup : (jobs.map Job.id).Nodup)
    (hzero : ∀ j ∈ jobs, j.id.isZero = false) (hperm : chain.Perm jobs)
    (hlinked : Linked Job.id Job.nextID chain) :
  deriveJobOrderByChain jobs = chain
  := by
  have hclosed := closed_of_linked hzero hperm hlinked
  cases chain with
  | nil =>
    rw [List.nil_perm.mp hperm]
    rfl
  | cons j rest =>
    have hlength := hperm.length_eq
    rw [List.length_cons] at hlength
    have hwalk : walkChain Job.id Job.nextID jobs jobs.length [] j.id = j :: rest :=
      walkChain_linked hnodup hclosed hperm hlinked (by omega)
    have hall : jobs.filter (·.id ∉ (j :: rest).map Job.id) = [] := by
      apply List.filter_eq_nil_iff.mpr
      intro k hk
      rw [decide_eq_true_eq, not_not]
      apply (hperm.map Job.id).symm.subset (List.mem_map_of_mem hk)
    simp only [deriveJobOrderByChain, heads_linked hnodup hclosed hperm hlinked, walkChains,
      List.insertionSort_cons, List.insertionSort_nil, List.orderedInsert_nil, List.foldl_cons,
      List.foldl_nil, hwalk, hall, List.append_nil]

section Effective

variable {π : Type} (t : DiffTable π)

/-- The latest diff of each job, leaving out those that were listed before. -/
def collectDiffs (seen : List Nat) : List Job → List (DiffRow π)
  | [] => []
  | job :: rest =>
    match t.getLatestDiffByJob job.id with
    | none => collectDiffs seen rest
    | some row =>
      if row.id ∈ seen then collectDiffs seen rest
      else row :: collectDiffs (row.id :: seen) rest

/-- The diffs listed for a run whose jobs of the current attempt are given. -/
def listEffectiveRunDiffs (jobs : List Job) : List (DiffRow π) :=
  collectDiffs t [] (deriveJobOrderByChain jobs)

variable {t}

/-- The latest diff of each job is collected, job after job. -/
theorem collectDiffs_eq
    {seen : List Nat} {jobs : List Job} (hnodup : (jobs.map Job.id).Nodup)
    (hseen : ∀ row ∈ t.rows, row.id ∈ seen → row.jobID ∉ jobs.map Job.id) :
  collectDiffs t seen jobs = jobs.filterMap fun j => t.getLatestDiffByJob j.id
  := by
  induction jobs generalizing seen with
  | nil => rfl
  | cons job rest ih =>
    rw [List.map_cons, List.nodup_cons] at hnodup
    have hrest : ∀ row ∈ t.rows, row.id ∈ seen → row.jobID ∉ rest.map Job.id :=
      fun row hrow hid hmem => hseen row hrow hid (List.mem_cons_of_mem _ hmem)
    cases hlatest : t.getLatestDiffByJob job.id with
    | none =>
      simp only [collectDiffs, List.filterMap_cons, hlatest]
      apply ih hnodup.2 hrest
    | some row =>
      obtain ⟨hrow, hjob⟩ := DiffTable.getLatestDiffByJob_some hlatest
      have hnew : row.id ∉ seen := by
        intro hid
        apply hseen row hrow hid
        rw [hjob]
        exact List.mem_cons_self
      have hseen' : ∀ other ∈ t.rows, other.id ∈ row.id :: seen →
          other.jobID ∉ rest.map Job.id := by
        intro other hother hid
        rcases List.mem_cons.mp hid with hid | hid
        · rw [DiffTable.eq_of_id hother hrow hid, hjob]
          exact hnodup.1
        · apply hrest other hother hid
      simp only [collectDiffs, List.filterMap_cons, hlatest, if_neg hnew]
      rw [ih hnodup.2 hseen']

theorem listEffectiveRunDiffs_linked
    {jobs chain : List Job} (hnodup : (jobs.map Job.id).Nodup)
    (hzero : ∀ j ∈ jobs, j.id.isZero = false) (hperm : chain.Perm jobs)
    (hlinked : Linked Job.id Job.nextID chain) :
  listEffectiveRunDiffs t jobs = chain.filterMap fun j => t.getLatestDiffByJob j.id
  := by
  rw [listEffectiveRunDiffs, deriveJobOrderByChain_linked hnodup hzero hperm hlinked]
  apply collectDiffs_eq
  · exact (hperm.map Job.id).nodup_iff.mpr hnodup
  · intro row _ hid
    cases hid

end Effective

end Ploy
