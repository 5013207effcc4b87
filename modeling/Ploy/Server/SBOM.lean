import Ploy.Domain.Types

/-!
# The difference of two package lists

The packages of a run before and after it are compared by package. Of the versions that a package
lost and gained, the last of each are shown as one change, and the others one by one. The rows are
an edit script from the first list to the second.
-/

namespace Ploy

namespace SBOM

structure RunSBOMPackage where
  package : String
  version : String
  deriving DecidableEq, Repr

inductive SBOMChange where
  | removed | changed | added
  deriving DecidableEq, Repr

/-- A row of the difference. An empty version stands for none. -/
structure RunSBOMDiffPackage where
  package : String
  versionPre : String
  versionPost : String
  change : SBOMChange
  deriving DecidableEq, Repr

/-- The packages with their versions, without those that have a blank name or version. -/
def sbomVersionsByPackage (packages : List RunSBOMPackage) : List (String × String) :=
  packages.filterMap fun p =>
    if trimSpace p.package = "" ∨ trimSpace p.version = "" then none
    else some (trimSpace p.package, trimSpace p.version)

def versionsOf (set : List (String × String)) (pkg : String) : List String :=
  (set.filter (·.1 = pkg)).map Prod.snd

def sortedSetValues (values : List String) : List String :=
  values.dedup.insertionSort (· ≤ ·)

def versionsAbsentFrom (sortedVersions other : List String) : List String :=
  sortedVersions.filter (· ∉ other)

/-- The versions of a package that the first list has and the second has not. -/
def lost (pre post : List (String × String)) (pkg : String) : List String :=
  versionsAbsentFrom (sortedSetValues (versionsOf pre pkg)) (versionsOf post pkg)

def rowsOf (pkg : String) (preOnly postOnly : List String) : List RunSBOMDiffPackage :=
  let removed := fun version => ⟨pkg, version, "", .removed⟩
  let added := fun version => ⟨pkg, "", version, .added⟩
  match preOnly.getLast?, postOnly.getLast? with
  | some pairedPre, some pairedPost => preOnly.dropLast.map removed
      ++ ⟨pkg, pairedPre, pairedPost, .changed⟩ :: postOnly.dropLast.map added
  | _, _ => preOnly.map removed ++ postOnly.map added

def packageSet (pre post : List (String × String)) : List String :=
  sortedSetValues ((pre ++ post).map Prod.fst)

def rows (pre post : List (String × String)) : List RunSBOMDiffPackage :=
  (packageSet pre post).flatMap fun pkg => rowsOf pkg (lost pre post pkg) (lost post pre pkg)

def diffSBOMPackages (pre post : List RunSBOMPackage) : List RunSBOMDiffPackage :=
  rows (sbomVersionsByPackage pre) (sbomVersionsByPackage post)

/-- The pairs of a package and a version that a list names: without the blanks around them, and none
with a blank part. -/
def pairs (packages : List RunSBOMPackage) : Finset (String × String) :=
  (packages.toFinset.image fun p => (trimSpace p.package, trimSpace p.version)).filter
    fun pair => pair.1 ≠ "" ∧ pair.2 ≠ ""

/-- The code's reading of a list has exactly the pairs that the list names. -/
theorem mem_sbomVersionsByPackage {packages : List RunSBOMPackage} {x : String × String} :
  x ∈ sbomVersionsByPackage packages ↔ x ∈ pairs packages
  := by
  simp only [sbomVersionsByPackage, pairs, List.mem_filterMap, Option.ite_none_left_eq_some, not_or,
    Option.some.injEq, Finset.mem_filter, Finset.mem_image, List.mem_toFinset]
  constructor
  · rintro ⟨p, hp, hblank, rfl⟩
    exact ⟨⟨p, hp, rfl⟩, hblank⟩
  · rintro ⟨⟨p, hp, rfl⟩, hblank⟩
    exact ⟨p, hp, hblank, rfl⟩

/-! ### Rows as edits -/

namespace RunSBOMDiffPackage

def removes (row : RunSBOMDiffPackage) : List (String × String) :=
  if row.versionPre = "" then [] else [(row.package, row.versionPre)]

def adds (row : RunSBOMDiffPackage) : List (String × String) :=
  if row.versionPost = "" then [] else [(row.package, row.versionPost)]

def apply (set : Finset (String × String)) (row : RunSBOMDiffPackage) : Finset (String × String) :=
  (set \ row.removes.toFinset) ∪ row.adds.toFinset

/-- The row of the difference the other way round. -/
def swap (row : RunSBOMDiffPackage) : RunSBOMDiffPackage :=
  ⟨row.package, row.versionPost, row.versionPre,
    match row.change with
    | .removed => .added
    | .changed => .changed
    | .added => .removed⟩

end RunSBOMDiffPackage

open RunSBOMDiffPackage

theorem mem_foldl_apply {rows : List RunSBOMDiffPackage} {x : String × String}
    (h : x ∈ rows.flatMap adds → x ∉ rows.flatMap removes) (set : Finset (String × String)) :
  x ∈ rows.foldl apply set ↔ (x ∈ set ∧ x ∉ rows.flatMap removes) ∨ x ∈ rows.flatMap adds
  := by
  induction rows generalizing set with
  | nil => simp
  | cons row rows ih =>
    simp only [List.flatMap_cons, List.mem_append, not_or] at h ⊢
    rw [List.foldl_cons, ih (fun hx => (h (Or.inr hx)).2), apply]
    simp only [Finset.mem_union, Finset.mem_sdiff, List.mem_toFinset]
    tauto

section Rows

variable (pkg : String) {preOnly postOnly : List String}

theorem flatMap_version {versions : List String} (h : "" ∉ versions) :
  (versions.flatMap fun version => if version = "" then [] else [(pkg, version)])
    = versions.map (pkg, ·)
  := by
  induction versions with
  | nil => rfl
  | cons version versions ih =>
    rw [List.mem_cons, not_or] at h
    rw [List.flatMap_cons, ih h.2, if_neg (Ne.symm h.1)]
    rfl

theorem rowsOf_of_nil (h : preOnly = [] ∨ postOnly = []) :
  rowsOf pkg preOnly postOnly = preOnly.map (⟨pkg, ·, "", .removed⟩)
    ++ postOnly.map (⟨pkg, "", ·, .added⟩)
  := by
  rcases h with rfl | rfl
  · rfl
  · rw [rowsOf]
    split
    · contradiction
    · rfl

theorem rowsOf_concat (pre post : List String) (p q : String) :
  rowsOf pkg (pre ++ [p]) (post ++ [q]) = pre.map (⟨pkg, ·, "", .removed⟩)
    ++ ⟨pkg, p, q, .changed⟩ :: post.map (⟨pkg, "", ·, .added⟩)
  := by
  simp [rowsOf]

theorem lost_and_gained (preOnly postOnly : List String) :
  (preOnly = [] ∨ postOnly = []) ∨ ∃ pre p post q, preOnly = pre ++ [p] ∧ postOnly = post ++ [q]
  := by
  rcases List.eq_nil_or_concat preOnly with hpre | ⟨pre, p, hpre⟩
  · exact Or.inl (Or.inl hpre)
  · rcases List.eq_nil_or_concat postOnly with hpost | ⟨post, q, hpost⟩
    · exact Or.inl (Or.inr hpost)
    · exact Or.inr ⟨pre, p, post, q, by simpa using hpre, by simpa using hpost⟩

theorem removes_rowsOf (hpre : "" ∉ preOnly) :
  (rowsOf pkg preOnly postOnly).flatMap removes = preOnly.map (pkg, ·)
  := by
  rcases lost_and_gained preOnly postOnly with h | ⟨pre, p, post, q, rfl, rfl⟩
  · rw [rowsOf_of_nil pkg h]
    simp [List.flatMap_map, removes, flatMap_version pkg hpre]
  · rw [List.mem_append, not_or, List.mem_singleton] at hpre
    rw [rowsOf_concat]
    simp [List.flatMap_map, removes, flatMap_version pkg hpre.1, Ne.symm hpre.2]

/-- The rows of a package add its new versions. -/
theorem adds_rowsOf (hpost : "" ∉ postOnly) :
  ((rowsOf pkg preOnly postOnly).flatMap adds).Perm (postOnly.map (pkg, ·))
  := by
  have hnone : ∀ l : List String, (l.flatMap fun _ => ([] : List (String × String))) = [] := by simp
  rcases lost_and_gained preOnly postOnly with h | ⟨pre, p, post, q, rfl, rfl⟩
  · rw [rowsOf_of_nil pkg h]
    simp [List.flatMap_map, adds, flatMap_version pkg hpost, hnone]
  · rw [List.mem_append, not_or, List.mem_singleton] at hpost
    rw [rowsOf_concat]
    simp only [List.flatMap_append, List.flatMap_cons, List.flatMap_map, adds, if_true,
      flatMap_version pkg hpost.1, if_neg (Ne.symm hpost.2), List.map_append, List.map_singleton]
    simpa [hnone] using (List.perm_append_singleton (pkg, q) (post.map (pkg, ·))).symm

theorem swap_rowsOf (preOnly postOnly : List String) :
  (rowsOf pkg postOnly preOnly).Perm ((rowsOf pkg preOnly postOnly).map swap)
  := by
  rcases lost_and_gained preOnly postOnly with h | ⟨pre, p, post, q, rfl, rfl⟩
  · rw [rowsOf_of_nil pkg h, rowsOf_of_nil pkg h.symm, List.map_append, List.map_map, List.map_map]
    exact List.perm_append_comm
  · rw [rowsOf_concat, rowsOf_concat, List.map_append, List.map_cons, List.map_map, List.map_map]
    exact List.perm_middle.trans ((List.perm_append_comm.cons _).trans List.perm_middle.symm)

theorem changed_rowsOf (preOnly postOnly : List String) :
  ((rowsOf pkg preOnly postOnly).filter (·.change = .changed)).map RunSBOMDiffPackage.package
    = if preOnly ≠ [] ∧ postOnly ≠ [] then [pkg] else []
  := by
  rcases lost_and_gained preOnly postOnly with h | ⟨pre, p, post, q, rfl, rfl⟩
  · rw [rowsOf_of_nil pkg h, if_neg (by tauto)]
    simp [List.filter_append, List.filter_map, Function.comp_def]
  · rw [rowsOf_concat]
    simp [List.filter_append, List.filter_map, Function.comp_def]

end Rows

/-! ### The whole difference -/

section Difference

variable {pre post : List (String × String)}

theorem mem_sortedSetValues {values : List String} {v : String} :
  v ∈ sortedSetValues values ↔ v ∈ values
  := by
  rw [sortedSetValues, (List.perm_insertionSort _ _).mem_iff, List.mem_dedup]

theorem nodup_sortedSetValues (values : List String) :
  (sortedSetValues values).Nodup
  := (List.perm_insertionSort _ _).nodup_iff.mpr (List.nodup_dedup values)

theorem mem_lost {pkg v : String} :
  v ∈ lost pre post pkg ↔ (pkg, v) ∈ pre ∧ (pkg, v) ∉ post
  := by
  simp [lost, versionsAbsentFrom, mem_sortedSetValues, versionsOf]

theorem nodup_lost (pre post : List (String × String)) (pkg : String) :
  (lost pre post pkg).Nodup
  := (nodup_sortedSetValues _).filter _

theorem nodup_flatMap_lost (packages : List String) (hnodup : packages.Nodup) :
  (packages.flatMap fun pkg => (lost pre post pkg).map (pkg, ·)).Nodup
  := by
  rw [List.nodup_flatMap]
  refine ⟨fun pkg _ => (nodup_lost pre post pkg).map (Prod.mk_right_injective pkg), ?_⟩
  refine hnodup.imp fun {a b} hne x hx hx' => hne ?_
  obtain ⟨_, -, rfl⟩ := List.mem_map.mp hx
  obtain ⟨_, -, heq⟩ := List.mem_map.mp hx'
  exact (congrArg Prod.fst heq).symm

theorem mem_flatMap_lost {other : List (String × String)} (hsub : pre ⊆ other)
    {x : String × String} :
  x ∈ ((sortedSetValues (other.map Prod.fst)).flatMap fun pkg => (lost pre post pkg).map (pkg, ·))
    ↔ x ∈ pre ∧ x ∉ post
  := by
  obtain ⟨pkg, v⟩ := x
  simp only [List.mem_flatMap, List.mem_map, Prod.mk.injEq, mem_sortedSetValues]
  constructor
  · rintro ⟨_, -, _, hv, rfl, rfl⟩
    exact mem_lost.mp hv
  · intro h
    exact ⟨pkg, ⟨_, hsub h.1, rfl⟩, v, mem_lost.mpr h, rfl, rfl⟩

theorem packageSet_perm (pre post : List (String × String)) :
  (packageSet post pre).Perm (packageSet pre post)
  := by
  apply (List.perm_insertionSort _ _).trans
  apply List.Perm.trans _ (List.perm_insertionSort _ _).symm
  exact (List.perm_append_comm.map Prod.fst).dedup

theorem removes_rows (h : ∀ pkg, "" ∉ lost pre post pkg) :
  (rows pre post).flatMap removes
    = (packageSet pre post).flatMap fun pkg => (lost pre post pkg).map (pkg, ·)
  := by
  simp only [rows, List.flatMap_assoc, removes_rowsOf _ (h _)]

theorem adds_rows (h : ∀ pkg, "" ∉ lost post pre pkg) :
  ((rows pre post).flatMap adds).Perm
    ((packageSet pre post).flatMap fun pkg => (lost post pre pkg).map (pkg, ·))
  := by
  simp only [rows, List.flatMap_assoc]
  exact List.Perm.flatMap_left _ fun pkg _ => adds_rowsOf pkg (h pkg)

theorem changed_rows (pre post : List (String × String)) :
  ((rows pre post).filter (·.change = .changed)).map RunSBOMDiffPackage.package
    = (packageSet pre post).filter fun pkg => lost pre post pkg ≠ [] ∧ lost post pre pkg ≠ []
  := by
  simp only [rows, List.filter_flatMap, List.map_flatMap, changed_rowsOf]
  induction packageSet pre post with
  | nil => rfl
  | cons pkg packages ih =>
    rw [List.flatMap_cons, List.filter_cons, ih]
    split <;> simp_all

theorem swap_rows (pre post : List (String × String)) :
  (rows post pre).Perm ((rows pre post).map swap)
  := by
  simp only [rows, List.map_flatMap]
  apply ((packageSet_perm _ _).flatMap_right _).trans
  exact List.Perm.flatMap_left _ fun pkg _ => swap_rowsOf pkg _ _

end Difference

/-- No version that was lost is blank. -/
theorem empty_notMem_lost (pre : List RunSBOMPackage) (post : List (String × String))
    (pkg : String) :
  "" ∉ lost (sbomVersionsByPackage pre) post pkg
  := by
  intro h
  have hpair := mem_sbomVersionsByPackage.mp (mem_lost.mp h).1
  exact (Finset.mem_filter.mp hpair).2.2 rfl

/-- The rows are an edit script from one list of packages to the other, read without blanks and
repetitions. What was lost is removed once and what was gained is added once, and nothing else. A
package has one changed row if it lost and gained versions, and none otherwise. The difference the
other way round is the same script with the two sides exchanged. -/
theorem diffSBOMPackages_edit_script (pre post : List RunSBOMPackage) :
  let script := diffSBOMPackages pre post
  let old := pairs pre
  let new := pairs post
  let changed := (script.filter (·.change = .changed)).map RunSBOMDiffPackage.package
  script.foldl apply old = new
    ∧ (script.flatMap removes).Nodup ∧ (script.flatMap removes).toFinset = old \ new
    ∧ (script.flatMap adds).Nodup ∧ (script.flatMap adds).toFinset = new \ old
    ∧ changed.Nodup
    ∧ (∀ pkg, pkg ∈ changed ↔ (∃ v, (pkg, v) ∈ old \ new) ∧ ∃ v, (pkg, v) ∈ new \ old)
    ∧ (diffSBOMPackages post pre).Perm (script.map swap)
  := by
  intro script old new changed
  have hremove : script.flatMap removes = _ := removes_rows (empty_notMem_lost pre _)
  have hadd : (script.flatMap adds).Perm _ := adds_rows (empty_notMem_lost post _)
  have hremoves : ∀ x, x ∈ script.flatMap removes ↔ x ∈ old ∧ x ∉ new := by
    intro x
    rw [hremove, packageSet, mem_flatMap_lost (List.subset_append_left _ _),
      mem_sbomVersionsByPackage, mem_sbomVersionsByPackage]
  have hadds : ∀ x, x ∈ script.flatMap adds ↔ x ∈ new ∧ x ∉ old := by
    intro x
    rw [hadd.mem_iff, packageSet, mem_flatMap_lost (List.subset_append_right _ _),
      mem_sbomVersionsByPackage, mem_sbomVersionsByPackage]
  have hchanged : changed = _ := changed_rows _ _
  refine ⟨?_, ?_, ?_, ?_, ?_, ?_, ?_, swap_rows _ _⟩
  · ext x
    rw [mem_foldl_apply, hremoves, hadds]
    · tauto
    · rw [hremoves, hadds]
      tauto
  · rw [hremove]
    exact nodup_flatMap_lost _ (nodup_sortedSetValues _)
  · ext x
    rw [List.mem_toFinset, hremoves, Finset.mem_sdiff]
  · rw [hadd.nodup_iff]
    exact nodup_flatMap_lost _ (nodup_sortedSetValues _)
  · ext x
    rw [List.mem_toFinset, hadds, Finset.mem_sdiff]
  · rw [hchanged]
    exact (nodup_sortedSetValues _).filter _
  · intro pkg
    simp only [hchanged, List.mem_filter, decide_eq_true_eq, ne_eq, List.eq_nil_iff_forall_not_mem,
      not_forall, not_not, mem_lost, mem_sbomVersionsByPackage, packageSet, mem_sortedSetValues,
      old, new, Finset.mem_sdiff, and_iff_right_iff_imp]
    rintro ⟨⟨v, hv, -⟩, -⟩
    have hlisted := mem_sbomVersionsByPackage.mpr hv
    exact List.mem_map.mpr ⟨_, List.mem_append_left _ hlisted, rfl⟩

/-- One package loses two versions and gains one, and another is new. -/
theorem diffSBOMPackages_edit_script_sample :
  let pre : List RunSBOMPackage := [⟨"a", "1"⟩, ⟨"a", " 2"⟩, ⟨" ", "9"⟩, ⟨"c", "1"⟩]
  let post : List RunSBOMPackage := [⟨"a ", "3"⟩, ⟨"b", "1"⟩, ⟨"c", "1"⟩, ⟨"c", "1"⟩]
  pairs pre = {("a", "1"), ("a", "2"), ("c", "1")}
    ∧ diffSBOMPackages pre post
      = [⟨"a", "1", "", .removed⟩, ⟨"a", "2", "3", .changed⟩, ⟨"b", "", "1", .added⟩]
    ∧ (diffSBOMPackages pre post).foldl apply (pairs pre) = pairs post
  := ⟨by decide, by decide, (diffSBOMPackages_edit_script _ _).1⟩

end SBOM

end Ploy
