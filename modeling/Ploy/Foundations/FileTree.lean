import Mathlib

/-!
# Directory trees and their archives

A directory's content is what is at each path below it. An archive is a list of entries;
unpacking creates what each entry describes, in their order. A listing is an archive as a walk
over a directory writes it: every path once, a directory before what is in it.
-/

/-- What is at a path below a directory. -/
inductive FileNode (γ : Type) where
  | dir
  | file (content : γ)
  | symlink (target : γ)
  deriving DecidableEq, Repr

/-- The content of a directory: what is at each path below it, a path being its names from the
outermost on. -/
def FileTree (κ γ : Type) : Type :=
  List κ → Option (FileNode γ)

namespace FileTree

variable {κ γ : Type} [DecidableEq κ]

/-- An empty directory. -/
def empty : FileTree κ γ :=
  fun _ => none

/-- The directory with a node at a path. -/
def set (t : FileTree κ γ) (p : List κ) (n : FileNode γ) : FileTree κ γ :=
  fun q => if q = p then some n else t q

/-- The part of a directory at the paths that are kept. -/
def keep (t : FileTree κ γ) (kept : List κ → Bool) : FileTree κ γ :=
  fun p => if kept p then t p else none

/-- The directories along `rest` below `above` made where they are missing; fails where one of
them is there and is no directory. -/
def mkdirAll (t : FileTree κ γ) (above : List κ) : List κ → Option (FileTree κ γ)
  | [] => some t
  | c :: rest =>
    match t (above ++ [c]) with
    | none => mkdirAll (t.set (above ++ [c]) .dir) (above ++ [c]) rest
    | some .dir => mkdirAll t (above ++ [c]) rest
    | some (.file _) => none
    | some (.symlink _) => none

/-- What one entry of an archive describes, created below a directory. A file is truncated if it
is there, a symbolic link must not be. -/
def extract (t : FileTree κ γ) (p : List κ) : FileNode γ → Option (FileTree κ γ)
  | .dir => t.mkdirAll [] p
  | .file content =>
    (t.mkdirAll [] p.dropLast).bind fun t =>
      match t p with
      | none => some (t.set p (.file content))
      | some (.file _) => some (t.set p (.file content))
      | some .dir => none
      | some (.symlink _) => none
  | .symlink target =>
    (t.mkdirAll [] p.dropLast).bind fun t =>
      match t p with
      | none => some (t.set p (.symlink target))
      | some _ => none

/-- Every directory on the way to a path below a directory. -/
def HasParents (t : FileTree κ γ) (p : List κ) : Prop :=
  ∀ q, q ≠ [] → q <+: p.dropLast → t q = some .dir

variable {t : FileTree κ γ}

theorem mkdirAll_of_there
    {above rest : List κ}
    (h : ∀ q, q ≠ [] → q <+: rest → t (above ++ q) = some .dir) :
  t.mkdirAll above rest = some t
  := by
  induction rest generalizing above with
  | nil => rfl
  | cons c rest ih =>
    have hc : t (above ++ [c]) = some .dir := by
      apply h [c] (by simp)
      simp
    have hrest : ∀ q, q ≠ [] → q <+: rest → t (above ++ [c] ++ q) = some .dir := by
      intro q _ hq
      rw [List.append_assoc]
      apply h ([c] ++ q) (by simp)
      simpa using hq
    rw [mkdirAll, hc]
    apply ih hrest

/-- Where only the last directory is missing, only that one is made. -/
theorem mkdirAll_last
    {above rest : List κ} {c : κ}
    (h : ∀ q, q ≠ [] → q <+: rest → t (above ++ q) = some .dir)
    (habsent : t (above ++ rest ++ [c]) = none) :
  t.mkdirAll above (rest ++ [c]) = some (t.set (above ++ rest ++ [c]) .dir)
  := by
  induction rest generalizing above with
  | nil =>
    rw [List.append_nil] at habsent ⊢
    rw [List.nil_append, mkdirAll, habsent]
    rfl
  | cons d rest ih =>
    have hd : t (above ++ [d]) = some .dir := by
      apply h [d] (by simp)
      simp
    have hrest : ∀ q, q ≠ [] → q <+: rest → t (above ++ [d] ++ q) = some .dir := by
      intro q _ hq
      rw [List.append_assoc]
      apply h ([d] ++ q) (by simp)
      simpa using hq
    rw [List.append_cons above d rest] at habsent ⊢
    rw [List.cons_append, mkdirAll, hd]
    apply ih hrest habsent

theorem extract_of_absent
    {p : List κ} (hp : p ≠ []) (hparents : t.HasParents p) (habsent : t p = none)
    (n : FileNode γ) :
  t.extract p n = some (t.set p n)
  := by
  have hthere : t.mkdirAll [] p.dropLast = some t := by
    apply mkdirAll_of_there
    intro q hq hbelow
    apply hparents q hq hbelow
  cases n with
  | dir =>
    obtain ⟨above, c, rfl⟩ := List.eq_nil_or_concat' p |>.resolve_left hp
    rw [HasParents, List.dropLast_concat] at hparents
    exact mkdirAll_last hparents habsent
  | file | symlink =>
    rw [extract, hthere, Option.bind_some, habsent]

/-- Entries unpacked one after another: what is there when the first one fails or all are done,
and whether all are. -/
def unpack (t : FileTree κ γ) : List (List κ × FileNode γ) → FileTree κ γ × Bool
  | [] => (t, true)
  | (p, n) :: rest =>
    match t.extract p n with
    | none => (t, false)
    | some t' => unpack t' rest

end FileTree

/-- The entries of a directory as a walk over it meets them: every path once, and a directory
before what is in it. -/
structure Listing (κ γ : Type) where
  entries : List (List κ × FileNode γ)
  ne_nil : ∀ e ∈ entries, e.1 ≠ []
  nodup : (entries.map (·.1)).Nodup
  parents : ∀ before p n after, entries = before ++ (p, n) :: after →
    ∀ q, q ≠ [] → q <+: p.dropLast → (q, FileNode.dir) ∈ before

namespace Listing

variable {κ γ : Type} [DecidableEq κ]

/-- Whether the directories of every entry are among those before it. -/
def parentsFirst [DecidableEq γ] (seen : List (List κ × FileNode γ)) :
    List (List κ × FileNode γ) → Bool
  | [] => true
  | e :: rest =>
    (e.1.dropLast.inits.all fun q => q = [] || (q, .dir) ∈ seen) && parentsFirst (seen ++ [e]) rest

variable {p : List κ} {n : FileNode γ}

theorem mem_of_parentsFirst
    [DecidableEq γ] {seen before after : List (List κ × FileNode γ)}
    (h : parentsFirst seen (before ++ (p, n) :: after) = true) {q : List κ} (hq : q ≠ [])
    (hbelow : q <+: p.dropLast) :
  (q, FileNode.dir) ∈ seen ++ before
  := by
  induction before generalizing seen with
  | nil =>
    rw [List.nil_append, parentsFirst, Bool.and_eq_true, List.all_eq_true] at h
    simpa [hq] using h.1 q ((List.mem_inits q _).mpr hbelow)
  | cons e before ih =>
    rw [List.cons_append, parentsFirst, Bool.and_eq_true] at h
    simpa using ih h.2

variable {entries : List (List κ × FileNode γ)}

theorem parents_of_parentsFirst
    [DecidableEq γ] (h : parentsFirst [] entries = true) :
  ∀ before p n after, entries = before ++ (p, n) :: after →
    ∀ q, q ≠ [] → q <+: p.dropLast → (q, FileNode.dir) ∈ before
  := by
  rintro before p n after rfl q hq hbelow
  exact mem_of_parentsFirst h hq hbelow

/-- The directory some entries describe. -/
def treeOf (entries : List (List κ × FileNode γ)) : FileTree κ γ :=
  fun p => (entries.find? fun e => e.1 = p).map (·.2)

/-- The directory that is listed. -/
def tree (l : Listing κ γ) : FileTree κ γ :=
  treeOf l.entries

theorem treeOf_of_mem
    (hnodup : (entries.map (·.1)).Nodup)
    (h : (p, n) ∈ entries) :
  treeOf entries p = some n
  := by
  induction entries with
  | nil => cases h
  | cons e entries ih =>
    rw [List.map_cons, List.nodup_cons] at hnodup
    rcases List.mem_cons.mp h with rfl | h
    · simp [treeOf]
    · have hne : e.1 ≠ p := by
        rintro rfl
        apply hnodup.1 (List.mem_map_of_mem (f := (·.1)) h)
      have hskip : treeOf (e :: entries) p = treeOf entries p := by
        simp [treeOf, hne]
      rw [hskip, ih hnodup.2 h]

theorem mem_of_treeOf
    (h : treeOf entries p = some n) :
  (p, n) ∈ entries
  := by
  obtain ⟨⟨q, m⟩, he, rfl⟩ := Option.map_eq_some_iff.mp h
  obtain rfl : q = p := by simpa using List.find?_some he
  apply List.mem_of_find?_eq_some he

variable {before after : List (List κ × FileNode γ)}

theorem treeOf_append_of_absent
    (h : p ∉ before.map (·.1)) :
  treeOf (before ++ after) p = treeOf after p
  := by
  have hnone : before.find? (fun e => e.1 = p) = none := by
    apply List.find?_eq_none.mpr
    intro e he hp
    apply h
    rw [← of_decide_eq_true hp]
    apply List.mem_map_of_mem (f := (·.1)) he
  rw [treeOf, List.find?_append, hnone]
  rfl

theorem treeOf_none
    {before : List (List κ × FileNode γ)} (h : p ∉ before.map (·.1)) :
  treeOf before p = none
  := by
  have happend : treeOf (before ++ []) p = treeOf [] p := treeOf_append_of_absent h
  rw [List.append_nil] at happend
  apply happend

theorem treeOf_concat
    {before : List (List κ × FileNode γ)} (n : FileNode γ) (h : p ∉ before.map (·.1)) :
  treeOf (before ++ [(p, n)]) = (treeOf before).set p n
  := by
  funext q
  by_cases hq : q = p
  · subst hq
    rw [treeOf_append_of_absent h]
    simp [treeOf, FileTree.set]
  · have hne : p ≠ q := fun h => hq h.symm
    simp [treeOf, FileTree.set, hq, List.find?_append, hne]

theorem fresh
    (l : Listing κ γ)
    (h : l.entries = before ++ (p, n) :: after) :
  p ≠ [] ∧ p ∉ before.map (·.1) ∧ (treeOf before).HasParents p
  := by
  have hnodup := l.nodup
  rw [h, List.map_append, List.map_cons, List.nodup_append] at hnodup
  refine ⟨?_, ?_, ?_⟩
  · apply l.ne_nil (p, n)
    rw [h]
    simp
  · intro hp
    apply hnodup.2.2 p hp p List.mem_cons_self rfl
  · intro q hq hprefix
    apply treeOf_of_mem hnodup.1 (l.parents before p n after h q hq hprefix)

theorem unpack_suffix
    (l : Listing κ γ)
    (h : l.entries = before ++ after) :
  (treeOf before).unpack after = (l.tree, true)
  := by
  induction after generalizing before with
  | nil =>
    rw [List.append_nil] at h
    subst h
    rfl
  | cons e after ih =>
    obtain ⟨p, n⟩ := e
    obtain ⟨hp, hfresh, hparents⟩ := l.fresh h
    rw [FileTree.unpack, FileTree.extract_of_absent hp hparents (treeOf_none hfresh),
      ← treeOf_concat n hfresh]
    apply ih
    rw [h, List.append_assoc]
    rfl

theorem unpack_entries (l : Listing κ γ) :
  FileTree.empty.unpack l.entries = (l.tree, true)
  := by
  have hall : l.entries = [] ++ l.entries := rfl
  apply l.unpack_suffix hall

end Listing
