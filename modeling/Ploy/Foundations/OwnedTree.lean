import Ploy.Foundations.FileTree

/-!
# Directory trees with permissions

Beside what is at a path, a directory tree has permission bits there. A process creates something in
a directory that it may search and write to, and what it creates gets the bits it asks for, without
those that the process masks out.
-/

/-- A process: whether it passes all checks, and the bits it masks out, which are none of the
owner's. -/
structure Process where
  privileged : Bool
  umask : BitVec 9
  umask_owner : ∀ i, 6 ≤ i → umask.getLsbD i = false

namespace Process

variable (proc : Process)

def mayRead (perm : BitVec 9) : Bool := proc.privileged || perm.getLsbD 8

def mayWrite (perm : BitVec 9) : Bool := proc.privileged || perm.getLsbD 7

def maySearch (perm : BitVec 9) : Bool := proc.privileged || perm.getLsbD 6

/-- The bits that something gets when it is created. -/
def masked (perm : BitVec 9) : BitVec 9 := perm &&& ~~~proc.umask

theorem getLsbD_masked {i : Nat} (hlow : 6 ≤ i) (perm : BitVec 9) :
  (proc.masked perm).getLsbD i = perm.getLsbD i
  := by
  rw [masked, BitVec.getLsbD_and, BitVec.getLsbD_not, proc.umask_owner i hlow]
  by_cases hi : i < 9
  · simp [hi]
  · simp [BitVec.getLsbD_of_ge perm i (by omega)]

theorem mayWrite_masked (perm : BitVec 9) :
  proc.mayWrite (proc.masked perm) = proc.mayWrite perm
  := by
  rw [mayWrite, getLsbD_masked proc (by omega), mayWrite]

theorem maySearch_masked (perm : BitVec 9) :
  proc.maySearch (proc.masked perm) = proc.maySearch perm
  := by
  rw [maySearch, getLsbD_masked proc (by omega), maySearch]

end Process

def FileNode.isFile {γ : Type} : FileNode γ → Bool
  | .file _ => true
  | _ => false

/-- A directory tree with the permission bits of what is in it. -/
structure OwnedTree (κ γ : Type) where
  tree : FileTree κ γ
  mode : List κ → BitVec 9

namespace OwnedTree

variable {κ γ : Type}

/-- An empty directory with some permission bits. -/
def empty (perm : BitVec 9) : OwnedTree κ γ where
  tree := FileTree.empty
  mode _ := perm

/-- The directories on the way to a path may be searched. -/
def reaches (proc : Process) (mode : List κ → BitVec 9) (p : List κ) : Bool :=
  p.dropLast.inits.all fun q => proc.maySearch (mode q)

/-- What is on the way to a path, and was not there, is made in directories that may be written to.
-/
def mayMake (proc : Process) (before : FileTree κ γ) (mode : List κ → BitVec 9)
    (p : List κ) : Bool :=
  p.inits.all fun q => q.isEmpty || (before q).isSome || proc.mayWrite (mode q.dropLast)

theorem reaches_iff {proc : Process} {mode : List κ → BitVec 9} {p : List κ} :
  reaches proc mode p = true ↔ ∀ q, q <+: p.dropLast → proc.maySearch (mode q) = true
  := by
  simp [reaches, List.mem_inits]

variable [DecidableEq κ]

/-- What an entry of an archive describes, created at a path. Missing directories get bits of their
own. A file that is there is written to. -/
def create (proc : Process) (d : OwnedTree κ γ) (p : List κ) (n : FileNode γ)
    (dirPerm perm : BitVec 9) : Option (OwnedTree κ γ) :=
  (d.tree.extract p n).bind fun tree =>
    let made q := (d.tree q).isNone && (tree q).isSome
    let mode q := if made q then proc.masked (if q = p then perm else dirPerm) else d.mode q
    if reaches proc mode p && mayMake proc d.tree mode p
        && (!n.isFile || made p || proc.mayWrite (d.mode p)) then some ⟨tree, mode⟩
    else none

/-- Something new is created where the directories on the way to it may be searched and the one it
is in may be written to. -/
theorem create_of_absent
    (proc : Process) {d : OwnedTree κ γ} {p : List κ} (hp : p ≠ []) (hparents : d.tree.HasParents p)
    (habsent : d.tree p = none) (n : FileNode γ) (dirPerm perm : BitVec 9) :
  create proc d p n dirPerm perm
    = if reaches proc d.mode p && proc.mayWrite (d.mode p.dropLast) then
        some ⟨d.tree.set p n, fun q => if q = p then proc.masked perm else d.mode q⟩
      else none
  := by
  have hmade : ∀ q, ((d.tree q).isNone && ((d.tree.set p n) q).isSome) = decide (q = p) := by
    intro q
    by_cases hq : q = p
    · simp [FileTree.set, hq, habsent]
    · cases h : d.tree q with
      | none | some => simp [FileTree.set, hq, h]
  have hmode : ∀ q, q <+: p.dropLast →
      (if q = p then proc.masked perm else d.mode q) = d.mode q := by
    intro q hpre
    apply if_neg
    rintro rfl
    have hlength := hpre.length_le
    rw [List.length_dropLast] at hlength
    have := List.length_pos_of_ne_nil hp
    omega
  have hreaches : reaches proc (fun q => if q = p then proc.masked perm else d.mode q) p
      = reaches proc d.mode p := by
    rw [Bool.eq_iff_iff, reaches_iff, reaches_iff]
    exact forall₂_congr fun q hq => by rw [hmode q hq]
  have hmake : mayMake proc d.tree (fun q => if q = p then proc.masked perm else d.mode q) p
      = proc.mayWrite (d.mode p.dropLast) := by
    rw [Bool.eq_iff_iff, mayMake, List.all_eq_true]
    constructor
    · intro h
      have hself := h p ((List.mem_inits _ _).mpr List.prefix_rfl)
      rw [habsent, hmode p.dropLast List.prefix_rfl] at hself
      simpa [hp] using hself
    · intro hwrite q hq
      rw [List.mem_inits] at hq
      by_cases hqp : q = p
      · rw [hqp, hmode p.dropLast List.prefix_rfl, hwrite, Bool.or_true]
      · cases hnil : q with
        | nil => rfl
        | cons c rest =>
          have hbefore : q <+: p.dropLast := (List.prefix_concat_iff.mp
            (by rwa [List.dropLast_append_getLast hp] :
              q <+: p.dropLast ++ [p.getLast hp])).resolve_left
              (by rwa [List.dropLast_append_getLast hp])
          rw [← hnil, hparents q (by simp [hnil]) hbefore]
          simp
  rw [create, FileTree.extract_of_absent hp hparents habsent, Option.bind_some]
  have hinner : ∀ q, (if q = p then proc.masked (if q = p then perm else dirPerm) else d.mode q)
      = if q = p then proc.masked perm else d.mode q := by
    intro q
    split_ifs <;> rfl
  simp only [hmade, decide_eq_true_eq, hinner, hreaches, hmake, decide_true, Bool.or_true,
    Bool.true_or, Bool.and_true]

end OwnedTree
