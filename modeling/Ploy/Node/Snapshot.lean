import Ploy.Domain.Types
import Ploy.Foundations.FileTree
import Ploy.Foundations.SlashPath

/-!
# Snapshots of the source commit

The server checks out the source commit of a run and packs the checkout into an archive; the
node unpacks the archive into the run's workspace. An archive whose walk met no error, of a
checkout whose paths have no white space around them, is unpacked to exactly the checkout.
-/

namespace Ploy

open SlashPath

/-- The content of a directory on a host. -/
abbrev Files := FileTree String String

/-! ### The server packs a checkout -/

/-- A checked-out directory: its entries as the walk meets them, every name one a file system
has. -/
structure Checkout extends Listing String String where
  proper : ∀ e ∈ entries, ∀ name ∈ e.1, Proper name.toList

/-- A path with slashes between its names. -/
def slashName (p : List String) : String :=
  String.ofList (join (p.map String.toList))

/-- An entry of an archive. -/
structure TarEntry where
  name : String
  node : FileNode String

/-- A compressed archive as it is read: the entries that are there as a whole, and whether they
are followed by the archive's end. -/
structure TarGz where
  entries : List TarEntry
  ended : Bool

/-- What the walk over the checkout fails at: a path's metadata, or the content of a file whose
header is already written. -/
inductive WalkError where
  | metadata
  | content

/-- The archive of a checkout. When the walk fails after some entries, the deferred closes of the
archive and of the compression still run: the archive then ends properly, unless a file's content
is missing. -/
def writeDirectoryTarGz (checkout : Checkout) (failure : Option (Nat × WalkError)) : TarGz :=
  let entries := checkout.entries.map fun e => (⟨slashName e.1, e.2⟩ : TarEntry)
  match failure with
  | none => ⟨entries, true⟩
  | some (k, .metadata) => ⟨entries.take k, true⟩
  | some (k, .content) => ⟨entries.take k, false⟩

/-- What the server has when it is asked for a snapshot: the status it refuses with, or a checkout
and where the walk over it fails. -/
inductive Materialized where
  | refused (status : Nat)
  | checkout (files : Checkout) (failure : Option (Nat × WalkError))

/-- What the node is answered. -/
inductive SnapshotResponse where
  | status (code : Nat)
  | archive (body : TarGz)

/-- The answer of the server. Once the walk has begun the success status is sent, so an error of
the walk changes only the archive. -/
def getRunSnapshotHandler : Materialized → SnapshotResponse
  | .refused status => .status status
  | .checkout files failure => .archive (writeDirectoryTarGz files failure)

/-! ### The node unpacks an archive -/

/-- The path below the workspace that an entry's name stands for. -/
def safeTarTarget (name : String) : Except String (List String) :=
  let name := trimSpace name
  if name = "" ∨ isAbs name.toList then
    .error ("unsafe tar path " ++ name)
  else
    match cleaned name.toList with
    | [] => .error ("unsafe tar path " ++ name)
    | first :: rest =>
      if first = dotDot then .error ("unsafe tar path " ++ name)
      else .ok ((first :: rest).map String.ofList)

/-- The entries of an archive created one after another: what is there in the end, and the error
that ended it. -/
def unpackEntries (t : Files) : List TarEntry → Files × Except String Unit
  | [] => (t, .ok ())
  | e :: rest =>
    match safeTarTarget e.name with
    | .error message => (t, .error message)
    | .ok p =>
      match t.extract p e.node with
      | none => (t, .error ("cannot create " ++ e.name))
      | some t' => unpackEntries t' rest

def unpackTarGz (t : Files) (archive : TarGz) : Files × Except String Unit :=
  match unpackEntries t archive.entries with
  | (t', .error message) => (t', .error message)
  | (t', .ok ()) => if archive.ended then (t', .ok ()) else (t', .error "unexpected EOF")

/-! ### A whole archive is unpacked to the checkout -/

/-- A path whose name in an archive has no white space around it. -/
def plainPath (p : List String) : Bool :=
  trimSpace (slashName p) = slashName p

/-- The server refuses the snapshot, or sends all of a checkout that has no path with white space
around it. -/
def Materialized.whole : Materialized → Bool
  | .refused _ => true
  | .checkout files none => files.entries.all fun e => plainPath e.1
  | .checkout _ (some _) => false

theorem slashName_ne_empty
    {p : List String} (hp : p ≠ []) (hproper : ∀ name ∈ p, Proper name.toList) :
  slashName p ≠ ""
  := by
  obtain ⟨name, rest, rfl⟩ := List.exists_cons_of_ne_nil hp
  have hname := (hproper name List.mem_cons_self).ne_nil
  intro h
  have hempty : join ((name :: rest).map String.toList) = [] := by
    simpa [slashName] using congrArg String.toList h
  rw [List.map_cons, join_cons] at hempty
  split at hempty
  · apply hname hempty
  · simp at hempty

/-- A path without white space around it is found under its own name. -/
theorem safeTarTarget_slashName
    {p : List String} (hp : p ≠ []) (hproper : ∀ name ∈ p, Proper name.toList)
    (hplain : plainPath p = true) :
  safeTarTarget (slashName p) = .ok p
  := by
  have htrim : trimSpace (slashName p) = slashName p := of_decide_eq_true hplain
  have helements : ∀ e ∈ p.map String.toList, Proper e := by
    intro e he
    obtain ⟨name, hname, rfl⟩ := List.mem_map.mp he
    apply hproper name hname
  have hrelative : isAbs (slashName p).toList = false := by
    rw [slashName, String.toList_ofList]
    apply isAbs_join helements
  have hcleaned : cleaned (slashName p).toList = p.map String.toList := by
    rw [slashName, String.toList_ofList]
    apply cleaned_join helements
    simpa using hp
  obtain ⟨name, rest, rfl⟩ := List.exists_cons_of_ne_nil hp
  have hfirst : name.toList ≠ dotDot := (hproper name List.mem_cons_self).ne_dotDot
  simp only [safeTarTarget, htrim, hrelative, hcleaned, slashName_ne_empty hp hproper,
    List.map_cons, hfirst]
  simp

/-- Entries that keep their names are unpacked as they are. -/
theorem unpackEntries_of_targets
    {t t' : Files} {entries : List (List String × FileNode String)}
    (htargets : ∀ e ∈ entries, safeTarTarget (slashName e.1) = .ok e.1)
    (h : t.unpack entries = (t', true)) :
  unpackEntries t (entries.map fun e => ⟨slashName e.1, e.2⟩) = (t', .ok ())
  := by
  induction entries generalizing t with
  | nil =>
    simp only [FileTree.unpack, Prod.mk.injEq] at h
    rw [List.map_nil, unpackEntries, h.1]
  | cons e entries ih =>
    have htarget : safeTarTarget (slashName e.1) = .ok e.1 := htargets e List.mem_cons_self
    simp only [FileTree.unpack] at h
    cases hextract : t.extract e.1 e.2 with
    | none =>
      rw [hextract] at h
      cases h
    | some t₁ =>
      rw [hextract] at h
      simp only [List.map_cons, unpackEntries, htarget, hextract]
      apply ih (fun e he => htargets e (List.mem_cons_of_mem _ he)) h

theorem unpackTarGz_checkout
    {checkout : Checkout} (hplain : ∀ e ∈ checkout.entries, plainPath e.1 = true) :
  unpackTarGz FileTree.empty (writeDirectoryTarGz checkout none) = (checkout.tree, .ok ())
  := by
  have htargets : ∀ e ∈ checkout.entries, safeTarTarget (slashName e.1) = .ok e.1 := by
    intro e he
    apply safeTarTarget_slashName (checkout.ne_nil e he) (checkout.proper e he) (hplain e he)
  have hunpack := unpackEntries_of_targets htargets checkout.unpack_entries
  simp only [unpackTarGz, writeDirectoryTarGz, hunpack]
  rfl

end Ploy
