import Ploy.Foundations.LinkedFiles
import Ploy.Node.Snapshot

/-!
# Unpacking a snapshot on a host with symbolic links

The node checks the name of every entry by itself. What an entry writes, however, depends on the
links that earlier entries of the same archive have put in its way.
-/

namespace Ploy

open Disk

namespace HostUnpack

/-! ### The archive -/

/-- What an entry of an archive describes. The content of a file may be cut off. -/
inductive Body where
  | dir
  | file (content : String) (cut : Bool)
  | symlink (target : String)
  | other (typeflag : Nat)
  deriving DecidableEq, Repr

structure Entry where
  name : String
  body : Body
  deriving DecidableEq, Repr

/-- A compressed archive as it is read: whether the compression is recognised, the entries that can
be read, and whether they are followed by the archive's end. -/
structure Archive where
  compressed : Bool
  entries : List Entry
  ended : Bool

/-- What ends the unpacking. -/
inductive Fault where
  | compression
  | read
  | unsafePath (message : String)
  | unsupported (name : String) (typeflag : Nat)
  | disk (error : DiskError)
  deriving DecidableEq, Repr

/-! ### Unpacking -/

/-- An operation after another one, unless that failed. -/
def andThen (r : Disk String × Option DiskError)
    (next : Disk String → Disk String × Option Fault) : Disk String × Option Fault :=
  match r.2 with
  | some error => (r.1, some (.disk error))
  | none => next r.1

/-- What an entry describes, created below the destination. -/
def unpackEntry (dest : List Str) (d : Disk String) (e : Entry) :
    Disk String × Option Fault :=
  match safeTarTarget e.name with
  | .error message => (d, some (.unsafePath message))
  | .ok names =>
    let target := names.map String.toList
    match e.body with
    | .dir => andThen (d.mkdirAll (dest ++ target).reverse) fun d => (d, none)
    | .file content cut =>
      andThen (d.mkdirAll (dest ++ target.dropLast).reverse) fun d =>
        andThen (d.writeFile (dest ++ target) content) fun d =>
          (d, if cut then some .read else none)
    | .symlink link =>
      andThen (d.mkdirAll (dest ++ target.dropLast).reverse) fun d =>
        andThen (d.symlink (dest ++ target.dropLast) (target.getLast?.getD []) link.toList)
          fun d => (d, none)
    | .other typeflag => (d, some (.unsupported e.name typeflag))

/-- The entries of an archive, one after the other until one fails. -/
def unpackEntries (dest : List Str) (d : Disk String) :
    List Entry → Disk String × Option Fault
  | [] => (d, none)
  | e :: rest =>
    match unpackEntry dest d e with
    | (d, none) => unpackEntries dest d rest
    | (d, some fault) => (d, some fault)

def unpackTarGz (dest : List Str) (d : Disk String) (archive : Archive) :
    Disk String × Option Fault :=
  if archive.compressed then
    match unpackEntries dest d archive.entries with
    | (d, none) => (d, if archive.ended then none else some .read)
    | (d, some fault) => (d, some fault)
  else (d, some .compression)

/-! ### Entries that no link is in the way of -/

def isLink (d : Disk String) (location : List Str) : Bool :=
  match d.tree location with
  | some (.link _) => true
  | _ => false

/-- The names on the way that an entry takes. A link is put in place of its last name, without
following what is there. -/
def way (e : Entry) (target : List Str) : List Str :=
  match e.body with
  | .symlink _ => target.dropLast
  | _ => target

/-- Whether an entry may create something: it is of a known type, and no directory that is there
already. -/
def creates (dest : List Str) (d : Disk String) (e : Entry) (target : List Str) :
    Bool :=
  match e.body with
  | .dir =>
    match d.resolve (dest ++ target) with
    | .found location => !d.isDir location
    | _ => true
  | .other _ => false
  | .file _ _ | .symlink _ => true

/-- No link is in the way of an entry below a directory, if the entry may create something. -/
def unobstructed (dest directory : List Str) (d : Disk String) (e : Entry) : Bool :=
  match safeTarTarget e.name with
  | .error _ => true
  | .ok names =>
    !creates dest d e (names.map String.toList) ||
      (way e (names.map String.toList)).inits.all fun p => p.isEmpty || !isLink d (directory ++ p)

/-- No link is in the way of any entry when its turn comes. -/
def unobstructedAlong (dest directory : List Str) (d : Disk String) : List Entry → Bool
  | [] => true
  | e :: rest =>
    unobstructed dest directory d e &&
      match unpackEntry dest d e with
      | (d, none) => unobstructedAlong dest directory d rest
      | (_, some _) => true

variable {dest directory : List Str} {d₀ d : Disk String} {e : Entry}

theorem clear_of_unobstructed
    (h : unobstructed dest directory d e = true) {names : List String}
    (hnames : safeTarTarget e.name = .ok names)
    (hcreates : creates dest d e (names.map String.toList) = true) :
  Clear d.tree directory (way e (names.map String.toList))
  := by
  rw [unobstructed, hnames] at h
  simp only [hcreates, Bool.not_true, Bool.false_or] at h
  intro p hp hpre target hlink
  have hin := List.all_eq_true.mp h p ((List.mem_inits p _).mpr hpre)
  simp [hp, isLink, hlink] at hin

/-- A directory that is there is not made again. -/
theorem mkdirAll_of_resolve {path location : List Str}
    (h : d.resolve path = .found location) (hdir : d.isDir location = true) :
  d.mkdirAll path.reverse = (d, none)
  := by
  cases hpath : path.reverse with
  | nil => rfl
  | cons name above =>
    rw [mkdirAll, ← hpath, List.reverse_reverse, h]
    exact if_pos hdir

/-- An accepted name leads below the destination, name by name. -/
theorem proper_of_safeTarTarget
    {name : String} {names : List String} (h : safeTarTarget name = .ok names) :
  names ≠ [] ∧ ∀ n ∈ names.map String.toList, SlashPath.Proper n
  := by
  rw [safeTarTarget] at h
  split at h
  · cases h
  · split at h
    · cases h
    · next first rest hcleaned =>
        split at h
        · cases h
        · next hfirst =>
            cases h
            refine ⟨by simp, ?_⟩
            have hhead : (SlashPath.cleaned (trimSpace name).toList).head?
                ≠ some SlashPath.dotDot := by
              rw [hcleaned]
              simpa using hfirst
            intro n hn
            apply SlashPath.proper_of_mem_cleaned hhead
            rw [hcleaned]
            simpa [List.map_map, Function.comp_def] using hn

theorem within_andThen
    {r : Disk String × Option DiskError} {next : Disk String → Disk String × Option Fault}
    (hfirst : Within directory d r.1)
    (hnext : Within directory d r.1 → Within directory r.1 (next r.1).1) :
  Within directory d (andThen r next).1
  := by
  rw [andThen]
  split
  · exact hfirst
  · exact hfirst.trans (hnext hfirst)

/-- Unpacking one entry changes nothing outside the directory. -/
theorem unpackEntry_within
    (hfresh : Fresh d₀ dest directory) (hwithin : Within directory d₀ d)
    (hclear : unobstructed dest directory d e = true) :
  Within directory d (unpackEntry dest d e).1
  := by
  rw [unpackEntry]
  split
  · exact Within.refl
  · next names hnames =>
      obtain ⟨hne, hproper⟩ := proper_of_safeTarTarget hnames
      have hway := clear_of_unobstructed hclear hnames
      rw [creates, way] at hway
      have hparents : ∀ n ∈ (names.map String.toList).dropLast, SlashPath.Proper n :=
        fun n hn => hproper n (List.mem_of_mem_dropLast hn)
      have htarget : names.map String.toList ≠ [] := by simpa using hne
      dsimp only
      cases hbody : e.body with
      | dir =>
        rw [hbody] at hway
        by_cases hmade : ∃ location,
          d.resolve (dest ++ names.map String.toList) = .found location ∧ d.isDir location = true
        · obtain ⟨location, hfound, hdir⟩ := hmade
          rw [mkdirAll_of_resolve hfound hdir]
          exact Within.refl
        · have hclear : Clear d.tree directory (names.map String.toList) := by
            apply hway
            dsimp only
            split
            · next location hfound => simpa using fun hdir => hmade ⟨location, hfound, hdir⟩
            · rfl
          apply within_andThen (hfresh.mkdirAll hwithin hproper hclear).toWithin
          exact fun _ => Within.refl
      | file content cut =>
        rw [hbody] at hway
        replace hway := hway rfl
        -- the directories above the file are on its way
        have habove : Clear d.tree directory (names.map String.toList).dropLast := by
          apply Clear.of_append (b := [(names.map String.toList).getLast htarget])
          rwa [List.dropLast_append_getLast]
        have hmade := hfresh.mkdirAll hwithin hparents habove
        apply within_andThen hmade.toWithin
        intro hd
        apply within_andThen
        · exact (hfresh.leads (hwithin.trans hd)).writeFile htarget hproper
            (hmade.clear hway) content
        · exact fun _ => Within.refl
      | symlink link =>
        rw [hbody] at hway
        replace hway := hway rfl
        have hmade := hfresh.mkdirAll hwithin hparents hway
        apply within_andThen hmade.toWithin
        intro hd
        apply within_andThen
        · exact (hfresh.leads (hwithin.trans hd)).symlink hparents (hmade.clear hway) _ _
        · exact fun _ => Within.refl
      | other typeflag => exact Within.refl

/-- Unpacking entries changes nothing outside the directory. -/
theorem unpackEntries_within
    (hfresh : Fresh d₀ dest directory) (hwithin : Within directory d₀ d)
    {entries : List Entry} (hclear : unobstructedAlong dest directory d entries = true) :
  Within directory d (unpackEntries dest d entries).1
  := by
  induction entries generalizing d with
  | nil => exact Within.refl
  | cons e rest ih =>
    rw [unobstructedAlong, Bool.and_eq_true] at hclear
    have hentry := unpackEntry_within hfresh hwithin hclear.1
    rw [unpackEntries]
    split
    · next d₁ heq =>
        rw [heq] at hentry hclear
        exact hentry.trans (ih (hwithin.trans hentry) hclear.2)
    · next d₁ fault heq =>
        rw [heq] at hentry
        exact hentry

/-- Unpacking an archive into an empty directory, however it ends, creates, truncates and writes
only what is below that directory, provided that no way of an entry that may create something leads
through a link, or ends at one that it would write through, when its turn comes. Nothing else on the
host changes. -/
theorem unpack_stays_below
    (hfresh : Fresh d₀ dest directory) (hstart : d₀.touched = []) (archive : Archive)
    (hclear : archive.compressed = true →
      unobstructedAlong dest directory d₀ archive.entries = true) :
  (∀ l ∈ (unpackTarGz dest d₀ archive).1.touched, Below directory l)
    ∧ ∀ l, ¬ Below directory l → (unpackTarGz dest d₀ archive).1.tree l = d₀.tree l
  := by
  have hwithin : Within directory d₀ (unpackTarGz dest d₀ archive).1 := by
    rw [unpackTarGz]
    split
    · next hcompressed =>
      have hentries := unpackEntries_within hfresh Within.refl (hclear hcompressed)
      split
      · next d₁ heq =>
          rw [heq] at hentries
          exact hentries
      · next d₁ fault heq =>
          rw [heq] at hentries
          exact hentries
    · exact Within.refl
  constructor
  · intro l hl
    rcases hwithin.touched l hl with htouched | hbelow
    · rw [hstart] at htouched
      cases htouched
    · exact hbelow
  · exact hwithin.kept

end HostUnpack

namespace Sample

/-- A host with a directory for settings, a workspace, and a link to it. -/
def host : Disk String where
  tree l :=
    if l = [] ∨ l = ["etc".toList] ∨ l = ["ws".toList] then some .dir
    else if l = ["work".toList] then some (.link "/ws".toList)
    else none
  root := by simp
  touched := []

theorem host_fresh : Fresh host ["work".toList] ["ws".toList] := by
  refine ⟨⟨by decide, by decide⟩, ?_⟩
  rintro l ⟨p, hp, rfl⟩
  cases p with
  | nil => exact absurd rfl hp
  | cons c p => simp [host]

end Sample

namespace HostUnpack

/-- A file, a link out of the destination next to it, and an entry below that link of a type that is
not unpacked. -/
theorem unpack_stays_below_sample :
  (unpackTarGz ["work".toList] Sample.host ⟨true, [⟨"a/x", .file "1" false⟩,
      ⟨"b", .symlink "/etc"⟩, ⟨"b/y", .other 54⟩], false⟩).1.touched
    = [["ws".toList, "b".toList], ["ws".toList, "a".toList, "x".toList],
      ["ws".toList, "a".toList]]
    ∧ ∀ l ∈ (unpackTarGz ["work".toList] Sample.host ⟨true, [⟨"a/x", .file "1" false⟩,
      ⟨"b", .symlink "/etc"⟩, ⟨"b/y", .other 54⟩], false⟩).1.touched,
        Below ["ws".toList] l
  := ⟨by decide +kernel, (unpack_stays_below Sample.host_fresh rfl _ fun _ => by decide +kernel).1⟩

/-- An archive with a link to a directory of the host and a file whose path leads through it. The
file is written outside of the destination. -/
theorem unpack_writes_outside :
  (unpackTarGz ["ws".toList] Sample.host
      ⟨true, [⟨"a", .symlink "/etc"⟩, ⟨"a/passwd", .file "x" false⟩], true⟩).2 = none
    ∧ ["etc".toList, "passwd".toList] ∈ (unpackTarGz ["ws".toList] Sample.host
      ⟨true, [⟨"a", .symlink "/etc"⟩, ⟨"a/passwd", .file "x" false⟩], true⟩).1.touched
    ∧ ¬ Below ["ws".toList] ["etc".toList, "passwd".toList]
  := by
  refine ⟨by decide +kernel, by decide +kernel, ?_⟩
  rintro ⟨p, -, heq⟩
  exact absurd (List.cons.inj heq).1 (by decide)

end HostUnpack

end Ploy
