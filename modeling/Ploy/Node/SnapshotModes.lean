import Ploy.Foundations.OwnedTree
import Ploy.Node.Snapshot

/-!
# Snapshots with permissions

The archive of a checkout carries the permission bits of its entries. The node gives a directory its
bits when it creates it, before what is in it, and takes the white space around an entry's name
away. A checkout without white space around its paths is reproduced exactly if the server may read
it and the node may write to the directories that have something in them.
-/

namespace Ploy

namespace SnapshotModes

/-- A checked-out directory with the permission bits of its entries. -/
structure OwnedCheckout extends Checkout where
  perm : List String → BitVec 9

structure OwnedEntry extends TarEntry where
  mode : BitVec 9

/-- A compressed archive: the entries that are there as a whole, and whether they are followed by
the archive's end. -/
structure OwnedTarGz where
  entries : List OwnedEntry
  ended : Bool

/-! ### Both sides -/

/-- The entry for a path of the checkout. -/
def header (perm : List String → BitVec 9) (p : List String) (n : FileNode String) : OwnedEntry :=
  ⟨⟨slashName p, n⟩, perm p⟩

/-- The archive of what the walk meets. It ends early at a path whose metadata cannot be had, behind
a directory that cannot be read, and at a file that cannot: behind it where the file is empty, and
otherwise without the content that its header announces. -/
def walk (server : Process) (perm : List String → BitVec 9) :
    List (List String × FileNode String) → OwnedTarGz
  | [] => ⟨[], true⟩
  | (p, n) :: rest =>
    let archive := walk server perm rest
    let continued : OwnedTarGz := ⟨header perm p n :: archive.entries, archive.ended⟩
    if p.dropLast ≠ [] ∧ !server.maySearch (perm p.dropLast) then ⟨[], true⟩
    else
      match n with
      | .file content =>
        if server.mayRead (perm p) then continued
        else if content = "" then ⟨[header perm p n], true⟩
        else ⟨[], false⟩
      | .dir => if server.mayRead (perm p) then continued else ⟨[header perm p n], true⟩
      | .symlink _ => continued

def writeDirectoryTarGz (server : Process) (checkout : OwnedCheckout) : OwnedTarGz :=
  walk server checkout.perm checkout.entries

/-- The bits of the directories that are made for an entry. -/
def OwnedEntry.dirPerm (e : OwnedEntry) : BitVec 9 :=
  match e.node with
  | .dir => e.mode
  | _ => 0o750

/-- The entries of an archive created one after another: what is there in the end, and the error
that ended it. -/
def unpackEntries (node : Process) (d : OwnedTree String String) :
    List OwnedEntry → OwnedTree String String × Except String Unit
  | [] => (d, .ok ())
  | e :: rest =>
    match safeTarTarget e.name with
    | .error message => (d, .error message)
    | .ok p =>
      match d.create node p e.node e.dirPerm e.mode with
      | none => (d, .error ("cannot create " ++ e.name))
      | some d' => unpackEntries node d' rest

def unpackTarGz (node : Process) (d : OwnedTree String String) (archive : OwnedTarGz) :
    OwnedTree String String × Except String Unit :=
  match unpackEntries node d archive.entries with
  | (d', .error message) => (d', .error message)
  | (d', .ok ()) => if archive.ended then (d', .ok ()) else (d', .error "unexpected EOF")

/-- The empty directory that the node unpacks into. -/
def workspace (node : Process) : OwnedTree String String :=
  OwnedTree.empty (node.masked 0o750)

/-- What git sees in a worktree: files, each with the owner's execution bit, and links. -/
def worktree (tree : Files) (mode : List String → BitVec 9) (p : List String) :
    Option (FileNode String × Bool) :=
  match tree p with
  | some (.file content) => some (.file content, (mode p).getLsbD 6)
  | some (.symlink target) => some (.symlink target, false)
  | _ => none

/-! ### The round trip -/

/-- What the walk opens may be read. A link is not opened. -/
def opens (server : Process) (perm : BitVec 9) : FileNode String → Bool
  | .symlink _ => true
  | _ => server.mayRead perm

/-- Nothing is lost of the entry itself when it cannot be opened. -/
def isHeader : FileNode String → Bool
  | .file content => content = ""
  | _ => true

/-- The server may search the directories that have something in them and read all files and
directories, but for the last one, which it need not read if it is a directory or empty. -/
def readable (server : Process) (perm : List String → BitVec 9) :
    List (List String × FileNode String) → Bool
  | [] => true
  | (p, n) :: rest =>
    (p.dropLast = [] || server.maySearch (perm p.dropLast))
      && (opens server (perm p) n || (rest.isEmpty && isHeader n)) && readable server perm rest

/-- The node may write to the directories that have something in them, and search them. -/
def writable (node : Process) (perm : List String → BitVec 9)
    (entries : List (List String × FileNode String)) : Bool :=
  entries.all fun e => e.1.dropLast = []
    || (node.maySearch (perm e.1.dropLast) && node.mayWrite (perm e.1.dropLast))

/-- The archive has a first part of the entries, and is whole exactly if they are readable. -/
theorem walk_entries (server : Process) (perm : List String → BitVec 9)
    (entries : List (List String × FileNode String)) :
  ∃ before after, entries = before ++ after
    ∧ (walk server perm entries).entries = before.map (fun e => header perm e.1 e.2)
    ∧ ((after = [] ∧ (walk server perm entries).ended = true) ↔ readable server perm entries = true)
  := by
  induction entries with
  | nil => exact ⟨[], [], rfl, rfl, by simp [walk, readable]⟩
  | cons e rest ih =>
    obtain ⟨p, n⟩ := e
    by_cases hparent : p.dropLast ≠ [] ∧ !server.maySearch (perm p.dropLast)
    · refine ⟨[], (p, n) :: rest, rfl, ?_, ?_⟩
      · cases n <;> rw [walk, if_pos hparent] <;> rfl
      · simp only [Bool.not_eq_true'] at hparent
        simp [readable, hparent]
    have hsearch : (decide (p.dropLast = []) || server.maySearch (perm p.dropLast)) = true := by
      simpa [or_iff_not_imp_left] using hparent
    obtain ⟨before, after, hsplit, hentries, hwhole⟩ := ih
    by_cases hopens : opens server (perm p) n = true
    · have hwalk : walk server perm ((p, n) :: rest)
          = ⟨header perm p n :: (walk server perm rest).entries,
              (walk server perm rest).ended⟩ := by
        cases n with
        | file | dir =>
          rw [walk, if_neg hparent]
          exact if_pos hopens
        | symlink => rw [walk, if_neg hparent]
      refine ⟨(p, n) :: before, after, by rw [hsplit, List.cons_append], ?_, ?_⟩
      · rw [hwalk, hentries, List.map_cons]
      · rw [hwalk, readable, hsearch, hopens, Bool.true_or, Bool.and_true, Bool.true_and]
        exact hwhole
    · cases hheader : isHeader n with
      | true =>
        have hwalk : walk server perm ((p, n) :: rest) = ⟨[header perm p n], true⟩ := by
          cases n with
          | file content =>
            rw [walk, if_neg hparent]
            exact (if_neg hopens).trans (if_pos (of_decide_eq_true hheader))
          | dir =>
            rw [walk, if_neg hparent]
            exact if_neg hopens
          | symlink => exact absurd rfl hopens
        refine ⟨[(p, n)], rest, rfl, by rw [hwalk]; rfl, ?_⟩
        rw [hwalk, readable, hsearch, Bool.eq_false_iff.mpr hopens, hheader]
        cases rest with
        | nil => simp [readable]
        | cons => simp
      | false =>
        have hwalk : walk server perm ((p, n) :: rest) = ⟨[], false⟩ := by
          cases n with
          | file content =>
            rw [walk, if_neg hparent]
            exact (if_neg hopens).trans (if_neg (of_decide_eq_false hheader))
          | dir | symlink => cases hheader
        refine ⟨[], (p, n) :: rest, rfl, by rw [hwalk]; rfl, ?_⟩
        rw [readable, Bool.eq_false_iff.mpr hopens, hheader]
        simp

variable {checkout : OwnedCheckout} {node : Process}

/-- What is in the workspace after some of the entries. -/
structure Unpacked (checkout : OwnedCheckout) (node : Process)
    (before : List (List String × FileNode String)) (d : OwnedTree String String) : Prop where
  tree : d.tree = Listing.treeOf before
  root : d.mode [] = node.masked 0o750
  mode : ∀ e ∈ before, d.mode e.1 = node.masked (checkout.perm e.1)
  isOpen : writable node checkout.perm before = true

section Create

variable {before after : List (List String × FileNode String)} {p : List String}
  {n : FileNode String} (h : checkout.entries = before ++ (p, n) :: after)
  {d : OwnedTree String String} (hd : Unpacked checkout node before d)

include hd in
theorem Unpacked.root_open :
  node.maySearch (d.mode []) = true ∧ node.mayWrite (d.mode []) = true
  := by
  rw [hd.root, Process.maySearch_masked, Process.mayWrite_masked]
  simp [Process.maySearch, Process.mayWrite]

include h hd

/-- The directories above are in the workspace as they were in the checkout. -/
theorem Unpacked.mode_above {q : List String} (hnil : q ≠ []) (hq : q <+: p.dropLast) :
  d.mode q = node.masked (checkout.perm q)
  := by
  exact hd.mode _ (checkout.parents before p n after h q hnil hq)

/-- A directory further up may be searched, as one in it is there. -/
theorem Unpacked.search_above
    {q : List String} (hq : q <+: p.dropLast) (hne : q ≠ p.dropLast) :
  node.maySearch (d.mode q) = true
  := by
  by_cases hnil : q = []
  · rw [hnil]
    exact hd.root_open.1
  obtain ⟨rest, hrest⟩ := hq
  cases rest with
  | nil => exact absurd (by simpa using hrest) hne
  | cons name rest =>
    have hbelow : q ++ [name] <+: p.dropLast := ⟨rest, by rw [← hrest]; simp⟩
    have hmem := checkout.parents before p n after h (q ++ [name]) (by simp) hbelow
    have hopen := List.all_eq_true.mp hd.isOpen _ hmem
    rw [List.dropLast_concat, decide_eq_false hnil, Bool.false_or, Bool.and_eq_true] at hopen
    rw [hd.mode_above h hnil ⟨name :: rest, hrest⟩, Process.maySearch_masked]
    exact hopen.1

/-- The next entry is reached exactly if its own directory may be searched. -/
theorem Unpacked.reaches_eq :
  OwnedTree.reaches node d.mode p = node.maySearch (d.mode p.dropLast)
  := by
  rw [Bool.eq_iff_iff, OwnedTree.reaches_iff]
  refine ⟨fun hall => hall _ List.prefix_rfl, fun hlast q hq => ?_⟩
  by_cases hne : q = p.dropLast
  · rw [hne, hlast]
  · exact hd.search_above h hq hne

/-- The bits of its directory are those that `writable` asks about. -/
theorem Unpacked.writable_eq :
  (node.maySearch (d.mode p.dropLast) && node.mayWrite (d.mode p.dropLast))
    = writable node checkout.perm [(p, n)]
  := by
  rw [writable, List.all_cons, List.all_nil, Bool.and_true]
  by_cases hnil : p.dropLast = []
  · rw [hnil, hd.root_open.1, hd.root_open.2]
    rfl
  · rw [hd.mode_above h hnil List.prefix_rfl, Process.maySearch_masked, Process.mayWrite_masked,
      decide_eq_false hnil, Bool.false_or]

/-- The next entry is created exactly if its directory may be written to and searched. -/
theorem unpacked_create (dirPerm : BitVec 9) :
  (writable node checkout.perm [(p, n)] = false
      ∧ d.create node p n dirPerm (checkout.perm p) = none)
    ∨ ∃ d', d.create node p n dirPerm (checkout.perm p) = some d'
      ∧ Unpacked checkout node (before ++ [(p, n)]) d'
  := by
  obtain ⟨hp, hfresh, hparents⟩ := checkout.fresh h
  have habsent : d.tree p = none := by rw [hd.tree, Listing.treeOf_none hfresh]
  have hcreate := OwnedTree.create_of_absent node hp (hd.tree ▸ hparents) habsent n dirPerm
    (checkout.perm p)
  rw [hd.reaches_eq h, hd.writable_eq h] at hcreate
  cases hwritable : writable node checkout.perm [(p, n)] with
  | false =>
    rw [hwritable] at hcreate
    exact Or.inl ⟨rfl, hcreate⟩
  | true =>
    rw [hwritable] at hcreate
    refine Or.inr ⟨_, hcreate, ?_, ?_, ?_, ?_⟩
    · rw [Listing.treeOf_concat n hfresh, hd.tree]
    · simpa [Ne.symm hp] using hd.root
    · intro e he
      rcases List.mem_append.mp he with he | he
      · have hne : e.1 ≠ p := fun heq => hfresh (heq ▸ List.mem_map_of_mem he)
        simpa [hne] using hd.mode e he
      · rw [List.mem_singleton.mp he]
        simp
    · rw [writable, List.all_append, Bool.and_eq_true]
      exact ⟨hd.isOpen, hwritable⟩

end Create

/-- A first part of the entries is unpacked exactly if it is writable. -/
theorem unpackEntries_checkout
    (hplain : ∀ e ∈ checkout.entries, plainPath e.1 = true)
    {before between after : List (List String × FileNode String)}
    (h : checkout.entries = before ++ between ++ after)
    {d : OwnedTree String String} (hd : Unpacked checkout node before d) :
  (writable node checkout.perm between = false ∧ ∃ d' message,
      unpackEntries node d (between.map fun e => header checkout.perm e.1 e.2)
        = (d', .error message))
    ∨ ∃ d', unpackEntries node d (between.map fun e => header checkout.perm e.1 e.2) = (d', .ok ())
      ∧ Unpacked checkout node (before ++ between) d'
  := by
  induction between generalizing before d with
  | nil => exact Or.inr ⟨d, rfl, by rwa [List.append_nil]⟩
  | cons e between ih =>
    obtain ⟨p, n⟩ := e
    have hmem : (p, n) ∈ checkout.entries := by simp [h]
    have htarget : safeTarTarget (slashName p) = .ok p :=
      safeTarTarget_slashName (checkout.ne_nil (p, n) hmem) (checkout.proper (p, n) hmem)
        (hplain (p, n) hmem)
    rw [List.map_cons, unpackEntries, header, htarget]
    dsimp only
    rw [← header]
    have hsplit : checkout.entries = before ++ (p, n) :: (between ++ after) := by simp [h]
    rcases unpacked_create hsplit hd (header checkout.perm p n).dirPerm with
      ⟨hclosed, hnone⟩ | ⟨d₁, hcreate, hd₁⟩
    · rw [hnone]
      refine Or.inl ⟨?_, _, _, rfl⟩
      rw [writable, List.all_cons, List.all_nil, Bool.and_true] at hclosed
      rw [writable, List.all_cons, hclosed, Bool.false_and]
    · rw [hcreate]
      rcases ih (by simp [h]) hd₁ with ⟨hclosed, herror⟩ | ⟨d', hunpack, hd'⟩
      · refine Or.inl ⟨?_, herror⟩
        rw [writable] at hclosed
        rw [writable, List.all_cons, hclosed, Bool.and_false]
      · exact Or.inr ⟨d', hunpack, by rwa [List.append_assoc] at hd'⟩

/-- What is unpacked from a checkout: its paths, contents and link targets, its permission bits but
for those that the node masks out, and what git sees of it. -/
structure Reproduced (checkout : OwnedCheckout) (node : Process) (d : OwnedTree String String) :
    Prop where
  tree : d.tree = checkout.tree
  mode : ∀ e ∈ checkout.entries, d.mode e.1 = node.masked (checkout.perm e.1)
  worktree : worktree d.tree d.mode = worktree checkout.tree checkout.perm

/-- A tree in which all entries are unpacked reproduces the checkout. -/
theorem Unpacked.reproduced {d : OwnedTree String String}
    (hd : Unpacked checkout node checkout.entries d) :
  Reproduced checkout node d
  := by
  have htree : d.tree = checkout.tree := hd.tree
  refine ⟨htree, hd.mode, ?_⟩
  funext p
  simp only [worktree, htree]
  cases hp : checkout.tree p with
  | none => rfl
  | some n =>
    have hmem : (p, n) ∈ checkout.entries := Listing.mem_of_treeOf hp
    rw [hd.mode _ hmem, Process.getLsbD_masked node (Nat.le_refl 6)]

/-- A checkout without white space around its paths is reproduced exactly if the server may read it
and the node may write to its directories. -/
theorem snapshot_reproduces
    (server node : Process) (checkout : OwnedCheckout)
    (hplain : ∀ e ∈ checkout.entries, plainPath e.1 = true) :
  (∃ d, unpackTarGz node (workspace node) (writeDirectoryTarGz server checkout) = (d, .ok ())
      ∧ Reproduced checkout node d)
    ↔ readable server checkout.perm checkout.entries = true
      ∧ writable node checkout.perm checkout.entries = true
  := by
  have hempty : Unpacked checkout node [] (workspace node) := ⟨rfl, rfl, by simp, rfl⟩
  obtain ⟨before, after, hsplit, hentries, hwhole⟩ :=
    walk_entries server checkout.perm checkout.entries
  rw [unpackTarGz, writeDirectoryTarGz, hentries]
  rcases unpackEntries_checkout hplain (show checkout.entries = [] ++ before ++ after from hsplit)
    hempty with
    ⟨hclosed, d, message, herror⟩ | ⟨d, hunpack, hd⟩
  · rw [herror]
    refine iff_of_false (by rintro ⟨_, ⟨⟩, -⟩) fun h => ?_
    rw [hsplit, writable, List.all_append, Bool.and_eq_true] at h
    rw [writable, h.2.1] at hclosed
    cases hclosed
  · rw [hunpack, ← hwhole]
    rw [List.nil_append] at hd
    constructor
    · rintro ⟨d', hend, hreproduced⟩
      cases hended : (walk server checkout.perm checkout.entries).ended with
      | false =>
        rw [hended] at hend
        cases hend
      | true =>
        rw [hended] at hend
        cases hend
        -- what the archive lacks is not in the workspace
        have hnil : after = [] := by
          cases after with
          | nil => rfl
          | cons e after =>
            have hfresh := (checkout.fresh hsplit).2.1
            have hthere : checkout.tree e.1 = some e.2 :=
              Listing.treeOf_of_mem checkout.nodup (by simp [hsplit])
            rw [← hreproduced.tree, hd.tree, Listing.treeOf_none hfresh] at hthere
            cases hthere
        refine ⟨⟨hnil, rfl⟩, ?_⟩
        rw [hsplit, hnil, List.append_nil]
        exact hd.isOpen
    · rintro ⟨⟨hnil, hended⟩, -⟩
      refine ⟨d, by rw [hended]; rfl, Unpacked.reproduced ?_⟩
      rw [hnil, List.append_nil] at hsplit
      rwa [hsplit]

/-- Nobody is privileged, and nothing is written but by the owner. -/
def sampleProcess : Process where
  privileged := false
  umask := 0o022
  umask_owner := by
    intro i hi
    by_cases hsmall : i < 9
    · interval_cases i <;> rfl
    · exact BitVec.getLsbD_of_ge _ i (by omega)

/-- A directory with one file in it. -/
def sampleCheckout (name : String) (h : SlashPath.Proper name.toList) (perm : BitVec 9) :
    OwnedCheckout where
  entries := [(["d"], .dir), (["d", name], .file "one")]
  ne_nil := by simp
  nodup := by simp
  parents := Listing.parents_of_parentsFirst (by simp [Listing.parentsFirst])
  proper := by
    intro e he
    simp only [List.mem_cons, List.not_mem_nil, or_false] at he
    rcases he with rfl | rfl
    · decide
    · simpa [h] using (by decide : SlashPath.Proper "d".toList)
  perm p := if p = ["d"] then perm else 0o755

/-- A name that begins with dots and has a blank in it. -/
theorem snapshot_reproduces_sample :
  ∃ d, unpackTarGz sampleProcess (workspace sampleProcess)
      (writeDirectoryTarGz sampleProcess (sampleCheckout "..a b" (by decide) 0o750)) = (d, .ok ())
    ∧ Reproduced (sampleCheckout "..a b" (by decide) 0o750) sampleProcess d
  := (snapshot_reproduces _ _ _ (by decide)).mpr (by decide)

/-- A blank behind a name is lost. What is in a directory that its owner may not write to cannot be
created. -/
theorem snapshot_differs :
  (∃ d, unpackTarGz sampleProcess (workspace sampleProcess)
        (writeDirectoryTarGz sampleProcess (sampleCheckout "a " (by decide) 0o750)) = (d, .ok ())
      ∧ d.tree ["d", "a "] = none ∧ d.tree ["d", "a"] = some (.file "one"))
    ∧ (unpackTarGz sampleProcess (workspace sampleProcess)
        (writeDirectoryTarGz sampleProcess (sampleCheckout "a" (by decide) 0o555))).2
      = .error "cannot create d/a"
  := by
  refine ⟨⟨_, rfl, ?_, ?_⟩, ?_⟩
  · decide
  · decide
  · decide

end SnapshotModes

end Ploy
