import Ploy.Foundations.SlashPath

/-!
# File systems with symbolic links

A file system says what is at each location, a location being its names from the root on. A path is
walked name by name; at a symbolic link the walk goes on with the names of its target. Every
operation notes the locations that it creates, truncates or writes.
-/

/-- What is at a location. -/
inductive DiskNode (γ : Type) where
  | dir
  | file (content : γ)
  | link (target : Str)
  deriving DecidableEq, Repr

/-- Why an operation fails. -/
inductive DiskError where
  | notFound | notDirectory | isDirectory | exists | tooManyLinks
  deriving DecidableEq, Repr

/-- The content of a file system, whose root is a directory, and the locations that were written. -/
structure Disk (γ : Type) where
  tree : List Str → Option (DiskNode γ)
  root : tree [] = some .dir
  touched : List (List Str)

namespace Disk

variable {γ : Type}

/-! ### Walking a path -/

/-- Where a path leads: to something, to a name in a directory that is not there, or nowhere. -/
inductive Walk where
  | found (location : List Str)
  | missing (location : List Str)
  | failed (error : DiskError)
  deriving DecidableEq, Repr

/-- The names on a path, walked from a location on. Links are followed by `follow`. -/
def walkWith (tree : List Str → Option (DiskNode γ))
    (follow : List Str → List Str → Walk) :
    List Str → List Str → Walk
  | location, [] => .found location
  | location, name :: rest =>
    if name = [] ∨ name = SlashPath.dot then walkWith tree follow location rest
    else if name = SlashPath.dotDot then walkWith tree follow location.dropLast rest
    else
      match tree (location ++ [name]) with
      | none => if rest = [] then .missing (location ++ [name]) else .failed .notFound
      | some .dir => walkWith tree follow (location ++ [name]) rest
      | some (.file _) => if rest = [] then .found (location ++ [name]) else .failed .notDirectory
      | some (.link target) =>
        follow (if SlashPath.isAbs target then [] else location) (target.splitOn '/' ++ rest)

/-- The names on a path, walked from a location on, with a number of links to follow at most. -/
def walk (tree : List Str → Option (DiskNode γ)) :
    Nat → List Str → List Str → Walk
  | 0 => walkWith tree fun _ _ => .failed .tooManyLinks
  | links + 1 => walkWith tree (walk tree links)

/-- The number of links that are followed on one path. -/
def maxLinks : Nat := 40

/-- Where a path from the root leads. -/
def resolve (d : Disk γ) (path : List Str) : Walk :=
  walk d.tree maxLinks [] path

/-! ### Operations -/

/-- Whether a directory is at a location. -/
def isDir (d : Disk γ) (location : List Str) : Bool :=
  match d.tree location with
  | some .dir => true
  | _ => false

/-- A node put at a location other than the root. -/
def put (d : Disk γ) (location : List Str) (node : DiskNode γ) : Disk γ where
  tree l := if l = location ∧ l ≠ [] then some node else d.tree l
  root := by simp [d.root]
  touched := location :: d.touched

/-- The location of a name in the directory that a path leads to, and what is there. The name
itself is not followed. -/
def entryOf (d : Disk γ) (directory : List Str) (name : Str) :
    Except DiskError (List Str × Option (DiskNode γ)) :=
  match d.resolve directory with
  | .found location =>
    if d.isDir location then
      .ok (location ++ [name], d.tree (location ++ [name]))
    else .error .notDirectory
  | .missing _ => .error .notFound
  | .failed error => .error error

/-- A directory made in a directory, unless it is there. -/
def mkdir (d : Disk γ) (directory : List Str) (name : Str) :
    Disk γ × Option DiskError :=
  match d.entryOf directory name with
  | .ok (location, none) => (d.put location .dir, none)
  | .ok (_, some .dir) => (d, none)
  | .ok (_, some _) => (d, some .exists)
  | .error error => (d, some error)

/-- The directories on a path made where they are missing. The path is given with its last name
first. -/
def mkdirAll (d : Disk γ) : List Str → Disk γ × Option DiskError
  | [] => (d, none)
  | name :: above =>
    match d.resolve (name :: above).reverse with
    | .found location =>
      if d.isDir location then (d, none)
      else (d, some .notDirectory)
    | _ =>
      match mkdirAll d above with
      | (d, none) => mkdir d above.reverse name
      | (d, some error) => (d, some error)

/-- A file made or truncated, and written. -/
def writeFile (d : Disk γ) (path : List Str) (content : γ) : Disk γ × Option DiskError :=
  match d.resolve path with
  | .found location =>
    match d.tree location with
    | some (.file _) => (d.put location (.file content), none)
    | _ => (d, some .isDirectory)
  | .missing location => (d.put location (.file content), none)
  | .failed error => (d, some error)

/-- A symbolic link made in a directory. -/
def symlink (d : Disk γ) (directory : List Str) (name target : Str) :
    Disk γ × Option DiskError :=
  if target = [] then (d, some .notFound)
  else
    match d.entryOf directory name with
    | .ok (location, none) => (d.put location (.link target), none)
    | .ok (_, some _) => (d, some .exists)
    | .error error => (d, some error)

/-! ### Walks -/

variable {tree tree' : List Str → Option (DiskNode γ)}
variable {follow follow' : List Str → List Str → Walk}

variable {location path : List Str}

/-- A path that is found is found with more files as well. -/
theorem walkWith_mono (hmore : ∀ l node, tree l = some node → tree' l = some node)
    (hfollow : ∀ l p found, follow l p = .found found → follow' l p = .found found)
    {found : List Str} (h : walkWith tree follow location path = .found found) :
  walkWith tree' follow' location path = .found found
  := by
  induction path generalizing location with
  | nil => exact h
  | cons name rest ih =>
    rw [walkWith] at h ⊢
    split at h
    · next hskip =>
        rw [if_pos hskip]
        exact ih h
    · next hskip =>
        rw [if_neg hskip]
        split at h
        · next hup =>
            rw [if_pos hup]
            exact ih h
        · next hup =>
            rw [if_neg hup]
            split at h
            · split at h <;> cases h
            · next hdir =>
                rw [hmore _ _ hdir]
                exact ih h
            · next content hfile =>
                rw [hmore _ _ hfile]
                exact h
            · next target hlink =>
                rw [hmore _ _ hlink]
                exact hfollow _ _ _ h

theorem walk_mono (hmore : ∀ l node, tree l = some node → tree' l = some node) {links : Nat}
    {found : List Str} (h : walk tree links location path = .found found) :
  walk tree' links location path = .found found
  := by
  induction links generalizing location path found with
  | zero =>
    apply walkWith_mono hmore _ h
    intro _ _ _ hnever
    cases hnever
  | succ links ih =>
    apply walkWith_mono hmore _ h
    intro l p found hlink
    exact ih hlink

/-- A path is walked in two parts if its first part leads to a directory. -/
theorem walkWith_append
    {found b : List Str} (hdir : ∀ content, tree found ≠ some (.file content))
    (hend : ∃ m, walkWith tree follow found b = walk tree m found b)
    (hfollow : ∀ l p, follow l p = .found found → ∃ m, follow l (p ++ b) = walk tree m found b)
    {a : List Str} (h : walkWith tree follow location a = .found found) :
  ∃ m, walkWith tree follow location (a ++ b) = walk tree m found b
  := by
  induction a generalizing location with
  | nil =>
    cases h
    exact hend
  | cons name rest ih =>
    rw [walkWith] at h
    rw [List.cons_append, walkWith]
    split at h
    · next hskip =>
        rw [if_pos hskip]
        exact ih h
    · next hskip =>
        rw [if_neg hskip]
        split at h
        · next hup =>
            rw [if_pos hup]
            exact ih h
        · next hup =>
            rw [if_neg hup]
            split at h
            · split at h <;> cases h
            · exact ih h
            · next content hfile =>
                split at h
                · cases h
                  exact absurd hfile (hdir content)
                · cases h
            · rw [← List.append_assoc]
              exact hfollow _ _ h

theorem walk_append
    {found b : List Str} (hdir : ∀ content, tree found ≠ some (.file content)) {links : Nat}
    {a : List Str} (h : walk tree links location a = .found found) :
  ∃ m, walk tree links location (a ++ b) = walk tree m found b
  := by
  induction links generalizing location a with
  | zero =>
    apply walkWith_append hdir ⟨0, rfl⟩ _ h
    intro _ _ hnever
    cases hnever
  | succ links ih =>
    apply walkWith_append hdir ⟨links + 1, rfl⟩ _ h
    intro l p hlink
    exact ih hlink

/-- No name on a path below a location is a link. -/
def Clear (tree : List Str → Option (DiskNode γ)) (location path : List Str) :
    Prop :=
  ∀ p, p ≠ [] → p <+: path → ∀ target, tree (location ++ p) ≠ some (.link target)

theorem Clear.tail {rest : List Str} {name : Str}
    (h : Clear tree location (name :: rest)) :
  Clear tree (location ++ [name]) rest
  := by
  intro p _ hpre target
  rw [List.append_assoc]
  apply h ([name] ++ p) (by simp)
  exact (List.prefix_append_right_inj [name]).mpr hpre

theorem Clear.of_append {a b : List Str} (h : Clear tree location (a ++ b)) :
  Clear tree location a
  := by
  intro p hp hpre
  exact h p hp (hpre.trans (List.prefix_append a b))

/-- A path without links leads to what it names, or nowhere. -/
theorem walkWith_clear (hproper : ∀ name ∈ path, SlashPath.Proper name)
    (h : Clear tree location path) :
  walkWith tree follow location path = .found (location ++ path)
    ∨ walkWith tree follow location path = .missing (location ++ path)
    ∨ ∃ error, walkWith tree follow location path = .failed error
  := by
  induction path generalizing location with
  | nil =>
    left
    rw [List.append_nil]
    rfl
  | cons name rest ih =>
    have hname := hproper name List.mem_cons_self
    have hrest : ∀ n ∈ rest, SlashPath.Proper n :=
      fun n hn => hproper n (List.mem_cons_of_mem _ hn)
    rw [walkWith, if_neg (fun hor => hor.elim hname.ne_nil hname.ne_dot),
      if_neg hname.ne_dotDot]
    have happend : location ++ name :: rest = location ++ [name] ++ rest := by simp
    split
    · split
      · next hnil =>
          right
          left
          rw [hnil]
      · exact Or.inr (Or.inr ⟨_, rfl⟩)
    · rw [happend]
      exact ih hrest h.tail
    · split
      · next hnil =>
          left
          rw [hnil]
      · exact Or.inr (Or.inr ⟨_, rfl⟩)
    · next target hlink =>
        have hpre : [name] <+: name :: rest := ⟨rest, rfl⟩
        exact absurd hlink (h [name] (by simp) hpre target)

/-! ### Staying below a directory -/

def Below (directory location : List Str) : Prop :=
  ∃ p, p ≠ [] ∧ location = directory ++ p

/-- A path that leads to a directory. -/
structure Leads (d : Disk γ) (path directory : List Str) : Prop where
  found : d.resolve path = .found directory
  dir : d.isDir directory = true

/-- What was done between two states: only locations below a directory were written. -/
structure Within (directory : List Str) (d d' : Disk γ) : Prop where
  touched : ∀ l ∈ d'.touched, l ∈ d.touched ∨ Below directory l
  kept : ∀ l, ¬ Below directory l → d'.tree l = d.tree l

/-- What was done between two states, and no link was made. -/
structure Plain (directory : List Str) (d d' : Disk γ) : Prop
    extends Within directory d d' where
  links : ∀ l target, d'.tree l = some (.link target) → d.tree l = some (.link target)

variable {d d' d'' : Disk γ} {directory base : List Str}

theorem Within.refl : Within directory d d :=
  ⟨fun _ h => Or.inl h, fun _ _ => rfl⟩

theorem Within.trans (h : Within directory d d') (h' : Within directory d' d'') :
  Within directory d d''
  := by
  constructor
  · intro l hl
    rcases h'.touched l hl with hl | hl
    · exact h.touched l hl
    · exact Or.inr hl
  · intro l hl
    rw [h'.kept l hl, h.kept l hl]

theorem Plain.refl : Plain directory d d :=
  ⟨Within.refl, fun _ _ h => h⟩

theorem Plain.trans (h : Plain directory d d') (h' : Plain directory d' d'') :
  Plain directory d d''
  := ⟨h.toWithin.trans h'.toWithin, fun l target hl => h.links l target (h'.links l target hl)⟩

theorem Plain.clear (h : Plain directory d d') (hclear : Clear d.tree directory path) :
  Clear d'.tree directory path
  := by
  intro p hp hpre target hlink
  exact hclear p hp hpre target (h.links _ _ hlink)

theorem within_put (hlocation : Below directory location) (node : DiskNode γ) :
  Within directory d (d.put location node)
  := by
  constructor
  · intro l hl
    rcases List.mem_cons.mp hl with rfl | hl
    · exact Or.inr hlocation
    · exact Or.inl hl
  · intro l hl
    apply if_neg
    rintro ⟨rfl, -⟩
    exact hl hlocation

theorem Leads.of_within
    (h : Leads d base directory) (hempty : ∀ l, Below directory l → d.tree l = none)
    (hwithin : Within directory d d') :
  Leads d' base directory
  := by
  constructor
  · apply walk_mono _ h.found
    intro l node hl
    rw [hwithin.kept l (fun hbelow => by rw [hempty l hbelow] at hl; cases hl)]
    exact hl
  · have hself : ¬ Below directory directory := by
      rintro ⟨p, hp, heq⟩
      exact hp (List.append_right_eq_self.mp heq.symm)
    have hdir := h.dir
    rw [isDir] at hdir ⊢
    rwa [hwithin.kept directory hself]

/-- A path leads to an empty directory. -/
structure Fresh (d : Disk γ) (path directory : List Str) : Prop
    extends Leads d path directory where
  empty : ∀ l, Below directory l → d.tree l = none

theorem Fresh.leads
    {d₀ : Disk γ} (h : Fresh d₀ base directory) (hwithin : Within directory d₀ d) :
  Leads d base directory
  := h.toLeads.of_within h.empty hwithin

theorem Leads.resolve_append (h : Leads d base directory)
    (hproper : ∀ name ∈ path, SlashPath.Proper name) (hclear : Clear d.tree directory path) :
  d.resolve (base ++ path) = .found (directory ++ path)
    ∨ d.resolve (base ++ path) = .missing (directory ++ path)
    ∨ ∃ error, d.resolve (base ++ path) = .failed error
  := by
  have hdir : ∀ content, d.tree directory ≠ some (.file content) := by
    intro content hfile
    have hdir := h.dir
    rw [isDir, hfile] at hdir
    cases hdir
  obtain ⟨m, hm⟩ := walk_append (b := path) hdir h.found
  rw [resolve, hm]
  cases m with
  | zero | succ => exact walkWith_clear hproper hclear

theorem Leads.entryOf_ok (h : Leads d base directory)
    (hproper : ∀ name ∈ path, SlashPath.Proper name) (hclear : Clear d.tree directory path)
    {name : Str} {node : Option (DiskNode γ)}
    (hentry : d.entryOf (base ++ path) name = .ok (location, node)) :
  location = directory ++ (path ++ [name])
  := by
  rw [entryOf] at hentry
  rcases h.resolve_append hproper hclear with hwalk | hwalk | ⟨error, hwalk⟩
  · rw [hwalk] at hentry
    dsimp only at hentry
    split at hentry
    · cases hentry
      rw [List.append_assoc]
    · cases hentry
  · rw [hwalk] at hentry
    cases hentry
  · rw [hwalk] at hentry
    cases hentry

/-- A directory made below a directory is made inside it. -/
theorem Leads.mkdir (h : Leads d base directory)
    (hproper : ∀ name ∈ path, SlashPath.Proper name) (hclear : Clear d.tree directory path)
    (name : Str) :
  Plain directory d (d.mkdir (base ++ path) name).1
  := by
  rw [Disk.mkdir]
  split
  · next location hentry =>
      have hbelow : Below directory location :=
        ⟨path ++ [name], by simp, h.entryOf_ok hproper hclear hentry⟩
      refine ⟨within_put hbelow _, ?_⟩
      intro l target hlink
      rw [put] at hlink
      dsimp only at hlink
      split at hlink
      · cases hlink
      · exact hlink
  · exact Plain.refl
  · exact Plain.refl
  · exact Plain.refl

/-- Directories made below a new directory are made inside it. -/
theorem Fresh.mkdirAll {d₀ : Disk γ} (h : Fresh d₀ base directory) (hwithin : Within directory d₀ d)
    (hproper : ∀ name ∈ path, SlashPath.Proper name) (hclear : Clear d.tree directory path) :
  Plain directory d (d.mkdirAll (base ++ path).reverse).1
  := by
  have hleads := h.leads hwithin
  induction path using List.reverseRecOn with
  | nil =>
    -- the directory itself is there
    rw [List.append_nil]
    cases hbase : base.reverse with
    | nil => exact Plain.refl
    | cons name above =>
      have hpath : (name :: above).reverse = base := by rw [← hbase, List.reverse_reverse]
      rw [Disk.mkdirAll, hpath, hleads.found]
      simp only [hleads.dir, if_true]
      exact Plain.refl
  | append_singleton path name ih =>
    have hproper' : ∀ n ∈ path, SlashPath.Proper n :=
      fun n hn => hproper n (List.mem_append_left _ hn)
    have hrec := ih hproper' hclear.of_append
    rw [← List.append_assoc, List.reverse_append, List.reverse_singleton, List.singleton_append,
      Disk.mkdirAll]
    split
    · split <;> exact Plain.refl
    · split
      · next d₁ heq =>
          rw [heq] at hrec
          rw [List.reverse_reverse]
          have hleads₁ := h.leads (hwithin.trans hrec.toWithin)
          exact hrec.trans (hleads₁.mkdir hproper' (hrec.clear hclear.of_append) name)
      · next d₁ error heq =>
          rw [heq] at hrec
          exact hrec

theorem Leads.writeFile (h : Leads d base directory) (hne : path ≠ [])
    (hproper : ∀ name ∈ path, SlashPath.Proper name) (hclear : Clear d.tree directory path)
    (content : γ) :
  Within directory d (d.writeFile (base ++ path) content).1
  := by
  have hbelow : Below directory (directory ++ path) := ⟨path, hne, rfl⟩
  rw [Disk.writeFile]
  rcases h.resolve_append hproper hclear with hwalk | hwalk | ⟨error, hwalk⟩
  · rw [hwalk]
    dsimp only
    split
    · exact within_put hbelow _
    · exact Within.refl
  · rw [hwalk]
    exact within_put hbelow _
  · rw [hwalk]
    exact Within.refl

theorem Leads.symlink (h : Leads d base directory)
    (hproper : ∀ name ∈ path, SlashPath.Proper name) (hclear : Clear d.tree directory path)
    (name target : Str) :
  Within directory d (d.symlink (base ++ path) name target).1
  := by
  rw [Disk.symlink]
  split
  · exact Within.refl
  · split
    · next location hentry =>
        have hbelow : Below directory location :=
          ⟨path ++ [name], by simp, h.entryOf_ok hproper hclear hentry⟩
        exact within_put hbelow _
    · exact Within.refl
    · exact Within.refl

end Disk
