import Ploy.Foundations.Dictionary
import Ploy.Foundations.Fallible
import Ploy.Foundations.JsonText
import Ploy.Spec.Hydra

/-!
# File records as they are written

An author writes where a file comes from and where it is mounted. The compiler takes up the
content, and stores its short hash in place of the source. Records that have a hash already are left
alone.
-/

namespace Ploy

open SlashPath
open JsonText (Value)

/-! ### One record -/

/-- What an authored record says. -/
structure AuthoringFileEntry where
  src : Str
  dst : Str
  readOnly : Bool
  deriving DecidableEq, Repr

def beforeLastColon (s : Str) : Str :=
  ((s.reverse.dropWhile (· ≠ ':')).drop 1).reverse

def afterLastColon (s : Str) : Str :=
  (s.reverse.takeWhile (· ≠ ':')).reverse

def splitRightBiasedColon (s : Str) : Except RecordFault (Str × Str) :=
  if ':' ∈ s then
    if trim (beforeLastColon s) = [] then .error .sourceIsEmpty
    else if trim (afterLastColon s) = [] then .error .destinationIsEmpty
    else .ok (beforeLastColon s, afterLastColon s)
  else .error .expectedSrcDst

/-- A text without one slash before it. -/
def trimSlash (s : Str) : Str :=
  if isAbs s then s.drop 1 else s

def cleanDestination (dst : Str) : Except RecordFault Str :=
  if trim dst = [] then .error .destinationRequired
  else
    let dst := clean (trimSlash (trim dst))
    if dst = [] ∨ dst = dot then .error .destinationRequired else .ok dst

def normalizeAuthoringDestination (dst root : Str) : Except RecordFault Str := do
  let dst ← cleanDestination dst
  return root ++ dst

def normalizeAuthoringTmpDestination (dst : Str) : Except RecordFault Str :=
  if trim dst = [] then .error .destinationRequired
  else if isAbs (trim dst) then
    let cleaned := clean (trim dst)
    if HydraFileKind.tmp.root <+: cleaned then .ok cleaned
    else .error (.mustStartWith HydraFileKind.tmp.root)
  else
    let relative := clean (trim dst)
    if relative = [] ∨ relative = dot then .error .destinationRequired
    else .ok (HydraFileKind.tmp.root ++ relative)

/-- The destination of an authored record, as it is stored. -/
def authoringDestination (kind : HydraFileKind) (dst : Str) :
    Except RecordFault Str :=
  match kind with
  | .in | .out => normalizeAuthoringDestination dst kind.root
  | .home => cleanDestination dst
  | .tmp => normalizeAuthoringTmpDestination dst

/-- What an authored record says, or why it is refused. -/
def authoringEntry (kind : HydraFileKind) (s : Str) :
    Except RecordFault AuthoringFileEntry := do
  let (body, readOnly) := splitReadOnly kind s
  let (src, dst) ← splitRightBiasedColon body
  validateHydraPathSafety dst
  let dst ← authoringDestination kind dst
  return ⟨src, dst, readOnly⟩

/-- An authored record read. -/
def parseAuthoringEntry (kind : HydraFileKind) (s : Str) :
    Except RecordError AuthoringFileEntry :=
  (authoringEntry kind s).mapError fun fault => ⟨kind, s, fault⟩

def storedText (hash : Str) (entry : AuthoringFileEntry) : Str :=
  hash ++ ':' :: entry.dst ++ (if entry.readOnly then readOnlySuffix else [])

/-- Whether a record has a hash already. -/
def isAlreadyCanonical (s : Str) : Bool :=
  if ':' ∈ s then isHydraShortHash (s.takeWhile (· ≠ ':')) else false

/-! ### The records of a step -/

/-- Why the records of a step are refused: the field, the place in it, and what is wrong there. -/
inductive BlockFault (ε : Type) where
  | expectedString (raw : Value)
  | record (error : RecordError)
  | source (error : ε)

structure BlockError (ε : Type) where
  field : HydraFileKind
  place : Nat
  fault : BlockFault ε

section Compile

variable {σ ε : Type}

/-- The records of one field, from a place on. The content of a source is taken up by `hashFile`,
which may remember what it took up. -/
def compileEntries (kind : HydraFileKind)
    (hashFile : Str → σ → Except ε (Str × σ)) :
    Nat → List Value → σ → Except (BlockError ε) (List Value × σ)
  | _, [], st => .ok ([], st)
  | i, .string s :: rest, st =>
    if isAlreadyCanonical s then do
      let (compiled, st) ← compileEntries kind hashFile (i + 1) rest st
      return (.string s :: compiled, st)
    else do
      let entry ← (parseAuthoringEntry kind s).mapError fun e => ⟨kind, i, .record e⟩
      let (hash, st) ← (hashFile entry.src st).mapError fun e => ⟨kind, i, .source e⟩
      let (compiled, st) ← compileEntries kind hashFile (i + 1) rest st
      return (.string (storedText hash entry) :: compiled, st)
  | i, raw :: _, _ => .error ⟨kind, i, .expectedString raw⟩

/-- The records of one field of a step. A field that is no list, or is empty, is left alone. -/
def compileField (hashFile : Str → σ → Except ε (Str × σ)) (kind : HydraFileKind)
    (block : List (Str × Value)) (st : σ) :
    Except (BlockError ε) (List (Str × Value) × σ) :=
  match Dictionary.get block kind.text with
  | some (.array (entry :: rest)) => do
      let (compiled, st) ← compileEntries kind hashFile 0 (entry :: rest) st
      return (Dictionary.set block kind.text (.array compiled), st)
  | _ => .ok (block, st)

/-- The records of the fields of a step, one field after the other. -/
def compileFields (hashFile : Str → σ → Except ε (Str × σ)) :
    List HydraFileKind → List (Str × Value) → σ →
      Except (BlockError ε) (List (Str × Value) × σ)
  | [], block, st => .ok (block, st)
  | kind :: kinds, block, st => do
      let (block, st) ← compileField hashFile kind block st
      compileFields hashFile kinds block st

/-- All records of a step. -/
def compileHydraBlock (hashFile : Str → σ → Except ε (Str × σ))
    (block : List (Str × Value)) (st : σ) :
    Except (BlockError ε) (List (Str × Value) × σ) :=
  compileFields hashFile HydraFileKind.all block st

end Compile

/-- Whether a record is one that has to be compiled. -/
def isAuthoring : Value → Bool
  | .string s => !isAlreadyCanonical s
  | _ => false

def hasAuthoringEntries (block : List (Str × Value)) : Bool :=
  HydraFileKind.all.any fun kind =>
    match Dictionary.get block kind.text with
    | some (.array entries) => entries.any isAuthoring
    | _ => false

/-! ### Texts with colons -/

variable {s : Str}

theorem mem_trim {c : Char} (h : c ∈ trim s) :
  c ∈ s
  := by
  rw [trim, List.mem_reverse] at h
  have h := (List.dropWhile_sublist isSpace).subset h
  rw [List.mem_reverse] at h
  exact (List.dropWhile_sublist isSpace).subset h

theorem mem_trimSlash {c : Char} (h : c ∈ trimSlash s) :
  c ∈ s
  := by
  rw [trimSlash] at h
  split at h
  · exact List.mem_of_mem_drop h
  · exact h

theorem colon_not_mem_afterLastColon (s : Str) :
  ':' ∉ afterLastColon s
  := by
  rw [afterLastColon, List.mem_reverse]
  intro h
  have hkept := List.mem_takeWhile_imp h
  simp at hkept

theorem takeWhile_before_colon
    {a : Str} (h : ':' ∉ a) (b : Str) :
  (a ++ ':' :: b).takeWhile (· ≠ ':') = a
  := by
  rw [List.takeWhile_append_of_pos]
  · simp
  · intro c hc
    have hne : c ≠ ':' := fun heq => h (heq ▸ hc)
    simpa using hne

theorem dropWhile_before_colon
    {a : Str} (h : ':' ∉ a) (b : Str) :
  (a ++ ':' :: b).dropWhile (· ≠ ':') = ':' :: b
  := by
  rw [List.dropWhile_append_of_pos]
  · simp
  · intro c hc
    have hne : c ≠ ':' := fun heq => h (heq ▸ hc)
    simpa using hne

variable {hash : Str}

theorem colon_not_mem_of_isHydraShortHash
    (h : isHydraShortHash hash = true) :
  ':' ∉ hash
  := by
  intro hmem
  rw [isHydraShortHash, Bool.and_eq_true] at h
  have hdigit := List.all_eq_true.mp h.2 ':' hmem
  exact absurd hdigit (by decide)

theorem isAlreadyCanonical_of_hash
    (h : isHydraShortHash hash = true) (rest : Str) :
  isAlreadyCanonical (hash ++ ':' :: rest) = true
  := by
  rw [isAlreadyCanonical, if_pos (by simp),
    takeWhile_before_colon (colon_not_mem_of_isHydraShortHash h)]
  exact h

theorem splitHashDst_of_hash
    {hash dst : Str} (h : isHydraShortHash hash = true) (hdst : trim dst ≠ []) :
  splitHashDst (hash ++ ':' :: dst) = .ok (hash, dst)
  := by
  have hcolon := colon_not_mem_of_isHydraShortHash h
  rw [splitHashDst, if_pos (by simp)]
  simp only [takeWhile_before_colon hcolon, dropWhile_before_colon hcolon, h, hdst, if_false,
    Bool.true_eq_false, List.drop_succ_cons, List.drop_zero]

theorem readOnlySuffix_of_suffix
    {a b : Str} (hb : ':' ∉ b) (h : readOnlySuffix <:+ a ++ ':' :: b) :
  b = ['r', 'o']
  := by
  obtain ⟨t, ht⟩ := h
  have hrev : 'o' :: 'r' :: ':' :: t.reverse = b.reverse ++ ':' :: a.reverse := by
    simpa [readOnlySuffix] using congrArg List.reverse ht
  have htake := congrArg (List.takeWhile (· ≠ ':')) hrev
  rw [takeWhile_before_colon (by rwa [List.mem_reverse])] at htake
  have hro : ['o', 'r'] = b.reverse := by simpa using htake
  simpa using (congrArg List.reverse hro).symm

theorem splitReadOnly_append (body : Str) :
  splitReadOnly .home (body ++ readOnlySuffix) = (body, true)
  := by
  rw [splitReadOnly, if_pos ⟨rfl, List.suffix_append _ _⟩]
  simp

variable {kind : HydraFileKind}

theorem splitReadOnly_of_ne
    (h : kind ≠ .home) (s : Str) :
  splitReadOnly kind s = (s, false)
  := by
  rw [splitReadOnly, if_neg (fun hand => h hand.1)]

/-! ### Reading a stored record back -/

theorem proper_kind_text (kind : HydraFileKind) :
  Proper kind.text
  := by
  cases kind <;> decide

variable {es : List Str}

theorem root_append_join
    (kind : HydraFileKind) (hne : es ≠ []) :
  kind.root ++ join es = '/' :: join (kind.text :: es)
  := by
  rw [join_cons, if_neg hne, HydraFileKind.root]
  simp

theorem trim_slash_cons_ne_nil (s : Str) :
  trim ('/' :: s) ≠ []
  := by
  have hdrop : ('/' :: s).dropWhile isSpace = '/' :: s :=
    List.dropWhile_cons_of_neg (by decide)
  rw [trim, hdrop]
  intro h
  have hnil : ('/' :: s).reverse.dropWhile isSpace = [] := List.reverse_eq_nil_iff.mp h
  have hspace := List.dropWhile_eq_nil_iff.mp hnil '/' (by simp)
  exact absurd hspace (by decide)

/-- A stored record is read as it was written exactly if its destination is not blank, safe, clean
and one of its kind. -/
theorem storedEntry_iff {body dst : Str} {marked : Bool}
    (hhash : isHydraShortHash hash = true) (hsplit : splitReadOnly kind s = (body, marked))
    (hbody : body = hash ++ ':' :: dst) :
  storedEntry kind s = .ok ⟨hash, dst, kind = .in || marked⟩
    ↔ trim dst ≠ [] ∧ dotDot ∉ dst.splitOn '/' ∧ clean dst = dst
      ∧ checkDestination kind dst = .ok ()
  := by
  rw [storedEntry, hsplit, hbody]
  dsimp only
  by_cases hblank : trim dst = []
  · have hcolon := colon_not_mem_of_isHydraShortHash hhash
    rw [splitHashDst, if_pos (by simp)]
    simp only [takeWhile_before_colon hcolon, dropWhile_before_colon hcolon, hhash, hblank,
      List.drop_succ_cons, List.drop_zero]
    exact ⟨fun h => (by cases h), fun h => absurd rfl h.1⟩
  · rw [splitHashDst_of_hash hhash hblank, Fallible.ok_bind, validateHydraPathSafety]
    by_cases hsafe : dotDot ∈ dst.splitOn '/'
    · rw [if_pos hsafe]
      exact ⟨fun h => (by cases h), fun h => absurd hsafe h.2.1⟩
    · rw [if_neg hsafe]
      constructor
      · intro h
        obtain ⟨_, -, h⟩ := Fallible.bind_eq_ok.mp h
        obtain ⟨_, hcheck, h⟩ := Fallible.bind_eq_ok.mp h
        have hclean : clean dst = dst := congrArg ParsedStoredEntry.dst (Except.ok.inj h)
        exact ⟨hblank, hsafe, hclean, hclean ▸ hcheck⟩
      · rintro ⟨-, -, hclean, hcheck⟩
        rw [Fallible.ok_bind, hclean, hcheck]
        rfl

theorem readOnly_storedEntry {stored : ParsedStoredEntry} (h : storedEntry kind s = .ok stored) :
  stored.readOnly = (decide (kind = .in) || (splitReadOnly kind s).2)
  := by
  rw [storedEntry] at h
  obtain ⟨⟨_, _⟩, -, h⟩ := Fallible.bind_eq_ok.mp h
  obtain ⟨_, -, h⟩ := Fallible.bind_eq_ok.mp h
  obtain ⟨_, -, h⟩ := Fallible.bind_eq_ok.mp h
  exact (congrArg ParsedStoredEntry.readOnly (Except.ok.inj h)).symm

/-- Below the directory of a kind, a clean path stays safe and clean exactly if it is relative and
does not lead upwards. -/
theorem clean_root_iff (kind : HydraFileKind) {p : Str} (hdot : clean p ≠ dot) :
  (dotDot ∉ (kind.root ++ clean p).splitOn '/'
    ∧ clean (kind.root ++ clean p) = kind.root ++ clean p)
    ↔ isAbs (clean p) = false ∧ dotDot ∉ (clean p).splitOn '/'
  := by
  have hsplit : (kind.root ++ clean p).splitOn '/' = [] :: kind.text :: (clean p).splitOn '/' := by
    rw [HydraFileKind.root, List.cons_append, List.append_assoc, splitOn_slash_cons,
      List.singleton_append,
      List.splitOn_append_cons_self_of_not_mem (proper_kind_text kind).no_slash]
  constructor
  · rintro ⟨hsafe, hclean⟩
    have hsafe' : dotDot ∉ (clean p).splitOn '/' := by
      rw [hsplit] at hsafe
      exact fun h => hsafe (List.mem_cons_of_mem _ (List.mem_cons_of_mem _ h))
    refine ⟨?_, hsafe'⟩
    by_contra habs
    -- an absolute path would leave two slashes in a row
    obtain ⟨rest, hrest⟩ : ∃ rest, clean p = '/' :: rest := by
      cases hp : clean p with
      | nil => simp [hp, isAbs] at habs
      | cons c rest => exact ⟨rest, by simpa [hp, isAbs] using habs⟩
    obtain ⟨hjoin, hproper⟩ := eq_slash_join (p := kind.root ++ clean p) rfl hclean
    have hne : elements (kind.root ++ clean p) ≠ [] := by
      intro hnil
      rw [hnil] at hjoin
      exact absurd (congrArg List.length hjoin) (by cases kind <;> simp [HydraFileKind.root,
        HydraFileKind.text, join, hrest])
    rw [hjoin, splitOn_slash_cons, splitOn_join hproper hne, hrest, splitOn_slash_cons] at hsplit
    rw [hrest] at hproper
    have hempty : [] ∈ elements (kind.root ++ '/' :: rest) := by
      rw [(List.cons.inj hsplit).2]
      simp
    exact (hproper [] hempty).ne_nil rfl
  · rintro ⟨habs, hsafe⟩
    obtain ⟨hjoin, hne, hproper⟩ := clean_eq_join habs hdot hsafe
    have hall : ∀ e ∈ kind.text :: cleaned p, Proper e := by
      intro e he
      rcases List.mem_cons.mp he with rfl | he
      · exact proper_kind_text kind
      · exact hproper e he
    constructor
    · rw [hsplit, List.mem_cons, List.mem_cons, not_or, not_or]
      exact ⟨by decide, (proper_kind_text kind).ne_dotDot.symm, hsafe⟩
    · rw [hjoin, root_append_join kind hne]
      exact clean_slash_join hall (List.cons_ne_nil _ _)

/-! ### The destination of an authored record -/

/-- The destination an authored record asks for, as it is written. -/
def writtenDestination (kind : HydraFileKind) (s : Str) : Str :=
  afterLastColon (splitReadOnly kind s).1

/-- Where an authored record leads to, below the directory of its kind unless it is absolute. -/
def writtenPlace (kind : HydraFileKind) (s : Str) : Str :=
  let dst := trim (writtenDestination kind s)
  clean (if kind = .tmp then dst else trimSlash dst)

theorem colon_not_mem_writtenPlace (kind : HydraFileKind) (s : Str) :
  ':' ∉ writtenPlace kind s
  := by
  intro h
  apply colon_not_mem_afterLastColon (splitReadOnly kind s).1
  rw [writtenPlace] at h
  have hmem := mem_of_mem_clean h (by decide) (by decide)
  split at hmem
  · exact mem_trim hmem
  · exact mem_trim (mem_trimSlash hmem)

variable {entry : AuthoringFileEntry}

/-- What is known of an entry that was parsed. -/
theorem authoringEntry_ok
    (h : parseAuthoringEntry kind s = .ok entry) :
  authoringDestination kind (writtenDestination kind s) = .ok entry.dst
    ∧ entry.readOnly = (splitReadOnly kind s).2
  := by
  have h := Fallible.mapError_eq_ok.mp h
  rw [authoringEntry] at h
  obtain ⟨⟨src, dst⟩, hsplit, h⟩ := Fallible.bind_eq_ok.mp h
  obtain ⟨_, -, h⟩ := Fallible.bind_eq_ok.mp h
  obtain ⟨d, hdst, h⟩ := Fallible.bind_eq_ok.mp h
  cases h
  rw [splitRightBiasedColon] at hsplit
  split at hsplit
  · split at hsplit
    · cases hsplit
    · split at hsplit
      · cases hsplit
      · cases hsplit
        exact ⟨hdst, rfl⟩
  · cases hsplit

theorem cleanDestination_ok {dst d : Str} (h : cleanDestination dst = .ok d) :
  d = clean (trimSlash (trim dst)) ∧ d ≠ [] ∧ d ≠ dot
  := by
  rw [cleanDestination] at h
  split at h
  · cases h
  · dsimp only at h
    split at h
    · cases h
    · next hdot =>
        cases h
        exact ⟨rfl, fun heq => hdot (Or.inl heq), fun heq => hdot (Or.inr heq)⟩

/-- Below its directory the destination of an accepted record is its place there. Below `/tmp` it
may be written as a whole. -/
theorem rooted_cases (hkind : kind ≠ .home) (h : parseAuthoringEntry kind s = .ok entry) :
  (entry.dst = kind.root ++ writtenPlace kind s ∧ writtenPlace kind s ≠ dot
      ∧ (kind = .tmp → isAbs (writtenPlace kind s) = false))
    ∨ (kind = .tmp ∧ isAbs (trim (writtenDestination kind s)) = true
      ∧ entry.dst = writtenPlace kind s ∧ kind.root <+: entry.dst)
  := by
  obtain ⟨hdst, -⟩ := authoringEntry_ok h
  have hrooted : normalizeAuthoringDestination (writtenDestination kind s) kind.root
    = .ok entry.dst →
      kind ≠ .tmp → entry.dst = kind.root ++ writtenPlace kind s ∧ writtenPlace kind s ≠ dot := by
    intro hdst htmp
    obtain ⟨d, hd, hroot⟩ := Fallible.bind_eq_ok.mp hdst
    obtain ⟨hplace, -, hdot⟩ := cleanDestination_ok hd
    have hplace : d = writtenPlace kind s := by rw [hplace, writtenPlace, if_neg htmp]
    rw [← Except.ok.inj hroot, ← hplace]
    exact ⟨rfl, hdot⟩
  cases kind with
  | home => exact absurd rfl hkind
  | «in» =>
    obtain ⟨heq, hdot⟩ := hrooted hdst (by decide)
    exact Or.inl ⟨heq, hdot, fun h => by cases h⟩
  | out =>
    obtain ⟨heq, hdot⟩ := hrooted hdst (by decide)
    exact Or.inl ⟨heq, hdot, fun h => by cases h⟩
  | tmp =>
    rw [authoringDestination, normalizeAuthoringTmpDestination] at hdst
    split at hdst
    · cases hdst
    · split at hdst
      · next habs =>
          dsimp only at hdst
          split at hdst
          · next hroot =>
              have heq := Except.ok.inj hdst
              exact Or.inr ⟨rfl, habs, heq.symm, heq ▸ hroot⟩
          · cases hdst
      · next habs =>
          dsimp only at hdst
          split at hdst
          · cases hdst
          · next hdot =>
              refine Or.inl ⟨(Except.ok.inj hdst).symm, fun heq => hdot (Or.inr heq), fun _ => ?_⟩
              exact isAbs_clean_of_not (by simpa using habs)

/-! ### Round trip -/

/-- A record is plain when the place it leads to, cleaned, is not above its directory; when it is
relative, or below `/tmp`; and when in the home directory it is neither blank nor, if the record may
be written to, called `ro`. -/
def plainEntry (kind : HydraFileKind) (s : Str) : Bool :=
  let place := writtenPlace kind s
  !(place.splitOn '/').contains dotDot
    && (kind = .tmp || !isAbs place)
    && (kind ≠ .home || (trim place ≠ [] && ((splitReadOnly kind s).2 || place ≠ ['r', 'o'])))

theorem plainEntry_iff :
  plainEntry kind s = true
    ↔ (dotDot ∉ (writtenPlace kind s).splitOn '/')
      ∧ (kind = .tmp ∨ isAbs (writtenPlace kind s) = false)
      ∧ (kind = .home → trim (writtenPlace kind s) ≠ []
        ∧ ((splitReadOnly kind s).2 = true ∨ writtenPlace kind s ≠ ['r', 'o']))
  := by
  simp [plainEntry, and_assoc, imp_iff_not_or]

/-- A record below a fixed root is read back exactly if its entry is plain. -/
theorem storedEntry_rooted_iff (hkind : kind ≠ .home)
    (h : parseAuthoringEntry kind s = .ok entry) (hhash : isHydraShortHash hash = true) :
  storedEntry kind (storedText hash entry) = .ok ⟨hash, entry.dst, kind = .in || entry.readOnly⟩
    ↔ plainEntry kind s = true
  := by
  have hreadOnly : entry.readOnly = false := by
    rw [(authoringEntry_ok h).2, splitReadOnly_of_ne hkind]
  have htext : storedText hash entry = hash ++ ':' :: entry.dst := by
    rw [storedText, hreadOnly]
    simp
  have hcheck : kind.root <+: entry.dst → checkDestination kind entry.dst = .ok () := by
    intro hroot
    cases kind with
    | home => exact absurd rfl hkind
    | «in» | out | tmp => exact if_pos hroot
  have hroot : kind.root <+: entry.dst := by
    rcases rooted_cases hkind h with ⟨heq, -⟩ | ⟨-, -, -, hroot⟩
    · exact heq ▸ List.prefix_append _ _
    · exact hroot
  have hblank : trim entry.dst ≠ [] := by
    obtain ⟨rest, hrest⟩ := hroot
    rw [← hrest, HydraFileKind.root, List.cons_append]
    exact trim_slash_cons_ne_nil _
  rw [hreadOnly, htext, storedEntry_iff hhash (splitReadOnly_of_ne hkind _) rfl, plainEntry_iff]
  simp only [hblank, hcheck hroot, hkind, ne_eq, not_false_eq_true, true_and, and_true,
    false_imp_iff]
  rcases rooted_cases hkind h with ⟨heq, hdot, htmp⟩ | ⟨rfl, habs, heq, -⟩
  · rw [heq, writtenPlace, clean_root_iff kind hdot, ← writtenPlace, and_comm]
    exact and_congr_right fun _ => ⟨Or.inr, fun h => h.elim htmp id⟩
  · -- a destination below `/tmp` that is written as a whole is clean
    have hplace : writtenPlace .tmp s = clean (trim (writtenDestination .tmp s)) := rfl
    have hsafe : dotDot ∉ (writtenPlace .tmp s).splitOn '/' := by
      rw [hplace, clean, if_pos habs, splitOn_slash_cons, List.mem_cons, not_or]
      exact ⟨by decide, dotDot_not_mem_splitOn_join (proper_of_isAbs habs)⟩
    rw [heq, hplace, clean_clean habs]
    simp

/-- A record below home is read back exactly if its entry is plain. -/
theorem storedEntry_home_iff
    (h : parseAuthoringEntry .home s = .ok entry) (hhash : isHydraShortHash hash = true) :
  storedEntry .home (storedText hash entry) = .ok ⟨hash, entry.dst, entry.readOnly⟩
    ↔ plainEntry .home s = true
  := by
  obtain ⟨hdst, hreadOnly⟩ := authoringEntry_ok h
  obtain ⟨hplace, hne, hdot⟩ := cleanDestination_ok hdst
  have hplace : entry.dst = writtenPlace .home s := hplace
  have hcolon := colon_not_mem_writtenPlace .home s
  rw [plainEntry_iff, ← hreadOnly, ← hplace]
  rw [← hplace] at hcolon
  have hcheck : checkDestination .home entry.dst = .ok () ↔ isAbs entry.dst = false := by
    rw [checkDestination, if_neg (not_or.mpr ⟨hne, hdot⟩)]
    cases isAbs entry.dst <;> simp
  have hclean : isAbs entry.dst = false → dotDot ∉ entry.dst.splitOn '/' →
      clean entry.dst = entry.dst := by
    intro habs hsafe
    rw [hplace, writtenPlace] at habs hsafe hdot ⊢
    obtain ⟨hjoin, hne, hproper⟩ := clean_eq_join habs hdot hsafe
    rw [hjoin, clean_join hproper hne]
  -- the record is read as a destination, unless its only colon is taken for that of the mark
  have hread : ∀ marked, splitReadOnly .home (storedText hash entry)
      = (hash ++ ':' :: entry.dst, marked) →
      (storedEntry .home (storedText hash entry) = .ok ⟨hash, entry.dst, marked⟩
        ↔ trim entry.dst ≠ [] ∧ dotDot ∉ entry.dst.splitOn '/' ∧ isAbs entry.dst = false) := by
    intro marked hsplit
    have hiff := storedEntry_iff hhash hsplit rfl
    rw [show decide (HydraFileKind.home = .in) = false from rfl, Bool.false_or, hcheck] at hiff
    rw [hiff]
    exact ⟨fun h => ⟨h.1, h.2.1, h.2.2.2⟩, fun h => ⟨h.1, h.2.1, hclean h.2.2 h.2.1, h.2.2⟩⟩
  cases hro : entry.readOnly with
  | true =>
    have hsplit : splitReadOnly .home (storedText hash entry)
        = (hash ++ ':' :: entry.dst, true) := by
      rw [storedText, hro]
      exact splitReadOnly_append _
    rw [hread true hsplit]
    simp only [reduceCtorEq, false_or, forall_const, true_or, and_true]
    exact and_rotate
  | false =>
    have htext : storedText hash entry = hash ++ ':' :: entry.dst := by
      rw [storedText, hro]
      simp
    by_cases hname : entry.dst = ['r', 'o']
    · have hmarked : (splitReadOnly .home (storedText hash entry)).2 = true := by
        rw [htext, hname, splitReadOnly, if_pos ⟨rfl, List.suffix_append hash _⟩]
      simp only [hname, ne_eq, not_true_eq_false, Bool.false_eq_true, or_self, and_false, iff_false,
        forall_const]
      intro hstored
      have hflag := readOnly_storedEntry hstored
      rw [hmarked] at hflag
      cases hflag
    · have hno : ¬ readOnlySuffix <:+ hash ++ ':' :: entry.dst :=
        fun hsuffix => hname (readOnlySuffix_of_suffix hcolon hsuffix)
      have hsplit : splitReadOnly .home (storedText hash entry)
          = (hash ++ ':' :: entry.dst, false) := by
        rw [htext, splitReadOnly, if_neg (fun hand => hno hand.2)]
      rw [hread false hsplit]
      simp only [reduceCtorEq, false_or, forall_const, hname, ne_eq, not_false_eq_true, or_true,
        and_true]
      exact and_rotate

/-! ### Compiling again -/

/-- A record that has its hash. -/
def IsCanonical (entry : Value) : Prop :=
  ∃ s, entry = .string s ∧ isAlreadyCanonical s = true

/-- All records of a field of a step have their hash. -/
def CanonicalField (block : List (Str × Value)) (kind : HydraFileKind) : Prop :=
  ∀ entries, Dictionary.get block kind.text = some (.array entries) →
    ∀ entry ∈ entries, IsCanonical entry

section Again

variable {σ ε : Type} {hashFile : Str → σ → Except ε (Str × σ)}

/-- What the compiler takes for the hash of a content is one. -/
def ShortHashes (hashFile : Str → σ → Except ε (Str × σ)) : Prop :=
  ∀ src st hash st', hashFile src st = .ok (hash, st') → isHydraShortHash hash = true

theorem isAlreadyCanonical_storedText
    {hash : Str} (h : isHydraShortHash hash = true) (entry : AuthoringFileEntry) :
  isAlreadyCanonical (storedText hash entry) = true
  := by
  rw [storedText, List.append_assoc, List.cons_append]
  exact isAlreadyCanonical_of_hash h _

variable {kind : HydraFileKind}

theorem compileEntries_of_canonical
    {entries : List Value} (h : ∀ entry ∈ entries, IsCanonical entry)
    (i : Nat) (st : σ) :
  compileEntries kind hashFile i entries st = .ok (entries, st)
  := by
  induction entries generalizing i with
  | nil => rfl
  | cons entry entries ih =>
    obtain ⟨s, rfl, hs⟩ := h entry List.mem_cons_self
    have hrest := ih (fun e he => h e (List.mem_cons_of_mem _ he)) (i + 1)
    rw [compileEntries, if_pos hs, hrest]
    rfl

variable {st st' : σ}

/-- Compiled entries are canonical. -/
theorem compileEntries_canonical
    (hhash : ShortHashes hashFile) {entries compiled : List Value} {i : Nat}
    (h : compileEntries kind hashFile i entries st = .ok (compiled, st')) :
  ∀ entry ∈ compiled, IsCanonical entry
  := by
  induction entries generalizing i st compiled with
  | nil =>
    cases h
    intro entry hentry
    cases hentry
  | cons raw entries ih =>
    cases raw with
    | string s =>
      rw [compileEntries] at h
      split at h
      · next hs =>
          obtain ⟨⟨rest, st₁⟩, hrest, h⟩ := Fallible.bind_eq_ok.mp h
          cases h
          intro entry hentry
          rcases List.mem_cons.mp hentry with rfl | hentry
          · exact ⟨s, rfl, hs⟩
          · exact ih hrest entry hentry
      · obtain ⟨parsed, -, h⟩ := Fallible.bind_eq_ok.mp h
        obtain ⟨⟨hash, st₁⟩, hhashed, h⟩ := Fallible.bind_eq_ok.mp h
        obtain ⟨⟨rest, st₂⟩, hrest, h⟩ := Fallible.bind_eq_ok.mp h
        cases h
        have hvalid := hhash _ _ _ _ (Fallible.mapError_eq_ok.mp hhashed)
        intro entry hentry
        rcases List.mem_cons.mp hentry with rfl | hentry
        · exact ⟨_, rfl, isAlreadyCanonical_storedText hvalid parsed⟩
        · exact ih hrest entry hentry
    | null | bool | number | array | object => cases h

theorem kind_text_injective {kind kind' : HydraFileKind} (h : kind'.text = kind.text) :
  kind' = kind
  := by
  cases kind <;> cases kind' <;> first | rfl | exact absurd h (by decide)

variable {block : List (Str × Value)}

theorem compileField_of_canonical
    (h : CanonicalField block kind)
    (st : σ) :
  compileField hashFile kind block st = .ok (block, st)
  := by
  rw [compileField]
  split
  · next entry rest hget =>
      rw [compileEntries_of_canonical (h _ hget), Fallible.ok_bind]
      change Except.ok (Dictionary.set block kind.text (.array (entry :: rest)), st) = _
      rw [Dictionary.set_of_get hget]
  · rfl

variable {block block' : List (Str × Value)}

/-- Compiling one field makes it canonical, and leaves the others. -/
theorem compileField_ok
    (hhash : ShortHashes hashFile)
    (h : compileField hashFile kind block st = .ok (block', st')) :
  CanonicalField block' kind ∧
    ∀ kind' ≠ kind, Dictionary.get block' kind'.text = Dictionary.get block kind'.text
  := by
  rw [compileField] at h
  split at h
  · obtain ⟨⟨compiled, st₁⟩, hcompiled, h⟩ := Fallible.bind_eq_ok.mp h
    cases h
    constructor
    · intro entries hget
      rw [Dictionary.get_set_self] at hget
      cases hget
      exact compileEntries_canonical hhash hcompiled
    · intro kind' hne
      exact Dictionary.get_set_of_ne _ _ (fun heq => hne (kind_text_injective heq))
  · next hget =>
      cases h
      refine ⟨?_, fun _ _ => rfl⟩
      intro entries hentries entry hentry
      cases entries with
      | nil => cases hentry
      | cons e es => exact absurd hentries (hget e es)

theorem CanonicalField.congr
    (h : CanonicalField block kind)
    (heq : Dictionary.get block' kind.text = Dictionary.get block kind.text) :
  CanonicalField block' kind
  := by
  intro entries hget
  exact h entries (heq ▸ hget)

/-- Compiling fields makes them canonical, and leaves the others. -/
theorem compileFields_ok
    (hhash : ShortHashes hashFile) {kinds : List HydraFileKind}
    (h : compileFields hashFile kinds block st = .ok (block', st')) :
  (∀ kind ∈ kinds, CanonicalField block' kind) ∧
    ∀ kind ∉ kinds, Dictionary.get block' kind.text = Dictionary.get block kind.text
  := by
  induction kinds generalizing block st with
  | nil =>
    cases h
    exact ⟨fun _ hmem => absurd hmem List.not_mem_nil, fun _ _ => rfl⟩
  | cons kind kinds ih =>
    obtain ⟨⟨block₁, st₁⟩, hfield, h⟩ := Fallible.bind_eq_ok.mp h
    obtain ⟨hown, hother⟩ := compileField_ok hhash hfield
    obtain ⟨hlater, hrest⟩ := ih h
    constructor
    · intro kind' hmem
      by_cases hin : kind' ∈ kinds
      · exact hlater kind' hin
      · rcases List.mem_cons.mp hmem with rfl | hmem
        · exact hown.congr (hrest kind' hin)
        · exact absurd hmem hin
    · intro kind' hmem
      rw [List.mem_cons, not_or] at hmem
      rw [hrest kind' hmem.2, hother kind' hmem.1]

theorem compileFields_of_canonical
    {kinds : List HydraFileKind}
    (h : ∀ kind ∈ kinds, CanonicalField block kind) (st : σ) :
  compileFields hashFile kinds block st = .ok (block, st)
  := by
  induction kinds with
  | nil => rfl
  | cons kind kinds ih =>
    rw [compileFields, compileField_of_canonical (h kind List.mem_cons_self), Fallible.ok_bind]
    exact ih (fun kind' hmem => h kind' (List.mem_cons_of_mem _ hmem))

theorem hasAuthoringEntries_of_canonical
    (h : ∀ kind ∈ HydraFileKind.all, CanonicalField block kind) :
  hasAuthoringEntries block = false
  := by
  rw [hasAuthoringEntries, List.any_eq_false]
  intro kind hkind
  split
  · next entries hget =>
      rw [Bool.not_eq_true, List.any_eq_false]
      intro entry hentry
      obtain ⟨s, rfl, hs⟩ := h kind hkind entries hget entry hentry
      simp [isAuthoring, hs]
  · simp

theorem compileHydraBlock_again
    (hhash : ShortHashes hashFile)
    (h : compileHydraBlock hashFile block st = .ok (block', st')) :
  hasAuthoringEntries block' = false ∧
    ∀ again, compileHydraBlock hashFile block' again = .ok (block', again)
  := by
  have hcanonical := (compileFields_ok hhash h).1
  exact ⟨hasAuthoringEntries_of_canonical hcanonical,
    fun again => compileFields_of_canonical hcanonical again⟩

end Again

/-- The stored form of an accepted record is read as the same hash and destination exactly if the
record is plain, and as the same mode too exactly if it is not one below `/in` besides, since those
are read as read-only. It is always taken for a record that has its hash, and compiling a compiled
step changes nothing. -/
theorem stored_record_round_trip
    {kind : HydraFileKind} {s hash : Str} {entry : AuthoringFileEntry}
    (hentry : parseAuthoringEntry kind s = .ok entry) (hhash : isHydraShortHash hash = true) :
  (parseStoredEntry kind (storedText hash entry) = .ok ⟨hash, entry.dst, entry.readOnly⟩
      ↔ plainEntry kind s = true ∧ kind ≠ .in)
    ∧ (parseStoredEntry kind (storedText hash entry)
        = .ok ⟨hash, entry.dst, kind = .in || entry.readOnly⟩ ↔ plainEntry kind s = true)
    ∧ isAlreadyCanonical (storedText hash entry) = true
    ∧ ∀ (σ ε : Type) (hashFile : Str → σ → Except ε (Str × σ))
        (block block' : List (Str × Value)) (st st' : σ), ShortHashes hashFile →
        compileHydraBlock hashFile block st = .ok (block', st') →
        hasAuthoringEntries block' = false
          ∧ ∀ again, compileHydraBlock hashFile block' again = .ok (block', again)
  := by
  have hread : parseStoredEntry kind (storedText hash entry)
      = .ok ⟨hash, entry.dst, kind = .in || entry.readOnly⟩ ↔ plainEntry kind s = true := by
    rw [parseStoredEntry, Fallible.mapError_eq_ok]
    by_cases hhome : kind = .home
    · subst hhome
      exact storedEntry_home_iff hentry hhash
    · exact storedEntry_rooted_iff hhome hentry hhash
  refine ⟨?_, hread, isAlreadyCanonical_storedText hhash entry, ?_⟩
  · by_cases hin : kind = .in
    · subst hin
      have hwritten : entry.readOnly = false := by
        rw [(authoringEntry_ok hentry).2, splitReadOnly_of_ne (by decide)]
      simp only [ne_eq, not_true_eq_false, and_false, iff_false, hwritten]
      intro hstored
      rw [parseStoredEntry, Fallible.mapError_eq_ok] at hstored
      cases readOnly_storedEntry hstored
    · rw [← hread]
      simp [hin]
  · intro σ ε hashFile block block' st st' hvalid hcompiled
    exact compileHydraBlock_again hvalid hcompiled

namespace Sample

def shortHash : Str := "0123456789ab".toList

end Sample

theorem stored_record_round_trip_sample :
  parseStoredEntry .home (storedText Sample.shortHash ⟨"conf".toList, "etc/app".toList, true⟩)
    = .ok ⟨Sample.shortHash, "etc/app".toList, true⟩
  := (@stored_record_round_trip .home "conf:/etc//app/:ro".toList Sample.shortHash
    ⟨"conf".toList, "etc/app".toList, true⟩ (by decide) (by decide)).1.mpr (by decide)

/-- Accepted records whose stored form is read as another destination, or is refused. -/
theorem stored_record_does_not_round_trip :
  (∃ entry : AuthoringFileEntry,
      parseAuthoringEntry .in "f://x".toList = .ok entry
        ∧ parseStoredEntry .in (storedText Sample.shortHash entry)
          = .ok ⟨Sample.shortHash, "/in/x".toList, true⟩
        ∧ entry.dst = "/in//x".toList)
    ∧ (∃ entry : AuthoringFileEntry,
      parseAuthoringEntry .home "f:/ro".toList = .ok entry
        ∧ parseStoredEntry .home (storedText Sample.shortHash entry)
          = .error ⟨.home, storedText Sample.shortHash entry, .expectedHashDst⟩)
    ∧ ∃ entry : AuthoringFileEntry,
      parseAuthoringEntry .out "f: ../x".toList = .ok entry
        ∧ parseStoredEntry .out (storedText Sample.shortHash entry)
          = .error ⟨.out, storedText Sample.shortHash entry, .pathTraversal "/out/../x".toList⟩
  := by
  refine ⟨⟨⟨"f".toList, "/in//x".toList, false⟩, ?_⟩, ⟨⟨"f".toList, "ro".toList, false⟩, ?_⟩,
    ⟨⟨"f".toList, "/out/../x".toList, false⟩, ?_⟩⟩ <;> decide

end Ploy
