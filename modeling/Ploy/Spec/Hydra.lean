import Ploy.Domain.Types
import Ploy.Foundations.SlashPath

/-!
# Stored file records

A step mounts files by records. A stored record names the content by a short hash and says where it
is mounted: below `/in`, `/out` or `/tmp`, or below the home directory, where it may be read-only.
-/

namespace Ploy

/-- A text without the white space around it. -/
def trim (s : Str) : Str :=
  ((s.dropWhile isSpace).reverse.dropWhile isSpace).reverse

/-- What a record is for. -/
inductive HydraFileKind where
  | in | out | home | tmp
  deriving DecidableEq, Repr

namespace HydraFileKind

def text : HydraFileKind → Str
  | .in => ['i', 'n']
  | .out => ['o', 'u', 't']
  | .home => ['h', 'o', 'm', 'e']
  | .tmp => ['t', 'm', 'p']

/-- All kinds, in the order in which they are gone through. -/
def all : List HydraFileKind :=
  [.in, .out, .home, .tmp]

/-- The directory of a kind, with a slash on both sides. -/
def root (kind : HydraFileKind) : Str :=
  '/' :: (kind.text ++ ['/'])

end HydraFileKind

/-- Why a record is refused. -/
inductive RecordFault where
  | expectedSrcDst
  | sourceIsEmpty
  | destinationIsEmpty
  | expectedHashDst
  | invalidShortHash (hash : Str)
  | destinationRequired
  | pathTraversal (path : Str)
  | mustStartWith (root : Str)
  | mustBeRelative
  deriving DecidableEq, Repr

/-- The refusal of a record. -/
structure RecordError where
  kind : HydraFileKind
  entry : Str
  fault : RecordFault
  deriving DecidableEq, Repr

def isLowerHexDigit (c : Char) : Bool :=
  ('0' ≤ c && c ≤ '9') || ('a' ≤ c && c ≤ 'f')

/-- A short hash: 7 to 64 lowercase hexadecimal digits. -/
def isHydraShortHash (value : Str) : Bool :=
  7 ≤ value.length && value.length ≤ 64 && value.all isLowerHexDigit

/-- A path no part of which is the parent directory. -/
def validateHydraPathSafety (p : Str) : Except RecordFault Unit :=
  if SlashPath.dotDot ∈ p.splitOn '/' then .error (.pathTraversal p) else .ok ()

/-- What a stored record says. -/
structure ParsedStoredEntry where
  hash : Str
  dst : Str
  readOnly : Bool
  deriving DecidableEq, Repr

/-- The mark of a read-only record. -/
def readOnlySuffix : Str := [':', 'r', 'o']

/-- A record without the mark of a read-only one. Only records of the home directory have it. -/
def splitReadOnly (kind : HydraFileKind) (s : Str) : Str × Bool :=
  if kind = .home ∧ readOnlySuffix <:+ s then (s.take (s.length - readOnlySuffix.length), true)
  else (s, false)

/-- The parts of a record before and after its first colon. -/
def splitHashDst (s : Str) : Except RecordFault (Str × Str) :=
  if ':' ∈ s then
    let hash := s.takeWhile (· ≠ ':')
    let dst := (s.dropWhile (· ≠ ':')).drop 1
    if isHydraShortHash hash = false then .error (.invalidShortHash hash)
    else if trim dst = [] then .error .destinationRequired
    else .ok (hash, dst)
  else .error .expectedHashDst

/-- Whether a clean destination is one of a kind. -/
def checkDestination (kind : HydraFileKind) (dst : Str) : Except RecordFault Unit :=
  match kind with
  | .in | .out | .tmp =>
    if kind.root <+: dst then .ok () else .error (.mustStartWith kind.root)
  | .home =>
    if dst = [] ∨ dst = SlashPath.dot then .error .destinationRequired
    else if SlashPath.isAbs dst then .error .mustBeRelative
    else .ok ()

/-- What a stored record says, or why it is refused. -/
def storedEntry (kind : HydraFileKind) (s : Str) : Except RecordFault ParsedStoredEntry := do
  let (body, marked) := splitReadOnly kind s
  let (hash, dst) ← splitHashDst body
  validateHydraPathSafety dst
  let dst := SlashPath.clean dst
  checkDestination kind dst
  return ⟨hash, dst, kind = .in || marked⟩

/-- A stored record read. -/
def parseStoredEntry (kind : HydraFileKind) (s : Str) :
    Except RecordError ParsedStoredEntry :=
  (storedEntry kind s).mapError fun fault => ⟨kind, s, fault⟩

/-- Why a list of records is refused: the place of the first bad record and what is wrong with
it. -/
inductive EntriesError where
  | entry (i : Nat) (error : RecordError)
  | duplicateDestination (i : Nat) (dst : Str)
  deriving DecidableEq, Repr

/-- Every record is read, and no two have the same destination. -/
def validateHydraEntries (kind : HydraFileKind) (entries : List Str) :
    Except EntriesError Unit :=
  go 0 [] entries
where
  go (i : Nat) (seen : List Str) : List Str → Except EntriesError Unit
    | [] => .ok ()
    | entry :: rest => do
        let parsed ← (parseStoredEntry kind entry).mapError (.entry i)
        if parsed.dst ∈ seen then .error (.duplicateDestination i parsed.dst)
        else go (i + 1) (parsed.dst :: seen) rest

end Ploy
