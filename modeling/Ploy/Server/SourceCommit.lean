import Ploy.Domain.Types

/-!
# The commit of a ref

The source commit of a run is read off a remote with `git ls-remote`, which lists every ref whose
name is the pattern or ends with it. The resolver takes the first identifier of the listing,
whatever name stands next to it.
-/

namespace Ploy

def isFullName (ref : String) : Bool :=
  "refs/".toList.isPrefixOf ref.toList

/-- A remote, by its refs and their objects in the order of the names. Next to an annotated tag,
whose object is that of the tag, the commit it points to is listed under the name of the tag with
`^{}`. -/
structure Remote where
  refs : List (String × String)
  sorted : refs.Pairwise (·.1 < ·.1)
  named : ∀ ref ∈ refs, ref.1 = "HEAD" ∨ isFullName ref.1 = true
  full : ∀ ref ∈ refs, isCanonicalFullCommitSHA ref.2 = true

namespace Remote

/-- The refs that `git ls-remote` lists for a pattern without glob characters. -/
def lsRemote (r : Remote) (pattern : String) : List (String × String) :=
  r.refs.filter fun ref => ref.1 = pattern || ('/' :: pattern.toList).isSuffixOf ref.1.toList

/-- Why a ref was not resolved. -/
inductive ResolveError where
  | repoURLEmpty
  | baseRefEmpty
  | noMatch (ref : String) (candidates : List String)
  deriving DecidableEq, Repr

def candidates (ref : String) : List String :=
  if isFullName ref then [ref] else [ref, "refs/heads/" ++ ref, "refs/tags/" ++ ref]

def objectOf (r : Remote) (name : String) : Option String :=
  (r.refs.find? (·.1 = name)).map Prod.snd

/-- The commit of a ref, that of an annotated tag being the commit it points to. -/
def commitOf (r : Remote) (name : String) : Option String :=
  (r.objectOf name).map fun id => (r.objectOf (name ++ "^\x7b\x7d")).getD id

/-- The names a ref can stand for, the first before the second. -/
def namesOf (ref : String) : List String :=
  if ref = "HEAD" || isFullName ref then [ref] else ["refs/heads/" ++ ref, "refs/tags/" ++ ref]

/-- The commit of the first name of a ref that is there. -/
def commitOfRef (r : Remote) (ref : String) : Option String :=
  (namesOf ref).findSome? r.commitOf

/-- The first ref that is listed for a name, if there is one, is one that the name stands for and no
annotated tag, or its object happens to be the very commit. -/
def Plain (r : Remote) (ref : String) : Prop :=
  ∀ first ∈ (r.lsRemote ref).head?,
    (first.1 ∈ namesOf ref ∧ r.objectOf (first.1 ++ "^\x7b\x7d") = none)
      ∨ r.commitOfRef ref = some first.2

instance (r : Remote) (ref : String) : Decidable (r.Plain ref) :=
  inferInstanceAs (Decidable (∀ first ∈ (r.lsRemote ref).head?, _))

variable {r : Remote} {ref : String}

/-- In the order of the names no two refs have one name. -/
theorem find?_of_mem {l : List (String × String)} (hsorted : l.Pairwise (·.1 < ·.1))
    {e : String × String} (h : e ∈ l) :
  l.find? (·.1 = e.1) = some e
  := by
  induction l with
  | nil => cases h
  | cons x l ih =>
    obtain ⟨hfirst, hrest⟩ := List.pairwise_cons.mp hsorted
    rcases List.mem_cons.mp h with rfl | h
    · rw [List.find?_cons_of_pos (by simp)]
    · rw [List.find?_cons_of_neg (by simpa using (hfirst e h).ne), ih hrest h]

namespace Sample

def sha (c : Char) : String :=
  String.ofList (List.replicate 40 c)

/-- A branch and a tag of one name, and another branch. -/
def plain : Remote where
  refs := [("HEAD", sha 'a'), ("refs/heads/main", sha 'a'), ("refs/heads/v1", sha 'b'),
    ("refs/tags/v1", sha 'c')]
  sorted := by decide +kernel
  named := by decide +kernel
  full := by decide +kernel

end Sample

end Remote

end Ploy
