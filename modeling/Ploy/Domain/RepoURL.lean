import Ploy.Foundations.Url
import Ploy.Spec.Hydra

/-!
# Repository locators

A repository is named by a locator, and by another one where it is reached in another way. Two
locators name the same repository when host and path are the same. Texts are read as ASCII.
-/

namespace Ploy

open Url

namespace RepoURL

/-! ### Locators as they are compared -/

def toLower (s : Str) : Str :=
  s.map Char.toLower

def trimSuffix (suffix s : Str) : Str :=
  if suffix.isSuffixOf s then s.take (s.length - suffix.length) else s

/-- A text begins with a scheme, in any case, and `://`. -/
def hasScheme (scheme : String) (s : Str) : Bool :=
  (scheme.toList ++ [':', '/', '/']).isPrefixOf (toLower s)

def withoutUser (s : Str) : Str :=
  if hasScheme "https" s || hasScheme "ssh" s || hasScheme "file" s then
    match parse s with
    | some (some _, url) => url.text
    | _ => s
  else s

def normalizeRepoURL (raw : Str) : Str :=
  trimSuffix ".git".toList (trimSuffix ['/'] (withoutUser (trim raw)))

/-- A locator without `https://` or `ssh://`, and whether it is one of a file. -/
def dropScheme (normalized : Str) : Str × Bool :=
  if hasScheme "https" normalized then (normalized.drop "https://".length, false)
  else if hasScheme "ssh" normalized then (normalized.drop "ssh://".length, false)
  else if hasScheme "file" normalized then (normalized.drop "file://".length, true)
  else (normalized, false)

/-- What stands behind the first `@`. -/
def dropUser (s : Str) : Str :=
  match cut '@' s with
  | some (_, rest) => rest
  | none => s

/-- A slash for the colon between host and path. A colon before a digit is taken for that of a
port. -/
def colonToSlash (s : Str) : Str :=
  match cut ':' s with
  | some (host, path) =>
    if '/' ∉ host ∧ (path.head?.any fun c => !c.isDigit) then host ++ '/' :: path else s
  | none => s

def normalizeRepoURLSchemless (raw : Str) : Str :=
  let normalized := normalizeRepoURL raw
  match dropScheme normalized with
  | (rest, true) => rest
  | (rest, false) => colonToSlash (dropUser rest)

/-- The locator of an `https` or `ssh` text that has a host. -/
def parseRemote (normalized : Str) : Option Locator :=
  if hasScheme "https" normalized || hasScheme "ssh" normalized then
    match parse normalized with
    | some (_, url) => if url.hostname ≠ [] then some url else none
    | none => none
  else none

/-- Host and path of a locator. Its port counts for `https`. -/
def remoteIdentity (url : Locator) : Str :=
  let port := if toLower url.scheme = "https".toList ∧ url.port ≠ [] ∧ url.port ≠ "443".toList then
    ':' :: url.port else []
  toLower url.hostname ++ port ++ '/' :: (if ['/'].isPrefixOf url.path then url.path.drop 1
    else url.path)

/-- Host and path of a text without a scheme. -/
def schemlessIdentity (schemless : Str) : Str :=
  match cut '/' schemless with
  | some (host, path) => toLower host ++ '/' :: path
  | none => toLower schemless

def repoURLIdentity (raw : Str) : Str :=
  let normalized := normalizeRepoURL raw
  if normalized = [] then []
  else if hasScheme "file" normalized then normalized
  else
    match parseRemote normalized with
    | some url => remoteIdentity url
    | none => schemlessIdentity (normalizeRepoURLSchemless normalized)

def repoURLsEqual (left right : Str) : Bool :=
  let leftIdentity := repoURLIdentity left
  leftIdentity ≠ [] && leftIdentity = repoURLIdentity right

/-! ### Repositories and their spellings -/

/-- A repository: a host and the segments of a path. -/
structure Repository where
  host : Str
  segments : List Str
  host_ne_nil : host ≠ []
  host_chars : ∀ c ∈ host, c.isAlphanum = true ∨ c = '.' ∨ c = '-'
  segments_ne_nil : segments ≠ []
  segment_ne_nil : ∀ s ∈ segments, s ≠ []
  segment_chars : ∀ s ∈ segments, IsPlain s
  not_git : ¬ ".git".toList <:+ ['/'].intercalate segments

def Repository.path (r : Repository) : Str :=
  ['/'].intercalate r.segments

/-- The path does not begin with a digit. Behind a colon it then does not look like a port. -/
def Repository.isClear (r : Repository) : Bool :=
  r.path.head?.all fun c => !c.isDigit

/-- The user of a connection. -/
structure SshUser where
  name : Str
  ne_nil : name ≠ []
  chars : IsUser name

/-- The port of a connection. -/
structure SshPort where
  digits : Str
  ne_nil : digits ≠ []
  chars : digits.all Char.isDigit = true

/-- The way in which a repository is reached. -/
inductive Transport where
  | https
  | ssh (user : SshUser) (port : Option SshPort)
  | scp (user : SshUser)

/-- A way to write a locator. -/
structure Spelling where
  transport : Transport
  dotGit : Bool
  slash : Bool

namespace Transport

/-- The text in front of the path. -/
def front (host : Str) : Transport → Str
  | https => "https://".toList ++ host ++ ['/']
  | ssh user none => "ssh://".toList ++ user.name ++ ['@'] ++ host ++ ['/']
  | ssh user (some port) =>
    "ssh://".toList ++ user.name ++ ['@'] ++ host ++ [':'] ++ port.digits ++ ['/']
  | scp user => user.name ++ ['@'] ++ host ++ [':']

end Transport

namespace Spelling

/-- What is added behind the path. -/
def ending (sp : Spelling) : Str :=
  (if sp.dotGit then ".git".toList else []) ++ if sp.slash then ['/'] else []

def text (sp : Spelling) (r : Repository) : Str :=
  sp.transport.front r.host ++ r.path ++ sp.ending

end Spelling

/-! ### Texts -/

theorem isSpace_of_toNat {c : Char} (h : 32 < c.toNat ∧ c.toNat < 127) :
  isSpace c = false
  := by
  have hne : ∀ n : Nat, 127 ≤ n → (c.toNat == n) = false := by
    intro n hn
    exact beq_eq_false_iff_ne.mpr (by omega)
  have hspace : (c.toNat == 0x20) = false := beq_eq_false_iff_ne.mpr (by omega)
  have hsmall : ¬ c.toNat ≤ 13 := by omega
  have hlarge : ¬ 0x2000 ≤ c.toNat := by omega
  simp [isSpace, hne, hspace, hsmall, hlarge]

theorem trim_of_toNat {s : Str} (h : ∀ c ∈ s, 32 < c.toNat ∧ c.toNat < 127) :
  trim s = s
  := by
  have hdrop : ∀ t : Str, (∀ c ∈ t, c ∈ s) → t.dropWhile isSpace = t := by
    intro t ht
    cases t with
    | nil => rfl
    | cons c t =>
      rw [List.dropWhile_cons_of_neg]
      rw [isSpace_of_toNat (h c (ht c List.mem_cons_self))]
      simp
  rw [trim, hdrop s fun c hc => hc, hdrop s.reverse fun c hc => List.mem_reverse.mp hc,
    List.reverse_reverse]

theorem trimSuffix_append (suffix s : Str) :
  trimSuffix suffix (s ++ suffix) = s
  := by
  rw [trimSuffix, if_pos (List.isSuffixOf_iff_suffix.mpr (List.suffix_append s suffix))]
  simp

theorem trimSuffix_of_not {suffix s : Str} (h : ¬ suffix <:+ s) :
  trimSuffix suffix s = s
  := if_neg fun hs => h (List.isSuffixOf_iff_suffix.mp hs)

/-- Only letters change when they are lowered. -/
theorem eq_of_toLower_eq {c d : Char} (h : c.toLower = d) (hd : d.isAlpha = false) :
  c = d
  := by
  rw [Char.toLower] at h
  split at h
  · rename_i hupper
    subst h
    exfalso
    have hlow : c.val.toNat + 32 < 2 ^ 32 := by
      have hle : c.val.toNat ≤ 90 := UInt32.le_iff_toNat_le.mp hupper.2
      omega
    have hge : 65 ≤ c.val.toNat := UInt32.le_iff_toNat_le.mp hupper.1
    have hle : c.val.toNat ≤ 90 := UInt32.le_iff_toNat_le.mp hupper.2
    simp only [Char.isAlpha, Char.isUpper, Char.isLower, Bool.or_eq_false_iff,
      Bool.and_eq_false_iff, decide_eq_false_iff_not, ge_iff_le, UInt32.le_iff_toNat_le,
      UInt32.toNat_add] at hd
    change ¬ (65 ≤ (c.val.toNat + 32) % 2 ^ 32 ∧ (c.val.toNat + 32) % 2 ^ 32 ≤ 90)
      ∧ (¬ 97 ≤ (c.val.toNat + 32) % 2 ^ 32 ∨ ¬ (c.val.toNat + 32) % 2 ^ 32 ≤ 122) at hd
    omega
  · exact h

theorem notMem_toLower {d : Char} (hd : d.isAlpha = false) {s : Str} (h : d ∉ s) :
  d ∉ toLower s
  := by
  intro hmem
  obtain ⟨c, hc, hlower⟩ := List.mem_map.mp hmem
  exact h (eq_of_toLower_eq hlower hd ▸ hc)

theorem toLower_append (s t : Str) :
  toLower (s ++ t) = toLower s ++ toLower t
  := List.map_append

/-! ### Parts of a repository -/

namespace Repository

variable (r : Repository)

theorem host_isPlain :
  IsPlain r.host
  := by
  intro c hc
  rcases r.host_chars c hc with halpha | rfl | rfl
  · simp [isUnreserved, halpha]
  · rfl
  · rfl

/-- A joined path has the characters of its segments and slashes. -/
theorem mem_intercalate
    {c : Char} {segments : List Str} (h : c ∈ ['/'].intercalate segments) :
  c = '/' ∨ ∃ s ∈ segments, c ∈ s
  := by
  induction segments with
  | nil => cases h
  | cons s segments ih =>
    cases segments with
    | nil =>
      rw [List.intercalate_singleton] at h
      exact Or.inr ⟨s, List.mem_cons_self, h⟩
    | cons t segments =>
      rw [List.intercalate_cons_cons, List.mem_append, List.mem_append, List.mem_singleton] at h
      rcases h with (h | h) | h
      · exact Or.inr ⟨s, List.mem_cons_self, h⟩
      · exact Or.inl h
      · rcases ih h with h | ⟨u, hu, hc⟩
        · exact Or.inl h
        · exact Or.inr ⟨u, List.mem_cons_of_mem s hu, hc⟩

theorem path_isPath :
  IsPath r.path
  := by
  intro c hc
  rcases mem_intercalate hc with rfl | ⟨s, hs, hc⟩
  · exact Or.inr rfl
  · exact Or.inl (r.segment_chars s hs c hc)

/-- A joined path does not end with a slash. -/
theorem intercalate_not_slash
    {segments : List Str} (hne : ∀ s ∈ segments, s ≠ [])
    (hslash : ∀ s ∈ segments, '/' ∉ s) :
  ¬ ['/'] <:+ ['/'].intercalate segments
  := by
  induction segments with
  | nil =>
    intro h
    cases List.suffix_nil.mp h
  | cons s segments ih =>
    cases segments with
    | nil =>
      rw [List.intercalate_singleton]
      intro h
      exact hslash s List.mem_cons_self (h.mem (List.mem_singleton_self '/'))
    | cons t segments =>
      have ih := ih (fun u hu => hne u (List.mem_cons_of_mem s hu))
        (fun u hu => hslash u (List.mem_cons_of_mem s hu))
      have hrest : ['/'].intercalate (t :: segments) ≠ [] := by
        have ht := hne t (by simp)
        cases segments with
        | nil => simpa using ht
        | cons u segments =>
          rw [List.intercalate_cons_cons]
          simp
      rw [List.intercalate_cons_cons]
      intro h
      rcases List.suffix_or_suffix_of_suffix h
        (List.suffix_append (s ++ ['/']) (['/'].intercalate (t :: segments))) with h | h
      · exact ih h
      · have heq : ['/'].intercalate (t :: segments) = ['/'] :=
          h.eq_of_length_le (List.length_pos_of_ne_nil hrest)
        exact ih ⟨[], heq.symm⟩

theorem path_not_slash :
  ¬ ['/'] <:+ r.path
  := intercalate_not_slash r.segment_ne_nil fun s hs => (r.segment_chars s hs).notMem rfl

theorem path_ne_nil :
  r.path ≠ []
  := by
  obtain ⟨s, segments, hsegments⟩ := List.exists_cons_of_ne_nil r.segments_ne_nil
  have hs := r.segment_ne_nil s (by simp [hsegments])
  rw [path, hsegments]
  cases segments with
  | nil => simpa using hs
  | cons t segments =>
    rw [List.intercalate_cons_cons]
    simp

end Repository

/-! ### Endings -/

theorem suffix_of_suffix_append
    {suffix front path : Str} {sep : Char} (hsep : sep ∉ suffix)
    (h : suffix <:+ front ++ sep :: path) :
  suffix <:+ path
  := by
  rcases List.suffix_or_suffix_of_suffix h (List.suffix_append front (sep :: path)) with h | h
  · rcases List.suffix_cons_iff.mp h with rfl | h
    · exact absurd List.mem_cons_self hsep
    · exact h
  · exact absurd (h.mem List.mem_cons_self) hsep

/-- The ending of a spelling is trimmed off. -/
theorem trimSuffix_ending
    (sp : Spelling) (r : Repository) (front : Str) {sep : Char}
    (hgit : sep ∉ ".git".toList) :
  trimSuffix ".git".toList (trimSuffix ['/'] (front ++ sep :: (r.path ++ sp.ending)))
    = front ++ sep :: r.path
  := by
  have hslash : ∀ t : Str, t ≠ [] → ¬ ['/'] <:+ t → ¬ ['/'] <:+ front ++ sep :: t := by
    intro t hne ht h
    rcases List.suffix_or_suffix_of_suffix h
      (List.suffix_append (front ++ [sep]) t |>.trans (by simp)) with h | h
    · exact ht h
    · have heq : t = ['/'] := h.eq_of_length_le (List.length_pos_of_ne_nil hne)
      exact ht (heq ▸ List.suffix_refl ['/'])
  have hpath : trimSuffix ".git".toList (front ++ sep :: r.path) = front ++ sep :: r.path :=
    trimSuffix_of_not fun h => r.not_git (suffix_of_suffix_append hgit h)
  have hdotGit : trimSuffix ".git".toList (front ++ sep :: (r.path ++ ".git".toList))
      = front ++ sep :: r.path := by
    have happend := trimSuffix_append ".git".toList (front ++ sep :: r.path)
    rwa [List.append_assoc, List.cons_append] at happend
  have hlast : ¬ ['/'] <:+ r.path ++ ".git".toList := by
    intro h
    have hlast := List.suffix_or_suffix_of_suffix h (List.suffix_append r.path ".git".toList)
    revert hlast
    decide
  obtain ⟨transport, dotGit, slash⟩ := sp
  cases dotGit <;> cases slash
  · have hending : r.path ++ (Spelling.mk transport false false).ending = r.path :=
      List.append_nil r.path
    rw [hending, trimSuffix_of_not (hslash _ r.path_ne_nil r.path_not_slash), hpath]
  · have hending : front ++ sep :: (r.path ++ (Spelling.mk transport false true).ending)
        = (front ++ sep :: r.path) ++ ['/'] := by
      simp [Spelling.ending]
    rw [hending, trimSuffix_append, hpath]
  · have hending : r.path ++ (Spelling.mk transport true false).ending
        = r.path ++ ".git".toList := by
      simp [Spelling.ending]
    rw [hending, trimSuffix_of_not (hslash _ (by simp) hlast), hdotGit]
  · have hending : front ++ sep :: (r.path ++ (Spelling.mk transport true true).ending)
        = (front ++ sep :: (r.path ++ ".git".toList)) ++ ['/'] := by
      simp [Spelling.ending]
    rw [hending, trimSuffix_append, hdotGit]

/-- A path with its ending is a path. -/
theorem ending_isPath (sp : Spelling) (r : Repository) :
  IsPath (r.path ++ sp.ending)
  := by
  intro c hc
  rcases List.mem_append.mp hc with hc | hc
  · exact r.path_isPath c hc
  · have hall : ∀ d ∈ ".git/".toList, isUnreserved d = true ∨ d = '/' :=
      forall_mem_of_all (by decide)
    have hending : ∀ dotGit slash : Bool, ∀ d ∈ (if dotGit then ".git".toList else [])
        ++ (if slash then ['/'] else []), d ∈ ".git/".toList := by
      intro dotGit slash
      apply forall_mem_of_all
      revert dotGit slash
      decide
    exact hall c (hending sp.dotGit sp.slash c hc)

/-! ### Schemes -/

theorem hasScheme_plainText
    {scheme : String} (hlower : toLower scheme.toList = scheme.toList)
    (user : Option Str) (host : Str) (port : Option Str) (path : Str) :
  hasScheme scheme (plainText scheme.toList user host port path) = true
  := by
  rw [hasScheme, List.isPrefixOf_iff_prefix, plainText, toLower_append, hlower]
  exact List.prefix_append_right_inj scheme.toList |>.mpr ⟨_, rfl⟩

/-- What stands before the first colon is the scheme. -/
theorem eq_of_hasScheme
    {scheme : String} (hcolon : ':' ∉ scheme.toList) {before behind : Str}
    (hbefore : ':' ∉ before) (h : hasScheme scheme (before ++ ':' :: behind) = true) :
  toLower before = scheme.toList
  := by
  obtain ⟨rest, hrest⟩ := List.isPrefixOf_iff_prefix.mp h
  have hcut : cut ':' (toLower (before ++ ':' :: behind)) = some (scheme.toList, '/' :: '/' :: rest)
      := by
    rw [← hrest, List.append_assoc]
    exact cut_append hcolon ('/' :: '/' :: rest)
  have hcut' : cut ':' (toLower (before ++ ':' :: behind)) = some (toLower before, toLower behind)
      := by
    rw [toLower_append]
    exact cut_append (notMem_toLower rfl hbefore) (toLower behind)
  have heq := Option.some.inj (hcut'.symm.trans hcut)
  exact congrArg Prod.fst heq

/-! ### Locators with a scheme -/

section Remote

variable {scheme : String} (hscheme : scheme = "https" ∨ scheme = "ssh")
  {user : Option Str} (huser : ∀ u ∈ user, IsUser u)
  {port : Option Str} (hport : ∀ p ∈ port, p.all Char.isDigit = true)

include hscheme

theorem scheme_lower :
  toLower scheme.toList = scheme.toList
  := by
  rcases hscheme with rfl | rfl <;> decide

theorem scheme_isScheme :
  isScheme scheme.toList = true
  := by
  rcases hscheme with rfl | rfl <;> decide

theorem scheme_isPlain :
  IsPlain scheme.toList
  := by
  rcases hscheme with rfl | rfl <;> exact forall_mem_of_all (by decide)

theorem hasScheme_remote (host path : Str) :
  (hasScheme "https" (plainText scheme.toList user host port path)
    || hasScheme "ssh" (plainText scheme.toList user host port path)) = true
  := by
  have h := hasScheme_plainText (scheme_lower hscheme) user host port path
  rcases hscheme with rfl | rfl
  · rw [h]
    rfl
  · rw [h, Bool.or_true]

theorem not_file (host path : Str) :
  hasScheme "file" (plainText scheme.toList user host port path) = false
  := by
  by_contra h
  rw [Bool.not_eq_false] at h
  have heq := eq_of_hasScheme (by decide) ((scheme_isPlain hscheme).notMem rfl) h
  rw [scheme_lower hscheme] at heq
  rcases hscheme with rfl | rfl <;> revert heq <;> decide

include huser hport

theorem parse_remote {host : Str} (hhost : IsPlain host) {path : Str}
    (hpath : IsPath path) :
  parse (plainText scheme.toList user host port path)
    = some (user, plain scheme.toList host port path)
  := parse_plainText (scheme_isScheme hscheme) (scheme_isPlain hscheme) (scheme_lower hscheme)
    huser hhost hport hpath

/-- The address of a remote loses its user and its ending. -/
theorem normalizeRepoURL_remote (sp : Spelling) (r : Repository) :
  normalizeRepoURL (plainText scheme.toList user r.host port (r.path ++ sp.ending))
    = plainText scheme.toList none r.host port r.path
  := by
  have hpath := ending_isPath sp r
  have htrim := trim_of_toNat (toNat_of_mem_plainText (scheme_isPlain hscheme) huser
    r.host_isPlain hport hpath)
  have hwithout : withoutUser (plainText scheme.toList user r.host port (r.path ++ sp.ending))
      = plainText scheme.toList none r.host port (r.path ++ sp.ending) := by
    rw [withoutUser, hasScheme_remote hscheme r.host (r.path ++ sp.ending),
      Bool.true_or, if_pos rfl,
      parse_remote hscheme huser hport r.host_isPlain hpath]
    cases user with
    | none => rfl
    | some u => exact text_plain r.host_isPlain r.host_ne_nil hport hpath
  have hfront : ∀ tail, plainText scheme.toList none r.host port tail
      = (scheme.toList ++ ':' :: '/' :: '/' :: authorityText none r.host port) ++ '/' :: tail := by
    intro tail
    simp [plainText]
  rw [normalizeRepoURL, htrim, hwithout, hfront, hfront]
  exact trimSuffix_ending sp r _ (by decide)

/-- The identity of a remote is its host and its path. -/
theorem repoURLIdentity_remote (hhttps : scheme = "https" → port = none) (sp : Spelling)
    (r : Repository) :
  repoURLIdentity (plainText scheme.toList user r.host port (r.path ++ sp.ending))
    = toLower r.host ++ '/' :: r.path
  := by
  have hsplit : (plain scheme.toList r.host port r.path).splitHostPort = (r.host, port.getD []) :=
    splitHostPort_plain r.host_isPlain hport
  have hremote : parseRemote (plainText scheme.toList none r.host port r.path)
      = some (plain scheme.toList r.host port r.path) := by
    have hparse : parse (plainText scheme.toList none r.host port r.path)
        = some (none, plain scheme.toList r.host port r.path) :=
      parse_remote hscheme (fun u hu => by cases hu) hport r.host_isPlain r.path_isPath
    rw [parseRemote, hasScheme_remote hscheme, if_pos rfl, hparse]
    simp only
    rw [Locator.hostname, hsplit, if_pos r.host_ne_nil]
  have hidentity : remoteIdentity (plain scheme.toList r.host port r.path)
      = toLower r.host ++ '/' :: r.path := by
    rw [remoteIdentity, Locator.port, Locator.hostname, hsplit]
    rcases hscheme with rfl | rfl
    · rw [hhttps rfl]
      simp [plain]
    · have hssh : toLower ['s', 's', 'h'] ≠ ['h', 't', 't', 'p', 's'] := by decide
      simp [hssh, plain]
  have hne : plainText scheme.toList none r.host port r.path ≠ [] := by
    simp [plainText]
  rw [repoURLIdentity, normalizeRepoURL_remote hscheme huser hport sp r, if_neg hne,
    if_neg (by simp [not_file hscheme]), hremote]
  exact hidentity

end Remote

/-! ### Locators without a scheme -/

/-- The text of a locator without a scheme. -/
def scpText (user host tail : Str) : Str :=
  user ++ '@' :: (host ++ ':' :: tail)

/-- A short address has no scheme. -/
theorem scpText_hasScheme
    {scheme : String} (hcolon : ':' ∉ scheme.toList) (hat : '@' ∉ scheme.toList) (user : SshUser)
    (r : Repository) (tail : Str) :
  hasScheme scheme (scpText user.name r.host tail) = false
  := by
  by_contra h
  rw [Bool.not_eq_false] at h
  have htext : scpText user.name r.host tail = (user.name ++ '@' :: r.host) ++ ':' :: tail := by
    simp [scpText]
  have hbefore : ':' ∉ user.name ++ '@' :: r.host := by
    simp only [List.mem_append, List.mem_cons, not_or]
    exact ⟨user.chars.notMem rfl rfl, by decide, r.host_isPlain.notMem rfl⟩
  rw [htext] at h
  have heq := eq_of_hasScheme hcolon hbefore h
  -- The user and the host would be the scheme, but they have a sign that is not in it.
  apply hat
  rw [← heq, toLower_append]
  exact List.mem_append_right _ List.mem_cons_self

/-- A short address loses its ending. -/
theorem normalizeRepoURL_scp (user : SshUser) (sp : Spelling) (r : Repository) :
  normalizeRepoURL (scpText user.name r.host (r.path ++ sp.ending))
    = scpText user.name r.host r.path
  := by
  have hprintable : ∀ c ∈ scpText user.name r.host (r.path ++ sp.ending),
      32 < c.toNat ∧ c.toNat < 127 := by
    intro c hc
    rw [scpText, List.mem_append, List.mem_cons, List.mem_append, List.mem_cons] at hc
    rcases hc with hc | rfl | hc | rfl | hc
    · rcases user.chars c hc with hplain | hdelim
      · exact toNat_of_isUnreserved hplain
      · exact toNat_of_isSubDelim hdelim
    · decide
    · exact toNat_of_isUnreserved (r.host_isPlain c hc)
    · decide
    · rcases ending_isPath sp r c hc with hplain | rfl
      · exact toNat_of_isUnreserved hplain
      · decide
  have hwithout : withoutUser (scpText user.name r.host (r.path ++ sp.ending))
      = scpText user.name r.host (r.path ++ sp.ending) := by
    rw [withoutUser, scpText_hasScheme (by decide) (by decide),
      scpText_hasScheme (by decide) (by decide), scpText_hasScheme (by decide) (by decide)]
    rfl
  have hfront : ∀ tail, scpText user.name r.host tail
      = (user.name ++ '@' :: r.host) ++ ':' :: tail := by
    intro tail
    simp [scpText]
  rw [normalizeRepoURL, trim_of_toNat hprintable, hwithout, hfront, hfront]
  exact trimSuffix_ending sp r _ (by decide)

/-- The identity of a locator `user@host:path` is read off the text behind the user. -/
theorem repoURLIdentity_scp (user : SshUser) (sp : Spelling) (r : Repository) :
  repoURLIdentity (scpText user.name r.host (r.path ++ sp.ending))
    = schemlessIdentity (colonToSlash (r.host ++ ':' :: r.path))
  := by
  have hnormal := normalizeRepoURL_scp user sp r
  -- The normal form is a spelling without an ending, so it is its own normal form.
  have hself : normalizeRepoURL (scpText user.name r.host r.path)
      = scpText user.name r.host r.path := by
    have hplain := normalizeRepoURL_scp user ⟨sp.transport, false, false⟩ r
    rwa [show r.path ++ (Spelling.mk sp.transport false false).ending = r.path from
      List.append_nil r.path] at hplain
  have hno : ∀ scheme ∈ ["https", "ssh", "file"],
      hasScheme scheme (scpText user.name r.host r.path) = false := by
    intro scheme hscheme
    simp only [List.mem_cons, List.not_mem_nil, or_false] at hscheme
    rcases hscheme with rfl | rfl | rfl <;>
      exact scpText_hasScheme (by decide) (by decide) user r r.path
  have hhttps := hno "https" (by simp)
  have hssh := hno "ssh" (by simp)
  have hfile := hno "file" (by simp)
  have hschemless : normalizeRepoURLSchemless (scpText user.name r.host r.path)
      = colonToSlash (r.host ++ ':' :: r.path) := by
    rw [normalizeRepoURLSchemless, hself, dropScheme, hhttps, hssh, hfile]
    simp only [Bool.false_eq_true, if_false]
    rw [scpText, dropUser, cut_append (user.chars.notMem rfl rfl)]
  have hne : scpText user.name r.host r.path ≠ [] := by
    simp [scpText]
  rw [repoURLIdentity, hnormal, if_neg hne, hfile, parseRemote, hhttps, hssh]
  simp only [Bool.false_eq_true, if_false, Bool.or_self]
  rw [hschemless]

/-- A path that does not begin with a digit is told from the host. -/
theorem schemlessIdentity_clear {r : Repository} (hclear : r.isClear = true) :
  schemlessIdentity (colonToSlash (r.host ++ ':' :: r.path)) = toLower r.host ++ '/' :: r.path
  := by
  have hhead : (r.path.head?.any fun c => !c.isDigit) = true := by
    obtain ⟨c, path, hpath⟩ := List.exists_cons_of_ne_nil r.path_ne_nil
    rw [Repository.isClear, hpath] at hclear
    rw [hpath]
    simpa using hclear
  rw [colonToSlash, cut_append (r.host_isPlain.notMem rfl)]
  simp only
  rw [if_pos ⟨r.host_isPlain.notMem rfl, hhead⟩, schemlessIdentity,
    cut_append (r.host_isPlain.notMem rfl)]

/-- A path that begins with a digit is left behind its colon. -/
theorem colon_mem_schemlessIdentity {r : Repository} (hclear : r.isClear = false) :
  ':' ∈ schemlessIdentity (colonToSlash (r.host ++ ':' :: r.path))
  := by
  have hhead : (r.path.head?.any fun c => !c.isDigit) = false := by
    obtain ⟨c, path, hpath⟩ := List.exists_cons_of_ne_nil r.path_ne_nil
    rw [Repository.isClear, hpath] at hclear
    rw [hpath]
    simpa using hclear
  have hkept : colonToSlash (r.host ++ ':' :: r.path) = r.host ++ ':' :: r.path := by
    rw [colonToSlash, cut_append (r.host_isPlain.notMem rfl)]
    simp [hhead]
  have hcolon : ':' ∈ r.host ++ ':' :: r.path := by simp
  rw [hkept]
  generalize r.host ++ ':' :: r.path = s at hcolon ⊢
  rw [schemlessIdentity]
  by_cases hslash : '/' ∈ s
  · obtain ⟨host, path, rfl, hfirst⟩ := List.eq_append_cons_of_mem hslash
    rw [cut_append hfirst]
    simp only [List.mem_append, List.mem_cons] at hcolon ⊢
    rcases hcolon with hhost | hcolon
    · exact Or.inl (List.mem_map.mpr ⟨':', hhost, rfl⟩)
    · exact Or.inr hcolon
  · rw [cut_of_notMem hslash]
    exact List.mem_map.mpr ⟨':', hcolon, rfl⟩

/-! ### Spellings -/

theorem https_front (host tail : Str) :
  Transport.https.front host ++ tail = plainText "https".toList none host none tail
  := by
  have hscheme : "https://".toList = "https".toList ++ [':', '/', '/'] := by decide
  unfold Transport.front
  rw [hscheme]
  simp [plainText, authorityText, hostText]

theorem ssh_front (user : SshUser) (port : Option SshPort) (host tail : Str) :
  (Transport.ssh user port).front host ++ tail
    = plainText "ssh".toList (some user.name) host (port.map SshPort.digits) tail
  := by
  have hscheme : "ssh://".toList = "ssh".toList ++ [':', '/', '/'] := by decide
  unfold Transport.front
  rw [hscheme]
  cases port <;> simp [plainText, authorityText, hostText]

theorem scp_front (user : SshUser) (host tail : Str) :
  (Transport.scp user).front host ++ tail = scpText user.name host tail
  := by
  unfold Transport.front
  simp [scpText]

/-- A spelling is an address with a scheme, or a short one. -/
theorem Spelling.text_cases (sp : Spelling) (r : Repository) :
  (∃ scheme user port, (scheme = "https" ∨ scheme = "ssh") ∧ (∀ u ∈ user, IsUser u)
    ∧ (∀ p ∈ port, p.all Char.isDigit = true) ∧ (scheme = "https" → port = none)
    ∧ sp.text r = plainText scheme.toList user r.host port (r.path ++ sp.ending))
  ∨ ∃ user, sp.transport = .scp user ∧
    sp.text r = scpText user.name r.host (r.path ++ sp.ending)
  := by
  rw [Spelling.text, List.append_assoc]
  generalize sp.ending = tail
  cases sp.transport with
  | https =>
    refine Or.inl ⟨"https", none, none, Or.inl rfl, ?_, ?_, fun _ => rfl, https_front _ _⟩
    · intro u hu
      cases hu
    · intro p hp
      cases hp
  | ssh user port =>
    refine Or.inl ⟨"ssh", some user.name, port.map SshPort.digits, Or.inr rfl, ?_, ?_, ?_,
      ssh_front _ _ _ _⟩
    · rintro u ⟨⟩
      exact user.chars
    · intro p hp
      obtain ⟨port, -, rfl⟩ := Option.map_eq_some_iff.mp hp
      exact port.chars
    · intro h
      exact absurd h (by decide)
  | scp user => exact Or.inr ⟨user, rfl, scp_front _ _ _⟩

/-- Every spelling has host and path for its identity, but for one in which a path that begins with
a digit stands behind a colon. -/
theorem repoURLIdentity_text (sp : Spelling) (r : Repository) :
  repoURLIdentity (sp.text r) = toLower r.host ++ '/' :: r.path
    ∨ (r.isClear = false ∧ ':' ∈ repoURLIdentity (sp.text r))
  := by
  rcases sp.text_cases r with ⟨scheme, user, port, hscheme, huser, hport, hhttps, htext⟩
    | ⟨user, -, htext⟩
  · rw [htext]
    exact Or.inl (repoURLIdentity_remote hscheme huser hport hhttps sp r)
  · rw [htext, repoURLIdentity_scp]
    cases hclear : r.isClear with
    | true => exact Or.inl (schemlessIdentity_clear hclear)
    | false => exact Or.inr ⟨rfl, colon_mem_schemlessIdentity hclear⟩

theorem colon_notMem_identity (r : Repository) :
  ':' ∉ toLower r.host ++ '/' :: r.path
  := by
  rw [List.mem_append, List.mem_cons]
  rintro (hhost | hslash | hpath)
  · exact notMem_toLower rfl (r.host_isPlain.notMem rfl) hhost
  · cases hslash
  · rcases r.path_isPath _ hpath with hplain | hslash
    · cases hplain
    · cases hslash

/-- What is normalised is not changed again. -/
theorem normalizeRepoURL_normal (sp : Spelling) (r : Repository) :
  normalizeRepoURL (normalizeRepoURL (sp.text r)) = normalizeRepoURL (sp.text r)
  := by
  have hending : r.path ++ (Spelling.mk sp.transport false false).ending = r.path :=
    List.append_nil r.path
  rcases sp.text_cases r with ⟨scheme, user, port, hscheme, huser, hport, -, htext⟩
    | ⟨user, -, htext⟩
  · have hnone : ∀ u ∈ (none : Option Str), IsUser u := by
      intro u hu
      cases hu
    have hplain := normalizeRepoURL_remote hscheme hnone hport ⟨sp.transport, false, false⟩ r
    rw [hending] at hplain
    rw [htext, normalizeRepoURL_remote hscheme huser hport sp r, hplain]
  · have hplain := normalizeRepoURL_scp user ⟨sp.transport, false, false⟩ r
    rw [hending] at hplain
    rw [htext, normalizeRepoURL_scp user sp r, hplain]

theorem repoURLIdentity_eq_of_normal
    {a b : Str} (h : normalizeRepoURL a = normalizeRepoURL b) :
  repoURLIdentity a = repoURLIdentity b
  := by
  rw [repoURLIdentity, repoURLIdentity, h]

theorem identity_injective
    {r r' : Repository} (h : toLower r.host ++ '/' :: r.path = toLower r'.host ++ '/' :: r'.path) :
  toLower r.host = toLower r'.host ∧ r.path = r'.path
  := by
  have hcut := cut_append (notMem_toLower rfl (r.host_isPlain.notMem rfl)) (c := '/') r.path
  have hcut' := cut_append (notMem_toLower rfl (r'.host_isPlain.notMem rfl)) (c := '/') r'.path
  rw [h] at hcut
  have heq := Option.some.inj (hcut.symm.trans hcut')
  exact ⟨congrArg Prod.fst heq, congrArg Prod.snd heq⟩

/-- The user `git`. -/
def gitUser : SshUser where
  name := "git".toList
  ne_nil := by decide
  chars := forall_mem_of_all (by decide)

/-- Behind a colon, a path that begins with a digit gives another identity than behind a slash. -/
theorem repoURLsEqual_unclear {r : Repository} (hclear : r.isClear = false) :
  repoURLsEqual ((Spelling.mk (.scp gitUser) false false).text r)
    ((Spelling.mk .https false false).text r) = false
  := by
  have hscp : repoURLIdentity ((Spelling.mk (.scp gitUser) false false).text r)
      = schemlessIdentity (colonToSlash (r.host ++ ':' :: r.path)) := by
    rw [Spelling.text, List.append_assoc, scp_front, repoURLIdentity_scp]
  have hhttps : repoURLIdentity ((Spelling.mk .https false false).text r)
      = toLower r.host ++ '/' :: r.path := by
    rw [Spelling.text, List.append_assoc, https_front]
    exact repoURLIdentity_remote (Or.inl rfl) (fun _ hu => by cases hu) (fun _ hp => by cases hp)
      (fun _ => rfl) _ r
  rw [repoURLsEqual, Bool.and_eq_false_iff, decide_eq_false_iff_not, decide_eq_false_iff_not]
  refine Or.inr fun hequal => colon_notMem_identity r ?_
  rw [← hhttps, ← hequal, hscp]
  exact colon_mem_schemlessIdentity hclear

/-- The spellings of a repository are equal to those of the same host, up to case, and the same
path, and to no others, exactly when its path does not begin with a digit. Every spelling is equal
to its normal form, which is its own. -/
theorem repoURLsEqual_iff (r : Repository) :
  ((∀ (r' : Repository) (sp sp' : Spelling), repoURLsEqual (sp.text r) (sp'.text r') = true ↔
    toLower r.host = toLower r'.host ∧ r.path = r'.path) ↔ r.isClear = true) ∧
  ∀ sp : Spelling, repoURLsEqual (sp.text r) (normalizeRepoURL (sp.text r)) = true ∧
    normalizeRepoURL (normalizeRepoURL (sp.text r)) = normalizeRepoURL (sp.text r)
  := by
  refine ⟨⟨?_, ?_⟩, ?_⟩
  · intro hall
    by_contra hclear
    rw [Bool.not_eq_true] at hclear
    have hequal := (hall r ⟨.scp gitUser, false, false⟩ ⟨.https, false, false⟩).mpr ⟨rfl, rfl⟩
    rw [repoURLsEqual_unclear hclear] at hequal
    cases hequal
  · intro hclear r' sp sp'
    have hidentity := (repoURLIdentity_text sp r).resolve_right (by simp [hclear])
    rw [repoURLsEqual, Bool.and_eq_true, decide_eq_true_eq, decide_eq_true_eq, hidentity]
    constructor
    · rintro ⟨-, heq⟩
      rcases repoURLIdentity_text sp' r' with hidentity' | ⟨-, hcolon⟩
      · exact identity_injective (heq.trans hidentity')
      · rw [← heq] at hcolon
        exact absurd hcolon (colon_notMem_identity r)
    · rintro ⟨hhost, hpath⟩
      have hclear' : r'.isClear = true := by rw [Repository.isClear, ← hpath]; exact hclear
      rw [(repoURLIdentity_text sp' r').resolve_right (by simp [hclear']), hhost, hpath]
      exact ⟨by simp, rfl⟩
  · intro sp
    have hnormal := normalizeRepoURL_normal sp r
    refine ⟨?_, hnormal⟩
    rw [repoURLsEqual, Bool.and_eq_true, decide_eq_true_eq, decide_eq_true_eq]
    refine ⟨?_, repoURLIdentity_eq_of_normal hnormal.symm⟩
    rcases repoURLIdentity_text sp r with h | ⟨-, h⟩
    · simp [h]
    · exact List.ne_nil_of_mem h

/-! #### A repository whose path begins with a digit -/

/-- The repository `1Abc` on a host. -/
def digitRepository : Repository where
  host := "git.example".toList
  segments := ["1Abc".toList]
  host_ne_nil := by decide
  host_chars := forall_mem_of_all (by decide)
  segments_ne_nil := by decide
  segment_ne_nil := by decide
  segment_chars := by
    intro s hs
    rw [List.mem_singleton.mp hs]
    exact forall_mem_of_all (by decide)
  not_git := by decide

/-- Another one, with a path in lower case. -/
def lowerRepository : Repository where
  host := "git.example".toList
  segments := ["1abc".toList]
  host_ne_nil := by decide
  host_chars := forall_mem_of_all (by decide)
  segments_ne_nil := by decide
  segment_ne_nil := by decide
  segment_chars := by
    intro s hs
    rw [List.mem_singleton.mp hs]
    exact forall_mem_of_all (by decide)
  not_git := by decide

/-- Behind a colon, a path that begins with a digit is taken for a port: the locator is not equal to
the others of the repository, and is equal to one of a repository with another path. -/
theorem repoURLsEqual_digit :
  repoURLsEqual ((Spelling.mk (.scp gitUser) false false).text digitRepository)
    ((Spelling.mk .https false false).text digitRepository) = false
  ∧ repoURLsEqual ((Spelling.mk (.scp gitUser) false false).text digitRepository)
    ((Spelling.mk (.scp gitUser) false false).text lowerRepository) = true
  ∧ digitRepository.path ≠ lowerRepository.path
  := by
  decide

end RepoURL

end Ploy
