import Ploy.Foundations.Text

/-!
# Locators of the form `scheme://user@host:port/path?query#fragment`

Parsing and printing as the standard library of Go does it. A text is the list of its bytes, each
as a character. Locators without `//` behind the scheme, and hosts in brackets, are left out: they
do not parse here.
-/

namespace Url

/-! ### Cutting texts -/

/-- What is before and behind the first occurrence of a character. -/
def cut (c : Char) (s : Str) : Option (Str × Str) :=
  if c ∈ s then some (s.takeWhile (· ≠ c), (s.dropWhile (· ≠ c)).drop 1) else none

/-- What is before and behind the last occurrence of a character. -/
def cutLast (c : Char) (s : Str) : Option (Str × Str) :=
  (cut c s.reverse).map fun parts => (parts.2.reverse, parts.1.reverse)

variable {c : Char}

theorem cut_of_notMem {s : Str} (h : c ∉ s) :
  cut c s = none
  := if_neg h

theorem cut_append {a : Str} (h : c ∉ a) (b : Str) :
  cut c (a ++ c :: b) = some (a, b)
  := by
  have hne : ∀ x ∈ a, decide (x ≠ c) = true := by
    intro x hx
    exact decide_eq_true fun hxc => h (hxc ▸ hx)
  rw [cut, if_pos (by simp), List.takeWhile_append_of_pos hne, List.dropWhile_append_of_pos hne,
    List.takeWhile_cons_of_neg (by simp), List.dropWhile_cons_of_neg (by simp), List.append_nil]
  rfl

theorem cutLast_of_notMem {s : Str} (h : c ∉ s) :
  cutLast c s = none
  := by
  rw [cutLast, cut_of_notMem (by simpa using h)]
  rfl

theorem cutLast_append {b : Str} (h : c ∉ b) (a : Str) :
  cutLast c (a ++ c :: b) = some (a, b)
  := by
  have hreverse : (a ++ c :: b).reverse = b.reverse ++ c :: a.reverse := by simp
  rw [cutLast, hreverse, cut_append (by simpa using h)]
  simp

/-! ### Escapes -/

/-- The part of a locator that a text is in. -/
inductive Mode where
  | user | host | path | fragment
  deriving DecidableEq, Repr

def isUnreserved (c : Char) : Bool :=
  c.isAlphanum || c ∈ ['-', '_', '.', '~']

/-- The punctuation that may stand for itself. -/
def isSubDelim (c : Char) : Bool :=
  c ∈ ['!', '$', '&', '\x27', '(', ')', '*', '+', ',', ';', '=']

def shouldEscape (mode : Mode) (c : Char) : Bool :=
  if isUnreserved c then false
  else
    match mode with
    | .host => !(isSubDelim c || c ∈ [':', '[', ']', '<', '>', '"'])
    | .path => !(c ∈ ['$', '&', '+', ',', '/', ':', ';', '=', '@'])
    | .user => !(c ∈ ['$', '&', '+', ',', ';', '='])
    | .fragment =>
      !(c ∈ ['$', '&', '+', ',', '/', ':', ';', '=', '?', '@', '!', '(', ')', '*'])

def unhex (c : Char) : Option Nat :=
  if c.isDigit then some (c.toNat - 48)
  else if 97 ≤ c.toNat ∧ c.toNat ≤ 102 then some (c.toNat - 87)
  else if 65 ≤ c.toNat ∧ c.toNat ≤ 70 then some (c.toNat - 55)
  else none

def hexDigit (n : Nat) : Char :=
  if n < 10 then Char.ofNat (48 + n) else Char.ofNat (55 + n)

/-- A text without its escapes. In a host, only bytes beyond ASCII and the percent sign are
escaped, and what should be escaped is refused. -/
def unescape (mode : Mode) : Str → Option Str
  | [] => some []
  | '%' :: a :: b :: s =>
    match unhex a, unhex b with
    | some m, some n =>
      if mode = .host ∧ m < 8 ∧ (m, n) ≠ (2, 5) then none
      else (unescape mode s).map (Char.ofNat (16 * m + n) :: ·)
    | _, _ => none
  | c :: s =>
    if c = '%' then none
    else if mode = .host ∧ c.toNat < 128 ∧ shouldEscape mode c then none
    else (unescape mode s).map (c :: ·)

def escape (mode : Mode) (s : Str) : Str :=
  s.flatMap fun c =>
    if shouldEscape mode c then ['%', hexDigit (c.toNat / 16), hexDigit (c.toNat % 16)] else [c]

/-- A text may be printed as it was parsed. -/
def validEncoded (mode : Mode) (s : Str) : Bool :=
  s.all fun c => isSubDelim c || c ∈ [':', '@', '[', ']', '%'] || !shouldEscape mode c

/-! ### Locators -/

/-- A locator without its user. The raw texts are empty where they are the escaped ones. -/
structure Locator where
  scheme : Str
  host : Str
  path : Str
  rawPath : Str
  forceQuery : Bool
  rawQuery : Str
  fragment : Str
  rawFragment : Str
  deriving DecidableEq, Repr

def isControl (c : Char) : Bool :=
  c.toNat < 32 || c.toNat = 127

def isScheme : Str → Bool
  | [] => false
  | c :: s => c.isAlpha && s.all fun c => c.isAlphanum || c ∈ ['+', '-', '.']

def validUserinfo (s : Str) : Bool :=
  s.all fun c => c.isAlphanum || isSubDelim c || c ∈ ['-', '.', '_', ':', '~', '%', '@']

def parseHost (s : Str) : Option Str :=
  if s.head? = some '[' then none
  else
    match cutLast ':' s with
    | some (_, port) => if port.all Char.isDigit then unescape .host s else none
    | none => unescape .host s

/-- The user, if there is one, and the host with its port. -/
def parseAuthority (s : Str) : Option (Option Str × Str) :=
  match cutLast '@' s with
  | none => (parseHost s).map fun host => (none, host)
  | some (user, host) =>
    match parseHost host with
    | some host =>
      if validUserinfo user && (unescape .user user).isSome then some (some user, host)
      else none
    | none => none

/-- The raw text, if printing does not give it back. -/
def rawOf (mode : Mode) (raw decoded : Str) : Str :=
  if raw = escape mode decoded then [] else raw

/-- What stands behind `scheme:`, without the fragment. -/
def parseHierarchical (scheme rest fragment rawFragment : Str) :
    Option (Option Str × Locator) :=
  match rest with
  | '/' :: '/' :: rest =>
    let parts := (cut '?' rest).getD (rest, [])
    match parseAuthority (parts.1.takeWhile (· ≠ '/')),
        unescape .path (parts.1.dropWhile (· ≠ '/')) with
    | some (user, host), some path =>
      some (user,
        { scheme := scheme.map Char.toLower, host, path,
          rawPath := rawOf .path (parts.1.dropWhile (· ≠ '/')) path,
          forceQuery := '?' ∈ rest && parts.2 = [], rawQuery := parts.2, fragment,
          rawFragment })
    | _, _ => none
  | _ => none

/-- The user of a locator, if there is one, and the locator without it. -/
def parse (s : Str) : Option (Option Str × Locator) :=
  let parts := (cut '#' s).getD (s, [])
  if parts.1.any isControl then none
  else
    match cut ':' parts.1, unescape .fragment parts.2 with
    | some (scheme, rest), some fragment =>
      if isScheme scheme then
        parseHierarchical scheme rest fragment (rawOf .fragment parts.2 fragment)
      else none
    | _, _ => none

/-- The text of a part: the raw one where it may stand so. -/
def escaped (mode : Mode) (raw decoded : Str) : Str :=
  if raw ≠ [] ∧ validEncoded mode raw ∧ unescape mode raw = some decoded then raw
  else if mode = .path ∧ decoded = ['*'] then ['%', '2', 'A']
  else escape mode decoded

namespace Locator

def text (u : Locator) : Str :=
  let path := escaped .path u.rawPath u.path
  u.scheme ++ ':' ::
    ((if u.host ≠ [] ∨ u.path ≠ [] then '/' :: '/' :: escape .host u.host else [])
      ++ (if path ≠ [] ∧ path.head? ≠ some '/' ∧ u.host ≠ [] then '/' :: path else path)
      ++ (if u.forceQuery ∨ u.rawQuery ≠ [] then '?' :: u.rawQuery else [])
      ++ (if u.fragment ≠ [] then '#' :: escaped .fragment u.rawFragment u.fragment else []))

def splitHostPort (u : Locator) : Str × Str :=
  match cutLast ':' u.host with
  | some (host, port) => if port.all Char.isDigit then (host, port) else (u.host, [])
  | none => (u.host, [])

def hostname (u : Locator) : Str :=
  u.splitHostPort.1

def port (u : Locator) : Str :=
  u.splitHostPort.2

end Locator

/-! ### Plain locators -/

/-- No character of a text has a meaning in a locator. -/
def IsPlain (s : Str) : Prop :=
  ∀ c ∈ s, isUnreserved c = true

/-- A text is made of segments without a meaning. -/
def IsPath (s : Str) : Prop :=
  ∀ c ∈ s, isUnreserved c = true ∨ c = '/'

/-- A text may stand for a user as it is. -/
def IsUser (s : Str) : Prop :=
  ∀ c ∈ s, isUnreserved c = true ∨ isSubDelim c = true

def hostText (host : Str) (port : Option Str) : Str :=
  host ++ (port.map (':' :: ·)).getD []

def authorityText (user : Option Str) (host : Str) (port : Option Str) :
    Str :=
  (user.map (· ++ ['@'])).getD [] ++ hostText host port

variable {s : Str} {c : Char}

theorem IsPlain.notMem (h : IsPlain s) (hc : isUnreserved c = false) :
  c ∉ s
  := by
  intro hmem
  rw [h c hmem] at hc
  cases hc

theorem IsPath.notMem (h : IsPath s) (hc : isUnreserved c = false)
    (hslash : c ≠ '/') :
  c ∉ s
  := by
  intro hmem
  rcases h c hmem with hplain | hplain
  · rw [hplain] at hc
    cases hc
  · exact hslash hplain

theorem IsUser.notMem (h : IsUser s) (hc : isUnreserved c = false)
    (hdelim : isSubDelim c = false) :
  c ∉ s
  := by
  intro hmem
  rcases h c hmem with hplain | hplain
  · rw [hplain] at hc
    cases hc
  · rw [hplain] at hdelim
    cases hdelim

theorem isUnreserved_of_isDigit (h : c.isDigit = true) :
  isUnreserved c = true
  := by
  simp [isUnreserved, Char.isAlphanum, h]

theorem isPlain_of_digits (h : s.all Char.isDigit = true) :
  IsPlain s
  := fun c hc => isUnreserved_of_isDigit (List.all_eq_true.mp h c hc)

/-- What is checked of each character of a text holds of its characters. -/
theorem forall_mem_of_all {s : Str} {p : Char → Prop} [DecidablePred p]
    (h : s.all (fun d => decide (p d)) = true) :
  ∀ d ∈ s, p d
  := by
  intro d hd
  exact of_decide_eq_true (List.all_eq_true.mp h d hd)

theorem toNat_of_isUnreserved (h : isUnreserved c = true) :
  32 < c.toNat ∧ c.toNat < 127
  := by
  rw [isUnreserved, Bool.or_eq_true, decide_eq_true_eq] at h
  rcases h with h | h
  · simp only [Char.isAlphanum, Char.isAlpha, Char.isUpper, Char.isLower, Char.isDigit,
      Bool.or_eq_true, Bool.and_eq_true, decide_eq_true_eq, ge_iff_le, UInt32.le_iff_toNat_le] at h
    change ((65 ≤ c.toNat ∧ c.toNat ≤ 90) ∨ (97 ≤ c.toNat ∧ c.toNat ≤ 122))
      ∨ (48 ≤ c.toNat ∧ c.toNat ≤ 57) at h
    omega
  · have hall : ∀ d ∈ ['-', '_', '.', '~'], 32 < d.toNat ∧ d.toNat < 127 :=
      forall_mem_of_all (by decide)
    exact hall c h

theorem toNat_of_isSubDelim (h : isSubDelim c = true) :
  32 < c.toNat ∧ c.toNat < 127
  := by
  have hall : ∀ d ∈ ['!', '$', '&', '\x27', '(', ')', '*', '+', ',', ';', '='],
      32 < d.toNat ∧ d.toNat < 127 := forall_mem_of_all (by decide)
  exact hall c (of_decide_eq_true h)

theorem isControl_of_toNat (h : 32 < c.toNat ∧ c.toNat < 127) :
  isControl c = false
  := by
  rw [isControl, Bool.or_eq_false_iff, decide_eq_false_iff_not, decide_eq_false_iff_not]
  omega

/-! #### Escapes of plain texts -/

theorem unescape_cons {mode : Mode} (hc : c ≠ '%')
    (hhost : mode = .host → shouldEscape mode c = false) (s : Str) :
  unescape mode (c :: s) = (unescape mode s).map (c :: ·)
  := by
  rw [unescape.eq_def]
  split
  · rename_i heq
    cases heq
  · rename_i heq
    cases heq
    exact absurd rfl hc
  · rename_i heq
    cases heq
    rw [if_neg hc, if_neg]
    rintro ⟨hmode, -, hescape⟩
    rw [hhost hmode] at hescape
    cases hescape

theorem unescape_self {mode : Mode} (hpercent : '%' ∉ s)
    (hhost : mode = .host → ∀ c ∈ s, shouldEscape mode c = false) :
  unescape mode s = some s
  := by
  induction s with
  | nil => rw [unescape]
  | cons c s ih =>
    rw [List.mem_cons, not_or] at hpercent
    rw [unescape_cons (fun h => hpercent.1 h.symm)
      (fun hmode => hhost hmode c List.mem_cons_self),
      ih hpercent.2 fun hmode d hd => hhost hmode d (List.mem_cons_of_mem c hd)]
    rfl

theorem escape_self {mode : Mode} (h : ∀ c ∈ s, shouldEscape mode c = false) :
  escape mode s = s
  := by
  induction s with
  | nil => rfl
  | cons c s ih =>
    have hs : escape mode s = s := ih fun d hd => h d (List.mem_cons_of_mem c hd)
    have hcons : escape mode (c :: s) = (if shouldEscape mode c then
        ['%', hexDigit (c.toNat / 16), hexDigit (c.toNat % 16)] else [c]) ++ escape mode s := by
      rw [escape, List.flatMap_cons]
      rfl
    rw [hcons, h c List.mem_cons_self, hs]
    rfl

theorem shouldEscape_of_isUnreserved (mode : Mode) (h : isUnreserved c = true) :
  shouldEscape mode c = false
  := by
  rw [shouldEscape.eq_def, if_pos h]

theorem shouldEscape_path (h : IsPath s) :
  ∀ c ∈ s, shouldEscape .path c = false
  := by
  intro c hc
  rcases h c hc with hplain | rfl
  · exact shouldEscape_of_isUnreserved .path hplain
  · rfl

/-! #### Parsing -/

section Plain

variable {user : Option Str} {host : Str} {port : Option Str}

theorem mem_hostText (hhost : IsPlain host) (hport : ∀ p ∈ port, p.all Char.isDigit = true) :
  ∀ c ∈ hostText host port, isUnreserved c = true ∨ c = ':'
  := by
  intro c hc
  rcases List.mem_append.mp hc with hc | hc
  · exact Or.inl (hhost c hc)
  · cases port with
    | none => cases hc
    | some p =>
      rcases List.mem_cons.mp hc with rfl | hc
      · exact Or.inr rfl
      · exact Or.inl (isPlain_of_digits (hport p rfl) c hc)

theorem hostText_notMem (hhost : IsPlain host) (hport : ∀ p ∈ port, p.all Char.isDigit = true)
    {c : Char} (hc : isUnreserved c = false) (hcolon : c ≠ ':') :
  c ∉ hostText host port
  := by
  intro hmem
  rcases mem_hostText hhost hport c hmem with hplain | hplain
  · rw [hplain] at hc
    cases hc
  · exact hcolon hplain

theorem shouldEscape_hostText (hhost : IsPlain host)
    (hport : ∀ p ∈ port, p.all Char.isDigit = true) :
  ∀ c ∈ hostText host port, shouldEscape .host c = false
  := by
  intro c hc
  rcases mem_hostText hhost hport c hc with hplain | rfl
  · exact shouldEscape_of_isUnreserved .host hplain
  · rfl

theorem cutLast_hostText (hhost : IsPlain host) (hport : ∀ p ∈ port, p.all Char.isDigit = true) :
  cutLast ':' (hostText host port) = port.map fun p => (host, p)
  := by
  cases port with
  | none =>
    have hcolon : ':' ∉ hostText host none := by
      simpa [hostText] using hhost.notMem (c := ':') rfl
    exact cutLast_of_notMem hcolon
  | some p =>
    exact cutLast_append ((isPlain_of_digits (hport p rfl)).notMem rfl) host

theorem parseHost_hostText (hhost : IsPlain host)
    (hport : ∀ p ∈ port, p.all Char.isDigit = true) :
  parseHost (hostText host port) = some (hostText host port)
  := by
  have hbracket : (hostText host port).head? ≠ some '[' := by
    intro h
    exact hostText_notMem hhost hport (c := '[') rfl (by decide) (List.mem_of_mem_head? h)
  have hunescape : unescape .host (hostText host port) = some (hostText host port) :=
    unescape_self (hostText_notMem hhost hport rfl (by decide))
      fun _ => shouldEscape_hostText hhost hport
  rw [parseHost, if_neg hbracket, cutLast_hostText hhost hport]
  cases port with
  | none => exact hunescape
  | some p =>
    simp only [Option.map_some]
    rw [if_pos (hport p rfl), hunescape]

/-- An authority is read as it was written. -/
theorem parseAuthority_authorityText (huser : ∀ u ∈ user, IsUser u) (hhost : IsPlain host)
    (hport : ∀ p ∈ port, p.all Char.isDigit = true) :
  parseAuthority (authorityText user host port) = some (user, hostText host port)
  := by
  have hat := hostText_notMem hhost hport (c := '@') rfl (by decide)
  cases user with
  | none =>
    have htext : authorityText none host port = hostText host port := rfl
    rw [htext, parseAuthority, cutLast_of_notMem hat, parseHost_hostText hhost hport]
    rfl
  | some u =>
    have htext : authorityText (some u) host port = u ++ '@' :: hostText host port := by
      simp [authorityText]
    have hu := huser u rfl
    have hvalid : validUserinfo u = true := by
      rw [validUserinfo, List.all_eq_true]
      intro c hc
      rcases hu c hc with hplain | hdelim
      · simp only [isUnreserved, Bool.or_eq_true, decide_eq_true_eq] at hplain
        rcases hplain with hplain | hplain
        · simp [hplain]
        · simp only [List.mem_cons, List.not_mem_nil, or_false] at hplain
          rcases hplain with rfl | rfl | rfl | rfl <;> rfl
      · simp [hdelim]
    have hunescape : unescape .user u = some u :=
      unescape_self (hu.notMem rfl rfl) fun hmode => by cases hmode
    rw [htext, parseAuthority, cutLast_append hat]
    simp only
    rw [parseHost_hostText hhost hport]
    simp [hvalid, hunescape]

theorem authorityText_notMem (huser : ∀ u ∈ user, IsUser u) (hhost : IsPlain host)
    (hport : ∀ p ∈ port, p.all Char.isDigit = true) {c : Char} (hc : isUnreserved c = false)
    (hdelim : isSubDelim c = false) (hcolon : c ≠ ':') (hat : c ≠ '@') :
  c ∉ authorityText user host port
  := by
  intro hmem
  rcases List.mem_append.mp hmem with hmem | hmem
  · cases user with
    | none => cases hmem
    | some u =>
      rcases List.mem_append.mp hmem with hmem | hmem
      · exact (huser u rfl).notMem hc hdelim hmem
      · exact hat (List.mem_singleton.mp hmem)
  · exact hostText_notMem hhost hport hc hcolon hmem

/-- An authority has no blanks and no control characters. -/
theorem toNat_of_mem_authorityText (huser : ∀ u ∈ user, IsUser u) (hhost : IsPlain host)
    (hport : ∀ p ∈ port, p.all Char.isDigit = true) :
  ∀ c ∈ authorityText user host port, 32 < c.toNat ∧ c.toNat < 127
  := by
  intro c hc
  rcases List.mem_append.mp hc with hc | hc
  · cases user with
    | none => cases hc
    | some u =>
      rcases List.mem_append.mp hc with hc | hc
      · rcases huser u rfl c hc with hplain | hdelim
        · exact toNat_of_isUnreserved hplain
        · exact toNat_of_isSubDelim hdelim
      · rw [List.mem_singleton.mp hc]
        decide
  · rcases mem_hostText hhost hport c hc with hplain | rfl
    · exact toNat_of_isUnreserved hplain
    · decide

/-- The text of a locator with plain parts, which has a slash in front of the path. -/
def plainText (scheme : Str) (user : Option Str) (host : Str)
    (port : Option Str) (path : Str) : Str :=
  scheme ++ ':' :: '/' :: '/' :: (authorityText user host port ++ '/' :: path)

variable {scheme path : Str}

theorem toNat_of_mem_plainText (hletters : IsPlain scheme)
    (huser : ∀ u ∈ user, IsUser u) (hhost : IsPlain host)
    (hport : ∀ p ∈ port, p.all Char.isDigit = true) (hpath : IsPath path) :
  ∀ c ∈ plainText scheme user host port path, 32 < c.toNat ∧ c.toNat < 127
  := by
  intro c hc
  simp only [plainText, List.mem_append, List.mem_cons] at hc
  rcases hc with hc | rfl | rfl | rfl | hc | rfl | hc
  · exact toNat_of_isUnreserved (hletters c hc)
  · decide
  · decide
  · decide
  · exact toNat_of_mem_authorityText huser hhost hport c hc
  · decide
  · rcases hpath c hc with hplain | rfl
    · exact toNat_of_isUnreserved hplain
    · decide

def plain (scheme host : Str) (port : Option Str) (path : Str) : Locator where
  scheme := scheme
  host := hostText host port
  path := '/' :: path
  rawPath := []
  forceQuery := false
  rawQuery := []
  fragment := []
  rawFragment := []

theorem isPath_cons {path : Str} (h : IsPath path) :
  IsPath ('/' :: path)
  := by
  intro c hc
  rcases List.mem_cons.mp hc with rfl | hc
  · exact Or.inr rfl
  · exact h c hc

/-- A plain address is read as it was written, after its scheme. -/
theorem parseHierarchical_plain
    (hlower : scheme.map Char.toLower = scheme)
    (huser : ∀ u ∈ user, IsUser u) (hhost : IsPlain host)
    (hport : ∀ p ∈ port, p.all Char.isDigit = true) (hpath : IsPath path) :
  parseHierarchical scheme ('/' :: '/' :: (authorityText user host port ++ '/' :: path)) [] []
    = some (user, plain scheme host port path)
  := by
  have hpath := isPath_cons hpath
  have hquestion : '?' ∉ authorityText user host port ++ '/' :: path := by
    rw [List.mem_append, not_or]
    exact ⟨authorityText_notMem huser hhost hport rfl rfl (by decide) (by decide),
      hpath.notMem rfl (by decide)⟩
  have hauthority : ∀ c ∈ authorityText user host port, decide (c ≠ '/') = true := by
    intro c hc
    apply decide_eq_true
    rintro rfl
    exact authorityText_notMem huser hhost hport rfl rfl (by decide) (by decide) hc
  have htake : (authorityText user host port ++ '/' :: path).takeWhile (· ≠ '/')
      = authorityText user host port := by
    rw [List.takeWhile_append_of_pos hauthority, List.takeWhile_cons_of_neg (by simp),
      List.append_nil]
  have hdrop : (authorityText user host port ++ '/' :: path).dropWhile (· ≠ '/') = '/' :: path := by
    rw [List.dropWhile_append_of_pos hauthority, List.dropWhile_cons_of_neg (by simp)]
  have hpathText : unescape .path ('/' :: path) = some ('/' :: path) :=
    unescape_self (hpath.notMem rfl (by decide)) fun hmode => by cases hmode
  rw [parseHierarchical, cut_of_notMem hquestion]
  simp only [Option.getD_none]
  rw [htake, hdrop, parseAuthority_authorityText huser hhost hport, hpathText]
  simp only [rawOf, escape_self (shouldEscape_path hpath), if_true, hlower, plain,
    decide_eq_false hquestion, Bool.false_and]

/-- A plain address is read as it was written. -/
theorem parse_plainText (hscheme : isScheme scheme = true)
    (hletters : IsPlain scheme) (hlower : scheme.map Char.toLower = scheme)
    (huser : ∀ u ∈ user, IsUser u) (hhost : IsPlain host)
    (hport : ∀ p ∈ port, p.all Char.isDigit = true) (hpath : IsPath path) :
  parse (plainText scheme user host port path) = some (user, plain scheme host port path)
  := by
  have hhash : '#' ∉ plainText scheme user host port path := by
    simp only [plainText, List.mem_append, List.mem_cons, not_or]
    exact ⟨hletters.notMem rfl, by decide, by decide, by decide,
      authorityText_notMem huser hhost hport rfl rfl (by decide) (by decide), by decide,
      hpath.notMem rfl (by decide)⟩
  have hcontrol : (plainText scheme user host port path).any isControl = false := by
    rw [List.any_eq_false]
    intro c hc
    rw [isControl_of_toNat (toNat_of_mem_plainText hletters huser hhost hport hpath c hc)]
    simp
  rw [parse, cut_of_notMem hhash]
  simp only [Option.getD_none]
  rw [if_neg (by simp [hcontrol]), plainText, cut_append (hletters.notMem rfl), unescape]
  simp only [hscheme, if_true]
  exact parseHierarchical_plain hlower huser hhost hport hpath

theorem text_plain (hhost : IsPlain host) (hne : host ≠ [])
    (hport : ∀ p ∈ port, p.all Char.isDigit = true) (hpath : IsPath path) :
  (plain scheme host port path).text = plainText scheme none host port path
  := by
  have hhostText : hostText host port ≠ [] := by
    simp [hostText, hne]
  have hescaped : escaped .path [] ('/' :: path) = '/' :: path := by
    rw [escaped, if_neg (by simp), if_neg (by simp),
      escape_self (shouldEscape_path (isPath_cons hpath))]
  have hescapedHost := escape_self (shouldEscape_hostText hhost hport)
  simp [Locator.text, plain, plainText, authorityText, hescaped, hescapedHost, hhostText]

theorem splitHostPort_plain (hhost : IsPlain host)
    (hport : ∀ p ∈ port, p.all Char.isDigit = true) :
  (plain scheme host port path).splitHostPort = (host, port.getD [])
  := by
  rw [Locator.splitHostPort]
  simp only [plain]
  rw [cutLast_hostText hhost hport]
  cases port with
  | none => simp [hostText]
  | some p =>
    simp only [Option.map_some]
    rw [if_pos (hport p rfl)]
    rfl

end Plain

end Url
