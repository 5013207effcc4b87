import Ploy.Domain.Types

/-!
# The identity of a caller

A request is authenticated by a bearer token, by a token in its query where the route allows that,
or by the certificate its peer presents. The role of a certificate is read from its subject: the
organizational units come first, then what stands before the first delimiter of the common name.
-/

namespace Ploy

/-- The privileges a caller can have. -/
inductive Role where
  | controlPlane | worker | cliAdmin
  deriving DecidableEq, Repr

/-! ### Text -/

/-- The lower case of a letter. Beyond ASCII only the capital I with a dot and the Kelvin sign have
an ASCII letter as their lower case. -/
def lowerRune (c : Char) : Char :=
  if c = Char.ofNat 0x130 then 'i' else if c = Char.ofNat 0x212A then 'k' else c.toLower

/-- A text without the given text at its front. -/
def trimPrefix (front s : String) : String :=
  if front.toList.isPrefixOf s.toList then String.ofList (s.toList.drop front.length) else s

/-- What stands before the first occurrence of a character, where that is not at the front. -/
def beforeFirst (c : Char) (s : String) : Option String :=
  let before := s.toList.takeWhile (· ≠ c)
  if c ∈ s.toList ∧ before ≠ [] then some (String.ofList before) else none

/-! ### Roles -/

/-- The role that a text names. -/
def normalizeRole (value : String) : Option Role :=
  let name := String.ofList ((trimSpace value).toList.map lowerRune)
  if name ∈ ["beacon", "control", "control-plane", "controlplane", "client"] then some .controlPlane
  else if name ∈ ["worker", "node"] then some .worker
  else if name ∈ ["cli-admin", "cliadmin", "admin"] then some .cliAdmin
  else none

/-- The subject of a certificate or of a certificate request. -/
structure Subject where
  commonName : String
  organizationalUnit : List String
  deriving DecidableEq, Repr

structure Certificate where
  subject : Subject
  serialNumber : Nat
  deriving DecidableEq, Repr

/-- The role that an organizational unit names. -/
def unitRole (ou : String) : Option Role :=
  normalizeRole (trimPrefix "role=" (trimSpace (trimPrefix "Ploy" (trimSpace ou))))

/-- The role that a common name names. -/
def nameRole (commonName : String) : Option Role :=
  let cn := trimSpace commonName
  if cn = "" then none
  else normalizeRole ((beforeFirst ':' cn <|> beforeFirst '-' cn).getD cn)

def extractRole (cert : Certificate) : Option Role :=
  cert.subject.organizationalUnit.findSome? unitRole <|> nameRole cert.subject.commonName

theorem nameRole_of_node {commonName id : String} (h : trimSpace commonName = "node:" ++ id) :
  nameRole commonName = some .worker
  := by
  have hlist : ("node:" ++ id).toList = 'n' :: 'o' :: 'd' :: 'e' :: ':' :: id.toList := by
    rw [String.toList_append]
    rfl
  have hne : "node:" ++ id ≠ "" := by
    intro hempty
    rw [hempty] at hlist
    cases hlist
  have hfront : beforeFirst ':' ("node:" ++ id) = some "node" := by
    simp [beforeFirst, hlist, List.takeWhile]
  rw [nameRole, h]
  simp only [if_neg hne, hfront, Option.orElse_eq_orElse, Option.orElse_some, Option.getD_some]
  decide

/-! ### Requests -/

/-- What of a request decides who its caller is. `auth_token` is the query parameter, and
`peerCertificates` is `none` without TLS. -/
structure AuthRequest where
  method : String
  authorization : String
  queryTokenAllowed : Bool
  authToken : String
  peerCertificates : Option (List Certificate)
  deriving DecidableEq, Repr

structure Identity where
  role : Role
  commonName : String
  serial : Option Nat
  tokenID : String
  deriving DecidableEq, Repr

/-- The authorizer: whether it allows requests without credentials and with which role, and what it
makes of a token. -/
structure Authorizer where
  allowInsecure : Bool
  defaultRole : Option Role
  identityFromBearerToken : String → Except String Identity

/-- The token of the request's header. -/
def AuthRequest.bearerToken (r : AuthRequest) : Option String :=
  if "Bearer ".toList.isPrefixOf r.authorization.toList then
    some (trimPrefix "Bearer " r.authorization)
  else none

/-- The token of the request's query, where the route allows it. -/
def AuthRequest.queryToken (r : AuthRequest) : Option String :=
  if r.method = "GET" ∧ r.queryTokenAllowed = true ∧ trimSpace r.authToken ≠ "" then
    some (trimSpace r.authToken)
  else none

def Authorizer.identityFromRequest (a : Authorizer) (r : AuthRequest) : Except String Identity :=
  match r.bearerToken, r.queryToken with
  | some token, _ => a.identityFromBearerToken token
  | none, some token => a.identityFromBearerToken token
  | none, none =>
    match r.peerCertificates with
    | none | some [] =>
      if a.allowInsecure then .ok ⟨a.defaultRole.getD .controlPlane, "", none, ""⟩
      else .error "authentication required: provide Bearer token"
    | some (cert :: _) =>
      match extractRole cert with
      | none => .error "auth: certificate missing role claim"
      | some role => .ok ⟨role, cert.subject.commonName, some cert.serialNumber, ""⟩

theorem Authorizer.identityFromRequest_of_certificate
    (a : Authorizer) {r : AuthRequest} {cert : Certificate} {rest : List Certificate} {role : Role}
    (hbearer : r.bearerToken = none) (hquery : r.queryToken = none)
    (hpeer : r.peerCertificates = some (cert :: rest)) (hrole : extractRole cert = some role) :
  a.identityFromRequest r = .ok ⟨role, cert.subject.commonName, some cert.serialNumber, ""⟩
  := by
  simp only [identityFromRequest, hbearer, hquery, hpeer, hrole]

end Ploy
