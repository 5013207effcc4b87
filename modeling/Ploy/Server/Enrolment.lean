import Ploy.Foundations.Execution
import Ploy.Server.Authorizer

/-!
# Enrolment of nodes

A node exchanges a bootstrap token for a certificate. The handler checks the token and the
certificate request and signs it; then a transaction creates the node and marks the token as used,
and only then the certificate is returned. The exchanges of any number of clients interleave between
the checks and the transaction.
-/

namespace Ploy

inductive TokenType where
  | api | bootstrap
  deriving DecidableEq, Repr

/-- What a token says of itself, once its signature is verified. -/
structure TokenClaims where
  id : String
  tokenType : TokenType
  nodeID : NodeID
  expiresAt : Time
  deriving DecidableEq, Repr

/-- What decoding a certificate request gives. A request that parses has a signature that fails for
some cause or is right. -/
inductive CSR where
  | notPEM
  | unparsable (cause : String)
  | parsed (signatureError : Option String) (subject : Subject)
  deriving DecidableEq, Repr

/-- A row of `bootstrap_tokens`. -/
structure BootstrapToken where
  tokenID : String
  nodeID : Option NodeID
  used : Bool
  revoked : Bool
  deriving DecidableEq, Repr

/-- A row of `nodes`. -/
structure NodeRow where
  id : NodeID
  name : String
  ipAddress : String
  deriving DecidableEq, Repr

/-- An answer of the handler other than the certificate. -/
structure Refusal where
  code : Nat
  text : String
  deriving DecidableEq, Repr

/-- What can go wrong between the checks and the transaction. -/
inductive SignFault where
  | caNotConfigured
  | caInvalid
  | sign (cause : String)
  | secretNotSet
  | generate (cause : String)
  deriving DecidableEq, Repr

def SignFault.refusal : SignFault → Refusal
  | caNotConfigured => ⟨503, "PKI not configured"⟩
  | caInvalid => ⟨500, "failed to load CA"⟩
  | sign cause => ⟨400, "sign failed: " ++ cause⟩
  | secretNotSet => ⟨500, "server misconfigured: PLOY_AUTH_SECRET not set"⟩
  | generate cause => ⟨500, "failed to generate worker token: " ++ cause⟩

/-- A request to exchange a token for a certificate. -/
structure ExchangeRequest where
  authorization : String
  csr : String
  deriving DecidableEq, Repr

/-- An exchange: its certificate is signed and not yet returned, or it has ended. -/
inductive Exchange where
  | signed (claims : TokenClaims) (cert : Certificate)
  | ended
  deriving DecidableEq, Repr

/-- A certificate that was returned, with the token and the node of its exchange. -/
structure Enrolled where
  tokenID : String
  nodeID : NodeID
  certificate : Certificate
  deriving DecidableEq, Repr

structure Enrolment where
  tokens : List BootstrapToken
  nodes : List NodeRow
  exchanges : List Exchange
  returned : List Enrolled
  deriving DecidableEq, Repr

/-- A token is minted or revoked, a client's exchange passes or fails the checks, its transaction is
run, it is given up before that, or a node reports its address. -/
inductive EnrolEvent where
  | mint (tokenID : String) (nodeID : NodeID)
  | revoke (tokenID : String)
  | exchange (now : Time) (request : ExchangeRequest) (fault : Option SignFault) (serial : Nat)
  | complete (i : Nat)
  | giveUp (i : Nat)
  | report (nodeID : NodeID) (ipAddress : String)
  deriving DecidableEq, Repr

namespace Enrolment

variable (validateToken : String → Except String TokenClaims) (decodeCSR : String → CSR)

/-- The checks of the token, against its row. -/
def validateBootstrapToken (s : Enrolment) (now : Time) (authorization : String) :
    Except String TokenClaims :=
  if "Bearer ".toList.isPrefixOf authorization.toList then
    match validateToken (trimPrefix "Bearer " authorization) with
    | .error cause => .error ("invalid token: " ++ cause)
    | .ok claims =>
      if claims.tokenType ≠ .bootstrap then
        .error "invalid token type: expected bootstrap token"
      else if claims.expiresAt < now then .error "token expired"
      else
        match s.tokens.find? (·.tokenID = claims.id) with
        | none => .error "token not found or invalid"
        | some row =>
          if row.revoked then .error "token revoked"
          else if row.used then .error "token already used"
          else if row.nodeID ≠ some claims.nodeID then .error "token not found or invalid"
          else .ok claims
  else .error "missing or invalid Authorization header"

/-- The checks of the certificate request. Of its subject only the common name is looked at. -/
def parseAndVerifyCSR (csr : String) (expectedCN : String) : Except String Subject :=
  if trimSpace csr = "" then .error "csr field is required"
  else
    match decodeCSR csr with
    | .notPEM => .error "invalid CSR PEM"
    | .unparsable cause => .error ("parse CSR: " ++ cause)
    | .parsed (some cause) _ => .error ("verify CSR signature: " ++ cause)
    | .parsed none subject =>
      if trimSpace subject.commonName ≠ expectedCN then
        .error "CSR subject common name must match node_id from token"
      else .ok subject

/-- The certificate signed for a request has the subject of the request. -/
def signNodeCSR (subject : Subject) (serial : Nat) : Certificate :=
  ⟨subject, serial⟩

/-- The handler up to its transaction: the checks and the signing. -/
def signExchange (s : Enrolment) (now : Time) (request : ExchangeRequest)
    (fault : Option SignFault) (serial : Nat) : Except Refusal (TokenClaims × Certificate) := do
  let claims ← (s.validateBootstrapToken validateToken now request.authorization).mapError
    (⟨401, ·⟩)
  let subject ← (parseAndVerifyCSR decodeCSR request.csr ("node:" ++ claims.nodeID.raw)).mapError
    (⟨400, ·⟩)
  match fault with
  | some fault => throw fault.refusal
  | none => pure (claims, signNodeCSR subject serial)

/-- Why the transaction refuses an enrolment. -/
inductive EnrolError where
  | tokenInvalid | nodeExists
  deriving DecidableEq, Repr

def createNode (id : NodeID) : NodeRow :=
  ⟨id, "node-" ++ id.raw, "0.0.0.0"⟩

/-- Whether a node shares what is unique among the nodes. -/
def NodeRow.conflicts (a b : NodeRow) : Bool :=
  a.id = b.id || a.name = b.name || a.ipAddress = b.ipAddress

/-- The transaction: the token's row is locked and checked, the node is created and the token is
marked as used. -/
def completeBootstrapEnrollment (s : Enrolment) (tokenID : String) (nodeID : NodeID) :
    Except EnrolError Enrolment :=
  if tokenID = "" ∨ nodeID.isZero then .error .tokenInvalid
  else
    match s.tokens.find? (·.tokenID = tokenID) with
    | none => .error .tokenInvalid
    | some row =>
      if row.nodeID ≠ some nodeID ∨ row.used ∨ row.revoked then .error .tokenInvalid
      else if s.nodes.any (·.id = nodeID) then .error .nodeExists
      else if s.nodes.any (NodeRow.conflicts (createNode nodeID)) then .error .nodeExists
      else .ok { s with
        nodes := s.nodes ++ [createNode nodeID]
        tokens := s.tokens.map fun row =>
          if row.tokenID = tokenID then { row with used := true } else row }

/-- The handler from its transaction on. -/
def finishExchange (s : Enrolment) (i : Nat) (claims : TokenClaims) (cert : Certificate) :
    Enrolment :=
  match s.completeBootstrapEnrollment claims.id claims.nodeID with
  | .error _ => { s with exchanges := s.exchanges.set i .ended }
  | .ok s' => { s' with
      exchanges := s.exchanges.set i .ended
      returned := ⟨claims.id, claims.nodeID, cert⟩ :: s.returned }

/-- The state after an event, where it can take place. Nothing is kept of the minting but its
insertion, which fails for an identifier that is taken. -/
def step : EnrolEvent → Enrolment → Option Enrolment
  | .mint tokenID nodeID, s =>
    if s.tokens.any (·.tokenID = tokenID) then none
    else some { s with tokens := s.tokens ++ [⟨tokenID, some nodeID, false, false⟩] }
  | .revoke tokenID, s => some { s with
      tokens := s.tokens.map fun row =>
        if row.tokenID = tokenID then { row with revoked := true } else row }
  | .exchange now request fault serial, s =>
    match s.signExchange validateToken decodeCSR now request fault serial with
    | .error _ => some s
    | .ok (claims, cert) => some { s with exchanges := s.exchanges ++ [.signed claims cert] }
  | .complete i, s =>
    match s.exchanges[i]? with
    | some (.signed claims cert) => some (s.finishExchange i claims cert)
    | _ => none
  | .giveUp i, s => some { s with exchanges := s.exchanges.set i .ended }
  | .report nodeID ipAddress, s =>
    if s.nodes.any (·.ipAddress = ipAddress) then none
    else some { s with
      nodes := s.nodes.map fun node =>
        if node.id = nodeID then { node with ipAddress := ipAddress } else node }

/-- Any tokens and any nodes, before the first exchange. -/
structure Initial (s : Enrolment) : Prop where
  nodup : (s.tokens.map BootstrapToken.tokenID).Nodup
  idle : s.exchanges = []
  unreturned : s.returned = []

/-- Enrolment with any number of exchanges. -/
def machine : Machine Enrolment EnrolEvent where
  init := Initial
  step := step validateToken decodeCSR

/-- The condition under which a certificate gives the rights of a worker: the organizational units
of the certificate request name no role, or the first role they name is that of a worker. -/
def asksForWorker (_ : Enrolment) : EnrolEvent → Bool
  | .exchange _ request _ _ =>
    match decodeCSR request.csr with
    | .parsed none subject =>
      (subject.organizationalUnit.findSome? unitRole).getD .worker = .worker
    | _ => true
  | _ => true

/-! ### What the handler has checked -/

section Checks

variable {validateToken decodeCSR} {s s' : Enrolment}

/-- What was checked when a certificate was signed. -/
theorem signExchange_ok {now : Time} {request : ExchangeRequest} {fault : Option SignFault}
    {serial : Nat} {claims : TokenClaims} {cert : Certificate}
    (h : s.signExchange validateToken decodeCSR now request fault serial = .ok (claims, cert)) :
  decodeCSR request.csr = .parsed none cert.subject
    ∧ trimSpace cert.subject.commonName = "node:" ++ claims.nodeID.raw
  := by
  simp only [signExchange] at h
  cases hclaims : s.validateBootstrapToken validateToken now request.authorization with
  | error e =>
    rw [hclaims] at h
    cases h
  | ok claims' =>
    simp only [hclaims, Except.mapError, bind, Except.bind] at h
    cases hsubject : parseAndVerifyCSR decodeCSR request.csr ("node:" ++ claims'.nodeID.raw) with
    | error e =>
      simp only [hsubject] at h
      cases h
    | ok subject =>
      simp only [hsubject] at h
      cases fault with
      | some fault => cases h
      | none =>
        cases h
        simp only [parseAndVerifyCSR] at hsubject
        split at hsubject
        · cases hsubject
        · split at hsubject
          · cases hsubject
          · cases hsubject
          · cases hsubject
          · rename_i hdecode
            split at hsubject
            · cases hsubject
            · rename_i hname
              cases hsubject
              exact ⟨hdecode, not_not.mp hname⟩

/-- An enrolment uses up its token, and its node is new. -/
theorem completeBootstrapEnrollment_ok {tokenID : String} {nodeID : NodeID}
    (h : s.completeBootstrapEnrollment tokenID nodeID = .ok s') :
  (∃ row ∈ s.tokens, row.tokenID = tokenID ∧ row.nodeID = some nodeID ∧ row.used = false
      ∧ row.revoked = false)
    ∧ (∀ node ∈ s.nodes, node.id ≠ nodeID)
    ∧ s' = { s with
        nodes := s.nodes ++ [createNode nodeID]
        tokens := s.tokens.map fun row =>
          if row.tokenID = tokenID then { row with used := true } else row }
  := by
  simp only [completeBootstrapEnrollment] at h
  split at h
  · cases h
  · split at h
    · cases h
    · rename_i row hrow
      split at h
      · cases h
      · rename_i hvalid
        split at h
        · cases h
        · rename_i hfresh
          split at h
          · cases h
          · cases h
            have hid : row.tokenID = tokenID := by simpa using List.find?_some hrow
            have hmem : row ∈ s.tokens := List.mem_of_find?_eq_some hrow
            simp only [not_or, not_not, Bool.not_eq_true] at hvalid
            refine ⟨⟨row, hmem, hid, hvalid⟩, ?_, rfl⟩
            intro node hnode hnodeID
            apply hfresh
            exact List.any_eq_true.mpr ⟨node, hnode, by simpa using hnodeID⟩

end Checks

/-! ### What every step keeps -/

/-- What was returned has used its token and has its node, once each. Every certificate, signed or
returned, is as `P` has it. -/
structure Sound (P : NodeID → Subject → Prop) (s : Enrolment) : Prop where
  nodup : (s.tokens.map BootstrapToken.tokenID).Nodup
  signed : ∀ (claims : TokenClaims) (cert : Certificate), .signed claims cert ∈ s.exchanges →
    P claims.nodeID cert.subject
  certificates : ∀ r ∈ s.returned, P r.nodeID r.certificate.subject
  used : ∀ r ∈ s.returned,
    ∃ row ∈ s.tokens, row.tokenID = r.tokenID ∧ row.nodeID = some r.nodeID ∧ row.used = true
  created : ∀ r ∈ s.returned, ∃ node ∈ s.nodes, node.id = r.nodeID
  oncePerToken : (s.returned.map Enrolled.tokenID).Nodup
  oncePerNode : (s.returned.map Enrolled.nodeID).Nodup

section Sound

variable {P : NodeID → Subject → Prop} {s s' : Enrolment} {i : Nat} {claims : TokenClaims}
  {cert : Certificate}

theorem Initial.sound (h : Initial s) :
  Sound P s
  := by
  obtain ⟨hnodup, hidle, hunreturned⟩ := h
  constructor
  case nodup => apply hnodup
  case signed => simp [hidle]
  all_goals simp [hunreturned]

theorem Sound.mint (h : Sound P s) {tokenID : String} {nodeID : NodeID}
    (hfresh : ∀ row ∈ s.tokens, row.tokenID ≠ tokenID) :
  Sound P { s with tokens := s.tokens ++ [⟨tokenID, some nodeID, false, false⟩] }
  := by
  refine ⟨?_, h.signed, h.certificates, ?_, h.created, h.oncePerToken, h.oncePerNode⟩
  · rw [List.map_append, List.nodup_append]
    refine ⟨h.nodup, List.nodup_singleton _, ?_⟩
    rintro a ha _ hb rfl
    obtain ⟨row, hrow, rfl⟩ := List.mem_map.mp ha
    apply hfresh row hrow (List.mem_singleton.mp hb)
  · intro r hr
    obtain ⟨row, hrow, hsame⟩ := h.used r hr
    exact ⟨row, List.mem_append_left _ hrow, hsame⟩

theorem Sound.updateTokens (h : Sound P s) {f : BootstrapToken → BootstrapToken}
    (hid : ∀ row, (f row).tokenID = row.tokenID) (hnode : ∀ row, (f row).nodeID = row.nodeID)
    (hused : ∀ row, row.used = true → (f row).used = true) :
  Sound P { s with tokens := s.tokens.map f }
  := by
  refine ⟨?_, h.signed, h.certificates, ?_, h.created, h.oncePerToken, h.oncePerNode⟩
  · rw [List.map_map]
    have hsame : BootstrapToken.tokenID ∘ f = BootstrapToken.tokenID := by
      funext row
      apply hid
    rw [hsame]
    apply h.nodup
  · intro r hr
    obtain ⟨row, hrow, hrid, hrnode, hrused⟩ := h.used r hr
    refine ⟨f row, List.mem_map_of_mem hrow, ?_, ?_, hused row hrused⟩
    · rw [hid, hrid]
    · rw [hnode, hrnode]

theorem Sound.updateNodes (h : Sound P s) {nodes : List NodeRow}
    (hkept : ∀ node ∈ s.nodes, ∃ node' ∈ nodes, node'.id = node.id) :
  Sound P { s with nodes := nodes }
  := by
  refine ⟨h.nodup, h.signed, h.certificates, h.used, ?_, h.oncePerToken, h.oncePerNode⟩
  intro r hr
  obtain ⟨node, hnode, hid⟩ := h.created r hr
  obtain ⟨node', hnode', hid'⟩ := hkept node hnode
  exact ⟨node', hnode', hid'.trans hid⟩

theorem Sound.sign (h : Sound P s) (hP : P claims.nodeID cert.subject) :
  Sound P { s with exchanges := s.exchanges ++ [.signed claims cert] }
  := by
  refine ⟨h.nodup, ?_, h.certificates, h.used, h.created, h.oncePerToken, h.oncePerNode⟩
  intro claims' cert' hmem
  rcases List.mem_append.mp hmem with hmem | hmem
  · apply h.signed claims' cert' hmem
  · cases List.mem_singleton.mp hmem
    apply hP

theorem Sound.finish (h : Sound P s) :
  Sound P { s with exchanges := s.exchanges.set i .ended }
  := by
  refine ⟨h.nodup, ?_, h.certificates, h.used, h.created, h.oncePerToken, h.oncePerNode⟩
  intro claims cert hmem
  rcases Pool.mem_of_set hmem with hended | hmem
  · cases hended
  · apply h.signed claims cert hmem

theorem Sound.answer (h : Sound P s) {r : Enrolled} (hP : P r.nodeID r.certificate.subject)
    (hused : ∃ row ∈ s.tokens,
      row.tokenID = r.tokenID ∧ row.nodeID = some r.nodeID ∧ row.used = true)
    (hcreated : ∃ node ∈ s.nodes, node.id = r.nodeID)
    (htoken : ∀ r' ∈ s.returned, r'.tokenID ≠ r.tokenID)
    (hnode : ∀ r' ∈ s.returned, r'.nodeID ≠ r.nodeID) :
  Sound P { s with returned := r :: s.returned }
  := by
  refine ⟨h.nodup, h.signed, ?_, ?_, ?_, ?_, ?_⟩
  · exact List.forall_mem_cons.mpr ⟨hP, h.certificates⟩
  · exact List.forall_mem_cons.mpr ⟨hused, h.used⟩
  · exact List.forall_mem_cons.mpr ⟨hcreated, h.created⟩
  · refine List.nodup_cons.mpr ⟨?_, h.oncePerToken⟩
    rintro hmem
    obtain ⟨r', hr', hid⟩ := List.mem_map.mp hmem
    apply htoken r' hr' hid
  · refine List.nodup_cons.mpr ⟨?_, h.oncePerNode⟩
    rintro hmem
    obtain ⟨r', hr', hid⟩ := List.mem_map.mp hmem
    apply hnode r' hr' hid

/-- An exchange that was signed is completed or refused. -/
theorem Sound.complete (h : Sound P s) (hi : s.exchanges[i]? = some (.signed claims cert)) :
  Sound P (s.finishExchange i claims cert)
  := by
  simp only [finishExchange]
  split
  · apply h.finish
  · rename_i s₁ hok
    obtain ⟨⟨row, hrow, hid, hnodeID, hunused, -⟩, hfresh, rfl⟩ :=
      completeBootstrapEnrollment_ok hok
    -- the node is created first, then the token is marked, and the certificate is returned last
    have hcreated : Sound P { s with nodes := s.nodes ++ [createNode claims.nodeID] } := by
      apply h.updateNodes
      intro node hnode
      exact ⟨node, List.mem_append_left _ hnode, rfl⟩
    have hmarked := hcreated.updateTokens
      (f := fun row => if row.tokenID = claims.id then { row with used := true } else row)
      (by intro row; split <;> rfl) (by intro row; split <;> rfl)
      (by intro row hused; split <;> simp [hused])
    apply (hmarked.finish (i := i)).answer
    · apply h.signed _ _ (List.mem_of_getElem? hi)
    · refine ⟨_, List.mem_map_of_mem hrow, ?_⟩
      simp [hid, hnodeID]
    · refine ⟨_, List.mem_append_right _ (List.mem_singleton_self _), rfl⟩
    · intro r hr hrid
      obtain ⟨row', hrow', hid', -, hused'⟩ := h.used r hr
      have hsame : row' = row :=
        List.inj_on_of_nodup_map h.nodup hrow' hrow (by rw [hid', hrid, hid])
      rw [hsame, hunused] at hused'
      cases hused'
    · intro r hr hrnode
      obtain ⟨node, hnode, hnid⟩ := h.created r hr
      apply hfresh node hnode (hnid.trans hrnode)

variable {validateToken decodeCSR}

/-- Every event keeps the tokens and the nodes in step. -/
theorem Sound.step (h : Sound P s) {e : EnrolEvent}
    (hP : ∀ now request fault serial claims cert, e = .exchange now request fault serial →
      s.signExchange validateToken decodeCSR now request fault serial = .ok (claims, cert) →
      P claims.nodeID cert.subject)
    (hs : step validateToken decodeCSR e s = some s') :
  Sound P s'
  := by
  cases e with
  | mint tokenID nodeID =>
    simp only [Enrolment.step] at hs
    split at hs
    · cases hs
    · rename_i hfresh
      cases hs
      apply h.mint
      intro row hrow hid
      apply hfresh
      exact List.any_eq_true.mpr ⟨row, hrow, by simpa using hid⟩
  | revoke tokenID =>
    cases hs
    apply h.updateTokens
    · intro row
      split <;> rfl
    · intro row
      split <;> rfl
    · intro row hused
      split <;> exact hused
  | exchange now request fault serial =>
    simp only [Enrolment.step] at hs
    split at hs
    · cases hs
      apply h
    · rename_i claims cert hok
      cases hs
      apply h.sign (hP now request fault serial claims cert rfl hok)
  | complete i =>
    simp only [Enrolment.step] at hs
    split at hs
    · rename_i hi
      cases hs
      apply h.complete hi
    · cases hs
  | giveUp i =>
    cases hs
    apply h.finish
  | report nodeID ipAddress =>
    simp only [Enrolment.step] at hs
    split at hs
    · cases hs
    · cases hs
      apply h.updateNodes
      intro node hnode
      refine ⟨_, List.mem_map_of_mem hnode, ?_⟩
      split <;> rfl

/-- A certificate is returned only for a token that was still good. -/
theorem returned_step {e : EnrolEvent} (hs : step validateToken decodeCSR e s = some s')
    {r : Enrolled} (hr : r ∈ s'.returned) (hnew : r ∉ s.returned) :
  ∃ row ∈ s.tokens, row.tokenID = r.tokenID ∧ row.nodeID = some r.nodeID ∧ row.used = false
    ∧ row.revoked = false
  := by
  cases e with
  | complete i =>
    simp only [Enrolment.step] at hs
    split at hs
    · rename_i claims cert hi
      cases hs
      simp only [finishExchange] at hr
      split at hr
      · exact absurd hr hnew
      · rename_i hok
        rcases List.mem_cons.mp hr with rfl | hr
        · apply (completeBootstrapEnrollment_ok hok).1
        · exact absurd hr hnew
    · cases hs
  | mint | report =>
    simp only [Enrolment.step] at hs
    split at hs <;> cases hs
    exact absurd hr hnew
  | exchange now request fault serial =>
    simp only [Enrolment.step] at hs
    split at hs <;> cases hs <;> exact absurd hr hnew
  | revoke | giveUp =>
    cases hs
    exact absurd hr hnew

end Sound

/-! ### Enrolment gives worker rights, once -/

section Main

variable {validateToken decodeCSR} {past : List (Enrolment × EnrolEvent)} {s : Enrolment}

def Names (nodeID : NodeID) (subject : Subject) : Prop :=
  trimSpace subject.commonName = "node:" ++ nodeID.raw

/-- The common name is that of the node, and no unit names another role first. -/
def NamesWorker (nodeID : NodeID) (subject : Subject) : Prop :=
  Names nodeID subject ∧ (subject.organizationalUnit.findSome? unitRole).getD .worker = .worker

theorem sound_names (h : (machine validateToken decodeCSR).Execution past s) :
  Sound Names s
  := by
  apply h.invariant (fun _ => Initial.sound)
  intro s e s' hsound hs
  apply hsound.step _ hs
  intro _ _ _ _ _ _ _ hok
  apply (signExchange_ok hok).2

theorem sound_namesWorker (h : (machine validateToken decodeCSR).Execution past s)
    (ha : ∀ x ∈ past, asksForWorker decodeCSR x.1 x.2 = true) :
  Sound NamesWorker s
  := by
  apply h.invariant_of_allowed (asksForWorker decodeCSR) (fun _ => Initial.sound) _ ha
  intro s e s' hsound hallowed hs
  apply hsound.step _ hs
  rintro now request fault serial claims cert rfl hok
  obtain ⟨hdecode, hname⟩ := signExchange_ok hok
  simp only [asksForWorker, hdecode, decide_eq_true_eq] at hallowed
  exact ⟨hname, hallowed⟩

theorem extractRole_of_namesWorker {nodeID : NodeID} {cert : Certificate}
    (h : NamesWorker nodeID cert.subject) :
  extractRole cert = some .worker
  := by
  obtain ⟨hname, hunit⟩ := h
  rw [extractRole, nameRole_of_node hname]
  cases hrole : cert.subject.organizationalUnit.findSome? unitRole with
  | none => rfl
  | some role =>
    rw [hrole, Option.getD_some] at hunit
    rw [hunit]
    rfl

/-- In every run, at most one certificate is returned for each token and for each node, and none for
a token whose row is used or revoked. If no certificate request asks for another role, a request
that presents a returned certificate and no token has the role of a worker, under the name of the
node the token was minted for. -/
theorem enrolment_gives_worker_once (h : (machine validateToken decodeCSR).Execution past s) :
  (s.returned.map Enrolled.tokenID).Nodup ∧ (s.returned.map Enrolled.nodeID).Nodup
    ∧ (∀ e s', (machine validateToken decodeCSR).step e s = some s' →
        ∀ r ∈ s'.returned, r ∉ s.returned →
          ∃ row ∈ s.tokens, row.tokenID = r.tokenID ∧ row.nodeID = some r.nodeID
            ∧ row.used = false ∧ row.revoked = false)
    ∧ ((∀ x ∈ past, asksForWorker decodeCSR x.1 x.2 = true) →
        ∀ r ∈ s.returned, ∀ (a : Authorizer) (request : AuthRequest) (rest : List Certificate),
          request.bearerToken = none → request.queryToken = none →
          request.peerCertificates = some (r.certificate :: rest) →
          ∃ identity row, a.identityFromRequest request = .ok identity
            ∧ row ∈ s.tokens ∧ row.tokenID = r.tokenID ∧ row.nodeID = some r.nodeID
            ∧ identity.role = .worker ∧ trimSpace identity.commonName = "node:" ++ r.nodeID.raw)
  := by
  have hsound := sound_names h
  refine ⟨hsound.oncePerToken, hsound.oncePerNode, ?_, ?_⟩
  · intro e s' hs r hr hnew
    apply returned_step hs hr hnew
  · intro ha r hr a request rest hbearer hquery hpeer
    have hnames := (sound_namesWorker h ha).certificates r hr
    have hrole := extractRole_of_namesWorker hnames
    obtain ⟨row, hrow, hid, hnodeID, -⟩ := hsound.used r hr
    refine ⟨_, row, a.identityFromRequest_of_certificate hbearer hquery hpeer hrole, hrow, hid,
      hnodeID, rfl, hnames.1⟩

end Main

/-! ### A node that enrols -/

namespace Sample

def validate (token : String) : Except String TokenClaims :=
  if token = "jwt" then .ok ⟨"t1", .bootstrap, ⟨"n1"⟩, 900⟩ else .error "signature is invalid"

/-- A certificate request in the name of the node, with the units that its text is. -/
def decode (csr : String) : CSR :=
  .parsed none ⟨" node:n1", [csr]⟩

/-- One token for the node, and nothing else yet. -/
def minted : Enrolment :=
  ⟨[⟨"t1", some ⟨"n1"⟩, false, false⟩], [], [], []⟩

/-- Two exchanges with one token both pass the checks; both run their transactions. -/
def events (units : String) : List EnrolEvent :=
  [.exchange 5 ⟨"Bearer jwt", units⟩ none 1, .exchange 6 ⟨"Bearer jwt", units⟩ none 2, .complete 1,
    .complete 0]

/-- The certificate of the exchange that got there first. -/
def enrolled (units : String) : Enrolled :=
  ⟨"t1", ⟨"n1"⟩, ⟨⟨" node:n1", [units]⟩, 2⟩⟩

def final (units : String) : Enrolment :=
  ⟨[⟨"t1", some ⟨"n1"⟩, true, false⟩], [⟨⟨"n1"⟩, "node-n1", "0.0.0.0"⟩], [.ended, .ended],
    [enrolled units]⟩

def authorizer : Authorizer :=
  ⟨false, none, fun _ => .error "invalid token"⟩

/-- A request that presents the certificate. -/
def request (units : String) : AuthRequest :=
  ⟨"POST", "", false, "", some [(enrolled units).certificate]⟩

theorem minted_initial : Initial minted := by
  constructor <;> decide

end Sample

/-- Two exchanges of one token by a node that names a unit without a role. -/
theorem enrolment_gives_worker_once_sample :
  ∃ past, (machine Sample.validate Sample.decode).Execution past (Sample.final "Ploy")
    ∧ ((Sample.final "Ploy").returned.map Enrolled.tokenID).Nodup
    ∧ ∃ identity row, Sample.authorizer.identityFromRequest (Sample.request "Ploy") = .ok identity
        ∧ row ∈ (Sample.final "Ploy").tokens ∧ row.tokenID = (Sample.enrolled "Ploy").tokenID
        ∧ row.nodeID = some (Sample.enrolled "Ploy").nodeID
        ∧ identity.role = .worker ∧ trimSpace identity.commonName = "node:" ++ "n1"
  := by
  have hfollow : ((machine Sample.validate Sample.decode).restrict
      (asksForWorker Sample.decode)).follow Sample.minted (Sample.events "Ploy")
      = some (Sample.final "Ploy") := by decide +kernel
  obtain ⟨past, hexec, hall⟩ :=
    Machine.Execution.of_follow_restrict Sample.minted_initial hfollow
  obtain ⟨htoken, -, -, hworker⟩ := enrolment_gives_worker_once hexec
  refine ⟨past, hexec, htoken, ?_⟩
  exact hworker hall (Sample.enrolled "Ploy") List.mem_cons_self Sample.authorizer
    (Sample.request "Ploy") [] (by decide +kernel) (by decide +kernel) rfl

/-- A certificate request with the unit `cli-admin` is signed and returned for a node's token, and
the certificate gives the rights of an administrator. -/
theorem enrolled_as_administrator :
  ∃ past s, (machine Sample.validate Sample.decode).Execution past s
    ∧ Sample.enrolled "cli-admin" ∈ s.returned
    ∧ (Sample.request "cli-admin").bearerToken = none
    ∧ (Sample.request "cli-admin").queryToken = none
    ∧ (Sample.request "cli-admin").peerCertificates
        = some [(Sample.enrolled "cli-admin").certificate]
    ∧ Sample.authorizer.identityFromRequest (Sample.request "cli-admin")
        = .ok ⟨.cliAdmin, " node:n1", some 2, ""⟩
  := by
  have hfollow : (machine Sample.validate Sample.decode).follow Sample.minted
      (Sample.events "cli-admin") = some (Sample.final "cli-admin") := by decide +kernel
  obtain ⟨past, hexec, -⟩ := Machine.Execution.of_follow Sample.minted_initial hfollow
  have hbearer : (Sample.request "cli-admin").bearerToken = none := by decide +kernel
  have hquery : (Sample.request "cli-admin").queryToken = none := by decide +kernel
  have hrole : extractRole (Sample.enrolled "cli-admin").certificate = some .cliAdmin := by
    decide +kernel
  have hidentity := Sample.authorizer.identityFromRequest_of_certificate hbearer hquery rfl hrole
  exact ⟨past, _, hexec, List.mem_cons_self, hbearer, hquery, rfl, hidentity⟩

end Enrolment

end Ploy
