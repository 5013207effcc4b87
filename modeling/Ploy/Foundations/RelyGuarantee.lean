import Ploy.Foundations.ReadCommitted

/-!
# Reasoning about transactions at READ COMMITTED

A protocol has an invariant of what is committed, and a guarantee that every transaction gives when
it commits. While a transaction holds locks it relies on others to commit only what they guarantee,
and no row that it has locked. Assertions about a transaction carry the proof that they are stable
under what it relies on, and the rules for programs are those of programs that run alone.
-/

universe u v w

variable {Q : Type → Type u} {ε σ δ κ : Type} {Λ : Type v} {Ω : Type w}

/-- What holds of what is committed, and what a transaction with given locks and writes guarantees
when it commits to a store. -/
structure Protocol (M : Isolation Q ε σ δ κ) (outside : Ω → σ → σ) where
  invariant : σ → Prop
  guarantee : List κ → δ → σ → Prop
  commit : ∀ {L : List κ} {p : δ} {s : σ}, M.Owns L p → invariant s → guarantee L p s →
    invariant (M.view p s)
  drift : ∀ (o : Ω) {s : σ}, invariant s → invariant (outside o s)

namespace Protocol

variable {M : Isolation Q ε σ δ κ} {outside : Ω → σ → σ} (P : Protocol M outside)

/-- What can happen to what is committed while a transaction holds locks. -/
inductive Rely (L : List κ) : σ → σ → Prop where
  | commit {L' : List κ} {p : δ} {s : σ} (apart : ∀ k ∈ L', k ∉ L) (owns : M.Owns L' p)
      (inv : P.invariant s) (guarantees : P.guarantee L' p s) : Rely L s (M.view p s)
  | drift {s : σ} (o : Ω) (inv : P.invariant s) : Rely L s (outside o s)

variable {P} in
theorem Rely.invariant {L : List κ} {s s' : σ} (h : P.Rely L s s') :
  P.invariant s'
  := by
  cases h with
  | commit apart owns inv guarantees => apply P.commit owns inv guarantees
  | drift o inv => apply P.drift o inv

/-- A statement about the locks and the writes of a transaction and what is committed, which
nothing that the transaction relies on makes false. -/
structure Assertion where
  holds : List κ → δ → σ → Prop
  stable : ∀ {L : List κ} {p : δ} {s s' : σ}, M.Owns L p → P.Rely L s s' → holds L p s →
    holds L p s'

namespace Assertion

variable {P}

/-- Two assertions together. -/
instance : Min P.Assertion where
  min A B :=
    { holds := fun L p s => A.holds L p s ∧ B.holds L p s
      stable := fun howns hrely h => ⟨A.stable howns hrely h.1, B.stable howns hrely h.2⟩ }

/-- One of two assertions. -/
instance : Max P.Assertion where
  max A B :=
    { holds := fun L p s => A.holds L p s ∨ B.holds L p s
      stable := fun howns hrely h => h.imp (A.stable howns hrely) (B.stable howns hrely) }

/-- Nothing is known. -/
instance : Top P.Assertion where
  top := ⟨fun _ _ _ => True, fun _ _ h => h⟩

variable (P) in
/-- A fact that does not depend on the transaction. -/
def pure (c : Prop) : P.Assertion where
  holds _ _ _ := c
  stable _ _ h := h

variable (P) in
/-- A row is locked. -/
def locked (k : κ) : P.Assertion where
  holds L _ _ := k ∈ L
  stable _ _ h := h

variable (P) in
/-- The transaction has not written. -/
def clean : P.Assertion where
  holds _ p _ := p = M.clean
  stable _ _ h := h

@[simp] theorem holds_inf {A B : P.Assertion} {L : List κ} {p : δ} {s : σ} :
  (A ⊓ B).holds L p s ↔ A.holds L p s ∧ B.holds L p s
  := Iff.rfl

@[simp] theorem holds_sup {A B : P.Assertion} {L : List κ} {p : δ} {s : σ} :
  (A ⊔ B).holds L p s ↔ A.holds L p s ∨ B.holds L p s
  := Iff.rfl

theorem stable_star (A : P.Assertion) {L : List κ} {p : δ} {s s' : σ} (howns : M.Owns L p)
    (hrely : Relation.ReflTransGen (P.Rely L) s s') (h : A.holds L p s) :
  A.holds L p s'
  := by
  induction hrely with
  | refl => apply h
  | tail _ hlast ih => apply A.stable howns hlast ih

end Assertion

/-! ### Programs -/

variable (guard : (β : Type) → Q β → σ → Bool)

/-- What must hold for a program to end, if it ends well, with its postcondition. Others may do what
is relied on before every statement. A statement is issued only to a view that passes the guard. -/
def wp {α : Type} (post : α → P.Assertion) : Program Q ε α → List κ → δ → σ → Prop
  | .done (.ok a), L, p, s => (post a).holds L p s
  | .done (.error _), _, _, _ => True
  | .statement q next, L, p, s =>
    ∀ s', Relation.ReflTransGen (P.Rely L) s s' → P.invariant s' →
      guard _ q (M.view p s') = true → ∀ b v, M.engine.exec q (M.view p s') = .ok (b, v) →
        wp post (next (.ok b)) (L ++ M.locks q (M.view p s') v) (M.writes s' v) s'

variable {P guard}

theorem wp_stable {α : Type} {post : α → P.Assertion} {x : Program Q ε α} {L : List κ} {p : δ}
    {s s' : σ} (howns : M.Owns L p) (hrely : P.Rely L s s') (h : P.wp guard post x L p s) :
  P.wp guard post x L p s'
  := by
  cases x with
  | done r =>
    cases r with
    | ok a => apply (post a).stable howns hrely h
    | error e => trivial
  | statement q next =>
    intro s'' hrely'
    apply h s'' (Relation.ReflTransGen.head hrely hrely')

theorem wp_bind {α β : Type} {mid : α → P.Assertion} {post : β → P.Assertion}
    {x : Program Q ε α} {f : α → Program Q ε β}
    (hf : ∀ a L p s, M.Owns L p → P.invariant s → (mid a).holds L p s →
      P.wp guard post (f a) L p s)
    {L : List κ} {p : δ} {s : σ} (howns : M.Owns L p) (hinv : P.invariant s)
    (h : P.wp guard mid x L p s) :
  P.wp guard post (x >>= f) L p s
  := by
  induction x generalizing L p s with
  | done r =>
    cases r with
    | ok a => apply hf a L p s howns hinv h
    | error e => trivial
  | statement q next ih =>
    intro s' hrely hinv' hguard b v hexec
    apply ih _ (howns.statement M q s' v) hinv'
    apply h s' hrely hinv' hguard b v hexec

theorem wp_mapError {α : Type} {post : α → P.Assertion} {x : Program Q ε α} {f : ε → ε}
    {L : List κ} {p : δ} {s : σ} (h : P.wp guard post x L p s) :
  P.wp guard post (x.mapError f) L p s
  := by
  induction x generalizing L p s with
  | done r => cases r <;> apply h
  | statement q next ih =>
    intro s' hrely hinv hguard b v hexec
    apply ih _ (h s' hrely hinv hguard b v hexec)

/-! ### Rules -/

variable (P guard) in
/-- From an assertion on, a program ends, if it ends well, with another one. -/
structure Triple {α : Type} (pre : P.Assertion) (x : Program Q ε α) (post : α → P.Assertion) :
    Prop where
  wp : ∀ L p s, M.Owns L p → P.invariant s → pre.holds L p s → P.wp guard post x L p s

variable (P guard) in
def Leads {β : Type} (pre : P.Assertion) (q : Q β) (post : β → P.Assertion) : Prop :=
  ∀ L p s, M.Owns L p → P.invariant s → pre.holds L p s → guard _ q (M.view p s) = true →
    ∀ b v, M.engine.exec q (M.view p s) = .ok (b, v) →
      (post b).holds (L ++ M.locks q (M.view p s) v) (M.writes s v) s

variable {α β : Type} {pre : P.Assertion} {post : α → P.Assertion}

theorem Triple.issue {q : Q α} (h : P.Leads guard pre q post) :
  P.Triple guard pre (Program.issue q) post
  := by
  constructor
  intro L p s howns _ hpre s' hrely hinv hguard b v hexec
  apply h L p s' howns hinv (pre.stable_star howns hrely hpre) hguard b v hexec

theorem Triple.bind {x : Program Q ε α} {f : α → Program Q ε β} {A : α → P.Assertion}
    {post' : β → P.Assertion} (hx : P.Triple guard pre x A)
    (hf : ∀ a, P.Triple guard (A a) (f a) post') :
  P.Triple guard pre (x >>= f) post'
  := by
  constructor
  intro L p s howns hinv hpre
  apply wp_bind _ howns hinv (hx.wp L p s howns hinv hpre)
  intro a
  apply (hf a).wp

theorem Triple.pure {a : α} (h : ∀ L p s, P.invariant s → pre.holds L p s → (post a).holds L p s) :
  P.Triple guard pre (Pure.pure a : Program Q ε α) post
  := by
  constructor
  intro L p s _ hinv hpre
  apply h L p s hinv hpre

theorem Triple.fail {e : ε} :
  P.Triple guard pre (Program.fail e : Program Q ε α) post
  := ⟨fun _ _ _ _ _ _ => trivial⟩

theorem Triple.mapError {x : Program Q ε α} {f : ε → ε} (h : P.Triple guard pre x post) :
  P.Triple guard pre (x.mapError f) post
  := by
  constructor
  intro L p s howns hinv hpre
  apply wp_mapError (h.wp L p s howns hinv hpre)

variable {A : P.Assertion}

theorem Triple.weaken {x : Program Q ε α} (h : P.Triple guard A x post)
    (himp : ∀ L p s, P.invariant s → pre.holds L p s → A.holds L p s) :
  P.Triple guard pre x post
  := by
  constructor
  intro L p s howns hinv hpre
  apply h.wp L p s howns hinv (himp L p s hinv hpre)

/-- A postcondition may be replaced by what follows from it. -/
theorem Triple.strengthen {x : Program Q ε α} {A : α → P.Assertion}
    (h : P.Triple guard pre x A)
    (himp : ∀ a L p s, P.invariant s → (A a).holds L p s → (post a).holds L p s) :
  P.Triple guard pre x post
  := by
  constructor
  intro L p s howns hinv hpre
  have hbind : x >>= Pure.pure = x := by
    clear h
    induction x with
    | done r => cases r <;> rfl
    | statement q next ih =>
      change Program.statement q _ = _
      congr 1
      funext r
      apply ih
  rw [← hbind]
  apply wp_bind _ howns hinv (h.wp L p s howns hinv hpre)
  intro a L p s _ hinv' hpost
  apply himp a L p s hinv' hpost

theorem Triple.of_pure {c : Prop} {x : Program Q ε α} (h : c → P.Triple guard pre x post) :
  P.Triple guard (pre ⊓ Assertion.pure P c) x post
  := by
  constructor
  rintro L p s howns hinv ⟨hpre, hc⟩
  apply (h hc).wp L p s howns hinv hpre

theorem Triple.rejectIf {c : Prop} [Decidable c] {e : ε} :
  P.Triple guard pre (Program.rejectIf c e) (fun _ => pre ⊓ Assertion.pure P (¬ c))
  := by
  unfold Program.rejectIf
  split
  · apply Triple.fail
  · rename_i hc
    apply Triple.pure
    intro L p s _ hpre
    exact ⟨hpre, hc⟩

theorem Triple.when {c : Prop} [Decidable c] {x : Program Q ε Unit} {post : Unit → P.Assertion}
    (hx : c → P.Triple guard pre x post)
    (hskip : ¬ c → ∀ L p s, P.invariant s → pre.holds L p s → (post ()).holds L p s) :
  P.Triple guard pre (Program.when c x) post
  := by
  unfold Program.when
  split
  · rename_i hc
    apply hx hc
  · rename_i hc
    apply Triple.pure (hskip hc)

theorem Triple.orFail {e : ε} {o : Option α} :
  P.Triple guard pre (Program.orFail e o) (fun a => pre ⊓ Assertion.pure P (o = some a))
  := by
  cases o with
  | none => apply Triple.fail
  | some a =>
    apply Triple.pure
    intro L p s _ hpre
    exact ⟨hpre, rfl⟩

theorem Triple.recover_issue {q : Q β} {e : ε → ε} {f : β → Program Q ε α}
    {handler : ε → Program Q ε α} {A : β → P.Assertion} (hq : P.Leads guard pre q A)
    (hf : ∀ b, P.Triple guard (A b) ((f b).recover handler) post) :
  P.Triple guard pre (((Program.issue q).mapError e >>= f).recover handler) post
  := by
  constructor
  intro L p s howns _ hpre s' hrely hinv hguard b v hexec
  apply (hf b).wp _ _ _ (howns.statement M q s' v) hinv
  apply hq L p s' howns hinv (pre.stable_star howns hrely hpre) hguard b v hexec

/-! ### Assertions that statements keep -/

variable (P guard) in
/-- A statement leaves an assertion true. -/
def Keeps {β : Type} (A : P.Assertion) (q : Q β) : Prop :=
  P.Leads guard A q (fun _ => A)

theorem keeps_pure (c : Prop) (q : Q β) :
  P.Keeps guard (Assertion.pure P c) q
  := fun _ _ _ _ _ hc _ _ _ _ => hc

theorem Leads.inf {q : Q α} {A B : P.Assertion} {post' : α → P.Assertion}
    (hA : P.Leads guard A q post) (hB : P.Leads guard B q post') :
  P.Leads guard (A ⊓ B) q (fun a => post a ⊓ post' a)
  := by
  rintro L p s howns hinv ⟨hprA, hprB⟩ hguard b v hexec
  exact ⟨hA L p s howns hinv hprA hguard b v hexec, hB L p s howns hinv hprB hguard b v hexec⟩

theorem Leads.and {q : Q α} {post' : α → P.Assertion} (h : P.Leads guard pre q post)
    (h' : P.Leads guard pre q post') :
  P.Leads guard pre q (fun a => post a ⊓ post' a)
  := by
  intro L p s howns hinv hpre hguard b v hexec
  exact ⟨h L p s howns hinv hpre hguard b v hexec, h' L p s howns hinv hpre hguard b v hexec⟩

/-- What every statement of a program keeps may be added to its conditions. -/
theorem Triple.frame {x : Program Q ε α} (h : P.Triple guard pre x post)
    (hx : x.Issues fun q => P.Keeps guard A q) :
  P.Triple guard (pre ⊓ A) x (fun a => post a ⊓ A)
  := by
  constructor
  rintro L p s howns hinv ⟨hpre, hA⟩
  have hwp := h.wp L p s howns hinv hpre
  clear h hpre
  induction x generalizing L p s with
  | done r =>
    cases r with
    | ok a => exact ⟨hwp, hA⟩
    | error e => trivial
  | statement q next ih =>
    intro s' hrely hinv' hguard b v hexec
    obtain ⟨hq, hnext⟩ := hx
    apply ih _ ⟨hnext _⟩ _ _ _ (howns.statement M q s' v) hinv'
    · apply hq L p s' howns hinv' (A.stable_star howns hrely hA) hguard b v hexec
    · apply hwp s' hrely hinv' hguard b v hexec

theorem Triple.top {x : Program Q ε α} :
  P.Triple guard pre x (fun _ => ⊤)
  := by
  constructor
  intro L p s howns hinv hpre
  clear hpre
  induction x generalizing L p s with
  | done r => cases r <;> trivial
  | statement q next ih =>
    intro s' _ hinv' _ b v _
    apply ih _ _ _ _ (howns.statement M q s' v) hinv'

theorem Triple.keep {x : Program Q ε α}
    (hx : x.Issues fun q => P.Keeps guard A q) :
  P.Triple guard A x (fun _ => A)
  := by
  apply Triple.strengthen (A := fun _ => ⊤ ⊓ A)
  · apply Triple.weaken (A := ⊤ ⊓ A) (Triple.top.frame hx)
    intro L p s _ hA
    exact ⟨trivial, hA⟩
  · intro a L p s _ hA
    apply hA.2

theorem Triple.after {x : Program Q ε α} {f : α → Program Q ε β} {post' : β → P.Assertion}
    (hx : x.Issues fun q => P.Keeps guard pre q) (hf : ∀ a, P.Triple guard pre (f a) post') :
  P.Triple guard pre (x >>= f) post'
  := (Triple.keep hx).bind hf

/-! ### The machine keeps the protocol -/

/-- What each request guarantees: its program, begun without writes and with every statement that
passes the guard of the request, ends with a postcondition that implies the guarantee. -/
structure Contracts (P : Protocol M outside) (program : Λ → Program Q ε Unit) where
  guard : Λ → (β : Type) → Q β → σ → Bool
  post : Λ → P.Assertion
  keeps : ∀ l, P.Triple (guard l) (Assertion.clean P) (program l) (fun _ => post l)
  guarantees : ∀ l L p s, P.invariant s → (post l).holds L p s → P.guarantee L p s

section Machine

variable {program : Λ → Program Q ε Unit} (C : Contracts P program)

/-- Whether a statement that is issued passes the guard of its request. -/
def Contracts.passes (c : ReadCommitted Q ε σ δ κ Λ) : ReadCommitted.Event Λ Ω → Bool
  | .statement i =>
    match c.sessions[i]? with
    | some ⟨l, .statement q _, p, _⟩ => C.guard l _ q (M.view p c.store)
    | _ => true
  | _ => true

/-- What holds between events: the invariant, that locks exclude each other, and of every
transaction that it owns what it writes and is on its way to its postcondition. -/
structure Contracts.Sound (c : ReadCommitted Q ε σ δ κ Λ) : Prop where
  invariant : P.invariant c.store
  apart : c.sessions.Pairwise fun x y => ∀ k ∈ x.locks, k ∉ y.locks
  owns : ∀ x ∈ c.sessions, M.Owns x.locks x.writes
  wp : ∀ x ∈ c.sessions, P.wp (C.guard x.request) (fun _ => C.post x.request) x.program x.locks
    x.writes c.store

variable {C}

theorem Contracts.Sound.postcondition {c : ReadCommitted Q ε σ δ κ Λ} (h : C.Sound c)
    {x : Session Q ε δ κ Λ} (hx : x ∈ c.sessions) (hended : x.program = .done (.ok ())) :
  (C.post x.request).holds x.locks x.writes c.store
  := by
  have hwp := h.wp x hx
  rw [hended] at hwp
  apply hwp

/-- If every session meets its contract, all assertions hold after every move. -/
theorem Contracts.Sound.moves [DecidableEq κ] {e : ReadCommitted.Event Λ Ω}
    {c c' : ReadCommitted Q ε σ δ κ Λ} (h : C.Sound c) (hpasses : C.passes c e = true)
    (hmove : ReadCommitted.Moves M program outside e c c') :
  C.Sound c'
  := by
  cases hmove with
  | @begin s sessions l =>
    refine ⟨h.invariant, ?_, ?_, ?_⟩
    · apply List.pairwise_append.mpr ⟨h.apart, List.pairwise_singleton _ _, _⟩
      intro x _ y hy k _ hk
      rw [List.mem_singleton.mp hy] at hk
      cases hk
    · intro x hx
      rcases List.mem_append.mp hx with hx | hx
      · apply h.owns x hx
      · rw [List.mem_singleton.mp hx]
        apply M.owns_clean
    · intro x hx
      rcases List.mem_append.mp hx with hx | hx
      · apply h.wp x hx
      · rw [List.mem_singleton.mp hx]
        apply (C.keeps l).wp _ _ _ (M.owns_clean _) h.invariant rfl
  | @statement s v before after l β q next p L b exec free =>
    have hx := h.wp ⟨l, .statement q next, p, L⟩ (by simp)
    have howns := h.owns ⟨l, .statement q next, p, L⟩ (by simp)
    have hapart := h.apart
    simp only [Contracts.passes, Interleaved.getElem?_place] at hpasses
    simp only [List.pairwise_append, List.pairwise_cons, List.mem_cons] at hapart
    obtain ⟨hbefore, ⟨hself, hafter⟩, hcross⟩ := hapart
    refine ⟨h.invariant, ?_, ?_, ?_⟩
    · simp only [List.pairwise_append, List.pairwise_cons, List.mem_cons]
      refine ⟨hbefore, ⟨?_, hafter⟩, ?_⟩
      · intro y hy k hk hk'
        rcases List.mem_append.mp hk with hk | hk
        · apply hself y hy k hk hk'
        · apply free y (List.mem_append_right _ hy) k hk' hk
      · rintro y hy z (rfl | hz) k hk hk'
        · rcases List.mem_append.mp hk' with hk' | hk'
          · apply hcross y hy _ (Or.inl rfl) k hk hk'
          · apply free y (List.mem_append_left _ hy) k hk hk'
        · apply hcross y hy z (Or.inr hz) k hk hk'
    · intro y hy
      simp only [List.mem_append, List.mem_cons] at hy
      rcases hy with hy | rfl | hy
      · apply h.owns y (by simp [hy])
      · apply howns.statement
      · apply h.owns y (by simp [hy])
    · intro y hy
      simp only [List.mem_append, List.mem_cons] at hy
      rcases hy with hy | rfl | hy
      · apply h.wp y (by simp [hy])
      · apply hx s Relation.ReflTransGen.refl h.invariant hpasses b v exec
      · apply h.wp y (by simp [hy])
  | @commit s before after l p L =>
    have howns := h.owns ⟨l, .done (.ok ()), p, L⟩ (by simp)
    have hpost : (C.post l).holds L p s :=
      h.postcondition (x := ⟨l, .done (.ok ()), p, L⟩) (by simp) rfl
    have hguarantee := C.guarantees l L p s h.invariant hpost
    have hapart := h.apart
    simp only [List.pairwise_append, List.pairwise_cons, List.mem_cons] at hapart
    obtain ⟨hbefore, ⟨hself, hafter⟩, hcross⟩ := hapart
    -- to every other transaction, this is what it relies on
    have hrely : ∀ y ∈ before ++ after, P.Rely y.locks s (M.view p s) := by
      intro y hy
      apply Rely.commit _ howns h.invariant hguarantee
      intro k hk hk'
      rcases List.mem_append.mp hy with hy | hy
      · apply hcross y hy _ (Or.inl rfl) k hk' hk
      · apply hself y hy k hk hk'
    have hsublist : (before ++ after).Sublist (before ++ ⟨l, .done (.ok ()), p, L⟩ :: after) :=
      List.Sublist.append_left (List.sublist_cons_self _ _) _
    refine ⟨P.commit howns h.invariant hguarantee, h.apart.sublist hsublist, ?_, ?_⟩
    · intro y hy
      apply h.owns y (hsublist.subset hy)
    · intro y hy
      apply wp_stable (h.owns y (hsublist.subset hy)) (hrely y hy)
      apply h.wp y (hsublist.subset hy)
  | @ended e s before after x event =>
    have hsublist : (before ++ after).Sublist (before ++ x :: after) :=
      List.Sublist.append_left (List.sublist_cons_self _ _) _
    refine ⟨h.invariant, h.apart.sublist hsublist, ?_, ?_⟩
    · intro y hy
      apply h.owns y (hsublist.subset hy)
    · intro y hy
      apply h.wp y (hsublist.subset hy)
  | @outside s sessions o =>
    refine ⟨P.drift o h.invariant, h.apart, h.owns, ?_⟩
    intro y hy
    apply wp_stable (h.owns y hy) (Rely.drift o h.invariant)
    apply h.wp y hy

theorem Contracts.sound_of_execution [DecidableEq κ] {init : σ → Prop}
    (hinit : ∀ s, init s → P.invariant s)
    {past : List (ReadCommitted Q ε σ δ κ Λ × ReadCommitted.Event Λ Ω)}
    {c : ReadCommitted Q ε σ δ κ Λ}
    (h : (ReadCommitted.machine M program outside init).Execution past c)
    (hpasses : ∀ x ∈ past, C.passes x.1 x.2 = true) :
  C.Sound c
  := by
  apply h.invariant_of_allowed C.passes _ _ hpasses
  · rintro ⟨s, sessions⟩ ⟨hs, hnone⟩
    dsimp only at hnone
    subst hnone
    refine ⟨hinit s hs, List.Pairwise.nil, ?_, ?_⟩
    · intro x hx
      cases hx
    · intro x hx
      cases hx
  · intro c e c' hsound hpass hstep
    apply hsound.moves hpass (ReadCommitted.step_moves M program outside hstep)

end Machine

end Protocol
