import Mathlib

/-!
# Programs of statements

A program issues statements to an engine, looks at their answers, and ends with a value or
an error. An engine says what each statement does to a state.

The same program has several meanings. As a transaction, its statements take effect
together, and none does when one of them raises an error or the program ends with one.
Under autocommit, each statement takes effect by itself, and the program is told of the
errors.
-/

universe u

/-- What each statement does: its answer and the state after it, or the error it raises. -/
structure Engine (Q : Type → Type u) (ε σ : Type) where
  exec : {β : Type} → Q β → σ → Except ε (β × σ)

/-- A program over the statements `Q`: it has ended, or it issues a statement and goes on
with the answer or the error. -/
inductive Program (Q : Type → Type u) (ε : Type) (α : Type) : Type (max 1 u) where
  | done (result : Except ε α) : Program Q ε α
  | statement {β : Type} (q : Q β) (next : Except ε β → Program Q ε α) : Program Q ε α

namespace Program

variable {Q : Type → Type u} {ε σ α β : Type}

/-- One program after another; an error ends both. -/
def bind : Program Q ε α → (α → Program Q ε β) → Program Q ε β
  | done (.ok a), f => f a
  | done (.error e), _ => done (.error e)
  | statement q next, f => statement q (fun r => (next r).bind f)

instance : Monad (Program Q ε) where
  pure a := done (.ok a)
  bind := bind

def ended : Program Q ε α → Bool
  | done _ => true
  | statement _ _ => false

/-- The program that ends with an error. -/
def fail (e : ε) : Program Q ε α :=
  done (.error e)

def issue (q : Q α) : Program Q ε α :=
  statement q done

/-- The program that ends with an error where a condition holds. -/
def rejectIf (c : Prop) [Decidable c] (e : ε) : Program Q ε Unit :=
  if c then fail e else pure ()

/-- A program that is run where a condition holds. -/
def when (c : Prop) [Decidable c] (p : Program Q ε Unit) : Program Q ε Unit :=
  if c then p else pure ()

/-- The program that ends with an error where there is no value. -/
def orFail (e : ε) : Option α → Program Q ε α
  | some a => pure a
  | none => fail e

/-- The errors of a program passed through a map. -/
def mapError (f : ε → ε) : Program Q ε α → Program Q ε α
  | done (.ok a) => done (.ok a)
  | done (.error e) => done (.error (f e))
  | statement q next => statement q (fun r => (next r).mapError f)

/-- The program that goes on with a handler where it would end with an error. -/
def recover (handler : ε → Program Q ε α) : Program Q ε α → Program Q ε α
  | done (.ok a) => done (.ok a)
  | done (.error e) => handler e
  | statement q next => statement q (fun r => (next r).recover handler)

/-- Every statement a program can issue, whatever the answers, satisfies `P` together with the
way the program goes on after it. -/
def Always (P : ∀ {β : Type}, Q β → (Except ε β → Program Q ε α) → Prop) :
    Program Q ε α → Prop
  | done _ => True
  | statement q next => P q next ∧ ∀ r, (next r).Always P

section Always

variable {P : ∀ {β : Type}, Q β → (Except ε β → Program Q ε α) → Prop}

variable {p : Program Q ε α}

theorem Always.bind
    {P' : ∀ {γ : Type}, Q γ → (Except ε γ → Program Q ε β) → Prop}
    {f : α → Program Q ε β} (hp : p.Always P)
    (hP : ∀ {γ : Type} (q : Q γ) next, P q next → P' q (fun r => next r >>= f))
    (hf : ∀ a, (f a).Always P') :
  (p >>= f).Always P'
  := by
  induction p with
  | done r =>
    cases r with
    | ok a => apply hf
    | error e => trivial
  | statement q next ih =>
    apply And.intro (hP q next hp.1)
    intro r
    apply ih r (hp.2 r)

theorem Always.mapError {P' : ∀ {β : Type}, Q β → (Except ε β → Program Q ε α) → Prop}
    (hp : p.Always P) {f : ε → ε}
    (hP : ∀ {β : Type} (q : Q β) next, P q next → P' q (fun r => (next r).mapError f)) :
  (p.mapError f).Always P'
  := by
  induction p with
  | done r => cases r <;> trivial
  | statement q next ih =>
    apply And.intro (hP q next hp.1)
    intro r
    apply ih r (hp.2 r)

theorem Always.recover {P' : ∀ {β : Type}, Q β → (Except ε β → Program Q ε α) → Prop}
    (hp : p.Always P) {handler : ε → Program Q ε α}
    (hP : ∀ {β : Type} (q : Q β) next, P q next → P' q (fun r => (next r).recover handler))
    (hhandler : ∀ e, (handler e).Always P') :
  (p.recover handler).Always P'
  := by
  induction p with
  | done r =>
    cases r with
    | ok a => trivial
    | error e => apply hhandler
  | statement q next ih =>
    apply And.intro (hP q next hp.1)
    intro r
    apply ih r (hp.2 r)

end Always

section Issues

/-- Every statement a program can issue satisfies `R`. -/
structure Issues (R : ∀ {β : Type}, Q β → Prop) (p : Program Q ε α) : Prop where
  always : p.Always fun q _ => R q

variable {R R' : ∀ {β : Type}, Q β → Prop}

theorem issues_of_forall (h : ∀ {β : Type} (q : Q β), R q) (p : Program Q ε α) :
  p.Issues R
  := by
  constructor
  induction p with
  | done r => trivial
  | statement q next ih => apply And.intro (h q) ih

variable {p : Program Q ε α}

theorem Issues.mono (hp : p.Issues R)
    (h : ∀ {β : Type} (q : Q β), R q → R' q) :
  p.Issues R'
  := by
  obtain ⟨hp⟩ := hp
  constructor
  induction p with
  | done r => trivial
  | statement q next ih =>
    apply And.intro (h q hp.1)
    intro r
    apply ih r (hp.2 r)

theorem issues_pure (a : α) :
  (pure a : Program Q ε α).Issues R
  := ⟨trivial⟩

theorem issues_issue {q : Q α} (h : R q) :
  (issue q : Program Q ε α).Issues R
  := ⟨h, fun _ => trivial⟩

theorem issues_rejectIf (c : Prop) [Decidable c] (e : ε) :
  (rejectIf c e : Program Q ε Unit).Issues R
  := by
  constructor
  unfold rejectIf
  split <;> trivial

theorem issues_orFail (e : ε) (o : Option α) :
  (orFail e o : Program Q ε α).Issues R
  := by
  constructor
  cases o <;> trivial

theorem Issues.when {c : Prop} [Decidable c] {p : Program Q ε Unit} (hp : c → p.Issues R) :
  (Program.when c p).Issues R
  := by
  unfold Program.when
  split
  · rename_i hc
    apply hp hc
  · apply issues_pure

theorem Issues.bind {f : α → Program Q ε β} (hp : p.Issues R)
    (hf : ∀ a, (f a).Issues R) :
  (p >>= f).Issues R
  := ⟨Always.bind hp.always (fun _ _ h => h) fun a => (hf a).always⟩

theorem Issues.mapError (hp : p.Issues R) (f : ε → ε) :
  (p.mapError f).Issues R
  := ⟨Always.mapError hp.always (fun _ _ h => h)⟩

theorem Issues.recover (hp : p.Issues R) {handler : ε → Program Q ε α}
    (hhandler : ∀ e, (handler e).Issues R) :
  (p.recover handler).Issues R
  := ⟨Always.recover hp.always (fun _ _ h => h) fun e => (hhandler e).always⟩

end Issues

/-! ### Transactions -/

variable (E : Engine Q ε σ)

/-- The meaning of a program as a transaction: its value and the state it commits, or the
error it is rolled back with. -/
def transaction : Program Q ε α → σ → Except ε (α × σ)
  | done (.ok a), s => .ok (a, s)
  | done (.error e), _ => .error e
  | statement q next, s =>
    match E.exec q s with
    | .ok (b, s') => (next (.ok b)).transaction s'
    | .error e => .error e

variable {E}

@[simp] theorem transaction_pure (a : α) (s : σ) :
  (pure a : Program Q ε α).transaction E s = .ok (a, s)
  := rfl

@[simp] theorem transaction_fail (e : ε) (s : σ) :
  (fail e : Program Q ε α).transaction E s = .error e
  := rfl

@[simp] theorem transaction_issue (q : Q α) (s : σ) :
  (issue q : Program Q ε α).transaction E s = E.exec q s
  := by
  simp only [issue, transaction]
  rcases E.exec q s with e | ⟨b, s'⟩ <;> rfl

theorem transaction_bind (p : Program Q ε α) (f : α → Program Q ε β) (s : σ) :
  (p >>= f).transaction E s
    = (p.transaction E s).bind (fun x => (f x.1).transaction E x.2)
  := by
  induction p generalizing s with
  | done r => cases r <;> rfl
  | statement q next ih =>
    change (statement q (fun r => (next r).bind f)).transaction E s = _
    simp only [transaction]
    rcases E.exec q s with e | ⟨b, s'⟩
    · rfl
    · apply ih

variable {p : Program Q ε α}

@[simp] theorem transaction_bind_ok
    {f : α → Program Q ε β} {s s' : σ} {b : β} :
  (p >>= f).transaction E s = .ok (b, s')
    ↔ ∃ a s₁, p.transaction E s = .ok (a, s₁) ∧ (f a).transaction E s₁ = .ok (b, s')
  := by
  rw [transaction_bind]
  rcases p.transaction E s with e | ⟨a, s₁⟩
  · simp [Except.bind]
  · simp [Except.bind]

@[simp] theorem transaction_rejectIf_ok {c : Prop} [Decidable c] {e : ε} {s s' : σ} {u : Unit} :
  (rejectIf c e : Program Q ε Unit).transaction E s = .ok (u, s') ↔ ¬ c ∧ s = s'
  := by
  unfold rejectIf
  split
  · simp [*]
  · simp [*]

@[simp] theorem transaction_when_ok
    {c : Prop} [Decidable c] {p : Program Q ε Unit} {s s' : σ} {u : Unit} :
  (when c p).transaction E s = .ok (u, s')
    ↔ (c ∧ p.transaction E s = .ok (u, s')) ∨ (¬ c ∧ s = s')
  := by
  unfold when
  split
  · simp [*]
  · simp [*]

@[simp] theorem transaction_orFail_ok {e : ε} {o : Option α} {s s' : σ} {a : α} :
  (orFail e o : Program Q ε α).transaction E s = .ok (a, s') ↔ o = some a ∧ s = s'
  := by
  cases o with
  | none | some => simp [orFail]

@[simp] theorem transaction_mapError_ok
    {f : ε → ε} {s s' : σ} {a : α} :
  (p.mapError f).transaction E s = .ok (a, s') ↔ p.transaction E s = .ok (a, s')
  := by
  induction p generalizing s with
  | done r => cases r <;> simp [mapError, transaction]
  | statement q next ih =>
    simp only [mapError, transaction]
    rcases E.exec q s with e | ⟨b, s₁⟩
    · simp
    · apply ih

/-- A program that succeeds is not handled. -/
theorem transaction_recover
    {handler : ε → Program Q ε α} {s : σ} {x : α × σ}
    (h : p.transaction E s = .ok x) :
  (p.recover handler).transaction E s = .ok x
  := by
  induction p generalizing s with
  | done r =>
    cases r with
    | ok a => apply h
    | error e => cases h
  | statement q next ih =>
    simp only [recover, transaction] at h ⊢
    cases hq : E.exec q s with
    | error e =>
      rw [hq] at h
      cases h
    | ok y =>
      rw [hq] at h
      apply ih _ h

/-- What every statement keeps, a transaction keeps. -/
theorem Issues.transaction_invariant
    {R : ∀ {β : Type}, Q β → Prop} {I : σ → Prop} (hp : p.Issues R)
    (hkeeps : ∀ {β : Type} {q : Q β} {s s' : σ} {b : β}, R q → I s →
      E.exec q s = .ok (b, s') → I s')
    {s s' : σ} {a : α} (hs : I s) (h : p.transaction E s = .ok (a, s')) :
  I s'
  := by
  obtain ⟨hp⟩ := hp
  induction p generalizing s with
  | done r =>
    cases r with
    | ok a =>
      cases h
      apply hs
    | error e => cases h
  | statement q next ih =>
    simp only [transaction] at h
    cases hq : E.exec q s with
    | error e =>
      rw [hq] at h
      cases h
    | ok y =>
      rw [hq] at h
      apply ih _ (hkeeps hp.1 hs hq) h (hp.2 _)

/-! ### Autocommit -/

variable (E) in
/-- The meaning of a program each of whose statements commits by itself: how it ends, and
the state after its last statement. -/
def autocommit : Program Q ε α → σ → Except ε α × σ
  | done r, s => (r, s)
  | statement q next, s =>
    match E.exec q s with
    | .ok (b, s') => (next (.ok b)).autocommit s'
    | .error e => (next (.error e)).autocommit s

@[simp] theorem autocommit_pure (a : α) (s : σ) :
  (pure a : Program Q ε α).autocommit E s = (.ok a, s)
  := rfl

@[simp] theorem autocommit_fail (e : ε) (s : σ) :
  (fail e : Program Q ε α).autocommit E s = (.error e, s)
  := rfl

theorem autocommit_bind (p : Program Q ε α) (f : α → Program Q ε β) (s : σ) :
  (p >>= f).autocommit E s
    = match p.autocommit E s with
      | (.ok a, s') => (f a).autocommit E s'
      | (.error e, s') => (.error e, s')
  := by
  induction p generalizing s with
  | done r => cases r <;> rfl
  | statement q next ih =>
    change (statement q (fun r => (next r).bind f)).autocommit E s = _
    simp only [autocommit]
    rcases E.exec q s with e | ⟨b, s'⟩
    · apply ih
    · apply ih

theorem autocommit_mapError (p : Program Q ε α) (f : ε → ε) (s : σ) :
  (p.mapError f).autocommit E s
    = match p.autocommit E s with
      | (.ok a, s') => (.ok a, s')
      | (.error e, s') => (.error (f e), s')
  := by
  induction p generalizing s with
  | done r => cases r <;> rfl
  | statement q next ih =>
    simp only [mapError, autocommit]
    rcases E.exec q s with e | ⟨b, s'⟩
    · apply ih
    · apply ih

theorem autocommit_recover (p : Program Q ε α) (handler : ε → Program Q ε α) (s : σ) :
  (p.recover handler).autocommit E s
    = match p.autocommit E s with
      | (.ok a, s') => (.ok a, s')
      | (.error e, s') => (handler e).autocommit E s'
  := by
  induction p generalizing s with
  | done r => cases r <;> rfl
  | statement q next ih =>
    simp only [recover, autocommit]
    rcases E.exec q s with e | ⟨b, s'⟩
    · apply ih
    · apply ih

theorem Issues.autocommit_invariant
    {R : ∀ {β : Type}, Q β → Prop} {I : σ → Prop} (hp : p.Issues R)
    (hkeeps : ∀ {β : Type} {q : Q β} {s s' : σ} {b : β}, R q → I s →
      E.exec q s = .ok (b, s') → I s')
    {s : σ} (hs : I s) :
  I (p.autocommit E s).2
  := by
  obtain ⟨hp⟩ := hp
  induction p generalizing s with
  | done r => apply hs
  | statement q next ih =>
    simp only [autocommit]
    cases hq : E.exec q s with
    | error e => apply ih _ hs (hp.2 _)
    | ok y => apply ih _ (hkeeps hp.1 hs hq) (hp.2 _)

end Program
