import Ploy.Foundations.Program

/-!
# Calls and what is deferred

The statements of a program may be calls to the outside, each of which returns or panics. A path
through the program is the calls that are made, with their answers, and how it ends. What is
deferred is done on every path, however the program ends.

`Program.Returns` says that on every path whose answers are allowed the program returns, and what
the calls on the path and the value are; there is a rule for each way to build a program.
-/

universe u

/-- A call that was made, with its answer. -/
structure Called (Q : Type → Type u) (ε : Type) where
  {β : Type}
  call : Q β
  answer : Except ε β

namespace Program

variable {Q : Type → Type u} {ε α β : Type}

/-- The paths through a program: the calls that are made, and how it ends. -/
inductive Path : Program Q ε α → List (Called Q ε) → Except ε α → Prop where
  | done (result : Except ε α) : Path (.done result) [] result
  | statement {γ : Type} {q : Q γ} {next : Except ε γ → Program Q ε α} {answer : Except ε γ}
      {trace : List (Called Q ε)} {result : Except ε α} (h : Path (next answer) trace result) :
      Path (.statement q next) (⟨q, answer⟩ :: trace) result

/-- A program with what is done when it ends, which may depend on how. It then ends as it did. -/
def onExit (exit : Except ε α → Program Q ε Unit) : Program Q ε α → Program Q ε α
  | done result => exit result >>= fun _ => done result
  | statement q next => statement q fun answer => (next answer).onExit exit

/-- A program with what is done whenever it ends. -/
def deferred (p : Program Q ε α) (d : Program Q ε Unit) : Program Q ε α :=
  p.onExit fun _ => d

def onPanic (p : Program Q ε α) (d : Program Q ε Unit) : Program Q ε α :=
  p.onExit fun
    | .ok _ => pure ()
    | .error _ => d

/-! ### Paths -/

variable {p : Program Q ε α} {trace : List (Called Q ε)}

theorem path_bind {f : α → Program Q ε β}
    {result : Except ε β} (h : (p >>= f).Path trace result) :
  (∃ a first second, p.Path first (.ok a) ∧ (f a).Path second result ∧ trace = first ++ second)
    ∨ ∃ e, p.Path trace (.error e) ∧ result = .error e
  := by
  induction p generalizing trace with
  | done r =>
    cases r with
    | ok a => exact Or.inl ⟨a, [], trace, .done _, h, rfl⟩
    | error e =>
      cases h
      exact Or.inr ⟨e, .done _, rfl⟩
  | statement q next ih =>
    cases h with
    | @statement _ _ _ answer rest _ h =>
      rcases ih answer h with ⟨a, first, second, hp, hf, rfl⟩ | ⟨e, hp, rfl⟩
      · exact Or.inl ⟨a, _ :: first, second, .statement hp, hf, rfl⟩
      · exact Or.inr ⟨e, .statement hp, rfl⟩

theorem path_onExit {exit : Except ε α → Program Q ε Unit}
    {result : Except ε α} (h : (p.onExit exit).Path trace result) :
  ∃ r first second, p.Path first r ∧ (exit r >>= fun _ => done r).Path second result
    ∧ trace = first ++ second
  := by
  induction p generalizing trace with
  | done r => exact ⟨r, [], trace, .done _, h, rfl⟩
  | statement q next ih =>
    cases h with
    | @statement _ _ _ answer rest _ h =>
      obtain ⟨r, first, second, hp, hexit, rfl⟩ := ih answer h
      exact ⟨r, _ :: first, second, .statement hp, hexit, rfl⟩

theorem path_recover {handler : ε → Program Q ε α}
    {result : Except ε α} (h : (p.recover handler).Path trace result) :
  p.Path trace result ∧ (∃ a, result = .ok a)
    ∨ ∃ e first second, p.Path first (.error e) ∧ (handler e).Path second result
      ∧ trace = first ++ second
  := by
  induction p generalizing trace with
  | done r =>
    cases r with
    | ok a =>
      cases h
      exact Or.inl ⟨.done _, a, rfl⟩
    | error e => exact Or.inr ⟨e, [], trace, .done _, h, rfl⟩
  | statement q next ih =>
    cases h with
    | @statement _ _ _ answer rest _ h =>
      rcases ih answer h with ⟨hp, hok⟩ | ⟨e, first, second, hp, hhandler, rfl⟩
      · exact Or.inl ⟨.statement hp, hok⟩
      · exact Or.inr ⟨e, _ :: first, second, .statement hp, hhandler, rfl⟩

/-- The path along which every call is answered as given. -/
def answered (answers : {γ : Type} → Q γ → Except ε γ) :
    Program Q ε α → List (Called Q ε) × Except ε α
  | done result => ([], result)
  | statement q next =>
    (⟨q, answers q⟩ :: ((next (answers q)).answered answers).1,
      ((next (answers q)).answered answers).2)

theorem path_answered (answers : {γ : Type} → Q γ → Except ε γ) (p : Program Q ε α) :
  p.Path (p.answered answers).1 (p.answered answers).2
  := by
  induction p with
  | done r => apply Path.done
  | statement q next ih => apply Path.statement (ih (answers q))

theorem answer_of_answered {answers : {γ : Type} → Q γ → Except ε γ}
    {c : Called Q ε} (hc : c ∈ (p.answered answers).1) :
  c.answer = answers c.call
  := by
  induction p with
  | done r => cases hc
  | statement q next ih =>
    rcases List.mem_cons.mp hc with rfl | hc
    · rfl
    · apply ih (answers q) hc

/-! ### Programs that return -/

/-- On every path whose answers are allowed the program returns, and the calls and the value are
as `post` has them. -/
def Returns (allowed : Called Q ε → Prop) (p : Program Q ε α)
    (post : List (Called Q ε) → α → Prop) : Prop :=
  ∀ trace result, p.Path trace result → (∀ c ∈ trace, allowed c) →
    ∃ a, result = .ok a ∧ post trace a

variable {allowed : Called Q ε → Prop} {p : Program Q ε α}

theorem Returns.mono {post post' : List (Called Q ε) → α → Prop} (h : p.Returns allowed post)
    (himp : ∀ trace a, post trace a → post' trace a) :
  p.Returns allowed post'
  := by
  intro trace result hpath hallowed
  obtain ⟨a, ha, hpost⟩ := h trace result hpath hallowed
  exact ⟨a, ha, himp trace a hpost⟩

variable {post : List (Called Q ε) → α → Prop}

theorem returns_pure {a : α} (h : post [] a) :
  (pure a : Program Q ε α).Returns allowed post
  := by
  intro trace result hpath _
  cases hpath
  exact ⟨a, rfl, h⟩

theorem returns_issue {q : Q α}
    (h : ∀ answer, allowed ⟨q, answer⟩ → ∃ a, answer = .ok a ∧ post [⟨q, .ok a⟩] a) :
  (issue q : Program Q ε α).Returns allowed post
  := by
  intro trace result hpath hallowed
  cases hpath with
  | statement hdone =>
    cases hdone
    obtain ⟨a, rfl, hpost⟩ := h result (hallowed _ List.mem_cons_self)
    exact ⟨a, rfl, hpost⟩

theorem Returns.bind {mid : List (Called Q ε) → α → Prop} {f : α → Program Q ε β}
    {post : List (Called Q ε) → β → Prop} (hp : p.Returns allowed mid)
    (hf : ∀ trace a, mid trace a →
      (f a).Returns allowed fun later b => post (trace ++ later) b) :
  (p >>= f).Returns allowed post
  := by
  intro trace result hpath hallowed
  rcases path_bind hpath with ⟨a, first, second, hfirst, hsecond, rfl⟩ | ⟨e, herror, rfl⟩
  · rw [List.forall_mem_append] at hallowed
    obtain ⟨a', ha, hmid⟩ := hp first _ hfirst hallowed.1
    cases ha
    apply hf first a hmid second result hsecond hallowed.2
  · obtain ⟨a, ha, -⟩ := hp trace _ herror hallowed
    cases ha

theorem Returns.onExit {mid post : List (Called Q ε) → α → Prop}
    {exit : Except ε α → Program Q ε Unit} (hp : p.Returns allowed mid)
    (hexit : ∀ trace a, mid trace a →
      (exit (.ok a)).Returns allowed fun later _ => post (trace ++ later) a) :
  (p.onExit exit).Returns allowed post
  := by
  intro trace result hpath hallowed
  obtain ⟨r, first, second, hfirst, hsecond, rfl⟩ := path_onExit hpath
  rw [List.forall_mem_append] at hallowed
  obtain ⟨a, rfl, hmid⟩ := hp first r hfirst hallowed.1
  have hrest : (exit (.ok a) >>= fun _ => done (.ok a)).Returns allowed
      fun later b => post (first ++ later) b := by
    apply (hexit first a hmid).bind
    intro later _ hpost
    apply returns_pure
    simpa using hpost
  apply hrest second result hsecond hallowed.2

theorem Returns.onPanic {d : Program Q ε Unit}
    (hp : p.Returns allowed post) :
  (p.onPanic d).Returns allowed post
  := by
  apply Returns.onExit hp
  intro trace a hpost
  apply returns_pure
  simpa using hpost

theorem Returns.recover {handler : ε → Program Q ε α}
    (hp : p.Returns allowed post) :
  (p.recover handler).Returns allowed post
  := by
  intro trace result hpath hallowed
  rcases path_recover hpath with ⟨h, -⟩ | ⟨e, first, second, herror, -, rfl⟩
  · apply hp trace result h hallowed
  · rw [List.forall_mem_append] at hallowed
    obtain ⟨a, ha, -⟩ := hp first _ herror hallowed.1
    cases ha

end Program
