import Ploy.Foundations.Interleaving

/-!
# Transactions at READ COMMITTED

Transactions run side by side. A statement sees what is committed when it is issued, with the
writes of its own transaction over it. It locks the rows it changes and the rows it selects for
update, and it waits while another transaction holds one of them. A transaction keeps its writes
to itself and its locks until it ends; when it commits, its writes are put over what is committed
by then.

Such transactions are reasoned about one at a time. A protocol has an invariant of what is
committed, and a guarantee that every transaction gives when it commits. While a transaction holds
locks it relies on others to commit only what they guarantee, and no row that it has locked.
Assertions about a transaction are stable under what it relies on, and the rules for programs are
those for programs that run alone.
-/

universe u v w

/-- How the writes of transactions are kept apart: the view that writes give of a store, the
writes by which a view differs from a store, the rows that writes touch, and the rows that a
statement locks besides those it changes. -/
structure Isolation (Q : Type → Type u) (ε σ δ κ : Type) where
  engine : Engine Q ε σ
  clean : δ
  view : δ → σ → σ
  writes : σ → σ → δ
  rows : δ → List κ
  selects : {β : Type} → Q β → σ → List κ
  rows_clean : rows clean = []
  view_clean : ∀ s, view clean s = s
  view_writes : ∀ {β : Type} {q : Q β} {b : β} {p : δ} {s v : σ},
    engine.exec q (view p s) = .ok (b, v) → view (writes s v) s = v
  rows_writes : ∀ {p : δ} {s v : σ} {k : κ}, k ∈ rows (writes s v) →
    k ∈ rows p ∨ k ∈ rows (writes (view p s) v)

namespace Isolation

variable {Q : Type → Type u} {ε σ δ κ : Type} (M : Isolation Q ε σ δ κ)

/-- The rows a statement locks that takes a view to another one. -/
def locks {β : Type} (q : Q β) (v v' : σ) : List κ :=
  M.selects q v ++ M.rows (M.writes v v')

/-- Every row that writes touch is among the locks. -/
def Owns (L : List κ) (p : δ) : Prop :=
  ∀ k ∈ M.rows p, k ∈ L

theorem owns_clean (L : List κ) :
  M.Owns L M.clean
  := by
  intro k hk
  rw [M.rows_clean] at hk
  cases hk

theorem Owns.statement {L : List κ} {p : δ} (h : M.Owns L p) {β : Type} (q : Q β) (s v : σ) :
  M.Owns (L ++ M.locks q (M.view p s) v) (M.writes s v)
  := by
  intro k hk
  simp only [locks, List.mem_append]
  rcases M.rows_writes hk with hk | hk
  · apply Or.inl (h k hk)
  · apply Or.inr (Or.inr hk)

end Isolation

/-! ### The machine -/

/-- A transaction that has begun: the request it serves, what is left of its program, its writes
and its locks. -/
structure Session (Q : Type → Type u) (ε δ κ : Type) (Λ : Type v) where
  request : Λ
  program : Program Q ε Unit
  writes : δ
  locks : List κ

/-- What is committed, and the transactions that have begun. -/
structure ReadCommitted (Q : Type → Type u) (ε σ δ κ : Type) (Λ : Type v) where
  store : σ
  sessions : List (Session Q ε δ κ Λ)

/-- What can happen to transactions. What is not theirs may change at any time. -/
inductive ReadCommitted.Event (Λ : Type v) (Ω : Type w) where
  | begin (l : Λ)
  | statement (i : Nat)
  | commit (i : Nat)
  | rollback (i : Nat)
  | outside (o : Ω)

namespace ReadCommitted

variable {Q : Type → Type u} {ε σ δ κ : Type} {Λ : Type v} {Ω : Type w}

section Machine

variable [DecidableEq κ] (M : Isolation Q ε σ δ κ) (program : Λ → Program Q ε Unit)
  (outside : Ω → σ → σ)

/-- The state after an event. A transaction ends when a statement of it raises an error, and one
that ends with an error does not commit. -/
def step : Event Λ Ω → ReadCommitted Q ε σ δ κ Λ → Option (ReadCommitted Q ε σ δ κ Λ)
  | .begin l, c => some ⟨c.store, c.sessions ++ [⟨l, program l, M.clean, []⟩]⟩
  | .statement i, c =>
    match c.sessions[i]? with
    | some ⟨l, .statement q next, p, L⟩ =>
      match M.engine.exec q (M.view p c.store) with
      | .error _ => some ⟨c.store, c.sessions.eraseIdx i⟩
      | .ok (b, v) =>
        let locked := M.locks q (M.view p c.store) v
        if (c.sessions.eraseIdx i).all fun other => other.locks.all (· ∉ locked) then
          some ⟨c.store, c.sessions.set i ⟨l, next (.ok b), M.writes c.store v, L ++ locked⟩⟩
        else none
    | _ => none
  | .commit i, c =>
    match c.sessions[i]? with
    | some ⟨_, .done (.ok _), p, _⟩ => some ⟨M.view p c.store, c.sessions.eraseIdx i⟩
    | _ => none
  | .rollback i, c =>
    match c.sessions[i]? with
    | some _ => some ⟨c.store, c.sessions.eraseIdx i⟩
    | none => none
  | .outside o, c => some ⟨outside o c.store, c.sessions⟩

/-- The machine of transactions that starts without any. -/
def machine (init : σ → Prop) : Machine (ReadCommitted Q ε σ δ κ Λ) (Event Λ Ω) where
  init c := init c.store ∧ c.sessions = []
  step := step M program outside

/-- What an event does. -/
inductive Moves : Event Λ Ω → ReadCommitted Q ε σ δ κ Λ → ReadCommitted Q ε σ δ κ Λ → Prop where
  | begin {s : σ} {sessions : List (Session Q ε δ κ Λ)} (l : Λ) :
      Moves (.begin l) ⟨s, sessions⟩ ⟨s, sessions ++ [⟨l, program l, M.clean, []⟩]⟩
  | statement {s v : σ} {before after : List (Session Q ε δ κ Λ)} {l : Λ} {β : Type} {q : Q β}
      {next : Except ε β → Program Q ε Unit} {p : δ} {L : List κ} {b : β}
      (exec : M.engine.exec q (M.view p s) = .ok (b, v))
      (free : ∀ other ∈ before ++ after, ∀ k ∈ other.locks, k ∉ M.locks q (M.view p s) v) :
      Moves (.statement before.length) ⟨s, before ++ ⟨l, .statement q next, p, L⟩ :: after⟩
        ⟨s, before ++ ⟨l, next (.ok b), M.writes s v, L ++ M.locks q (M.view p s) v⟩ :: after⟩
  | commit {s : σ} {before after : List (Session Q ε δ κ Λ)} {l : Λ} {p : δ} {L : List κ} :
      Moves (.commit before.length) ⟨s, before ++ ⟨l, .done (.ok ()), p, L⟩ :: after⟩
        ⟨M.view p s, before ++ after⟩
  | ended {e : Event Λ Ω} {s : σ} {before after : List (Session Q ε δ κ Λ)}
      {x : Session Q ε δ κ Λ} (event : e = .statement before.length ∨ e = .rollback before.length) :
      Moves e ⟨s, before ++ x :: after⟩ ⟨s, before ++ after⟩
  | outside {s : σ} {sessions : List (Session Q ε δ κ Λ)} (o : Ω) :
      Moves (.outside o) ⟨s, sessions⟩ ⟨outside o s, sessions⟩

/-- Every step is one of the moves. -/
theorem step_moves {e : Event Λ Ω} {c c' : ReadCommitted Q ε σ δ κ Λ}
    (h : step M program outside e c = some c') :
  Moves M program outside e c c'
  := by
  obtain ⟨s, sessions⟩ := c
  cases e with
  | begin l =>
    cases h
    apply Moves.begin
  | statement i =>
    simp only [step] at h
    split at h
    · rename_i l β q next p L hi
      obtain ⟨before, after, rfl, rfl, hset, herase⟩ := Interleaved.split_at hi
      simp only [hset, herase] at h
      split at h
      · cases h
        apply Moves.ended (Or.inl rfl)
      · rename_i b v hexec
        split at h
        · rename_i hfree
          cases h
          apply Moves.statement hexec
          intro other hother k hk
          have hother' := List.all_eq_true.mp hfree other hother
          simpa using List.all_eq_true.mp hother' k hk
        · cases h
    · cases h
  | commit i =>
    simp only [step] at h
    split at h
    · rename_i l a p L hi
      obtain ⟨before, after, rfl, rfl, -, herase⟩ := Interleaved.split_at hi
      rw [herase] at h
      cases h
      apply Moves.commit
    · cases h
  | rollback i =>
    simp only [step] at h
    split at h
    · rename_i x hi
      obtain ⟨before, after, rfl, rfl, -, herase⟩ := Interleaved.split_at hi
      rw [herase] at h
      cases h
      apply Moves.ended (Or.inr rfl)
    · cases h
  | outside o =>
    cases h
    apply Moves.outside

end Machine

end ReadCommitted
