import Ploy.Foundations.Execution
import Ploy.Foundations.Program

/-!
# Interleaved programs

Programs that run side by side on one state, each statement taking effect by itself, next to
actions that are atomic and may start further programs. A statement can be lost, in which case its
program is told of an error and the state does not change, and a program can be stopped.
-/

universe u v

/-- A state, and the programs that run on it. -/
structure Interleaved (Q : Type → Type u) (ε σ : Type) where
  store : σ
  processes : List (Program Q ε Unit)

/-- What can happen to interleaved programs. -/
inductive Interleaved.Event (Λ : Type v) (ε : Type) where
  | act (l : Λ)
  | issue (i : Nat)
  | lose (i : Nat) (e : ε)
  | stop (i : Nat)

namespace Interleaved

variable {Q : Type → Type u} {ε σ : Type} {Λ : Type v}
variable (E : Engine Q ε σ) (act : Λ → σ → Option (σ × List (Program Q ε Unit)))

/-- The state after an event. -/
def step : Event Λ ε → Interleaved Q ε σ → Option (Interleaved Q ε σ)
  | .act l, c => (act l c.store).map fun (s, started) => ⟨s, c.processes ++ started⟩
  | .issue i, c =>
    match c.processes[i]? with
    | some (.statement q next) =>
      match E.exec q c.store with
      | .ok (b, s) => some ⟨s, c.processes.set i (next (.ok b))⟩
      | .error e => some ⟨c.store, c.processes.set i (next (.error e))⟩
    | _ => none
  | .lose i e, c =>
    match c.processes[i]? with
    | some (.statement _ next) => some ⟨c.store, c.processes.set i (next (.error e))⟩
    | _ => none
  | .stop i, c =>
    match c.processes[i]? with
    | some (.statement _ _) => some ⟨c.store, c.processes.set i (.done (.ok ()))⟩
    | _ => none

/-- The machine of interleaved programs that starts without any. -/
def machine (init : σ → Prop) : Machine (Interleaved Q ε σ) (Event Λ ε) where
  init c := init c.store ∧ c.processes = []
  step := step E act

/-- No program is half way through. -/
def Quiescent (c : Interleaved Q ε σ) : Prop :=
  ∀ p ∈ c.processes, p.ended = true

/-- What an event does. A program that issues, loses or is stopped before its statement `q` is
replaced in its place. -/
inductive Moves : Event Λ ε → Interleaved Q ε σ → Interleaved Q ε σ → Prop where
  | act {l : Λ} {s s' : σ} {processes started : List (Program Q ε Unit)}
      (h : act l s = some (s', started)) : Moves (.act l) ⟨s, processes⟩ ⟨s', processes ++ started⟩
  | issue {β : Type} {q : Q β} {next : Except ε β → Program Q ε Unit} {s s' : σ} {b : β}
      {before after : List (Program Q ε Unit)} (h : E.exec q s = .ok (b, s')) :
      Moves (.issue before.length) ⟨s, before ++ .statement q next :: after⟩
        ⟨s', before ++ next (.ok b) :: after⟩
  | refuse {β : Type} {q : Q β} {next : Except ε β → Program Q ε Unit} {s : σ} {e : ε}
      {before after : List (Program Q ε Unit)} (h : E.exec q s = .error e) :
      Moves (.issue before.length) ⟨s, before ++ .statement q next :: after⟩
        ⟨s, before ++ next (.error e) :: after⟩
  | lose {β : Type} {q : Q β} {next : Except ε β → Program Q ε Unit} {s : σ} {e : ε}
      {before after : List (Program Q ε Unit)} :
      Moves (.lose before.length e) ⟨s, before ++ .statement q next :: after⟩
        ⟨s, before ++ next (.error e) :: after⟩
  | stop {β : Type} {q : Q β} {next : Except ε β → Program Q ε Unit} {s : σ}
      {before after : List (Program Q ε Unit)} :
      Moves (.stop before.length) ⟨s, before ++ .statement q next :: after⟩
        ⟨s, before ++ .done (.ok ()) :: after⟩

theorem split_at {α : Type*} {l : List α} {i : Nat} {x : α} (h : l[i]? = some x) :
  ∃ before after, i = before.length ∧ l = before ++ x :: after
    ∧ (∀ y, l.set i y = before ++ y :: after) ∧ l.eraseIdx i = before ++ after
  := by
  obtain ⟨hi, hx⟩ := List.getElem?_eq_some_iff.mp h
  use l.take i, l.drop (i + 1)
  refine ⟨?_, ?_, ?_, ?_⟩
  · rw [List.length_take, Nat.min_eq_left (Nat.le_of_lt hi)]
  · rw [← hx, List.getElem_cons_drop, List.take_append_drop]
  · intro y
    rw [List.set_eq_take_append_cons_drop, if_pos hi]
  · rw [List.eraseIdx_eq_take_drop_succ]

theorem getElem?_place {α : Type*} (before after : List α) (x : α) :
  (before ++ x :: after)[before.length]? = some x
  := by
  rw [List.getElem?_append_right (Nat.le_refl _), Nat.sub_self, List.getElem?_cons_zero]

/-- Every step is one of the moves. -/
theorem step_moves {e : Event Λ ε} {c c' : Interleaved Q ε σ} (h : step E act e c = some c') :
  Moves E act e c c'
  := by
  obtain ⟨s, processes⟩ := c
  cases e with
  | act l =>
    obtain ⟨⟨s', started⟩, hact, rfl⟩ := Option.map_eq_some_iff.mp h
    apply Moves.act hact
  | issue i =>
    simp only [step] at h
    split at h
    · rename_i β q next hi
      obtain ⟨before, after, rfl, rfl, hset, -⟩ := split_at hi
      simp only [hset] at h
      split at h
      · rename_i b s' hexec
        cases h
        apply Moves.issue hexec
      · rename_i e hexec
        cases h
        apply Moves.refuse hexec
    · cases h
  | lose i e =>
    simp only [step] at h
    split at h
    · rename_i β q next hi
      obtain ⟨before, after, rfl, rfl, hset, -⟩ := split_at hi
      simp only [hset] at h
      cases h
      apply Moves.lose
    · cases h
  | stop i =>
    simp only [step] at h
    split at h
    · rename_i β q next hi
      obtain ⟨before, after, rfl, rfl, hset, -⟩ := split_at hi
      simp only [hset] at h
      cases h
      apply Moves.stop
    · cases h

/-- A program may run to its end without anything in between. -/
theorem run_alone {init : σ → Prop} {p : Program Q ε Unit} {before : List (Program Q ε Unit)}
    {past : List (Interleaved Q ε σ × Event Λ ε)} {s : σ}
    (h : (machine E act init).Execution past ⟨s, before ++ [p]⟩) :
  ∃ past', (machine E act init).Execution past'
    ⟨(p.autocommit E s).2, before ++ [.done (p.autocommit E s).1]⟩
  := by
  induction p generalizing past s with
  | done r => exact ⟨past, h⟩
  | statement q next ih =>
    have hissue : ∀ r s', (E.exec q s = .ok (r, s') →
          (machine E act init).step (.issue before.length) ⟨s, before ++ [.statement q next]⟩
            = some ⟨s', before ++ [next (.ok r)]⟩) := by
      intro r s' hexec
      simp [machine, step, hexec]
    have hrefuse : ∀ e, (E.exec q s = .error e →
          (machine E act init).step (.issue before.length) ⟨s, before ++ [.statement q next]⟩
            = some ⟨s, before ++ [next (.error e)]⟩) := by
      intro e hexec
      simp [machine, step, hexec]
    simp only [Program.autocommit]
    rcases hexec : E.exec q s with e | ⟨b, s'⟩
    · apply ih _ (h.step (hrefuse e hexec))
    · apply ih _ (h.step (hissue b s' hexec))

end Interleaved
