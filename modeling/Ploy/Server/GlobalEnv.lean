import Ploy.Foundations.Dictionary
import Ploy.Foundations.Execution

/-!
# Global environment entries

A global environment entry is stored as a row, kept in memory, and for the server itself set in the
environment of its process. A request changes the three one after the other, with nothing to keep
another request out in between.
-/

namespace Ploy

inductive GlobalEnvTarget where
  | server | nodes | gates | steps
  deriving DecidableEq, Repr

structure GlobalEnvValue where
  value : String
  secret : Bool
  deriving DecidableEq, Repr

inductive GlobalEnvRequest where
  | put (key : String) (target : GlobalEnvTarget) (value : GlobalEnvValue)
  | delete (key : String) (target : Option GlobalEnvTarget)
  deriving DecidableEq, Repr

namespace GlobalEnvRequest

def key : GlobalEnvRequest → String
  | put key _ _ | delete key _ => key

/-- What a request leaves under its key and target. -/
def value : GlobalEnvRequest → Option GlobalEnvValue
  | put _ _ value => some value
  | delete _ _ => none

end GlobalEnvRequest

/-- What a request does next. -/
inductive GlobalEnvPhase where
  | store | hold | setenv | ended
  deriving DecidableEq, Repr

structure GlobalEnvCall where
  key : String
  target : GlobalEnvTarget
  value : Option GlobalEnvValue
  phase : GlobalEnvPhase
  deriving DecidableEq, Repr

/-- What the database answers: it may have written the row and fail to say so. -/
inductive StoreAnswer where
  | ok | refused | lost
  deriving DecidableEq, Repr

inductive GlobalEnvEvent where
  | start (request : GlobalEnvRequest)
  | store (i : Nat) (answer : StoreAnswer)
  | hold (i : Nat)
  | setenv (i : Nat)
  deriving DecidableEq, Repr

/-- The rows, the holder, the environment of the process and the requests, with the keys for which a
request on the server succeeded. -/
structure GlobalEnv where
  rows : String × GlobalEnvTarget → Option GlobalEnvValue
  holder : String → List (GlobalEnvTarget × GlobalEnvValue)
  process : String → Option String
  calls : List GlobalEnvCall
  served : List String

namespace GlobalEnv

/-- The target of a request. Without one, a deletion is for the only entry of its key. -/
def targetOf (s : GlobalEnv) : GlobalEnvRequest → Option GlobalEnvTarget
  | .put _ target _ | .delete _ (some target) => some target
  | .delete key none =>
    match s.holder key with
    | [entry] => some entry.1
    | _ => none

/-- `SetGlobalEnvVar` and `DeleteGlobalEnvVar` on the entries of a key. -/
def change (entries : List (GlobalEnvTarget × GlobalEnvValue)) (target : GlobalEnvTarget) :
    Option GlobalEnvValue → List (GlobalEnvTarget × GlobalEnvValue)
  | some value => Dictionary.set entries target value
  | none => entries.eraseP (·.1 = target)

def callAt (s : GlobalEnv) (i : Nat) (phase : GlobalEnvPhase) : Option GlobalEnvCall :=
  s.calls[i]?.filter (·.phase = phase)

def step : GlobalEnvEvent → GlobalEnv → Option GlobalEnv
  | .start request, s =>
    -- A deletion without a target is answered at once if there is none, or more than one.
    some ((s.targetOf request).elim s fun target =>
      { s with calls := s.calls ++ [⟨request.key, target, request.value, .store⟩] })
  | .store i answer, s =>
    (s.callAt i .store).map fun c => { s with
      rows := if answer = .refused then s.rows else Function.update s.rows (c.key, c.target) c.value
      calls := s.calls.set i { c with phase := if answer = .ok then .hold else .ended } }
  | .hold i, s =>
    (s.callAt i .hold).map fun c => { s with
      holder := Function.update s.holder c.key (change (s.holder c.key) c.target c.value)
      calls := s.calls.set i { c with phase := if c.target = .server then .setenv else .ended } }
  | .setenv i, s =>
    (s.callAt i .setenv).map fun c => { s with
      process := Function.update s.process c.key (c.value.map GlobalEnvValue.value)
      calls := s.calls.set i { c with phase := .ended }
      served := c.key :: s.served }

/-- The holder has exactly the entries of the rows, one for a key and target at most. -/
def Agrees (s : GlobalEnv) : Prop :=
  ∀ key, ((s.holder key).map Prod.fst).Nodup
    ∧ ∀ target, Dictionary.get (s.holder key) target = s.rows (key, target)

def machine : Machine GlobalEnv GlobalEnvEvent where
  init s := s.Agrees ∧ s.calls = [] ∧ s.served = []
  step := step

/-- A request starts while none for its key is in progress, and the database does not fail after
writing. -/
def steady (s : GlobalEnv) : GlobalEnvEvent → Bool
  | .start request => s.calls.all fun c => c.phase = .ended || c.key ≠ request.key
  | .store _ answer => answer ≠ .lost
  | _ => true

/-! ### What a request in progress leaves open -/

section Change

variable {entries : List (GlobalEnvTarget × GlobalEnvValue)}

theorem keys_set (entries : List (GlobalEnvTarget × GlobalEnvValue)) (target : GlobalEnvTarget)
    (value : GlobalEnvValue) :
  (Dictionary.set entries target value).map Prod.fst = if target ∈ entries.map Prod.fst
    then entries.map Prod.fst else entries.map Prod.fst ++ [target]
  := by
  induction entries with
  | nil => rfl
  | cons entry entries ih =>
    by_cases h : entry.1 = target
    · simp [Dictionary.set, h]
    · simp only [Dictionary.set, h, if_false, List.map_cons, List.mem_cons, Ne.symm h, false_or, ih]
      split <;> rfl

theorem eraseP_eq_erase (h : (entries.map Prod.fst).Nodup) (target : GlobalEnvTarget) :
  entries.eraseP (·.1 = target) = Dictionary.erase entries target
  := by
  induction entries with
  | nil => rfl
  | cons entry entries ih =>
    obtain ⟨hfirst, hrest⟩ := List.nodup_cons.mp h
    by_cases htarget : entry.1 = target
    · rw [List.eraseP_cons_of_pos (by simpa using htarget), Dictionary.erase,
        List.filter_cons_of_neg (by simpa using htarget)]
      refine (List.filter_eq_self.mpr fun e he => ?_).symm
      have hne : e.1 ≠ target := fun heq => hfirst (htarget ▸ heq ▸ List.mem_map_of_mem he)
      simpa using hne
    · rw [List.eraseP_cons_of_neg (by simpa using htarget), ih hrest, Dictionary.erase,
        Dictionary.erase, List.filter_cons_of_pos (by simpa using htarget)]

theorem nodup_change (h : (entries.map Prod.fst).Nodup) (target : GlobalEnvTarget)
    (value : Option GlobalEnvValue) :
  ((change entries target value).map Prod.fst).Nodup
  := by
  cases value with
  | none => exact h.sublist (List.eraseP_sublist.map Prod.fst)
  | some value =>
    rw [change, keys_set]
    split
    · exact h
    · rename_i hnew
      exact (List.perm_append_singleton _ _).nodup_iff.mpr (List.nodup_cons.mpr ⟨hnew, h⟩)

theorem get_change (h : (entries.map Prod.fst).Nodup) (target other : GlobalEnvTarget)
    (value : Option GlobalEnvValue) :
  Dictionary.get (change entries target value) other
    = if other = target then value else Dictionary.get entries other
  := by
  cases value with
  | none => rw [change, eraseP_eq_erase h, Dictionary.get_erase]
  | some value => rw [change, Dictionary.get_set]

theorem update_change {holder : String → List (GlobalEnvTarget × GlobalEnvValue)}
    (h : ∀ key, ((holder key).map Prod.fst).Nodup) (key₀ : String) (target : GlobalEnvTarget)
    (value : Option GlobalEnvValue) :
  let holder' := Function.update holder key₀ (change (holder key₀) target value)
  (∀ key, ((holder' key).map Prod.fst).Nodup) ∧ ∀ x, Dictionary.get (holder' x.1) x.2
    = if x = (key₀, target) then value else Dictionary.get (holder x.1) x.2
  := by
  refine ⟨fun key => ?_, fun x => ?_⟩
  · by_cases hkey : key = key₀
    · rw [hkey, Function.update_self]
      exact nodup_change (h _) _ _
    · rw [Function.update_of_ne hkey]
      exact h key
  · obtain ⟨key, other⟩ := x
    by_cases hkey : key = key₀
    · simp only [hkey, Function.update_self, get_change (h _), Prod.mk.injEq, true_and]
    · simp only [hkey, Function.update_of_ne hkey, Prod.mk.injEq, false_and, if_false]

end Change

/-- The calls for one key that are in progress are one call. -/
def Alone (calls : List GlobalEnvCall) : Prop :=
  ∀ (i j : Nat) (c d : GlobalEnvCall), calls[i]? = some c → calls[j]? = some d → c.phase ≠ .ended →
    d.phase ≠ .ended → c.key = d.key → i = j

/-- Only the entry that a request is about to write may differ from its row, and only the variable
that a request is about to set. -/
structure Sound (s : GlobalEnv) : Prop where
  single : ∀ key, ((s.holder key).map Prod.fst).Nodup
  alone : Alone s.calls
  wrote : ∀ (i : Nat) (c : GlobalEnvCall), s.calls[i]? = some c →
    c.phase = .hold ∨ c.phase = .setenv → s.rows (c.key, c.target) = c.value
  server : ∀ (i : Nat) (c : GlobalEnvCall), s.calls[i]? = some c → c.phase = .setenv →
    c.target = .server
  held : ∀ x : String × GlobalEnvTarget,
    (∀ c ∈ s.calls, c.phase = .hold → (c.key, c.target) ≠ x) →
    Dictionary.get (s.holder x.1) x.2 = s.rows x
  set : ∀ key ∈ s.served,
    (∀ c ∈ s.calls, c.phase = .hold ∨ c.phase = .setenv → (c.key, c.target) ≠ (key, .server)) →
    s.process key = (s.rows (key, .server)).map GlobalEnvValue.value

section Calls

variable {calls : List GlobalEnvCall} {i : Nat} {c c' : GlobalEnvCall}

theorem Alone.set (h : Alone calls) (hc : calls[i]? = some c) (hactive : c.phase ≠ .ended)
    (hkey : c'.key = c.key) :
  Alone (calls.set i c')
  := by
  intro j k d e hd he hd' he' heq
  rcases (Pool.get_set hc).mp hd with ⟨hj, rfl⟩ | ⟨hj, hd⟩ <;>
    rcases (Pool.get_set hc).mp he with ⟨hk, rfl⟩ | ⟨hk, he⟩
  · exact hj.trans hk.symm
  · exact hj.trans (h _ _ _ _ hc he hactive he' (hkey.symm.trans heq))
  · exact (h _ _ _ _ hd hc hd' hactive (heq.trans hkey)).trans hk.symm
  · exact h _ _ _ _ hd he hd' he' heq

theorem Alone.start (h : Alone calls)
    (hnew : ∀ d ∈ calls, d.phase ≠ .ended → d.key ≠ c.key) :
  Alone (calls ++ [c])
  := by
  intro j k d e hd he hd' he' heq
  rcases Pool.get_start.mp hd with ⟨rfl, rfl⟩ | hd <;>
    rcases Pool.get_start.mp he with ⟨rfl, rfl⟩ | he
  · rfl
  · exact absurd heq.symm (hnew e (List.mem_of_getElem? he) he')
  · exact absurd heq (hnew d (List.mem_of_getElem? hd) hd')
  · exact h _ _ _ _ hd he hd' he' heq

theorem forall_of_set {P : GlobalEnvCall → Prop} (hc : calls[i]? = some c) (hP : P c)
    (h : ∀ d ∈ calls.set i c', P d) :
  ∀ d ∈ calls, P d
  := by
  intro d hd
  obtain ⟨j, hj⟩ := List.getElem?_of_mem hd
  by_cases hji : j = i
  · rw [hji, hc] at hj
    cases hj
    exact hP
  · exact h d (List.mem_of_getElem? ((Pool.get_set hc).mpr (Or.inr ⟨hji, hj⟩)))

end Calls

section Steps

variable {s s' : GlobalEnv} {i : Nat} {c : GlobalEnvCall}

/-- A call starts while no other is on its key. -/
theorem Sound.start (h : s.Sound) {request : GlobalEnvRequest}
    (hsteady : s.steady (.start request) = true) (target : GlobalEnvTarget) :
  Sound { s with calls := s.calls ++ [⟨request.key, target, request.value, .store⟩] }
  := by
  have hnew : ∀ d ∈ s.calls, d.phase ≠ .ended → d.key ≠ request.key := by
    intro d hd hactive
    simpa [hactive] using List.all_eq_true.mp hsteady d hd
  refine { h with alone := h.alone.start hnew, wrote := ?_, server := ?_, held := ?_, set := ?_ }
  · intro j d hd hphase
    rcases Pool.get_start.mp hd with ⟨-, rfl⟩ | hd
    · simp at hphase
    · exact h.wrote j d hd hphase
  · intro j d hd hphase
    rcases Pool.get_start.mp hd with ⟨-, rfl⟩ | hd
    · cases hphase
    · exact h.server j d hd hphase
  · exact fun x hx => h.held x fun d hd => hx d (List.mem_append_left _ hd)
  · exact fun key hkey hx => h.set key hkey fun d hd => hx d (List.mem_append_left _ hd)

/-- A call goes on to its next phase. -/
theorem Sound.advance (h : s.Sound) (hc : s.calls[i]? = some c) (hactive : c.phase ≠ .ended)
    {p : GlobalEnvPhase} (hcalls : s'.calls = s.calls.set i { c with phase := p })
    (hsingle : ∀ key, ((s'.holder key).map Prod.fst).Nodup)
    (hserver : p = .setenv → c.target = .server)
    (hwrote : p = .hold ∨ p = .setenv → s'.rows (c.key, c.target) = c.value)
    (hrows : ∀ x, (c.key, c.target) ≠ x → s'.rows x = s.rows x)
    (hholder : ∀ x : String × GlobalEnvTarget, (c.key, c.target) ≠ x →
      Dictionary.get (s'.holder x.1) x.2 = Dictionary.get (s.holder x.1) x.2)
    (hheld : p ≠ .hold → Dictionary.get (s'.holder c.key) c.target = s'.rows (c.key, c.target))
    (hprocess : ∀ key, (c.key, c.target) ≠ (key, .server) → s'.process key = s.process key
      ∧ (key ∈ s'.served → key ∈ s.served))
    (hset : p ≠ .hold → p ≠ .setenv → c.target = .server → c.key ∈ s'.served →
      s'.process c.key = (s'.rows (c.key, c.target)).map GlobalEnvValue.value) :
  s'.Sound
  := by
  have hmem : ({ c with phase := p } : GlobalEnvCall) ∈ s'.calls := by
    rw [hcalls]
    exact List.mem_of_getElem? ((Pool.get_set hc).mpr (Or.inl ⟨rfl, rfl⟩))
  refine ⟨hsingle, hcalls ▸ h.alone.set hc hactive rfl, ?_, ?_, ?_, ?_⟩
  · intro j d hd hd'
    rw [hcalls] at hd
    rcases (Pool.get_set hc).mp hd with ⟨-, rfl⟩ | ⟨hne, hd⟩
    · exact hwrote hd'
    · -- another call for the key has ended
      refine (hrows _ fun heq => hne ?_).trans (h.wrote j d hd hd')
      exact h.alone _ _ _ _ hd hc (by rcases hd' with hd' | hd' <;> simp [hd']) hactive
        (congrArg Prod.fst heq).symm
  · intro j d hd hd'
    rw [hcalls] at hd
    rcases (Pool.get_set hc).mp hd with ⟨-, rfl⟩ | ⟨-, hd⟩
    · exact hserver hd'
    · exact h.server j d hd hd'
  · intro x hx
    by_cases heq : (c.key, c.target) = x
    · rw [← heq]
      exact hheld fun hp => hx _ hmem hp heq
    · rw [hholder x heq, hrows x heq]
      exact h.held x (forall_of_set hc (fun _ => heq) (hcalls ▸ hx))
  · intro key hkey hx
    by_cases heq : (c.key, c.target) = (key, .server)
    · obtain ⟨rfl, htarget⟩ := Prod.mk.inj heq
      rw [← heq]
      exact hset (fun hp => hx _ hmem (Or.inl hp) heq) (fun hp => hx _ hmem (Or.inr hp) heq)
        htarget hkey
    · rw [(hprocess key heq).1, hrows _ heq]
      exact h.set key ((hprocess key heq).2 hkey) (forall_of_set hc (fun _ => heq) (hcalls ▸ hx))

theorem Sound.quiet (h : s.Sound) (hc : s.calls[i]? = some c) (hphase : c.phase = .store) :
  ∀ d ∈ s.calls, d.phase = .hold ∨ d.phase = .setenv → d.key ≠ c.key
  := by
  intro d hd hd' hkey
  obtain ⟨j, hj⟩ := List.getElem?_of_mem hd
  have hactive : d.phase ≠ .ended := by rcases hd' with hd' | hd' <;> simp [hd']
  obtain rfl := h.alone _ _ _ _ hj hc hactive (by simp [hphase]) hkey
  rw [hc] at hj
  cases hj
  rw [hphase] at hd'
  simp at hd'

theorem callAt_eq_some {p : GlobalEnvPhase} (h : s.callAt i p = some c) :
  s.calls[i]? = some c ∧ c.phase = p
  := by
  simpa [callAt, Option.filter_eq_some_iff] using h

/-- Every steady event keeps the rows and the holder in step. -/
theorem Sound.step (h : s.Sound) {l : GlobalEnvEvent} (hsteady : s.steady l = true)
    (hstep : GlobalEnv.step l s = some s') :
  s'.Sound
  := by
  cases l with
  | start request =>
    rw [GlobalEnv.step, Option.some.injEq] at hstep
    cases htarget : s.targetOf request with
    | none =>
      rw [htarget] at hstep
      exact hstep ▸ h
    | some target =>
      rw [htarget] at hstep
      exact hstep ▸ h.start hsteady target
  | store i answer =>
    obtain ⟨c, hcall, rfl⟩ := Option.map_eq_some_iff.mp hstep
    obtain ⟨hc, hphase⟩ := callAt_eq_some hcall
    have hquiet := h.quiet hc hphase
    cases answer with
    | lost => cases hsteady
    | ok =>
      refine h.advance (p := .hold) hc (by simp [hphase]) rfl ?_ ?_ ?_ ?_ ?_ ?_ ?_ ?_
      · exact h.single
      · intro hp
        cases hp
      · exact fun _ => Function.update_self _ _ _
      · exact fun x hx => Function.update_of_ne hx.symm _ _
      · exact fun _ _ => rfl
      · exact fun hp => absurd rfl hp
      · exact fun _ _ => ⟨rfl, id⟩
      · exact fun hp => absurd rfl hp
    | refused =>
      refine h.advance (p := .ended) hc (by simp [hphase]) rfl ?_ ?_ ?_ ?_ ?_ ?_ ?_ ?_
      · exact h.single
      · intro hp
        cases hp
      · rintro (hp | hp) <;> cases hp
      · exact fun _ _ => rfl
      · exact fun _ _ => rfl
      · exact fun _ => h.held (c.key, c.target) fun d hd hd' heq =>
          hquiet d hd (Or.inl hd') (congrArg Prod.fst heq)
      · exact fun _ _ => ⟨rfl, id⟩
      · intro _ _ htarget hkey
        rw [htarget]
        exact h.set c.key hkey fun d hd hd' heq => hquiet d hd hd' (congrArg Prod.fst heq)
  | hold i =>
    obtain ⟨c, hcall, rfl⟩ := Option.map_eq_some_iff.mp hstep
    obtain ⟨hc, hphase⟩ := callAt_eq_some hcall
    have hrow := h.wrote i c hc (Or.inl hphase)
    obtain ⟨hnodup, hget⟩ := update_change h.single c.key c.target c.value
    refine h.advance hc (by simp [hphase]) rfl ?_ ?_ ?_ ?_ ?_ ?_ ?_ ?_
    · exact hnodup
    · split <;> simp_all
    · exact fun _ => hrow
    · exact fun _ _ => rfl
    · exact fun x hne => (hget x).trans (if_neg hne.symm)
    · exact fun _ => ((hget (c.key, c.target)).trans (if_pos rfl)).trans hrow.symm
    · exact fun _ _ => ⟨rfl, id⟩
    · exact fun _ hp htarget => absurd (if_pos htarget) hp
  | setenv i =>
    obtain ⟨c, hcall, rfl⟩ := Option.map_eq_some_iff.mp hstep
    obtain ⟨hc, hphase⟩ := callAt_eq_some hcall
    have hrow := h.wrote i c hc (Or.inr hphase)
    have hserver := h.server i c hc hphase
    refine h.advance (p := .ended) hc (by simp [hphase]) rfl ?_ ?_ ?_ ?_ ?_ ?_ ?_ ?_
    · exact h.single
    · intro hp
      cases hp
    · rintro (hp | hp) <;> cases hp
    · exact fun _ _ => rfl
    · exact fun _ _ => rfl
    · -- the call has written the entry, and no other for its key is about to
      refine fun _ => h.held (c.key, c.target) fun d hd hd' heq => ?_
      obtain ⟨j, hj⟩ := List.getElem?_of_mem hd
      obtain rfl := h.alone _ _ _ _ hj hc (by simp [hd']) (by simp [hphase]) (congrArg Prod.fst heq)
      rw [hc] at hj
      cases hj
      rw [hphase] at hd'
      cases hd'
    · intro key hne
      have hkey : key ≠ c.key := fun heq => hne (by rw [heq, hserver])
      exact ⟨Function.update_of_ne hkey _ _, fun hmem => (List.mem_cons.mp hmem).resolve_left hkey⟩
    · intro _ _ _ _
      exact (Function.update_self _ _ _).trans (by rw [hrow])

end Steps

/-- Rows and holder agree at first. -/
theorem sound_of_init {s : GlobalEnv} (h : machine.init s) :
  s.Sound
  := by
  obtain ⟨hagrees, hcalls, hserved⟩ := h
  refine ⟨fun key => (hagrees key).1, ?_, ?_, ?_, fun x _ => (hagrees x.1).2 x.2, ?_⟩
  · intro i j c d hc
    rw [hcalls] at hc
    cases hc
  · intro i c hc
    rw [hcalls] at hc
    cases hc
  · intro i c hc
    rw [hcalls] at hc
    cases hc
  · intro key hkey
    rw [hserved] at hkey
    cases hkey

/-- In every run whose steps all meet the condition, once no request is in progress the holder has
exactly the entries of the rows, and where a request on the server has succeeded, the process has
the value of the row. -/
theorem global_env_agrees {past : List (GlobalEnv × GlobalEnvEvent)} {s : GlobalEnv}
    (h : machine.Execution past s) (hsteady : ∀ x ∈ past, x.1.steady x.2 = true)
    (hrest : ∀ c ∈ s.calls, c.phase = .ended) :
  s.Agrees ∧ ∀ key ∈ s.served,
    s.process key = (s.rows (key, .server)).map GlobalEnvValue.value
  := by
  have hsound := h.invariant_of_allowed steady (fun _ => sound_of_init)
    (fun _ _ _ hs hl hstep => hs.step hl hstep) hsteady
  refine ⟨fun key => ⟨hsound.single key, fun target => ?_⟩, fun key hkey => ?_⟩
  · exact hsound.held (key, target) fun c hc hphase => by simp [hrest c hc] at hphase
  · exact hsound.set key hkey fun c hc hphase => by simp [hrest c hc] at hphase

namespace Sample

/-- No entries, and no variables. -/
def empty : GlobalEnv :=
  ⟨fun _ => none, fun _ => [], fun _ => none, [], []⟩

theorem empty_init : machine.init empty :=
  ⟨fun _ => ⟨List.nodup_nil, fun _ => rfl⟩, rfl, rfl⟩

def put (value : String) : GlobalEnvEvent :=
  .start (.put "TOKEN" .server ⟨value, true⟩)

end Sample

/-- One request after the other. -/
theorem global_env_agrees_sample :
  ∃ past s, machine.Execution past s ∧ (∀ c ∈ s.calls, c.phase = .ended)
    ∧ s.served = ["TOKEN", "TOKEN"]
    ∧ s.process "TOKEN" = (s.rows ("TOKEN", .server)).map GlobalEnvValue.value
  := by
  have hrun : ((machine.restrict steady).follow Sample.empty [Sample.put "a", .store 0 .ok, .hold 0,
      .setenv 0, Sample.put "b", .store 1 .ok, .hold 1, .setenv 1]).map
      (fun s => (s.calls.map GlobalEnvCall.phase, s.served))
      = some ([.ended, .ended], ["TOKEN", "TOKEN"]) := by decide +kernel
  obtain ⟨s, hfollow, hs⟩ := Option.map_eq_some_iff.mp hrun
  obtain ⟨past, hexec, hall⟩ := Machine.Execution.of_follow_restrict Sample.empty_init hfollow
  obtain ⟨hphases, hserved⟩ := Prod.mk.inj hs
  have hrest : ∀ c ∈ s.calls, c.phase = .ended := by
    intro c hc
    have hmem := List.mem_map_of_mem (f := GlobalEnvCall.phase) hc
    simpa [hphases] using hmem
  exact ⟨past, s, hexec, hrest, hserved,
    (global_env_agrees hexec hall hrest).2 "TOKEN" (by simp [hserved])⟩

/-- Two requests on one entry: the rows have the value of the second, the holder and the process
that of the first. -/
theorem global_env_differs :
  ∃ past s, machine.Execution past s
    ∧ past.map Prod.snd = [.setenv 0, .setenv 1, .hold 0, .hold 1, .store 1 .ok, .store 0 .ok,
      Sample.put "b", Sample.put "a"]
    ∧ (∀ c ∈ s.calls, c.phase = .ended) ∧ s.rows ("TOKEN", .server) = some ⟨"b", true⟩
    ∧ s.holder "TOKEN" = [(.server, ⟨"a", true⟩)] ∧ s.process "TOKEN" = some "a"
  := by
  have hrun : (machine.follow Sample.empty [Sample.put "a", Sample.put "b", .store 0 .ok,
    .store 1 .ok,
      .hold 1, .hold 0, .setenv 1, .setenv 0]).map
      (fun s => decide ((∀ c ∈ s.calls, c.phase = .ended)
        ∧ s.rows ("TOKEN", .server) = some ⟨"b", true⟩
        ∧ s.holder "TOKEN" = [(.server, ⟨"a", true⟩)] ∧ s.process "TOKEN" = some "a"))
      = some true := by decide +kernel
  obtain ⟨s, hfollow, hs⟩ := Option.map_eq_some_iff.mp hrun
  obtain ⟨past, hexec, hlabels⟩ := Machine.Execution.of_follow Sample.empty_init hfollow
  exact ⟨past, s, hexec, hlabels, of_decide_eq_true hs⟩

end GlobalEnv

end Ploy
