import Ploy.Foundations.Execution

/-!
# Spec bundles

A bundle is a row that names the content identifier of an archive, and a blob under the object key
of the row. The row is inserted before the blob is uploaded, and deleted when the upload fails. An
archive that is already there is found by its content identifier and not uploaded again.

Every statement and every upload is a step of its own, and the steps of any number of calls
interleave.
-/

namespace Ploy

/-- A row of `spec_bundles`. Its object key is made of its identifier. -/
structure BundleRow (γ : Type) where
  id : String
  cid : γ
  createdAt : Nat
  deriving DecidableEq, Repr

/-- Where a call of `ensureSpecBundle` is: before the lookup, the insertion, the upload, or the
deletion of the row whose upload failed, or at its end. -/
inductive BundlePhase where
  | lookup
  | insert
  | upload (id : String)
  | rollback (id : String)
  | ended
  deriving DecidableEq, Repr

/-- A call of `ensureSpecBundle`: the archive, whether the context of the caller is cancelled, and
where the call is. -/
structure EnsureCall (β : Type) where
  data : β
  cancelled : Bool
  phase : BundlePhase
  deriving DecidableEq, Repr

/-- The bundle whose row the call has inserted and not settled. -/
def EnsureCall.inFlight {β : Type} (call : EnsureCall β) : Option String :=
  match call.phase with
  | .upload id | .rollback id => some id
  | _ => none

/-- The rows, the blobs, the calls, and what was answered: the bundles that calls returned and the
bundles that probes found, with the content identifier asked for. -/
structure BundleStore (β γ : Type) where
  rows : List (BundleRow γ)
  blobs : String → Option β
  calls : List (EnsureCall β)
  answered : List (String × γ)

/-- The events of the store: a call starts or takes its next step, the context of its caller is
cancelled, the server stops, or a content identifier is probed for. A lookup carries the row found,
an insertion the identifier drawn and the time, and an upload that fails whether the blob was
stored all the same. `fails` is a lookup, an insertion or a deletion that fails. -/
inductive BundleEvent (β γ : Type) where
  | ensure (data : β)
  | lookup (i : Nat) (found : Option String)
  | insert (i : Nat) (id : String) (now : Nat)
  | put (i : Nat)
  | putFails (i : Nat) (stored : Bool)
  | delete (i : Nat)
  | fails (i : Nat)
  | cancel (i : Nat)
  | stop
  | probe (cid : γ) (found : Option String)
  deriving DecidableEq, Repr

namespace BundleStore

variable {β γ : Type} (cidOf : β → γ)

/-- Whether a lookup by content identifier can answer with the row: one of the latest, or none where
there is none. -/
def getSpecBundleByCID [DecidableEq γ] (rows : List (BundleRow γ)) (cid : γ) : Option String → Bool
  | none => rows.all (·.cid ≠ cid)
  | some id => rows.any fun row => row.id = id && row.cid = cid
      && rows.all fun other => other.cid ≠ cid || other.createdAt ≤ row.createdAt

/-- The archive that a node gets for a bundle: the row is looked up, then the blob. -/
def downloadSpecBundle (s : BundleStore β γ) (id : String) : Option β :=
  if s.rows.any (·.id = id) then s.blobs id else none

/-- The state after an event, where it can take place. The steps of a call whose context is
cancelled fail. -/
def step [DecidableEq γ] : BundleEvent β γ → BundleStore β γ → Option (BundleStore β γ)
  | .ensure data, s => some { s with calls := s.calls ++ [⟨data, false, .lookup⟩] }
  | .lookup i found, s =>
    match s.calls[i]? with
    | some ⟨data, false, .lookup⟩ =>
      if getSpecBundleByCID s.rows (cidOf data) found then
        match found with
        | some id => some { s with
            calls := s.calls.set i ⟨data, false, .ended⟩
            answered := (id, cidOf data) :: s.answered }
        | none => some { s with calls := s.calls.set i ⟨data, false, .insert⟩ }
      else none
    | _ => none
  | .insert i id now, s =>
    match s.calls[i]? with
    | some ⟨data, false, .insert⟩ =>
      if s.rows.any (·.id = id) then none
      else some { s with
        rows := s.rows ++ [⟨id, cidOf data, now⟩]
        calls := s.calls.set i ⟨data, false, .upload id⟩ }
    | _ => none
  | .put i, s =>
    match s.calls[i]? with
    | some ⟨data, false, .upload id⟩ => some { s with
        blobs := Function.update s.blobs id (some data)
        calls := s.calls.set i ⟨data, false, .ended⟩
        answered := (id, cidOf data) :: s.answered }
    | _ => none
  | .putFails i stored, s =>
    match s.calls[i]? with
    | some ⟨data, cancelled, .upload id⟩ => some { s with
        blobs := if stored then Function.update s.blobs id (some data) else s.blobs
        calls := s.calls.set i ⟨data, cancelled, .rollback id⟩ }
    | _ => none
  | .delete i, s =>
    match s.calls[i]? with
    | some ⟨data, false, .rollback id⟩ => some { s with
        rows := s.rows.filter (·.id ≠ id)
        calls := s.calls.set i ⟨data, false, .ended⟩ }
    | _ => none
  | .fails i, s =>
    match s.calls[i]? with
    | some ⟨data, cancelled, .lookup⟩ | some ⟨data, cancelled, .insert⟩
    | some ⟨data, cancelled, .rollback _⟩ =>
      some { s with calls := s.calls.set i ⟨data, cancelled, .ended⟩ }
    | _ => none
  | .cancel i, s =>
    match s.calls[i]? with
    | some call => some { s with calls := s.calls.set i { call with cancelled := true } }
    | none => none
  | .stop, s => some { s with calls := [] }
  | .probe cid found, s =>
    if getSpecBundleByCID s.rows cid found then
      match found with
      | some id => some { s with answered := (id, cid) :: s.answered }
      | none => some s
    else none

/-- The bundle of a row has the content the row names. -/
def HasContent (s : BundleStore β γ) (id : String) (cid : γ) : Prop :=
  ∃ data, s.blobs id = some data ∧ cidOf data = cid

/-- A store that no call is using, every row of which has its content. -/
structure Initial (s : BundleStore β γ) : Prop where
  nodup : (s.rows.map BundleRow.id).Nodup
  content : ∀ row ∈ s.rows, s.HasContent cidOf row.id row.cid
  idle : s.calls = []
  unanswered : s.answered = []

/-- The store with any number of calls and probes. -/
def machine [DecidableEq γ] : Machine (BundleStore β γ) (BundleEvent β γ) where
  init := Initial cidOf
  step := step cidOf

/-- The condition under which bundles have their content: a content identifier is looked up only
while no call is between its insertion of a row for it and its end, and no call in between is
cancelled, stopped, or fails to delete its row. An upload may fail. -/
def undisturbed [DecidableEq γ] (s : BundleStore β γ) : BundleEvent β γ → Bool
  | .lookup i _ => (s.calls[i]?).all fun call =>
    s.calls.all fun other => other.inFlight.isNone || cidOf other.data ≠ cidOf call.data
  | .probe cid _ => s.calls.all fun other => other.inFlight.isNone || cidOf other.data ≠ cid
  | .fails i | .cancel i => (s.calls[i]?).all (·.inFlight.isNone)
  | .stop => s.calls.all (·.inFlight.isNone)
  | _ => true

/-! ### What every allowed step keeps -/

/-- Every row has its content or is settled by a call, which no other call shares; and what was
answered has its row and its content, and no call still settles it. -/
structure Sound (s : BundleStore β γ) : Prop where
  nodup : (s.rows.map BundleRow.id).Nodup
  rows : ∀ row ∈ s.rows, s.HasContent cidOf row.id row.cid
    ∨ ∃ call ∈ s.calls, call.inFlight = some row.id
  calls : ∀ call ∈ s.calls, ∀ id, call.inFlight = some id →
    ∃ row ∈ s.rows, row.id = id ∧ row.cid = cidOf call.data
  distinct : ∀ (i k : Nat) (a b : EnsureCall β) (id : String), s.calls[i]? = some a →
    s.calls[k]? = some b → a.inFlight = some id → b.inFlight = some id → i = k
  answered : ∀ x ∈ s.answered, (∃ row ∈ s.rows, row.id = x.1 ∧ row.cid = x.2)
    ∧ s.HasContent cidOf x.1 x.2 ∧ ∀ call ∈ s.calls, call.inFlight ≠ some x.1

section Sound

variable {cidOf} {s : BundleStore β γ} {i : Nat} {call call' : EnsureCall β} {id : String} {cid : γ}

theorem Initial.sound (h : Initial cidOf s) :
  Sound cidOf s
  := by
  refine ⟨h.nodup, fun row hrow => Or.inl (h.content row hrow), ?_, ?_, ?_⟩
  · rw [h.idle]
    nofun
  · rw [h.idle]
    nofun
  · rw [h.unanswered]
    nofun

theorem Sound.row_eq (h : Sound cidOf s) {a b : BundleRow γ} (ha : a ∈ s.rows) (hb : b ∈ s.rows)
    (hid : a.id = b.id) :
  a = b
  := List.inj_on_of_nodup_map h.nodup ha hb hid

/-- A call starts without a row of its own. -/
theorem Sound.start (h : Sound cidOf s) (hcall : call.inFlight = none) :
  Sound cidOf { s with calls := s.calls ++ [call] }
  := by
  have hmem : ∀ c ∈ s.calls ++ [call], ∀ id, c.inFlight = some id → c ∈ s.calls := by
    intro c hc id hid
    rcases List.mem_append.mp hc with hc | hc
    · apply hc
    · rw [List.mem_singleton.mp hc, hcall] at hid
      cases hid
  refine ⟨h.nodup, ?_, ?_, ?_, ?_⟩
  · intro row hrow
    rcases h.rows row hrow with hcontent | ⟨c, hc, hid⟩
    · apply Or.inl hcontent
    · exact Or.inr ⟨c, List.mem_append_left _ hc, hid⟩
  · intro c hc id hid
    apply h.calls c (hmem c hc id hid) id hid
  · intro i k a b id hi hk ha hb
    rcases Pool.get_start.mp hi with ⟨-, rfl⟩ | hi
    · rw [hcall] at ha
      cases ha
    · rcases Pool.get_start.mp hk with ⟨-, rfl⟩ | hk
      · rw [hcall] at hb
        cases hb
      · apply h.distinct i k a b id hi hk ha hb
  · intro x hx
    obtain ⟨hrow, hcontent, hfree⟩ := h.answered x hx
    refine ⟨hrow, hcontent, ?_⟩
    intro c hc hid
    apply hfree c (hmem c hc _ hid) hid

/-- A call goes on with the same data and the same row. -/
theorem Sound.replace (h : Sound cidOf s) (hi : s.calls[i]? = some call)
    (hdata : call'.data = call.data) (hflight : call'.inFlight = call.inFlight) :
  Sound cidOf { s with calls := s.calls.set i call' }
  := by
  have hcall : call ∈ s.calls := List.mem_of_getElem? hi
  have hself : call' ∈ s.calls.set i call' := by
    apply List.mem_of_getElem? (i := i)
    exact (Pool.get_set hi).mpr (Or.inl ⟨rfl, rfl⟩)
  -- a call in the new pool is one of the old pool, up to what is not looked at
  have hold : ∀ (k : Nat) (c : EnsureCall β), (s.calls.set i call')[k]? = some c →
      ∃ c₀, s.calls[k]? = some c₀ ∧ c.data = c₀.data ∧ c.inFlight = c₀.inFlight := by
    intro k c hk
    rcases (Pool.get_set hi).mp hk with ⟨rfl, rfl⟩ | ⟨-, hk⟩
    · exact ⟨call, hi, hdata, hflight⟩
    · exact ⟨c, hk, rfl, rfl⟩
  have holdmem : ∀ c ∈ s.calls.set i call',
      ∃ c₀ ∈ s.calls, c.data = c₀.data ∧ c.inFlight = c₀.inFlight := by
    intro c hc
    obtain ⟨k, hk⟩ := List.getElem?_of_mem hc
    obtain ⟨c₀, hk₀, hsame⟩ := hold k c hk
    exact ⟨c₀, List.mem_of_getElem? hk₀, hsame⟩
  refine ⟨h.nodup, ?_, ?_, ?_, ?_⟩
  · intro row hrow
    rcases h.rows row hrow with hcontent | ⟨c, hc, hid⟩
    · apply Or.inl hcontent
    · right
      obtain ⟨k, hk⟩ := List.getElem?_of_mem hc
      by_cases hki : k = i
      · rw [hki, hi, Option.some.injEq] at hk
        exact ⟨call', hself, by rw [hflight, hk, hid]⟩
      · exact ⟨c, List.mem_of_getElem? ((Pool.get_set hi).mpr (Or.inr ⟨hki, hk⟩)), hid⟩
  · intro c hc id hid
    obtain ⟨c₀, hc₀, hcdata, hcflight⟩ := holdmem c hc
    rw [hcdata]
    apply h.calls c₀ hc₀ id (hcflight ▸ hid)
  · intro j k a b id hj hk ha hb
    obtain ⟨a₀, hj₀, -, hafl⟩ := hold j a hj
    obtain ⟨b₀, hk₀, -, hbfl⟩ := hold k b hk
    apply h.distinct j k a₀ b₀ id hj₀ hk₀ (hafl ▸ ha) (hbfl ▸ hb)
  · intro x hx
    obtain ⟨hrow, hcontent, hfree⟩ := h.answered x hx
    refine ⟨hrow, hcontent, ?_⟩
    intro c hc hid
    obtain ⟨c₀, hc₀, -, hcflight⟩ := holdmem c hc
    apply hfree c₀ hc₀ (hcflight ▸ hid)

theorem Sound.unsettled (h : Sound cidOf s) {row : BundleRow γ} (hrow : row ∈ s.rows)
    (hfree : ∀ c ∈ s.calls, c.inFlight = none ∨ cidOf c.data ≠ row.cid) :
  ∀ c ∈ s.calls, c.inFlight ≠ some row.id
  := by
  intro c hc hid
  rcases hfree c hc with hnone | hcid
  · rw [hnone] at hid
    cases hid
  · obtain ⟨row', hrow', hid', hcid'⟩ := h.calls c hc row.id hid
    apply hcid
    rw [← hcid', h.row_eq hrow' hrow hid']

theorem Sound.answer (h : Sound cidOf s) {row : BundleRow γ} (hrow : row ∈ s.rows)
    (hfree : ∀ c ∈ s.calls, c.inFlight ≠ some row.id) :
  Sound cidOf { s with answered := (row.id, row.cid) :: s.answered }
  := by
  refine ⟨h.nodup, h.rows, h.calls, h.distinct, ?_⟩
  intro x hx
  rcases List.mem_cons.mp hx with rfl | hx
  · refine ⟨⟨row, hrow, rfl, rfl⟩, ?_, hfree⟩
    rcases h.rows row hrow with hcontent | ⟨c, hc, hid⟩
    · apply hcontent
    · exact absurd hid (hfree c hc)
  · apply h.answered x hx

/-- A call inserts a row, which it settles from then on. -/
theorem Sound.insert (h : Sound cidOf s) (hi : s.calls[i]? = some call)
    (hcall : call.inFlight = none) (hfresh : ∀ row ∈ s.rows, row.id ≠ id)
    (hdata : call'.data = call.data) (hflight : call'.inFlight = some id) {now : Nat} :
  Sound cidOf { s with
    rows := s.rows ++ [⟨id, cidOf call.data, now⟩]
    calls := s.calls.set i call' }
  := by
  have hself : call' ∈ s.calls.set i call' := by
    apply List.mem_of_getElem? (i := i)
    exact (Pool.get_set hi).mpr (Or.inl ⟨rfl, rfl⟩)
  -- the other calls settle rows that were there before
  have hother : ∀ c ∈ s.calls, ∀ id', c.inFlight = some id' → id' ≠ id := by
    intro c hc id' hid
    obtain ⟨row, hrow, rfl, -⟩ := h.calls c hc id' hid
    apply hfresh row hrow
  have hkept : ∀ c ∈ s.calls, ∀ id', c.inFlight = some id' → c ∈ s.calls.set i call' := by
    intro c hc id' hid
    obtain ⟨k, hk⟩ := List.getElem?_of_mem hc
    apply List.mem_of_getElem? (i := k)
    refine (Pool.get_set hi).mpr (Or.inr ⟨?_, hk⟩)
    rintro rfl
    rw [hi, Option.some.injEq] at hk
    rw [← hk, hcall] at hid
    cases hid
  refine ⟨?_, ?_, ?_, ?_, ?_⟩
  · rw [List.map_append, List.nodup_append]
    refine ⟨h.nodup, List.nodup_singleton _, ?_⟩
    rintro a ha _ hb rfl
    obtain ⟨row, hrow, rfl⟩ := List.mem_map.mp ha
    apply hfresh row hrow (List.mem_singleton.mp hb)
  · intro row hrow
    rcases List.mem_append.mp hrow with hrow | hrow
    · rcases h.rows row hrow with hcontent | ⟨c, hc, hid⟩
      · apply Or.inl hcontent
      · exact Or.inr ⟨c, hkept c hc _ hid, hid⟩
    · rw [List.mem_singleton.mp hrow]
      exact Or.inr ⟨call', hself, hflight⟩
  · intro c hc id' hid
    rcases Pool.mem_of_set hc with rfl | hc
    · rw [hflight, Option.some.injEq] at hid
      refine ⟨_, List.mem_append_right _ (List.mem_singleton_self _), hid, ?_⟩
      rw [hdata]
    · obtain ⟨row, hrow, hsame⟩ := h.calls c hc id' hid
      exact ⟨row, List.mem_append_left _ hrow, hsame⟩
  · intro j k a b id' hj hk ha hb
    rcases (Pool.get_set hi).mp hj with ⟨hji, rfl⟩ | ⟨-, hj'⟩
    · rcases (Pool.get_set hi).mp hk with ⟨hki, -⟩ | ⟨-, hk'⟩
      · rw [hji, hki]
      · rw [hflight, Option.some.injEq] at ha
        exact absurd ha.symm (hother b (List.mem_of_getElem? hk') id' hb)
    · rcases (Pool.get_set hi).mp hk with ⟨-, rfl⟩ | ⟨-, hk'⟩
      · rw [hflight, Option.some.injEq] at hb
        exact absurd hb.symm (hother a (List.mem_of_getElem? hj') id' ha)
      · apply h.distinct j k a b id' hj' hk' ha hb
  · intro x hx
    obtain ⟨⟨row, hrow, hsame⟩, hcontent, hfree⟩ := h.answered x hx
    refine ⟨⟨row, List.mem_append_left _ hrow, hsame⟩, hcontent, ?_⟩
    intro c hc hid
    rcases Pool.mem_of_set hc with rfl | hc
    · rw [hflight, Option.some.injEq] at hid
      apply hfresh row hrow
      rw [hsame.1, ← hid]
    · apply hfree c hc hid

/-- A call stores the content of its row. -/
theorem Sound.store (h : Sound cidOf s) (hi : s.calls[i]? = some call)
    (hflight : call.inFlight = some id) :
  Sound cidOf { s with blobs := Function.update s.blobs id (some call.data) }
    ∧ ∀ row ∈ s.rows, row.id = id → row.cid = cidOf call.data
  := by
  have hcall : call ∈ s.calls := List.mem_of_getElem? hi
  have hnames : ∀ row ∈ s.rows, row.id = id → row.cid = cidOf call.data := by
    intro row hrow hid
    obtain ⟨row', hrow', hid', hcid'⟩ := h.calls call hcall id hflight
    rw [h.row_eq hrow hrow' (hid.trans hid'.symm), hcid']
  refine ⟨⟨h.nodup, ?_, h.calls, h.distinct, ?_⟩, hnames⟩
  · intro row hrow
    by_cases hid : row.id = id
    · refine Or.inl ⟨call.data, ?_, (hnames row hrow hid).symm⟩
      rw [hid]
      apply Function.update_self
    · rcases h.rows row hrow with ⟨data, hdata, hcid⟩ | hsettled
      · refine Or.inl ⟨data, ?_, hcid⟩
        rw [← hdata]
        apply Function.update_of_ne hid
      · apply Or.inr hsettled
  · intro x hx
    obtain ⟨hrow, ⟨data, hdata, hcid⟩, hfree⟩ := h.answered x hx
    refine ⟨hrow, ⟨data, ?_, hcid⟩, hfree⟩
    rw [← hdata]
    apply Function.update_of_ne
    rintro rfl
    apply hfree call hcall hflight

/-- A call ends, and leaves a row with its content or none. -/
theorem Sound.settle (h : Sound cidOf s) (hi : s.calls[i]? = some call)
    (hflight : call.inFlight = some id) (hended : call'.inFlight = none) (keep : Bool)
    (hcontent : keep = true → ∀ row ∈ s.rows, row.id = id → s.HasContent cidOf row.id row.cid) :
  Sound cidOf { s with
    rows := if keep then s.rows else s.rows.filter (·.id ≠ id)
    calls := s.calls.set i call' }
  := by
  have hrows : ∀ row, row ∈ (if keep then s.rows else s.rows.filter (·.id ≠ id)) →
      row ∈ s.rows ∧ (row.id = id → keep = true) := by
    intro row hrow
    cases keep with
    | true => exact ⟨hrow, fun _ => rfl⟩
    | false =>
      obtain ⟨hrow, hne⟩ := List.mem_filter.mp hrow
      exact ⟨hrow, fun hid => absurd hid (by simpa using hne)⟩
  have hkept : ∀ row ∈ s.rows, row.id ≠ id →
      row ∈ (if keep then s.rows else s.rows.filter (·.id ≠ id)) := by
    intro row hrow hne
    cases keep with
    | true => apply hrow
    | false => exact List.mem_filter.mpr ⟨hrow, by simpa using hne⟩
  -- what another call settles is not what this one settled
  have hother : ∀ c ∈ s.calls.set i call', ∀ id', c.inFlight = some id' →
      c ∈ s.calls ∧ id' ≠ id := by
    intro c hc id' hid
    obtain ⟨k, hk⟩ := List.getElem?_of_mem hc
    rcases (Pool.get_set hi).mp hk with ⟨-, rfl⟩ | ⟨hne, hk⟩
    · rw [hended] at hid
      cases hid
    · refine ⟨List.mem_of_getElem? hk, ?_⟩
      rintro rfl
      exact hne (h.distinct k i c call _ hk hi hid hflight)
  refine ⟨?_, ?_, ?_, ?_, ?_⟩
  · cases keep with
    | true => apply h.nodup
    | false => apply h.nodup.sublist (List.filter_sublist.map _)
  · intro row hrow
    obtain ⟨hmem, hkeep⟩ := hrows row hrow
    by_cases hid : row.id = id
    · exact Or.inl (hcontent (hkeep hid) row hmem hid)
    · rcases h.rows row hmem with hhas | ⟨c, hc, hcid⟩
      · apply Or.inl hhas
      · obtain ⟨k, hk⟩ := List.getElem?_of_mem hc
        refine Or.inr ⟨c, List.mem_of_getElem? ((Pool.get_set hi).mpr (Or.inr ⟨?_, hk⟩)), hcid⟩
        rintro rfl
        rw [hi, Option.some.injEq] at hk
        rw [← hk, hflight, Option.some.injEq] at hcid
        exact hid hcid.symm
  · intro c hc id' hid
    obtain ⟨hc, hne⟩ := hother c hc id' hid
    obtain ⟨row, hrow, hrowid, hrowcid⟩ := h.calls c hc id' hid
    exact ⟨row, hkept row hrow (hrowid ▸ hne), hrowid, hrowcid⟩
  · intro j k a b id' hj hk ha hb
    rcases (Pool.get_set hi).mp hj with ⟨-, rfl⟩ | ⟨-, hj⟩
    · rw [hended] at ha
      cases ha
    · rcases (Pool.get_set hi).mp hk with ⟨-, rfl⟩ | ⟨-, hk⟩
      · rw [hended] at hb
        cases hb
      · apply h.distinct j k a b id' hj hk ha hb
  · intro x hx
    obtain ⟨⟨row, hrow, hsame⟩, hhas, hfree⟩ := h.answered x hx
    refine ⟨⟨row, hkept row hrow ?_, hsame⟩, hhas, ?_⟩
    · rintro hid
      apply hfree call (List.mem_of_getElem? hi)
      rw [hflight, ← hid, hsame.1]
    · intro c hc hid
      apply hfree c (hother c hc _ hid).1 hid

/-- A call that has stored its content answers with its row. -/
theorem Sound.put (h : Sound cidOf s) {data : β} {cancelled : Bool}
    (hi : s.calls[i]? = some ⟨data, cancelled, .upload id⟩) :
  Sound cidOf { s with
    blobs := Function.update s.blobs id (some data)
    calls := s.calls.set i ⟨data, cancelled, .ended⟩
    answered := (id, cidOf data) :: s.answered }
  := by
  obtain ⟨hstored, hnames⟩ := h.store hi rfl
  obtain ⟨row, hrow, rfl, hcid⟩ := h.calls _ (List.mem_of_getElem? hi) id rfl
  have hended : (⟨data, cancelled, .ended⟩ : EnsureCall β).inFlight = none := rfl
  have hsettled := hstored.settle hi rfl hended true (by
    intro _ row' hrow' hid
    refine ⟨data, ?_, (hnames row' hrow' hid).symm⟩
    rw [hid]
    apply Function.update_self)
  rw [← hcid]
  apply hsettled.answer hrow
  intro c hc hid
  obtain ⟨k, hk⟩ := List.getElem?_of_mem hc
  rcases (Pool.get_set hi).mp hk with ⟨-, rfl⟩ | ⟨hne, hk'⟩
  · cases hid
  · exact hne (h.distinct k i c _ _ hk' hi hid rfl)

theorem Sound.stop (h : Sound cidOf s) (hfree : ∀ c ∈ s.calls, c.inFlight = none) :
  Sound cidOf { s with calls := [] }
  := by
  refine ⟨h.nodup, ?_, nofun, nofun, ?_⟩
  · intro row hrow
    rcases h.rows row hrow with hcontent | ⟨c, hc, hid⟩
    · apply Or.inl hcontent
    · rw [hfree c hc] at hid
      cases hid
  · intro x hx
    obtain ⟨hrow, hcontent, -⟩ := h.answered x hx
    exact ⟨hrow, hcontent, nofun⟩

end Sound

section Steps

variable [DecidableEq γ] {cidOf} {s s' : BundleStore β γ}

theorem row_of_lookup {cid : γ} {id : String}
    (h : getSpecBundleByCID s.rows cid (some id) = true) :
  ∃ row ∈ s.rows, row.id = id ∧ row.cid = cid
  := by
  simp only [getSpecBundleByCID, List.any_eq_true, Bool.and_eq_true, decide_eq_true_eq] at h
  obtain ⟨row, hrow, ⟨hid, hcid⟩, -⟩ := h
  exact ⟨row, hrow, hid, hcid⟩

/-- The lookup of a call, which may answer it. -/
theorem Sound.lookup (h : Sound cidOf s) {i : Nat} {found : Option String}
    (ha : undisturbed cidOf s (.lookup i found) = true)
    (hs : step cidOf (.lookup i found) s = some s') :
  Sound cidOf s'
  := by
  simp only [BundleStore.step] at hs
  split at hs
  · rename_i data hi
    simp only [undisturbed, hi, Option.all_some, List.all_eq_true, Bool.or_eq_true,
      Option.isNone_iff_eq_none, decide_eq_true_eq] at ha
    split at hs
    · rename_i hfound
      cases found with
      | some id =>
        cases hs
        obtain ⟨row, hrow, rfl, hcid⟩ := row_of_lookup hfound
        rw [← hcid] at ha ⊢
        apply (h.answer hrow (h.unsettled hrow ha)).replace hi <;> rfl
      | none =>
        cases hs
        apply h.replace hi <;> rfl
    · cases hs
  · cases hs

/-- A probe, which answers with the bundle it finds. -/
theorem Sound.probe (h : Sound cidOf s) {cid : γ} {found : Option String}
    (ha : undisturbed cidOf s (.probe cid found) = true)
    (hs : step cidOf (.probe cid found) s = some s') :
  Sound cidOf s'
  := by
  simp only [BundleStore.step] at hs
  split at hs
  · rename_i hfound
    simp only [undisturbed, List.all_eq_true, Bool.or_eq_true, Option.isNone_iff_eq_none,
      decide_eq_true_eq] at ha
    cases found with
    | some id =>
      cases hs
      obtain ⟨row, hrow, rfl, rfl⟩ := row_of_lookup hfound
      apply h.answer hrow (h.unsettled hrow ha)
    | none =>
      cases hs
      apply h
  · cases hs

/-- A call fails. It leaves nothing behind, since it has no row yet. -/
theorem Sound.fails (h : Sound cidOf s) {i : Nat} (ha : undisturbed cidOf s (.fails i) = true)
    (hs : step cidOf (.fails i) s = some s') :
  Sound cidOf s'
  := by
  simp only [BundleStore.step] at hs
  split at hs
  · rename_i hi
    cases hs
    apply h.replace hi <;> rfl
  · rename_i hi
    cases hs
    apply h.replace hi <;> rfl
  · rename_i hi
    simp only [undisturbed, hi, Option.all_some] at ha
    cases ha
  · cases hs

/-- Every allowed event keeps the rows and their contents. -/
theorem Sound.step (h : Sound cidOf s) {e : BundleEvent β γ} (ha : undisturbed cidOf s e = true)
    (hs : step cidOf e s = some s') :
  Sound cidOf s'
  := by
  cases e with
  | ensure data =>
    cases hs
    apply h.start rfl
  | lookup i found => exact h.lookup ha hs
  | insert i id now =>
    simp only [BundleStore.step] at hs
    split at hs
    · rename_i data hi
      split at hs
      · cases hs
      · rename_i hfresh
        cases hs
        have hnew : ∀ row ∈ s.rows, row.id ≠ id := by
          simpa using hfresh
        apply h.insert hi rfl hnew <;> rfl
    · cases hs
  | put i =>
    simp only [BundleStore.step] at hs
    split at hs
    · rename_i data id hi
      cases hs
      apply h.put hi
    · cases hs
  | putFails i stored =>
    simp only [BundleStore.step] at hs
    split at hs
    · rename_i data cancelled id hi
      cases hs
      cases stored with
      | true => apply (h.store hi rfl).1.replace hi <;> rfl
      | false => apply h.replace hi <;> rfl
    · cases hs
  | delete i =>
    simp only [BundleStore.step] at hs
    split at hs
    · rename_i data id hi
      cases hs
      apply h.settle hi rfl rfl false nofun
    · cases hs
  | fails i => exact h.fails ha hs
  | cancel i =>
    simp only [BundleStore.step] at hs
    split at hs
    · rename_i call hi
      cases hs
      apply h.replace hi <;> rfl
    · cases hs
  | stop =>
    cases hs
    apply h.stop
    simpa [undisturbed] using ha
  | probe cid found => exact h.probe ha hs

/-- In every history whose steps are undisturbed, each bundle that a call returned or a probe found
has its row and its content and can be downloaded, from then on. -/
theorem answered_bundle_has_content
    {past : List (BundleStore β γ × BundleEvent β γ)} (hexec : (machine cidOf).Execution past s)
    (hall : ∀ x ∈ past, undisturbed cidOf x.1 x.2 = true) {id : String} {cid : γ}
    (hanswered : (id, cid) ∈ s.answered) :
  (∃ row ∈ s.rows, row.id = id ∧ row.cid = cid)
    ∧ ∃ data, s.downloadSpecBundle id = some data ∧ cidOf data = cid
  := by
  have hsound : Sound cidOf s := by
    apply hexec.invariant_of_allowed (undisturbed cidOf) _ _ hall
    · intro s hinit
      apply hinit.sound
    · intro s e s' h ha hs
      apply h.step ha hs
  obtain ⟨hrow, ⟨data, hdata, hcid⟩, -⟩ := hsound.answered _ hanswered
  refine ⟨hrow, data, ?_, hcid⟩
  obtain ⟨row, hmem, hid, -⟩ := hrow
  rw [downloadSpecBundle, if_pos, hdata]
  exact List.any_eq_true.mpr ⟨row, hmem, by simpa using hid⟩

end Steps

namespace Sample

/-- A store with nothing in it; archives are numbers, and their own content identifiers. -/
def empty : BundleStore Nat Nat :=
  ⟨[], fun _ => none, [], []⟩

theorem empty_initial : Initial id empty :=
  ⟨List.nodup_nil, nofun, rfl, rfl⟩

/-- A call that inserts the row of an archive. -/
def inserted : List (BundleEvent Nat Nat) :=
  [.ensure 7, .lookup 0 none, .insert 0 "b0" 0]

/-- A history at whose end a bundle that was answered with cannot be downloaded. -/
def Misses (history : List (BundleEvent Nat Nat)) : Prop :=
  ∃ past s, (machine (id : Nat → Nat)).Execution past s ∧ past.map Prod.snd = history.reverse
    ∧ ∃ bundle cid, (bundle, cid) ∈ s.answered ∧ s.downloadSpecBundle bundle = none

theorem misses_of_follow {history : List (BundleEvent Nat Nat)}
    (h : ((machine (id : Nat → Nat)).follow empty history).any (fun s =>
      s.answered.any fun x => (s.downloadSpecBundle x.1).isNone) = true) :
  Misses history
  := by
  obtain ⟨s, hs, hany⟩ := (Option.any_eq_true _ _).mp h
  obtain ⟨past, hexec, hlabels⟩ := Machine.Execution.of_follow empty_initial hs
  obtain ⟨x, hx, hnone⟩ := List.any_eq_true.mp hany
  exact ⟨past, s, hexec, hlabels, x.1, x.2, hx, by simpa using hnone⟩

end Sample

/-- Two calls for one archive and a failed upload: what was answered with can be downloaded. -/
theorem answered_bundle_has_content_sample :
  ∃ s : BundleStore Nat Nat, ("b1", 7) ∈ s.answered
    ∧ ∃ data, s.downloadSpecBundle "b1" = some data ∧ id data = 7
  := by
  have hrun : (((machine (id : Nat → Nat)).restrict (undisturbed id)).follow Sample.empty
      (Sample.inserted ++ [.putFails 0 false, .delete 0, .ensure 7, .lookup 1 none,
        .insert 1 "b1" 1, .put 1, .probe 7 (some "b1")])).any
          (fun s => ("b1", 7) ∈ s.answered) = true := by
    decide
  obtain ⟨s, hs, hanswered⟩ := (Option.any_eq_true _ _).mp hrun
  obtain ⟨past, hexec, hall⟩ := Machine.Execution.of_follow_restrict Sample.empty_initial hs
  have hmem : ("b1", 7) ∈ s.answered := by
    simpa using hanswered
  exact ⟨s, hmem, (answered_bundle_has_content hexec hall hmem).2⟩

/-- Bundles are answered with that cannot be downloaded: a call finds the row that another has
inserted and not yet uploaded; the context of a caller is cancelled, so that its upload fails and
its row is not deleted; the server stops between the insertion and the upload; and a row is found
that is deleted after its upload failed. -/
theorem bundle_without_content :
  Sample.Misses (Sample.inserted ++ [.ensure 7, .lookup 1 (some "b0")])
    ∧ Sample.Misses (Sample.inserted ++ [.cancel 0, .putFails 0 false, .fails 0,
      .probe 7 (some "b0")])
    ∧ Sample.Misses (Sample.inserted ++ [.stop, .probe 7 (some "b0")])
    ∧ Sample.Misses (Sample.inserted ++ [.probe 7 (some "b0"), .putFails 0 false, .delete 0])
  := by
  refine ⟨?_, ?_, ?_, ?_⟩
  all_goals
    apply Sample.misses_of_follow
    decide

end BundleStore

end Ploy
