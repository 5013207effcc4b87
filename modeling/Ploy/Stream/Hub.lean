import Ploy.Foundations.Numbering
import Ploy.Foundations.RingBuffer

/-!
# Streams

A stream numbers the events published on it, keeps the last of them in a ring, and knows the
subscribers that are to be sent the next ones. What is done with it while its mutex is held is a
function of its state: the sections of `publish`, `subscribe`, `drop`, `finish` and `resume`.
-/

namespace Ploy

/-- An event of a stream, with its number. -/
structure Event (ε : Type) where
  id : Nat
  payload : ε
  deriving DecidableEq, Repr

instance {ε : Type} [Inhabited ε] : Inhabited (Event ε) :=
  ⟨0, default⟩

/-- The sizes of the channels and of the histories of a hub. -/
structure StreamOptions where
  bufferSize : Nat
  historySize : Nat
  deriving DecidableEq, Repr

def StreamOptions.normalize (o : StreamOptions) : StreamOptions :=
  let bufferSize := if o.bufferSize = 0 then 32 else o.bufferSize
  let historySize := if o.historySize = 0 then 256 else o.historySize
  ⟨bufferSize, if historySize < bufferSize then bufferSize else historySize⟩

/-- What the mutex of a stream guards. A subscriber is named by its place among all subscribers of
the stream, which stands for its number: both are given in order and never again. -/
structure Stream (ε : Type) where
  historySize : Nat
  history : RingBuffer (Event ε)
  subscribers : List Nat
  nextEventID : Nat
  closed : Bool
  resumeCount : Nat
  resumeAttempt : Nat
  deriving DecidableEq

namespace Stream

variable {ε : Type}

def new [Inhabited ε] (historySize : Nat) : Stream ε :=
  ⟨historySize, RingBuffer.new historySize, [], 0, false, 0, 0⟩

/-- The events that are kept, the oldest first. -/
def snapshot (s : Stream ε) : List (Event ε) :=
  s.history.slice

/-- The events that are kept and come after a number. -/
def after (s : Stream ε) (since : Nat) : List (Event ε) :=
  if since = 0 then s.history.slice else s.history.collect (since < ·.id)

/-- The section of `publish`: the event with its number, and the subscribers to send it to. A closed
stream accepts nothing. -/
def publish (s : Stream ε) (payload : ε) : Option (Stream ε × Event ε) :=
  if s.closed then none
  else
    let event : Event ε := ⟨s.nextEventID + 1, payload⟩
    some ({ s with nextEventID := s.nextEventID + 1, history := s.history.push event }, event)

/-- The section of `subscribe`: the events to replay, and whether the subscriber was registered. A
closed stream registers nobody. -/
def subscribe (s : Stream ε) (sub since : Nat) : Stream ε × List (Event ε) × Bool :=
  if s.closed then (s, s.after since, false)
  else ({ s with subscribers := s.subscribers ++ [sub] }, s.after since, true)

/-- The section of `drop`. -/
def drop (s : Stream ε) (sub : Nat) : Stream ε :=
  { s with subscribers := s.subscribers.filter (· ≠ sub) }

/-- The section of `finish`: the stream is closed, and the subscribers it had are to be closed. A
closed stream is left alone. -/
def finish (s : Stream ε) : Stream ε × List Nat :=
  if s.closed then (s, []) else ({ s with closed := true, subscribers := [] }, s.subscribers)

/-- A stream is opened again for a later resumption, without the events of the earlier one. The
numbers go on. -/
def resume [Inhabited ε] (s : Stream ε) (attempt count : Nat) : Stream ε :=
  if attempt < s.resumeAttempt ∨ (attempt = s.resumeAttempt ∧ count ≤ s.resumeCount) then s
  else { s with
    resumeAttempt := attempt
    resumeCount := count
    closed := false
    history := RingBuffer.new s.historySize }

/-! ### What is kept -/

/-- The kept events are the last ones, with consecutive numbers. -/
def Numbered (s : Stream ε) : Prop :=
  UpTo (s.snapshot.map Event.id) s.nextEventID

theorem numbered_new [Inhabited ε] (historySize : Nat) :
  (new historySize : Stream ε).Numbered
  := by
  rw [Numbered, snapshot, new, RingBuffer.slice_new]
  apply UpTo.nil

theorem publish_eq_some {s s' : Stream ε} {payload : ε} {event : Event ε}
    (h : s.publish payload = some (s', event)) :
  s.closed = false ∧ event = ⟨s.nextEventID + 1, payload⟩
    ∧ s' = { s with nextEventID := s.nextEventID + 1, history := s.history.push event }
  := by
  simp only [publish] at h
  split at h
  · cases h
  · rename_i hopen
    cases h
    exact ⟨by simpa using hopen, rfl, rfl⟩

theorem Numbered.publish {s s' : Stream ε} (h : s.Numbered) {payload : ε} {event : Event ε}
    (hp : s.publish payload = some (s', event)) :
  s'.Numbered
  := by
  obtain ⟨-, rfl, rfl⟩ := publish_eq_some hp
  rw [Numbered, snapshot, RingBuffer.slice_push, List.map_drop, List.map_append]
  apply UpTo.suffix (UpTo.snoc h) (List.drop_suffix _ _)

theorem subscribe_eq (s : Stream ε) (sub since : Nat) :
  s.subscribe sub since
    = ({ s with subscribers := s.subscribers ++ (if s.closed then [] else [sub]) },
      s.after since, !s.closed)
  := by
  cases hclosed : s.closed with
  | true =>
    simp only [subscribe, hclosed, if_true, List.append_nil, Bool.not_true]
    rw [← hclosed]
  | false => simp [subscribe, hclosed]

theorem Numbered.after_eq {s : Stream ε} (h : s.Numbered) (since : Nat) :
  s.after since = s.snapshot.filter (since < ·.id)
  := by
  rw [after]
  split
  · rename_i hzero
    refine (List.filter_eq_self.mpr ?_).symm
    intro e he
    rw [hzero, decide_eq_true_eq]
    apply h.pos (List.mem_map_of_mem he)
  · apply RingBuffer.collect_eq

theorem mem_snapshot_of_mem_after {s : Stream ε} {since : Nat} {e : Event ε}
    (h : e ∈ s.after since) :
  e ∈ s.snapshot
  := by
  rw [after] at h
  split at h
  · exact h
  · rw [RingBuffer.collect_eq] at h
    exact List.mem_of_mem_filter h

theorem mem_snapshot_of_publish {s s' : Stream ε} {payload : ε} {event e : Event ε}
    (h : s.publish payload = some (s', event)) (he : e ∈ s'.snapshot) :
  e ∈ s.snapshot ∨ e = event
  := by
  obtain ⟨-, -, rfl⟩ := publish_eq_some h
  rw [snapshot, RingBuffer.slice_push] at he
  rcases List.mem_append.mp (List.mem_of_mem_drop he) with he | he
  · exact Or.inl he
  · exact Or.inr (List.mem_singleton.mp he)

theorem Numbered.after {s : Stream ε} (h : s.Numbered) (since : Nat) :
  UpTo ((s.after since).map Event.id) s.nextEventID
  := by
  rw [h.after_eq]
  have hfilter := UpTo.after h since
  rw [List.filter_map] at hfilter
  exact hfilter

/-! ### The life of a stream -/

/-- What changes what a stream keeps, or whether it accepts events. -/
inductive Act (ε : Type) where
  | publish (payload : ε)
  | finish
  | resume (attempt count : Nat)
  deriving DecidableEq, Repr

def act [Inhabited ε] (s : Stream ε) : Act ε → Stream ε
  | .publish payload => ((s.publish payload).map Prod.fst).getD s
  | .finish => s.finish.1
  | .resume attempt count => s.resume attempt count

/-- What a stream is for, without a ring and numbers: the payloads it accepted, how many of them
came before it was last resumed, whether it is closed, and its last resumption. -/
structure Ledger (ε : Type) where
  payloads : List ε := []
  earlier : Nat := 0
  closed : Bool := false
  resumed : Nat × Nat := (0, 0)

namespace Ledger

def act (l : Ledger ε) : Act ε → Ledger ε
  | .publish payload => if l.closed then l else { l with payloads := l.payloads ++ [payload] }
  | .finish => { l with closed := true }
  | .resume attempt count =>
    -- a resumption that is not a later one is none
    if l.resumed.1 < attempt ∨ (l.resumed.1 = attempt ∧ l.resumed.2 < count) then
      ⟨l.payloads, l.payloads.length, false, (attempt, count)⟩
    else l

/-- The accepted payloads, numbered from one on. -/
def events (l : Ledger ε) : List (Event ε) :=
  l.payloads.mapIdx fun i payload => ⟨i + 1, payload⟩

/-- The events since the last resumption. -/
def recent (l : Ledger ε) : List (Event ε) :=
  l.events.drop l.earlier

end Ledger

/-- The ring keeps the end of the recent events, and the numbers are those of all events. -/
structure Refines (historySize : Nat) (s : Stream ε) (l : Ledger ε) : Prop where
  size : s.historySize = historySize
  cap : s.history.cap = max historySize 1
  kept : s.snapshot = l.recent.drop (l.recent.length - max historySize 1)
  next : s.nextEventID = l.payloads.length
  closed : s.closed = l.closed
  resumed : (s.resumeAttempt, s.resumeCount) = l.resumed
  earlier : l.earlier ≤ l.payloads.length

section Refinement

variable {historySize : Nat} {s : Stream ε} {l : Ledger ε}

theorem Ledger.ids_events (l : Ledger ε) :
  l.events.map Event.id = List.range' 1 l.payloads.length
  := by
  apply List.ext_getElem
  · simp [events]
  · intro i _ _
    simp [events, Nat.add_comm]

/-- A payload that is accepted is the last of the recent events. -/
theorem Ledger.recent_publish (hopen : l.closed = false) (hearlier : l.earlier ≤ l.payloads.length)
    (payload : ε) :
  (l.act (.publish payload)).recent = l.recent ++ [⟨l.payloads.length + 1, payload⟩]
  := by
  have hlength : l.earlier ≤ l.events.length := by
    rw [events, List.length_mapIdx]
    exact hearlier
  rw [act, hopen, if_neg Bool.false_ne_true, recent, events, List.mapIdx_concat]
  exact List.drop_append_of_le_length hlength

/-- The ring buffer refines the list of the last events. -/
theorem Refines.publish (h : Refines historySize s l) [Inhabited ε] (payload : ε) :
  Refines historySize (s.act (.publish payload)) (l.act (.publish payload))
  := by
  by_cases hclosed : s.closed = true
  · have hledger := h.closed.symm.trans hclosed
    simpa [act, Stream.publish, Ledger.act, hclosed, hledger] using h
  · rw [Bool.not_eq_true] at hclosed
    have hledger := h.closed.symm.trans hclosed
    have hrecent := Ledger.recent_publish hledger h.earlier payload
    simp only [act, Stream.publish, Ledger.act, hclosed, hledger] at hrecent ⊢
    refine ⟨h.size, h.cap, ?_, by simp [h.next], rfl, h.resumed, ?_⟩
    · have hlength := congrArg List.length h.kept
      rw [snapshot, RingBuffer.length_slice, List.length_drop] at hlength
      rw [hrecent]
      change (s.history.push _).slice = _
      rw [RingBuffer.slice_push, ← snapshot, h.kept, h.cap, hlength, h.next,
        ← List.drop_append_of_le_length (Nat.sub_le _ _), List.drop_drop, List.length_append]
      congr 1
      rw [List.length_singleton]
      omega
    · exact h.earlier.trans (by simp)

theorem Refines.resume (h : Refines historySize s l) [Inhabited ε] (attempt count : Nat) :
  Refines historySize (s.act (.resume attempt count)) (l.act (.resume attempt count))
  := by
  have hresumed := h.resumed
  rw [Prod.ext_iff] at hresumed
  simp only [act, Stream.resume, Ledger.act, ← hresumed.1, ← hresumed.2]
  by_cases hstale : attempt < s.resumeAttempt ∨ attempt = s.resumeAttempt ∧ count ≤ s.resumeCount
  · rw [if_pos hstale, if_neg (by omega)]
    exact h
  · rw [if_neg hstale, if_pos (by omega)]
    refine ⟨h.size, by rw [← h.size]; rfl, ?_, h.next, rfl, rfl, le_rfl⟩
    rw [snapshot, RingBuffer.slice_new, Ledger.recent, List.drop_drop]
    refine (List.drop_eq_nil_of_le ?_).symm
    simp [Ledger.events]

theorem Refines.act (h : Refines historySize s l) [Inhabited ε] (a : Act ε) :
  Refines historySize (s.act a) (l.act a)
  := by
  cases a with
  | publish payload => apply h.publish
  | resume attempt count => apply h.resume
  | finish =>
    simp only [Stream.act, finish]
    split
    · rename_i hclosed
      exact ⟨h.size, h.cap, h.kept, h.next, hclosed, h.resumed, h.earlier⟩
    · exact ⟨h.size, h.cap, h.kept, h.next, rfl, h.resumed, h.earlier⟩

/-- The stream and the ledger stay together over any acts. -/
theorem refines_run [Inhabited ε] (historySize : Nat) (acts : List (Act ε)) :
  Refines historySize (acts.foldl act (new historySize)) (acts.foldl Ledger.act {})
  := by
  have hnew : Refines historySize (new historySize : Stream ε) {} := by
    refine ⟨rfl, rfl, ?_, rfl, rfl, rfl, le_rfl⟩
    rw [snapshot, new, RingBuffer.slice_new]
    exact List.drop_nil.symm
  generalize (new historySize : Stream ε) = s, ({} : Ledger ε) = l at hnew ⊢
  induction acts generalizing s l with
  | nil => exact hnew
  | cons a acts ih => exact ih _ _ (hnew.act a)

theorem Refines.numbered (h : Refines historySize s l) :
  s.Numbered
  := by
  rw [Numbered, h.kept, h.next, UpTo, ← Ledger.ids_events]
  exact ((List.drop_suffix _ _).trans (List.drop_suffix _ _)).map Event.id

end Refinement

/-- Over the whole life of a stream, the history is the list of the last events since it was
resumed, as many as the ring holds; what comes after a number, zero and below included, is the part
of this list with greater numbers; and the accepted events are numbered from one on, the next one
included. -/
theorem history_refines_list [Inhabited ε] (historySize : Nat) (acts : List (Act ε)) :
  let s := acts.foldl act (new historySize)
  let l : Ledger ε := acts.foldl Ledger.act {}
  let n := l.recent.length
  s.snapshot = l.recent.drop (n - min n (max historySize 1))
    ∧ (∀ since : Int, s.after since.toNat = s.snapshot.filter fun e => decide (since < e.id))
    ∧ l.events.map Event.id = List.range' 1 l.payloads.length
    ∧ ∀ payload, (s.publish payload).map Prod.snd
      = if l.closed then none else some ⟨l.payloads.length + 1, payload⟩
  := by
  intro s l n
  have h : Refines historySize s l := refines_run historySize acts
  refine ⟨?_, ?_, l.ids_events, ?_⟩
  · rw [h.kept]
    congr 1
    omega
  · intro since
    rw [h.numbered.after_eq]
    apply List.filter_congr
    intro e he
    have hpos := h.numbered.pos (List.mem_map_of_mem he)
    rw [decide_eq_decide]
    omega
  · intro payload
    rw [publish, h.closed, h.next]
    split <;> rfl

/-- A ring of two keeps the last two of three events, and after a resumption the new one only. -/
example :
  let acts : List (Act Char) := [.publish 'a', .publish 'b', .publish 'c', .finish, .publish 'd']
  let resumed : List (Act Char) := [.resume 1 0, .publish 'e']
  (acts.foldl act (new 2)).snapshot = [⟨2, 'b'⟩, ⟨3, 'c'⟩]
    ∧ ((acts ++ resumed).foldl act (new 2)).snapshot = [⟨4, 'e'⟩]
  := by
  decide

end Stream

end Ploy
