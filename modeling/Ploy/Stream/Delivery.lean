import Ploy.Foundations.Execution
import Ploy.Stream.Hub

/-!
# Delivery to subscribers

A publisher sends its event to the subscribers it found registered, and a subscription replays the
history, after the mutex of the stream is released. Every section of the mutex, every send, receive
and close of a channel is a step, and the steps of any number of calls interleave. A send on a
closed channel, and a second close, end the process.
-/

namespace Ploy

/-- A subscriber and its channel: the events that are in the channel, those its reader took from it,
and whether it was closed. `once` guards the closing. -/
structure Subscriber (ε : Type) where
  since : Nat
  buf : List (Event ε)
  read : List (Event ε)
  closed : Bool
  once : Bool
  deriving DecidableEq

inductive Crash where
  | sendOnClosed | closeOfClosed
  deriving DecidableEq, Repr

/-- A call in progress.

* `publishing`: the event, the subscribers to send it to, the one whose channel was full, and those
  to drop for that;
* `replaying`: a subscription with the events to replay, and whether it is registered. After a send
  that found the channel full it closes the channel, drops the subscriber and closes it again;
* `subscribed`: a subscription that was returned;
* `closing`: the subscribers to close, which are no longer registered. -/
inductive DeliveryCall (ε : Type) where
  | publishing (event : Event ε) (todo : List Nat) (full : Option Nat) (dropped : List Nat)
  | replaying (sub : Nat) (todo : List (Event ε)) (registered : Bool)
  | replayFull (sub : Nat) (registered : Bool)
  | replayDropping (sub : Nat)
  | replayClosing (sub : Nat)
  | subscribed (sub : Nat)
  | closing (todo : List Nat)
  | ended
  deriving DecidableEq

structure Delivery (ε : Type) where
  bufferSize : Nat
  stream : Stream ε
  subs : List (Subscriber ε)
  calls : List (DeliveryCall ε)
  crash : Option Crash
  deriving DecidableEq

/-- The steps: the sections that start calls, and what the call in a place does next. -/
inductive DeliveryEvent (ε : Type) where
  | publish (payload : ε)
  | send (i : Nat) (sub : Nat)
  | closeFull (i : Nat)
  | dropFull (i : Nat)
  | subscribe (since : Nat)
  | replay (i : Nat)
  | closeReplay (i : Nat)
  | dropReplay (i : Nat)
  | finish
  | cancel (i : Nat)
  | close (i : Nat) (sub : Nat)
  | receive (i : Nat)
  deriving DecidableEq

/-- `close` of a subscriber: the channel is closed the first time only. -/
def Subscriber.close {ε : Type} (sub : Subscriber ε) : Option (Subscriber ε) :=
  if sub.once then some sub
  else if sub.closed then none
  else some { sub with closed := true, once := true }

/-! ### Channels in hand -/

/-- What a call that has a channel in hand is about to do with it. -/
inductive Hand (ε : Type) where
  | send (event : Event ε)
  | full
  | drop
  | replay (todo : List (Event ε)) (registered : Bool)
  | replayFull (registered : Bool)
  | replayDrop
  | out

/-- What the call is about to do with the channel of a subscriber, if it has that in hand. -/
def DeliveryCall.hand {ε : Type} (call : DeliveryCall ε) (sub : Nat) : Option (Hand ε) :=
  match call with
  | .publishing event todo full dropped =>
    if sub ∈ todo then some (.send event)
    else if full = some sub then some .full
    else if sub ∈ dropped then some .drop
    else none
  | .replaying k todo registered => if k = sub then some (.replay todo registered) else none
  | .replayFull k registered => if k = sub then some (.replayFull registered) else none
  | .replayDropping k => if k = sub then some .replayDrop else none
  | .replayClosing k => if k = sub then some .out else none
  | .closing todo => if sub ∈ todo then some .out else none
  | .subscribed _ | .ended => none

/-- The numbers of the events that were put on the channel of a subscriber. -/
def Subscriber.sent {ε : Type} (sub : Subscriber ε) : List Nat :=
  (sub.read ++ sub.buf).map Event.id

/-- The subscribers that a publisher is concerned with are different ones. -/
def DeliveryCall.WellFormed {ε : Type} : DeliveryCall ε → Prop
  | .publishing _ todo full dropped => (todo ++ full.toList ++ dropped).Nodup
  | _ => True

/-! ### Steps -/

namespace Delivery

variable {ε : Type}

/-- A subscriber is closed, and the call goes on. -/
def closeSub (s : Delivery ε) (i sub : Nat) (next : DeliveryCall ε) : Option (Delivery ε) :=
  match s.subs[sub]? with
  | none => none
  | some subscriber =>
    match subscriber.close with
    | none => some { s with crash := some .closeOfClosed }
    | some closed => some { s with subs := s.subs.set sub closed, calls := s.calls.set i next }

/-- An event is sent without waiting. The call goes on in one way where it was taken, and in another
where the channel is full. -/
def sendTo (s : Delivery ε) (i sub : Nat) (event : Event ε) (sent full : DeliveryCall ε) :
    Option (Delivery ε) :=
  match s.subs[sub]? with
  | none => none
  | some subscriber =>
    if subscriber.closed then some { s with crash := some .sendOnClosed }
    else if subscriber.buf.length < s.bufferSize then some { s with
      subs := s.subs.set sub { subscriber with buf := subscriber.buf ++ [event] }
      calls := s.calls.set i sent }
    else some { s with calls := s.calls.set i full }

def closeAll (subs : List (Subscriber ε)) : List Nat → Option (List (Subscriber ε))
  | [] => some subs
  | sub :: rest =>
    match subs[sub]? with
    | none => closeAll subs rest
    | some subscriber =>
      match subscriber.close with
      | none => none
      | some closed => closeAll (subs.set sub closed) rest

/-- The state after a step, where the process still runs and the step can be taken. -/
def step (e : DeliveryEvent ε) (s : Delivery ε) : Option (Delivery ε) :=
  if s.crash.isSome then none
  else match e with
  | .publish payload =>
    match s.stream.publish payload with
    | none => some s
    | some (stream, event) => some { s with
        stream := stream
        calls := s.calls ++ [.publishing event stream.subscribers none []] }
  | .send i sub =>
    match s.calls[i]? with
    | some (.publishing event todo none dropped) =>
      if sub ∈ todo then
        s.sendTo i sub event (.publishing event (todo.erase sub) none dropped)
          (.publishing event (todo.erase sub) (some sub) dropped)
      else none
    | _ => none
  | .closeFull i =>
    match s.calls[i]? with
    | some (.publishing event todo (some sub) dropped) =>
      s.closeSub i sub (.publishing event todo none (dropped ++ [sub]))
    | _ => none
  | .dropFull i =>
    match s.calls[i]? with
    | some (.publishing _ [] none dropped) =>
      match closeAll s.subs (dropped.filter (· ∈ s.stream.subscribers)) with
      | none => some { s with crash := some .closeOfClosed }
      | some subs => some { s with
          stream := { s.stream with subscribers := s.stream.subscribers.filter (· ∉ dropped) }
          subs := subs
          calls := s.calls.set i .ended }
    | _ => none
  | .subscribe since =>
    match s.stream.subscribe s.subs.length since with
    | (stream, history, registered) => some { s with
        stream := stream
        subs := s.subs ++ [⟨since, [], [], false, false⟩]
        calls := s.calls ++ [.replaying s.subs.length history registered] }
  | .replay i =>
    match s.calls[i]? with
    | some (.replaying sub (event :: rest) registered) =>
      s.sendTo i sub event (.replaying sub rest registered) (.replayFull sub registered)
    | some (.replaying sub [] true) => some { s with calls := s.calls.set i (.subscribed sub) }
    | some (.replaying sub [] false) => some { s with calls := s.calls.set i (.replayClosing sub) }
    | _ => none
  | .closeReplay i =>
    match s.calls[i]? with
    | some (.replayFull sub true) => s.closeSub i sub (.replayDropping sub)
    | some (.replayFull sub false) => s.closeSub i sub (.replayClosing sub)
    | _ => none
  | .dropReplay i =>
    match s.calls[i]? with
    | some (.replayDropping sub) =>
      if sub ∈ s.stream.subscribers then some { s with
        stream := s.stream.drop sub
        calls := s.calls.set i (.replayClosing sub) }
      else some { s with calls := s.calls.set i (.subscribed sub) }
    | _ => none
  | .finish =>
    match s.stream.finish with
    | (stream, subs) => some { s with stream := stream, calls := s.calls ++ [.closing subs] }
  | .cancel i =>
    match s.calls[i]? with
    | some (.subscribed sub) =>
      if sub ∈ s.stream.subscribers then some { s with
        stream := s.stream.drop sub
        calls := s.calls ++ [.closing [sub]] }
      else some s
    | _ => none
  | .close i sub =>
    match s.calls[i]? with
    | some (.closing todo) =>
      if sub ∈ todo then s.closeSub i sub (.closing (todo.erase sub)) else none
    | some (.replayClosing sub') =>
      if sub = sub' then s.closeSub i sub (.subscribed sub) else none
    | _ => none
  | .receive i =>
    match s.calls[i]? with
    | some (.subscribed sub) =>
      match s.subs[sub]? with
      | some ⟨since, event :: rest, read, closed, once⟩ => some { s with
          subs := s.subs.set sub ⟨since, rest, read ++ [event], closed, once⟩ }
      | _ => none
    | _ => none

/-- A stream with some history, to which nobody has subscribed yet. -/
structure Initial (s : Delivery ε) : Prop where
  numbered : s.stream.Numbered
  unsubscribed : s.stream.subscribers = []
  subs : s.subs = []
  calls : s.calls = []
  running : s.crash = none

/-- The stream of a hub with the given sizes. -/
def new [Inhabited ε] (o : StreamOptions) : Delivery ε :=
  ⟨o.normalize.bufferSize, Stream.new o.normalize.historySize, [], [], none⟩

theorem initial_new [Inhabited ε] (o : StreamOptions) :
  Initial (new o : Delivery ε)
  := ⟨Stream.numbered_new _, rfl, rfl, rfl, rfl⟩

/-- One stream with any number of calls. -/
def machine : Machine (Delivery ε) (DeliveryEvent ε) where
  init := Initial
  step := step

/-! ### Conditions -/

/-- No call has the channel of the subscriber in hand. -/
def free (s : Delivery ε) (sub : Nat) : Bool :=
  s.calls.all fun call => (call.hand sub).isNone

/-- The condition under which channels are used rightly: a section that takes the channel of a
registered subscriber in hand, to send to it or to close it, finds no other call that still has it
in hand. -/
def undisputed (s : Delivery ε) : DeliveryEvent ε → Bool
  | .publish _ | .finish => s.stream.subscribers.all s.free
  | .cancel i =>
    match s.calls[i]? with
    | some (.subscribed sub) => sub ∉ s.stream.subscribers || s.free sub
    | _ => true
  | _ => true

/-- The condition under which subscribers read what they should: besides, nobody subscribes after a
number that was not given yet. -/
def orderly (s : Delivery ε) (e : DeliveryEvent ε) : Bool :=
  s.undisputed e && match e with
    | .subscribe since => since ≤ s.stream.nextEventID
    | _ => true

/-! ### Closing happens once -/

section Once

variable {s s' : Delivery ε} {i k : Nat}

/-- The guard of every channel is set when it is closed, and no channel was closed twice. -/
structure ClosedOnce (s : Delivery ε) : Prop where
  once : ∀ sub ∈ s.subs, sub.once = sub.closed
  crash : s.crash ≠ some .closeOfClosed

theorem close_of_once {sub : Subscriber ε} (h : sub.once = sub.closed) :
  sub.close = some { sub with closed := true, once := true }
  := by
  obtain ⟨since, buf, read, closed, once⟩ := sub
  cases h
  cases closed <;> rfl

theorem ClosedOnce.set (h : ClosedOnce s) {sub : Subscriber ε} (hsub : sub.once = sub.closed) :
  ∀ x ∈ s.subs.set k sub, x.once = x.closed
  := by
  intro x hx
  rcases Pool.mem_of_set hx with rfl | hx
  · apply hsub
  · apply h.once x hx

theorem ClosedOnce.closeSub (h : ClosedOnce s) {next : DeliveryCall ε}
    (hs : s.closeSub i k next = some s') :
  ClosedOnce s'
  := by
  simp only [Delivery.closeSub] at hs
  split at hs
  · cases hs
  · rename_i sub hk
    rw [close_of_once (h.once sub (List.mem_of_getElem? hk))] at hs
    cases hs
    exact ⟨h.set rfl, h.crash⟩

theorem ClosedOnce.sendTo (h : ClosedOnce s) {event : Event ε} {sent full : DeliveryCall ε}
    (hs : s.sendTo i k event sent full = some s') :
  ClosedOnce s'
  := by
  simp only [Delivery.sendTo] at hs
  split at hs
  · cases hs
  · rename_i sub hk
    split at hs
    · cases hs
      exact ⟨h.once, nofun⟩
    · split at hs
      · cases hs
        exact ⟨h.set (h.once sub (List.mem_of_getElem? hk)), h.crash⟩
      · cases hs
        exact ⟨h.once, h.crash⟩

theorem closeAll_of_once {subs : List (Subscriber ε)} (h : ∀ sub ∈ subs, sub.once = sub.closed)
    (ks : List Nat) :
  ∃ subs', closeAll subs ks = some subs' ∧ ∀ sub ∈ subs', sub.once = sub.closed
  := by
  induction ks generalizing subs with
  | nil => exact ⟨subs, rfl, h⟩
  | cons k rest ih =>
    simp only [closeAll]
    split
    · apply ih h
    · rename_i sub hk
      rw [close_of_once (h sub (List.mem_of_getElem? hk))]
      apply ih
      intro x hx
      rcases Pool.mem_of_set hx with rfl | hx
      · rfl
      · apply h x hx

/-- No step closes a channel twice. -/
theorem ClosedOnce.step (h : ClosedOnce s) {e : DeliveryEvent ε} (hs : step e s = some s') :
  ClosedOnce s'
  := by
  simp only [Delivery.step] at hs
  split at hs
  · cases hs
  · cases e with
    | publish payload =>
      dsimp only at hs
      split at hs <;> cases hs <;> exact ⟨h.once, h.crash⟩
    | send i sub =>
      dsimp only at hs
      split at hs
      · split at hs
        · apply h.sendTo hs
        · cases hs
      · cases hs
    | closeFull i =>
      dsimp only at hs
      split at hs
      · apply h.closeSub hs
      · cases hs
    | dropFull i =>
      dsimp only at hs
      split at hs
      · rename_i dropped _
        obtain ⟨subs, hsubs, hall⟩ :=
          closeAll_of_once h.once (dropped.filter (· ∈ s.stream.subscribers))
        rw [hsubs] at hs
        cases hs
        exact ⟨hall, h.crash⟩
      · cases hs
    | subscribe since =>
      cases hs
      refine ⟨?_, h.crash⟩
      intro sub hsub
      rcases List.mem_append.mp hsub with hsub | hsub
      · apply h.once sub hsub
      · cases List.mem_singleton.mp hsub
        rfl
    | replay i =>
      dsimp only at hs
      split at hs
      · apply h.sendTo hs
      · cases hs
        exact ⟨h.once, h.crash⟩
      · cases hs
        exact ⟨h.once, h.crash⟩
      · cases hs
    | closeReplay i =>
      dsimp only at hs
      split at hs
      · apply h.closeSub hs
      · apply h.closeSub hs
      · cases hs
    | dropReplay | cancel =>
      dsimp only at hs
      split at hs
      · split at hs <;> cases hs <;> exact ⟨h.once, h.crash⟩
      · cases hs
    | finish =>
      cases hs
      exact ⟨h.once, h.crash⟩
    | close i sub =>
      dsimp only at hs
      split at hs
      · split at hs
        · apply h.closeSub hs
        · cases hs
      · split at hs
        · apply h.closeSub hs
        · cases hs
      · cases hs
    | receive i =>
      dsimp only at hs
      split at hs
      · split at hs
        · rename_i hk
          have hsub := h.once _ (List.mem_of_getElem? hk)
          cases hs
          exact ⟨h.set hsub, h.crash⟩
        · cases hs
      · cases hs

end Once

end Delivery

end Ploy
