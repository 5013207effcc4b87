import Ploy.Stream.Backfill

/-!
# Following the log of a job

A client that follows the log of a job opens a connection, hands every frame it reads to its
handler, and opens another one when the connection is lost, with the number of the last event it has
seen. The frames that a fresh connection writes from the chunks have no number, so the number tells
how far the records have got only after a record of the stream, or on a connection that goes on
after an event.
-/

namespace Ploy

/-! ### What a step of the server leaves -/

namespace JobLog

/-- Nothing that was accepted, persisted or written is taken back, and only one kind of step
persists. -/
structure Extends (l : JobLogEvent) (s s' : JobLog) : Prop where
  log : s.log <+: s'.log
  chunks : s'.chunks = s.chunks ∨ ∃ chunk, l = .persist chunk ∧ s'.chunks = s.chunks ++ [chunk]
  terminal : s.terminal.isSome = true → s'.terminal.isSome = true
  connections : ∀ (i : Nat) (c : LogConnection), s.connections[i]? = some c →
    ∃ c', s'.connections[i]? = some c' ∧ c'.since = c.since ∧ c.written <+: c'.written

section Extends

variable {l : JobLogEvent} {s s' : JobLog} {c c' : LogConnection} {i : Nat}

theorem Extends.persisted (h : Extends l s s') :
  s.persisted <+: s'.persisted
  := by
  rcases h.chunks with hsame | ⟨chunk, -, hmore⟩
  · rw [JobLog.persisted, JobLog.persisted, hsame]
  · use [chunk].flatMap LogChunk.records
    rw [JobLog.persisted, JobLog.persisted, hmore, List.flatMap_append]

theorem Extends.persisted_of_terminal (h : Extends l s s') (hsteady : steady s l = true)
    (hsome : s.terminal.isSome = true) :
  s'.persisted = s.persisted
  := by
  rcases h.chunks with hsame | ⟨chunk, rfl, -⟩
  · rw [JobLog.persisted, JobLog.persisted, hsame]
  · obtain ⟨hnone, -⟩ := Bool.and_eq_true_iff.mp hsteady
    rw [Option.isNone_iff_eq_none.mp hnone] at hsome
    cases hsome

theorem Extends.take (h : Extends l s s') {n : Nat} (hn : n ≤ s.log.length) :
  s'.log.take n = s.log.take n
  := by
  obtain ⟨more, hmore⟩ := h.log
  rw [← hmore, List.take_append_of_le_length hn]

theorem Extends.set {stream : Stream JobFrame} (hc : s.connections[i]? = some c)
    (hsince : c'.since = c.since) (hwritten : c.written <+: c'.written) :
  Extends l s { s with stream := stream, connections := s.connections.set i c' }
  := by
  refine ⟨List.prefix_rfl, Or.inl rfl, id, ?_⟩
  intro j d hd
  by_cases hj : j = i
  · subst hj
    rw [hc] at hd
    cases hd
    exact ⟨c', (Pool.get_set hc).mpr (Or.inl ⟨rfl, rfl⟩), hsince, hwritten⟩
  · exact ⟨d, (Pool.get_set hc).mpr (Or.inr ⟨hj, hd⟩), rfl, List.prefix_rfl⟩

theorem Extends.of_connections (hlog : s'.log = s.log)
    (hchunks : s'.chunks = s.chunks ∨ ∃ chunk, l = .persist chunk ∧ s'.chunks = s.chunks ++ [chunk])
    (hterminal : s.terminal.isSome = true → s'.terminal.isSome = true)
    (hconnections : s.connections <+: s'.connections) :
  Extends l s s'
  := by
  refine ⟨?_, hchunks, hterminal, ?_⟩
  · rw [hlog]
  · intro j d hd
    obtain ⟨more, hmore⟩ := hconnections
    refine ⟨d, ?_, rfl, List.prefix_rfl⟩
    rw [← hmore, List.getElem?_append_left (List.getElem?_eq_some_iff.mp hd).1]
    exact hd

theorem Extends.publishFrame (s : JobLog) (frame : JobFrame) (ingests : List (List LogRecord)) :
  Extends l s { s.publishFrame frame with ingests := ingests }
  := by
  cases hpublish : s.stream.publish frame with
  | none =>
    rw [JobLog.publishFrame, hpublish]
    exact Extends.of_connections rfl (Or.inl rfl) id List.prefix_rfl
  | some accepted =>
    rw [publishFrame_of_open hpublish]
    refine ⟨List.prefix_append _ _, Or.inl rfl, id, ?_⟩
    intro j d hd
    refine ⟨_, by rw [List.getElem?_mapIdx, hd]; rfl, ?_, ?_⟩
    · split <;> rfl
    · split <;> exact List.prefix_rfl

theorem written_consume (c : LogConnection) (e : Event JobFrame) :
  c.written <+: (c.consumeBackfilledLogEvent e).written
  := by
  rcases consume_written c e with ⟨hwritten, -⟩ | ⟨hwritten, -⟩
  · rw [hwritten]
    exact List.prefix_append _ _
  · rw [hwritten]

theorem written_consumeAll (c : LogConnection) (back : List (Event JobFrame)) :
  c.written <+: (c.consumeAll back).written
  := by
  induction back generalizing c with
  | nil => exact List.prefix_rfl
  | cons e back ih =>
    rw [LogConnection.consumeAll]
    split
    · exact written_consume c e
    · exact (written_consume c e).trans (ih _)

theorem replayGap_extends (s : JobLog) (c : LogConnection) (preCursor : Nat) :
  (s.replayGap c preCursor).since = c.since ∧ c.written <+: (s.replayGap c preCursor).written
  := by
  have hall := written_consumeAll c (s.stream.snapshot.filter (preCursor < ·.id))
  obtain ⟨hsince, -⟩ := consumeAll_fields c (s.stream.snapshot.filter (preCursor < ·.id))
  simp only [JobLog.replayGap]
  split
  · exact ⟨hsince, hall⟩
  · cases c.terminal with
    | some status =>
      refine ⟨hsince, ?_⟩
      simp only [List.append_assoc]
      exact hall.trans (List.prefix_append _ _)
    | none => exact ⟨hsince, hall⟩

/-- No step takes back what was accepted, persisted or written. -/
theorem step_extends (hstep : step l s = some s') :
  Extends l s s'
  := by
  have hkeep : ∀ frame, { s.publishFrame frame with ingests := s.ingests }
      = s.publishFrame frame := by
    intro frame
    rw [JobLog.publishFrame]
    split <;> rfl
  cases l with
  | persist chunk =>
    cases hstep
    exact Extends.of_connections rfl (Or.inr ⟨chunk, rfl, rfl⟩) id List.prefix_rfl
  | publish i =>
    simp only [step] at hstep
    split at hstep
    · cases hstep
      exact Extends.publishFrame _ _ _
    · cases hstep
  | terminate status =>
    simp only [step] at hstep
    split at hstep
    · cases hstep
      exact Extends.of_connections rfl (Or.inl rfl) (fun _ => rfl) List.prefix_rfl
    · cases hstep
  | retention | done =>
    cases hstep
    rw [← hkeep]
    exact Extends.publishFrame _ _ _
  | finish =>
    cases hstep
    exact Extends.of_connections rfl (Or.inl rfl) id List.prefix_rfl
  | connect since =>
    cases hstep
    exact Extends.of_connections rfl (Or.inl rfl) id (List.prefix_append _ _)
  | cursor | subscribe =>
    simp only [step] at hstep
    split at hstep
    · rename_i c hc
      split at hstep
      · cases hstep
        exact Extends.set hc rfl List.prefix_rfl
      · cases hstep
    · cases hstep
  | list i =>
    simp only [step] at hstep
    split at hstep
    · rename_i c hc
      split at hstep
      · cases hstep
        exact Extends.set hc rfl (List.prefix_append _ _)
      · cases hstep
    · cases hstep
  | replay i =>
    simp only [step] at hstep
    split at hstep
    · rename_i c hc
      split at hstep
      · rename_i preCursor hphase
        cases hstep
        obtain ⟨hsince, hwritten⟩ := replayGap_extends s c preCursor
        exact Extends.set hc hsince hwritten
      · cases hstep
    · cases hstep
  | forward i =>
    simp only [step] at hstep
    split at hstep
    · rename_i c hc
      split at hstep
      · rename_i e rest hphase hqueue
        cases hstep
        obtain ⟨hsince, -⟩ := consume_fields { c with queue := rest } e
        exact Extends.set hc hsince (written_consume { c with queue := rest } e)
      · cases hstep
    · cases hstep
  | cut i =>
    simp only [step] at hstep
    split at hstep
    · rename_i c hc
      cases hstep
      exact Extends.set hc rfl List.prefix_rfl
    · cases hstep

end Extends

end JobLog

/-! ### The client -/

/-- How a call of the client ends: its handler has seen the done frame, or an error is reported. -/
inductive FollowOutcome where
  | done
  | failed
  deriving DecidableEq, Repr

/-- A call of the client with the server it calls: the number of the last event seen, the
connection, how many frames were read from it, the attempts since a frame was read and their limit,
the frames handed to the handler, and the outcome. -/
structure LogFollow where
  server : JobLog
  lastEventID : Nat
  connection : Option Nat
  received : Nat
  retries : Nat
  maxRetries : Option Nat
  delivered : List (Event JobFrame)
  outcome : Option FollowOutcome
  deriving DecidableEq

/-- The server takes a step; the client connects, cannot connect, reads a frame, loses its
connection, or stops with an error. -/
inductive LogFollowEvent where
  | server (event : JobLogEvent)
  | connect
  | unreachable
  | read
  | lose
  | fail
  deriving DecidableEq, Repr

namespace LogFollow

/-- After a connection, the client waits and connects again, or has no attempt left. -/
def backoffOrFail (s : LogFollow) (sawEvent : Bool) : LogFollow :=
  let retries := if sawEvent then 0 else s.retries
  if s.maxRetries.any (· ≤ retries) then
    { s with connection := none, retries := retries, outcome := some .failed }
  else { s with connection := none, retries := retries + 1 }

/-- A frame is handed to the handler, which is done with the done frame. -/
def handle (s : LogFollow) (e : Event JobFrame) : LogFollow :=
  { s with
    lastEventID := if 0 < e.id then e.id else s.lastEventID
    received := s.received + 1
    delivered := s.delivered ++ [e]
    connection := if e.payload.isDone then none else s.connection
    outcome := if e.payload.isDone then some .done else s.outcome }

/-- The frames of the connection, as far as the server has written them. -/
def frames (s : LogFollow) : List (Event JobFrame) :=
  match s.connection.bind (s.server.connections[·]?) with
  | some c => c.written
  | none => []

/-- The state after an event, where it can take place. -/
def step : LogFollowEvent → LogFollow → Option LogFollow
  | .server event, s => (JobLog.step event s.server).map fun server => { s with server := server }
  | .connect, s =>
    if s.connection = none ∧ s.outcome = none then
      (JobLog.step (.connect s.lastEventID) s.server).map fun server =>
        { s with
          server := server
          connection := some s.server.connections.length
          received := 0 }
    else none
  | .unreachable, s =>
    if s.connection = none ∧ s.outcome = none then some (s.backoffOrFail false) else none
  | .read, s => (s.frames[s.received]?).map s.handle
  | .lose, s => if s.connection.isSome then some (s.backoffOrFail (0 < s.received)) else none
  | .fail, s =>
    if s.outcome = none then some { s with connection := none, outcome := some .failed } else none

/-- A call that begins, of a job without a log. -/
structure Initial (s : LogFollow) : Prop where
  server : s.server.Initial
  lastEventID : s.lastEventID = 0
  connection : s.connection = none
  delivered : s.delivered = []
  outcome : s.outcome = none

def machine : Machine LogFollow LogFollowEvent where
  init := Initial
  step := step

/-- The condition under which a client is handed every record once: the steps of the server are such
that a connection that is not cut shows every record once and that what comes after the number of a
connection is kept; and a fresh connection is lost before its first frame, or right after a record
with a number. -/
def seamless (s : LogFollow) : LogFollowEvent → Bool
  | .server event => s.server.steady event
  | .lose =>
    match s.connection.bind (s.server.connections[·]?) with
    | some c => 0 < c.since || s.received == 0
        || ((c.written.take s.received).getLast?).any fun e => e.payload.record?.isSome && 0 < e.id
    | none => true
  | _ => true

/-! ### What the client has been handed -/

/-- The number a client holds after some frames. -/
def lastNumber (since : Nat) (frames : List (Event JobFrame)) : Nat :=
  frames.foldl (fun n e => if 0 < e.id then e.id else n) since

/-- A client on a connection has been handed the records up to the event it comes after, and those
of the frames it has read. -/
structure Reading (s : LogFollow) (c : LogConnection) : Prop where
  received : s.received ≤ c.written.length
  handed : records s.delivered = records (s.server.log.take c.since)
    ++ records (c.written.take s.received)
  number : s.lastEventID = lastNumber c.since (c.written.take s.received)

structure Sound (s : LogFollow) : Prop where
  server : s.server.Sound
  part : records s.delivered <+: s.server.persisted
  waiting : s.outcome = none → s.connection = none → s.lastEventID ≤ s.server.log.length
    ∧ records s.delivered = records (s.server.log.take s.lastEventID)
  reading : ∀ i, s.connection = some i → s.outcome = none
    ∧ ∃ c, s.server.connections[i]? = some c ∧ Reading s c
  undone : s.outcome ≠ some .done → ∀ e ∈ s.delivered, e.payload.isDone = false
  done : s.outcome = some .done → s.server.terminal.isSome = true
    ∧ records s.delivered = s.server.persisted
    ∧ ∃ front e, s.delivered = front ++ [e] ∧ e.payload.isDone = true
      ∧ ∀ e' ∈ front, e'.payload.isDone = false

section Steps

variable {s s' : LogFollow}

/-- A client that has read nothing is sound. -/
theorem sound_of_initial (h : Initial s) :
  Sound s
  := by
  obtain ⟨hserver, hnumber, hconnection, hdelivered, houtcome⟩ := h
  constructor
  · exact JobLog.sound_of_initial hserver
  · rw [hdelivered]
    exact List.nil_prefix
  · intro _ _
    rw [hnumber, hdelivered]
    exact ⟨Nat.zero_le _, rfl⟩
  · intro i hi
    rw [hconnection] at hi
    cases hi
  · intro _ e he
    rw [hdelivered] at he
    cases he
  · intro hdone
    rw [houtcome] at hdone
    cases hdone

/-- The client is not disturbed by what happens at the server. -/
theorem Sound.onServer (h : Sound s) {l : JobLogEvent} {server : JobLog}
    (hsteady : s.server.steady l = true) (hstep : JobLog.step l s.server = some server) :
  Sound { s with server := server }
  := by
  have hextends := JobLog.step_extends hstep
  constructor
  · exact h.server.step hsteady hstep
  · exact h.part.trans hextends.persisted
  · intro houtcome hconnection
    obtain ⟨hle, hrecords⟩ := h.waiting houtcome hconnection
    refine ⟨Nat.le_trans hle hextends.log.length_le, ?_⟩
    rw [hextends.take hle]
    exact hrecords
  · intro i hi
    obtain ⟨houtcome, c, hc, hreceived, hrecords, hnumber⟩ := h.reading i hi
    obtain ⟨c', hc', hsince, more, hmore⟩ := hextends.connections i c hc
    have htake : c'.written.take s.received = c.written.take s.received := by
      rw [← hmore, List.take_append_of_le_length hreceived]
    refine ⟨houtcome, c', hc', ?_, ?_, ?_⟩
    · rw [← hmore, List.length_append]
      exact Nat.le_trans hreceived (Nat.le_add_right _ _)
    · rw [htake, hsince, hextends.take (h.server.connections i c hc).since]
      exact hrecords
    · rw [htake, hsince]
      exact hnumber
  · exact h.undone
  · intro hdone
    obtain ⟨hsome, hall, hlast⟩ := h.done hdone
    refine ⟨hextends.terminal hsome, ?_, hlast⟩
    rw [hextends.persisted_of_terminal hsteady hsome]
    exact hall

theorem Sound.connect (h : Sound s) (hconnection : s.connection = none)
    (houtcome : s.outcome = none)
    {server : JobLog} (hstep : JobLog.step (.connect s.lastEventID) s.server = some server) :
  Sound { s with
    server := server
    connection := some s.server.connections.length
    received := 0 }
  := by
  obtain ⟨hle, hrecords⟩ := h.waiting houtcome hconnection
  have hsteady : s.server.steady (.connect s.lastEventID) = true := by
    rw [h.server.length_log] at hle
    simpa [JobLog.steady] using hle
  obtain ⟨hserver, hpart, -, -, hundone, hdone⟩ := h.onServer hsteady hstep
  refine ⟨hserver, hpart, fun _ hnone => (by cases hnone), ?_, hundone, hdone⟩
  rintro i hi
  cases hi
  cases hstep
  refine ⟨houtcome, _, List.getElem?_concat_length, Nat.zero_le _, ?_, rfl⟩
  rw [List.take_zero, records_nil, List.append_nil]
  exact hrecords

theorem Sound.backoffOrFail (h : Sound s) (houtcome : s.outcome = none) (sawEvent : Bool)
    (hplace : s.lastEventID ≤ s.server.log.length
      ∧ records s.delivered = records (s.server.log.take s.lastEventID)) :
  Sound (s.backoffOrFail sawEvent)
  := by
  have hundone := h.undone (by rw [houtcome]; exact nofun)
  simp only [LogFollow.backoffOrFail]
  generalize (if sawEvent = true then 0 else s.retries) = retries
  split
  · exact ⟨h.server, h.part, nofun, nofun, fun _ => hundone, nofun⟩
  · refine ⟨h.server, h.part, fun _ _ => hplace, nofun, fun _ => hundone, ?_⟩
    intro hdone
    change s.outcome = some .done at hdone
    rw [houtcome] at hdone
    cases hdone

/-- Where a client stands that has lost its connection. -/
theorem Reading.place {c : LogConnection} {i : Nat} (hs : s.server.Sound)
    (hc : s.server.connections[i]? = some c) (h : Reading s c)
    (hlost : 0 < c.since ∨ s.received = 0
      ∨ ∃ e, (c.written.take s.received).getLast? = some e ∧ e.payload.record?.isSome = true
        ∧ 0 < e.id) :
  s.lastEventID ≤ s.server.log.length
    ∧ records s.delivered = records (s.server.log.take s.lastEventID)
  := by
  have hshown := hs.connections i c hc
  obtain ⟨hreceived, hrecords, hnumber⟩ := h
  rcases List.eq_nil_or_concat (c.written.take s.received) with hnil | ⟨front, e, hsnoc⟩
  · -- nothing was read on this connection
    rw [hnil] at hrecords hnumber
    rw [records_nil, List.append_nil] at hrecords
    rw [hnumber]
    exact ⟨hshown.since, hrecords⟩
  · rw [List.concat_eq_append] at hsnoc
    have hsplit : c.written = front ++ e :: c.written.drop s.received := by
      conv_lhs => rw [← List.take_append_drop s.received c.written, hsnoc]
      rw [List.append_assoc, List.singleton_append]
    have hkind : (e.payload.record?.isSome = true ∧ 0 < e.id) ∨ 0 < c.since := by
      rcases hlost with hpos | hzero | ⟨e', hlast, hkind⟩
      · exact Or.inr hpos
      · rw [hzero, List.take_zero] at hsnoc
        simp at hsnoc
      · rw [hsnoc, List.getLast?_concat] at hlast
        cases hlast
        exact Or.inl hkind
    obtain ⟨hid, hle, hall⟩ := hshown.marks front e _ hsplit hkind
    have hlast : s.lastEventID = e.id := by
      rw [hnumber, hsnoc, lastNumber, List.foldl_append]
      exact if_pos hid
    rw [hlast]
    refine ⟨hle, ?_⟩
    rw [hrecords, hsnoc]
    exact hall

/-- The client reads what is written next. -/
theorem Sound.read (h : Sound s) {e : Event JobFrame} (he : s.frames[s.received]? = some e) :
  Sound (s.handle e)
  := by
  rw [frames] at he
  split at he
  · rename_i c hc
    obtain ⟨i, hi, hc⟩ := Option.bind_eq_some_iff.mp hc
    obtain ⟨houtcome, c', hc', hreceived, hrecords, hnumber⟩ := h.reading i hi
    rw [hc] at hc'
    cases hc'
    have hshown := h.server.connections i c hc
    have hundone := h.undone (by rw [houtcome]; exact nofun)
    obtain ⟨hlt, hget⟩ := List.getElem?_eq_some_iff.mp he
    have htake : c.written.take (s.received + 1) = c.written.take s.received ++ [e] := by
      rw [List.take_add_one, he]
      rfl
    have hrecords' : records (s.delivered ++ [e]) = records (s.server.log.take c.since)
        ++ records (c.written.take (s.received + 1)) := by
      rw [htake, records_append, records_append, hrecords, List.append_assoc]
    have hpart : records (s.delivered ++ [e]) <+: s.server.persisted := by
      obtain ⟨fresh, hall⟩ := hshown.written
      use records (c.written.drop (s.received + 1)) ++ fresh
      rw [hrecords', hall]
      simp only [List.append_assoc]
      rw [← List.append_assoc (records (c.written.take _)), ← records_append,
        List.take_append_drop]
    have hsplit : c.written = c.written.take s.received
        ++ e :: c.written.drop (s.received + 1) := by
      conv_lhs => rw [← List.take_append_drop (s.received + 1) c.written, htake]
      rw [List.append_assoc, List.singleton_append]
    cases hdone : e.payload.isDone with
    | true =>
      -- the done frame is the last, and comes after all records
      obtain ⟨hnil, hsome, hall⟩ := hshown.complete _ e _ hsplit hdone
      have hwhole : c.written.take (s.received + 1) = c.written :=
        List.take_of_length_le (List.drop_eq_nil_iff.mp hnil)
      rw [hwhole] at hrecords'
      refine ⟨h.server, hpart, ?_, ?_, ?_, ?_⟩
      · simp [handle, hdone]
      · simp [handle, hdone]
      · simp [handle, hdone]
      · intro _
        exact ⟨hsome, hrecords'.trans hall.symm, s.delivered, e, rfl, hdone, hundone⟩
    | false =>
      refine ⟨h.server, hpart, ?_, ?_, ?_, ?_⟩
      · simp [handle, hdone, hi]
      · intro j hj
        have hj : s.connection = some j := by simpa [handle, hdone] using hj
        rw [hi] at hj
        cases hj
        refine ⟨by simpa [handle, hdone] using houtcome, c, hc, hlt, hrecords', ?_⟩
        change (if 0 < e.id then e.id else s.lastEventID)
          = lastNumber c.since (c.written.take (s.received + 1))
        rw [htake, lastNumber, List.foldl_append, hnumber]
        rfl
      · intro _ e' he'
        rcases List.mem_append.mp he' with he' | he'
        · exact hundone e' he'
        · rw [List.mem_singleton.mp he']
          exact hdone
      · intro hend
        have hend : s.outcome = some .done := by simpa [handle, hdone] using hend
        rw [houtcome] at hend
        cases hend
  · cases he

/-- Every seamless event keeps the client in step with the log. -/
theorem Sound.step (h : Sound s) {l : LogFollowEvent} (hseamless : seamless s l = true)
    (hstep : LogFollow.step l s = some s') :
  Sound s'
  := by
  cases l with
  | server event =>
    obtain ⟨server, hserver, rfl⟩ := Option.map_eq_some_iff.mp hstep
    exact h.onServer hseamless hserver
  | connect =>
    simp only [LogFollow.step] at hstep
    split at hstep
    · rename_i hidle
      obtain ⟨server, hserver, rfl⟩ := Option.map_eq_some_iff.mp hstep
      exact h.connect hidle.1 hidle.2 hserver
    · cases hstep
  | unreachable =>
    simp only [LogFollow.step] at hstep
    split at hstep
    · rename_i hidle
      cases hstep
      exact h.backoffOrFail hidle.2 false (h.waiting hidle.2 hidle.1)
    · cases hstep
  | read =>
    obtain ⟨e, he, rfl⟩ := Option.map_eq_some_iff.mp hstep
    exact h.read he
  | lose =>
    simp only [LogFollow.step] at hstep
    split at hstep
    · rename_i hopen
      cases hstep
      obtain ⟨i, hi⟩ := Option.isSome_iff_exists.mp hopen
      obtain ⟨houtcome, c, hc, hreading⟩ := h.reading i hi
      apply h.backoffOrFail houtcome
      apply hreading.place h.server hc
      simp only [seamless, hi, Option.bind_some, hc, Bool.or_eq_true, decide_eq_true_eq,
        beq_iff_eq, Option.any_eq_true, Bool.and_eq_true] at hseamless
      rcases hseamless with (hpos | hzero) | hlast
      · exact Or.inl hpos
      · exact Or.inr (Or.inl hzero)
      · exact Or.inr (Or.inr hlast)
    · cases hstep
  | fail =>
    simp only [LogFollow.step] at hstep
    split at hstep
    · rename_i houtcome
      cases hstep
      have hundone := h.undone (by rw [houtcome]; exact nofun)
      exact ⟨h.server, h.part, nofun, nofun, fun _ => hundone, nofun⟩
    · cases hstep

end Steps

theorem sound_of_execution {past : List (LogFollow × LogFollowEvent)} {s : LogFollow}
    (h : machine.Execution past s) (hseamless : ∀ x ∈ past, seamless x.1 x.2 = true) :
  Sound s
  := h.invariant_of_allowed seamless (fun _ => sound_of_initial)
    (fun _ _ _ hs hl hstep => hs.step hl hstep) hseamless

namespace Sample

/-- A call for a new job, whose stream keeps a number of events. -/
def call (historySize : Nat) : LogFollow :=
  ⟨⟨Stream.new historySize, [], [], none, [], []⟩, 0, none, 0, 0, none, [], none⟩

open JobLog.Sample (chunk)

/-- The first connection is opened, and writes what is persisted. -/
def fresh (i : Nat) : List LogFollowEvent :=
  [.connect, .server (.cursor i), .server (.list i), .server (.replay i), .server (.subscribe i)]

/-- The job ends, and its stream is closed. -/
def ending : List LogFollowEvent :=
  [.server (.terminate "Success"), .server (.done "Success"), .server .finish]

end Sample

end LogFollow

end Ploy
