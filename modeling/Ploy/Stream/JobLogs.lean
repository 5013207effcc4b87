import Ploy.Foundations.Execution
import Ploy.Stream.Hub

/-!
# The log of a job

A chunk of log lines is persisted, and then its records are published on the stream of the job. A
fresh connection writes the persisted records first and goes on with the stream; what it finds on
the stream and has written already it recognises by the second, the stream name and the text. A
connection that names the last event it has seen goes on with the stream alone.

A subscription is taken to deliver in order what is kept after its number and then what is
published.
-/

namespace Ploy

/-- A record of the log, as the keys of the backfill have it: the time in seconds, the name of the
stream and the text. -/
structure LogRecord where
  timestamp : Nat
  stream : String
  line : String
  deriving DecidableEq, Repr

inductive JobFrame where
  | log (record : LogRecord)
  | retention (hint : String)
  | done (status : String)
  deriving DecidableEq, Repr

instance : Inhabited JobFrame :=
  ⟨.done ""⟩

def JobFrame.record? : JobFrame → Option LogRecord
  | log record => some record
  | _ => none

def JobFrame.isDone : JobFrame → Bool
  | done _ => true
  | _ => false

def JobFrame.isRetention : JobFrame → Bool
  | retention _ => true
  | _ => false

def records (events : List (Event JobFrame)) : List LogRecord :=
  events.filterMap (·.payload.record?)

/-- A chunk that is persisted: the number its sender gave it, when, in milliseconds, and the stream
and the text of each line. -/
structure LogChunk where
  chunkNo : Int
  createdAt : Nat
  lines : List (String × String)
  deriving DecidableEq, Repr

/-- The records of a chunk. Their time is that of the chunk, in seconds. -/
def LogChunk.records (chunk : LogChunk) : List LogRecord :=
  chunk.lines.map fun line => ⟨chunk.createdAt / 1000, line.1, line.2⟩

/-- Where a connection is: before it reads the number of the last event, before it lists the chunks,
before it replays what was published since, before it subscribes, with its subscription, or at its
end. -/
inductive LogPhase where
  | start
  | listing (preCursor : Nat)
  | replaying (preCursor : Nat)
  | subscribing (cursor : Nat)
  | live
  | ended
  deriving DecidableEq, Repr

/-- A connection: the event it comes after, the status of the job if it has ended, where it is, the
records that it has written and not met on the stream, what is on its channel, and the frames it
has written. A frame without a number has the number zero. -/
structure LogConnection where
  since : Nat
  terminal : Option String
  phase : LogPhase
  backfilled : List LogRecord
  queue : List (Event JobFrame)
  written : List (Event JobFrame)
  deriving DecidableEq, Repr

/-- The stream of a job, the chunks, what is left to publish of each, whether the job has ended and
how, and the connections. `log` holds all events the stream has accepted. -/
structure JobLog where
  stream : Stream JobFrame
  chunks : List LogChunk
  ingests : List (List LogRecord)
  terminal : Option String
  connections : List LogConnection
  log : List (Event JobFrame)
  deriving DecidableEq

/-- A chunk is persisted, an ingest publishes its next record, the job ends in the store, its
completion publishes a retention hint or the done frame and closes the stream, and a connection is
opened, takes its next step or is cut. -/
inductive JobLogEvent where
  | persist (chunk : LogChunk)
  | publish (i : Nat)
  | terminate (status : String)
  | retention (hint : String)
  | done (status : String)
  | finish
  | connect (since : Nat)
  | cursor (i : Nat)
  | list (i : Nat)
  | replay (i : Nat)
  | subscribe (i : Nat)
  | forward (i : Nat)
  | cut (i : Nat)
  deriving DecidableEq, Repr

namespace LogConnection

/-- A frame of the stream is written, or left out where it is a record that the backfill has
written. A done frame ends the connection. -/
def consumeBackfilledLogEvent (c : LogConnection) (e : Event JobFrame) : LogConnection :=
  match e.payload with
  | .log record =>
    if record ∈ c.backfilled then { c with backfilled := c.backfilled.filter (· ≠ record) }
    else { c with written := c.written ++ [e] }
  | .retention _ => { c with written := c.written ++ [e] }
  | .done _ => { c with written := c.written ++ [e], phase := .ended }

/-- The frames of a list are consumed, up to a done frame. -/
def consumeAll (c : LogConnection) : List (Event JobFrame) → LogConnection
  | [] => c
  | e :: rest =>
    let c' := c.consumeBackfilledLogEvent e
    if e.payload.isDone then c' else c'.consumeAll rest

end LogConnection

namespace JobLog

/-- The records of all chunks, in the order in which they were persisted. -/
def persisted (s : JobLog) : List LogRecord :=
  s.chunks.flatMap LogChunk.records

/-- The chunks in the order of their numbers, and those with the same number in the order in which
they were persisted. -/
def listLogs (s : JobLog) : List LogChunk :=
  s.chunks.insertionSort (·.chunkNo ≤ ·.chunkNo)

/-- A frame is published: the stream accepts it and puts it on the channels of its subscribers, or
is closed. -/
def publishFrame (s : JobLog) (frame : JobFrame) : JobLog :=
  match s.stream.publish frame with
  | none => s
  | some (stream, event) => { s with
      stream := stream
      log := s.log ++ [event]
      connections := s.connections.mapIdx fun i c =>
        if i ∈ stream.subscribers then { c with queue := c.queue ++ [event] } else c }

/-- The number of the last event of a snapshot. -/
def hubHighWater (snapshot : List (Event JobFrame)) : Nat :=
  match snapshot.getLast? with
  | none => 0
  | some e => e.id

/-- The frames of the records of chunks, which have no number. -/
def backfill (chunks : List LogChunk) : List (Event JobFrame) :=
  (chunks.flatMap LogChunk.records).map fun record => ⟨0, .log record⟩

/-- The events of the snapshot that came since the cursor was read are consumed. A connection to a
job that has ended then writes the retention hints from before and a done frame. -/
def replayGap (s : JobLog) (c : LogConnection) (preCursor : Nat) : LogConnection :=
  let gap := s.stream.snapshot.filter (preCursor < ·.id)
  let c' := c.consumeAll gap
  if gap.any (·.payload.isDone) then c'
  else match c.terminal with
  | some status =>
    let hints := s.stream.snapshot.filter fun e => e.payload.isRetention && e.id ≤ preCursor
    { c' with written := c'.written ++ hints ++ [⟨0, .done status⟩], phase := .ended }
  | none => { c' with phase := .subscribing (if gap = [] then preCursor else hubHighWater gap) }

/-- The state after an event, where it can take place. -/
def step : JobLogEvent → JobLog → Option JobLog
  | .persist chunk, s => some { s with
      chunks := s.chunks ++ [chunk]
      ingests := s.ingests ++ [chunk.records] }
  | .publish i, s =>
    match s.ingests[i]? with
    | some (record :: rest) => some { s.publishFrame (.log record) with
        -- the first record that is not accepted ends the ingest
        ingests := s.ingests.set i (if s.stream.closed then [] else rest) }
    | _ => none
  | .terminate status, s =>
    if s.terminal.isNone then some { s with terminal := some status } else none
  | .retention hint, s => some (s.publishFrame (.retention hint))
  | .done status, s => some (s.publishFrame (.done status))
  | .finish, s => some { s with stream := s.stream.finish.1 }
  | .connect since, s => some { s with
      connections := s.connections ++ [⟨since, s.terminal,
        if since = 0 then .start else .subscribing since, [], [], []⟩] }
  | .cursor i, s =>
    match s.connections[i]? with
    | some c =>
      if c.phase = .start then some { s with
        connections := s.connections.set i
          { c with phase := .listing (hubHighWater s.stream.snapshot) } }
      else none
    | none => none
  | .list i, s =>
    match s.connections[i]? with
    | some c =>
      match c.phase with
      | .listing preCursor => some { s with
          connections := s.connections.set i { c with
            phase := .replaying preCursor
            backfilled := s.persisted
            written := c.written ++ backfill s.listLogs } }
      | _ => none
    | none => none
  | .replay i, s =>
    match s.connections[i]? with
    | some c =>
      match c.phase with
      | .replaying preCursor => some { s with
          connections := s.connections.set i (s.replayGap c preCursor) }
      | _ => none
    | none => none
  | .subscribe i, s =>
    match s.connections[i]? with
    | some c =>
      match c.phase with
      | .subscribing cursor => some { s with
          stream := (s.stream.subscribe i cursor).1
          connections := s.connections.set i { c with
            phase := .live
            queue := (s.stream.subscribe i cursor).2.1 } }
      | _ => none
    | none => none
  | .forward i, s =>
    match s.connections[i]? with
    | some c =>
      match c.phase, c.queue with
      | .live, e :: rest => some { s with
          connections := s.connections.set i
            ({ c with queue := rest }.consumeBackfilledLogEvent e) }
      | _, _ => none
    | none => none
  | .cut i, s =>
    match s.connections[i]? with
    | some c => some { s with
        stream := s.stream.drop i
        connections := s.connections.set i { c with phase := .ended } }
    | none => none

/-- A job without a log, to which nobody is connected. -/
structure Initial (s : JobLog) : Prop where
  stream : s.stream = Stream.new s.stream.historySize
  chunks : s.chunks = []
  ingests : s.ingests = []
  terminal : s.terminal = none
  connections : s.connections = []
  log : s.log = []

def machine : Machine JobLog JobLogEvent where
  init := Initial
  step := step

/-- Everything after a number is kept. -/
def keepsAfter (s : JobLog) (cursor : Nat) : Bool :=
  s.stream.nextEventID ≤ cursor + s.stream.snapshot.length

/-- The condition under which a connection shows every record once.

* Records are published in the order in which they were persisted.
* When a connection lists the chunks, their numbers are in the order in which they were persisted,
  and no two of the records that were not published when it read its cursor are the same; and no
  record is persisted that some connection has written and still looks for.
* When a connection replays or subscribes, what came after its cursor is still kept.
* The job ends when all its records are published, and nothing is persisted after that; its done
  frame is published, and the stream closed, after it has ended. -/
def steady (s : JobLog) : JobLogEvent → Bool
  | .persist chunk => s.terminal.isNone
      && s.connections.all fun c => chunk.records.all (· ∉ c.backfilled)
  | .publish i => (s.ingests.take i).all (·.isEmpty)
  | .terminate _ => s.ingests.all (·.isEmpty)
  | .done _ | .finish => s.terminal.isSome
  | .connect since => since ≤ s.stream.nextEventID
  | .list i =>
    match (s.connections[i]?).map LogConnection.phase with
    | some (.listing preCursor) =>
      s.chunks.Pairwise (·.chunkNo ≤ ·.chunkNo)
        && (s.persisted.drop (records (s.log.take preCursor)).length).Nodup
    | _ => true
  | .replay i =>
    match (s.connections[i]?).map LogConnection.phase with
    | some (.replaying preCursor) => s.keepsAfter preCursor
    | _ => true
  | .subscribe i =>
    match (s.connections[i]?).map LogConnection.phase with
    | some (.subscribing cursor) => s.keepsAfter cursor
    | _ => true
  | _ => true

end JobLog

end Ploy
