import Ploy.Foundations.Execution
import Ploy.Stream.Hub

/-!
# Generations of a run

A run that is restarted is in a new generation: a full restart starts a new attempt, a restart from
the failed job resumes the attempt. The completion of a run publishes a done frame on its stream and
then closes the stream, which is opened again when somebody who has read a later resumption of the
run from the store says so.
-/

namespace Ploy

/-- The attempt of a run and how often it was resumed. -/
structure Generation where
  attempt : Nat
  count : Nat
  deriving DecidableEq, Repr

def Generation.before (g h : Generation) : Bool :=
  g.attempt < h.attempt || (g.attempt = h.attempt && g.count < h.count)

inductive FrameKind where
  | run | stage | done
  deriving DecidableEq, Repr

/-- A frame of the stream of a run, and the generation it is published for. -/
structure RunFrame where
  kind : FrameKind
  generation : Generation
  deriving DecidableEq, Repr

instance : Inhabited RunFrame :=
  ⟨.run, ⟨0, 0⟩⟩

inductive RunPhase where
  | running | succeeded | failed
  deriving DecidableEq, Repr

/-- A completion of the run, from where it has finished the wave on: it says which resumption it is
for, announces the run, publishes the done frame and closes the stream. -/
inductive Completion where
  | resume (generation : Generation)
  | announce (generation : Generation)
  | done (generation : Generation)
  | finish (generation : Generation)
  | ended
  deriving DecidableEq, Repr

/-- The generation that a completion in progress is for. -/
def Completion.generation : Completion → Option Generation
  | resume g | announce g | done g | finish g => some g
  | ended => none

inductive ClientPhase where
  | read | resumed | subscribed | ended
  deriving DecidableEq, Repr

/-- A client: the generation its connection has read and whether the run was running in it, the
number it comes after, and the frames that were put on its channel. -/
structure RunClient where
  generation : Generation
  active : Bool
  since : Nat
  phase : ClientPhase
  frames : List (Event RunFrame)
  deriving DecidableEq, Repr

/-- A run, its stream, and who uses it. `log` holds all events the stream has accepted, the latest
first. -/
structure RunStream where
  generation : Generation
  status : RunPhase
  waveFinished : Bool
  stream : Stream RunFrame
  completions : List Completion
  clients : List RunClient
  log : List (Event RunFrame)
  deriving DecidableEq

/-- The run ends or is restarted, a node publishes the progress of a stage, a completion starts or
takes its next step, and a client connects, goes on or leaves. -/
inductive RunStreamEvent where
  | endRun (succeeded : Bool)
  | restart (fromFailed : Bool)
  | stage
  | complete
  | advance (i : Nat)
  | connect (since : Nat)
  | resume (i : Nat)
  | subscribe (i : Nat)
  | cancel (i : Nat)
  deriving DecidableEq, Repr

namespace RunStream

/-- The stream is opened again for a later resumption. An attempt that was not resumed says
nothing. -/
def resumeRun (stream : Stream RunFrame) (g : Generation) : Stream RunFrame :=
  if g.count = 0 then stream else stream.resume g.attempt g.count

/-- A frame is published: the stream accepts it and puts it on the channels of its subscribers, or
is closed. -/
def publish (s : RunStream) (frame : RunFrame) : RunStream :=
  match s.stream.publish frame with
  | none => s
  | some (stream, event) => { s with
      stream := stream
      log := event :: s.log
      clients := s.clients.mapIdx fun i client =>
        if i ∈ stream.subscribers then { client with frames := client.frames ++ [event] }
        else client }

def restarted (g : Generation) (fromFailed : Bool) : Generation :=
  if fromFailed then ⟨g.attempt, g.count + 1⟩ else ⟨g.attempt + 1, 0⟩

/-- The next step of a completion. A done frame that is not accepted ends it. -/
def advance (s : RunStream) (i : Nat) : Completion → Option RunStream
  | .resume g => some { s with
      stream := resumeRun s.stream g
      completions := s.completions.set i (.announce g) }
  | .announce g => some { s.publish ⟨.run, g⟩ with completions := s.completions.set i (.done g) }
  | .done g => some { s.publish ⟨.done, g⟩ with
      completions := s.completions.set i (if s.stream.closed then .ended else .finish g) }
  | .finish _ => some { s with
      stream := s.stream.finish.1
      completions := s.completions.set i .ended }
  | .ended => none

/-- The state after an event, where it can take place. -/
def step : RunStreamEvent → RunStream → Option RunStream
  | .endRun succeeded, s =>
    if s.status = .running then some { s with status := if succeeded then .succeeded else .failed }
    else none
  | .restart fromFailed, s =>
    if s.status = .failed ∨ (s.status = .succeeded ∧ fromFailed = false) then some { s with
      generation := restarted s.generation fromFailed
      status := .running
      waveFinished := false }
    else none
  | .stage, s => some (s.publish ⟨.stage, s.generation⟩)
  | .complete, s =>
    if s.status = .running then none
    else some { s with
      waveFinished := true
      completions := s.completions ++ [.resume s.generation] }
  | .advance i, s =>
    match s.completions[i]? with
    | some completion => s.advance i completion
    | none => none
  | .connect since, s => some { s with
      clients := s.clients ++ [⟨s.generation, s.status = .running, since, .read, []⟩] }
  | .resume i, s =>
    match s.clients[i]? with
    | some ⟨g, active, since, .read, frames⟩ => some { s with
        stream := resumeRun s.stream g
        clients := s.clients.set i ⟨g, active, since, .resumed, frames⟩ }
    | _ => none
  | .subscribe i, s =>
    match s.clients[i]? with
    | some ⟨g, active, since, .resumed, _⟩ =>
      if since = 0 ∧ active = false then
        -- the run had ended: the handler writes a done frame of its own
        some { s with clients := s.clients.set i ⟨g, active, since, .ended, [⟨0, .done, g⟩]⟩ }
      else some { s with
        stream := (s.stream.subscribe i since).1
        clients := s.clients.set i
          ⟨g, active, since, .subscribed, (s.stream.subscribe i since).2.1⟩ }
    | _ => none
  | .cancel i, s =>
    match s.clients[i]? with
    | some ⟨g, active, since, .subscribed, frames⟩ => some { s with
        stream := s.stream.drop i
        clients := s.clients.set i ⟨g, active, since, .ended, frames⟩ }
    | _ => none

/-- A run in its first attempt, with nothing on its stream. -/
structure Initial (s : RunStream) : Prop where
  fresh : s.generation.count = 0
  running : s.status = .running
  unfinished : s.waveFinished = false
  stream : s.stream = Stream.new s.stream.historySize
  completions : s.completions = []
  clients : s.clients = []
  log : s.log = []

def machine : Machine RunStream RunStreamEvent where
  init := Initial
  step := step

/-- The generation that a step publishes a frame for. -/
def published (s : RunStream) : RunStreamEvent → Option Generation
  | .stage => some s.generation
  | .advance i =>
    match s.completions[i]? with
    | some (.announce g) | some (.done g) => some g
    | _ => none
  | _ => none

/-- The condition under which frames stay in their generation: a run is restarted only when no
completion is in progress, and in full only while its stream is open; a completion starts only when
the wave is not finished and no other is in progress; and the progress of a stage is published only
while the run is running. -/
def settled (s : RunStream) : RunStreamEvent → Bool
  | .restart fromFailed => s.completions.all (· = .ended) && (fromFailed || !s.stream.closed)
  | .complete => !s.waveFinished && s.completions.all (· = .ended)
  | .stage => s.status = .running
  | _ => true

/-! ### Numbers are given once -/

section Numbers

variable {s s' : RunStream}

/-- The accepted events have different numbers, all of them given. -/
structure Logged (s : RunStream) : Prop where
  nodup : (s.log.map Event.id).Nodup
  given : ∀ e ∈ s.log, e.id ≤ s.stream.nextEventID

theorem resumeRun_nextEventID (stream : Stream RunFrame) (g : Generation) :
  (resumeRun stream g).nextEventID = stream.nextEventID
  := by
  simp only [resumeRun, Stream.resume]
  split
  · rfl
  · split <;> rfl

/-- What is published is logged. -/
theorem Logged.publish (h : Logged s) (frame : RunFrame) :
  Logged (s.publish frame)
  := by
  simp only [RunStream.publish]
  split
  · apply h
  · rename_i stream event hp
    obtain ⟨-, rfl, rfl⟩ := Stream.publish_eq_some hp
    constructor
    · refine List.nodup_cons.mpr ⟨?_, h.nodup⟩
      intro hmem
      obtain ⟨e, he, hid⟩ := List.mem_map.mp hmem
      have hle := h.given e he
      simp only at hid
      omega
    · intro e he
      rcases List.mem_cons.mp he with rfl | he
      · exact Nat.le_refl _
      · exact Nat.le_succ_of_le (h.given e he)

theorem Logged.of_same (h : Logged s) (hlog : s'.log = s.log)
    (hnext : s'.stream.nextEventID = s.stream.nextEventID) :
  Logged s'
  := by
  obtain ⟨hnodup, hgiven⟩ := h
  constructor
  · rw [hlog]
    exact hnodup
  · rw [hlog, hnext]
    exact hgiven

/-- Every event keeps the log in step with the stream. -/
theorem Logged.step (h : Logged s) {e : RunStreamEvent} (hs : step e s = some s') :
  Logged s'
  := by
  cases e with
  | endRun | restart | complete | cancel =>
    simp only [RunStream.step] at hs
    split at hs <;> cases hs
    apply h.of_same <;> rfl
  | stage =>
    cases hs
    apply h.publish
  | advance i =>
    simp only [RunStream.step] at hs
    split at hs
    · rename_i completion _
      cases completion with
      | resume g =>
        cases hs
        apply h.of_same
        · rfl
        · apply resumeRun_nextEventID
      | announce g =>
        cases hs
        apply (h.publish ⟨.run, g⟩).of_same <;> rfl
      | done g =>
        cases hs
        apply (h.publish ⟨.done, g⟩).of_same <;> rfl
      | finish g =>
        cases hs
        apply h.of_same
        · rfl
        · simp only [Stream.finish]
          split <;> rfl
      | ended => cases hs
    · cases hs
  | connect since =>
    cases hs
    apply h.of_same <;> rfl
  | resume i =>
    simp only [RunStream.step] at hs
    split at hs <;> cases hs
    apply h.of_same
    · rfl
    · apply resumeRun_nextEventID
  | subscribe i =>
    simp only [RunStream.step] at hs
    split at hs
    · split at hs
      · cases hs
        apply h.of_same <;> rfl
      · cases hs
        apply h.of_same
        · rfl
        · rw [Stream.subscribe_eq]
    · cases hs

end Numbers

/-! ### What the condition keeps -/

theorem before_iff {g h : Generation} :
  g.before h = true ↔ g.attempt < h.attempt ∨ (g.attempt = h.attempt ∧ g.count < h.count)
  := by
  simp [Generation.before]

/-- The resumption that the stream was last opened for. -/
def openedFor (stream : Stream RunFrame) : Generation :=
  ⟨stream.resumeAttempt, stream.resumeCount⟩

/-- The run was resumed since the stream was last opened. -/
def Stale (s : RunStream) : Prop :=
  0 < s.generation.count ∧ (openedFor s.stream).before s.generation = true

/-- A client has read a generation that was reached, and says so to the stream before it subscribes.
What it is sent from then on has no done frame of an earlier generation. -/
structure Seen (s : RunStream) (client : RunClient) : Prop where
  reached : s.generation.before client.generation = false
  resumed : client.phase ≠ .read → 0 < client.generation.count →
    (openedFor s.stream).before client.generation = false
  kept : client.active = true →
    (∀ e ∈ s.stream.snapshot, e.payload.kind = .done →
      e.payload.generation.before client.generation = false)
    ∨ (client.phase = .read ∧ 0 < client.generation.count
      ∧ (openedFor s.stream).before client.generation = true)
  frames : client.active = true → ∀ e ∈ client.frames, e.payload.kind = .done →
    e.payload.generation.before client.generation = false

/-- A completion in progress is the only one, is for the generation the run has ended in, and has
the stream open once it has said so. The stream is closed by a completion, until the run is resumed.
-/
structure Sound (s : RunStream) : Prop where
  inProgress : ∀ c ∈ s.completions, ∀ g, c.generation = some g →
    g = s.generation ∧ s.status ≠ .running ∧ s.waveFinished = true
  alone : ∀ (i j : Nat) (a b : Completion), s.completions[i]? = some a →
    s.completions[j]? = some b → a.generation ≠ none → b.generation ≠ none → i = j
  opened : ∀ c ∈ s.completions, ∀ g, c = .announce g ∨ c = .done g ∨ c = .finish g →
    s.stream.closed = false
  closed : s.stream.closed = true → Stale s
    ∨ ((∀ c ∈ s.completions, c.generation = none) ∧ s.waveFinished = true ∧ s.status ≠ .running)
  reached : s.generation.before (openedFor s.stream) = false
  undone : s.stream.closed = false → (∀ c ∈ s.completions, ∀ g, c ≠ .finish g) →
    ∀ e ∈ s.stream.snapshot, e.payload.kind ≠ .done
  dones : ∀ e ∈ s.stream.snapshot, e.payload.kind = .done →
    e.payload.generation.before s.generation = false ∨ Stale s
  clients : ∀ client ∈ s.clients, Seen s client

section Sound

variable {s s' : RunStream} {g : Generation} {i : Nat} {client client' : RunClient}

/-- A new stream is sound. -/
theorem Initial.sound (h : Initial s) :
  Sound s
  := by
  have hsnapshot : s.stream.snapshot = [] := by
    rw [h.stream, Stream.snapshot, Stream.new, RingBuffer.slice_new]
  have hopen : s.stream.closed = false := by
    rw [h.stream]
    rfl
  have hfor : openedFor s.stream = ⟨0, 0⟩ := by
    rw [h.stream]
    rfl
  constructor
  case closed =>
    rw [hopen]
    intro hend
    cases hend
  case reached =>
    rw [hfor]
    simp [Generation.before]
  all_goals simp [h.completions, h.clients, hsnapshot]

/-- A stream is opened again for a later execution only. -/
theorem resumeRun_cases (stream : Stream RunFrame) (g : Generation) :
  (resumeRun stream g = stream ∧ (g.count = 0 ∨ (openedFor stream).before g = false))
    ∨ (0 < g.count ∧ (openedFor stream).before g = true ∧ openedFor (resumeRun stream g) = g
      ∧ (resumeRun stream g).closed = false ∧ (resumeRun stream g).snapshot = [])
  := by
  simp only [resumeRun]
  split
  · rename_i hzero
    exact Or.inl ⟨rfl, Or.inl hzero⟩
  · rename_i hcount
    simp only [Stream.resume]
    split
    · rename_i hearlier
      refine Or.inl ⟨rfl, Or.inr ?_⟩
      rw [Bool.eq_false_iff, Ne, before_iff, openedFor]
      dsimp only
      omega
    · rename_i hlater
      refine Or.inr ⟨Nat.pos_of_ne_zero hcount, ?_, rfl, rfl, RingBuffer.slice_new _⟩
      rw [before_iff, openedFor]
      dsimp only
      omega

/-- A stream may be opened for an execution that the run has reached. -/
theorem Sound.resumeRun (h : Sound s) (hg : s.generation.before g = false) :
  Sound { s with stream := resumeRun s.stream g }
  := by
  rcases resumeRun_cases s.stream g with ⟨hsame, -⟩ | ⟨-, hlater, hfor, hopen, hnone⟩
  · rw [hsame]
    exact h
  · constructor
    case inProgress => apply h.inProgress
    case alone => apply h.alone
    case opened => exact fun _ _ _ _ => hopen
    case closed =>
      rw [hopen]
      nofun
    case reached =>
      rw [hfor]
      exact hg
    case undone =>
      rw [hnone]
      nofun
    case dones =>
      rw [hnone]
      nofun
    case clients =>
      intro client hclient
      obtain ⟨hreached, hresumed, -, hframes⟩ := h.clients client hclient
      refine ⟨hreached, ?_, ?_, hframes⟩
      · intro hphase hcount
        have hbefore := hresumed hphase hcount
        rw [hfor]
        rw [Bool.eq_false_iff, Ne, before_iff] at hbefore ⊢
        rw [before_iff] at hlater
        omega
      · intro _
        rw [hnone]
        exact Or.inl nofun

/-- A frame may be published, and the last one by the completion that finishes. -/
theorem Sound.publish (h : Sound s) {frame : RunFrame} (hframe : frame.kind = .done →
      frame.generation = s.generation ∧ ∃ c ∈ s.completions, ∃ g, c = .finish g) :
  Sound (s.publish frame)
  := by
  simp only [RunStream.publish]
  split
  · apply h
  · rename_i stream event hp
    have hmem : ∀ e, e ∈ stream.snapshot → e ∈ s.stream.snapshot ∨ e = event :=
      fun e => Stream.mem_snapshot_of_publish hp
    obtain ⟨hopen, hevent, hstream⟩ := Stream.publish_eq_some hp
    have hfor : openedFor stream = openedFor s.stream := by rw [hstream]; rfl
    have hclosed : stream.closed = false := by rw [hstream]; exact hopen
    have hpayload : event.payload = frame := by rw [hevent]
    -- no client has read a later generation than that of a done frame
    have hnew : ∀ client ∈ s.clients, event.payload.kind = .done →
        event.payload.generation.before client.generation = false := by
      intro client hclient hdone
      rw [hpayload] at hdone ⊢
      rw [(hframe hdone).1]
      apply (h.clients client hclient).reached
    constructor
    case inProgress => apply h.inProgress
    case alone => apply h.alone
    case opened => exact fun _ _ _ _ => hclosed
    case closed =>
      rw [hclosed]
      nofun
    case reached =>
      rw [hfor]
      apply h.reached
    case undone =>
      intro _ hfinish e he hdone
      rcases hmem e he with he | rfl
      · exact h.undone hopen hfinish e he hdone
      · rw [hpayload] at hdone
        obtain ⟨-, c, hc, g, hcg⟩ := hframe hdone
        exact hfinish c hc g hcg
    case dones =>
      intro e he hdone
      rcases hmem e he with he | rfl
      · simpa only [Stale, hfor] using h.dones e he hdone
      · rw [hpayload] at hdone ⊢
        rw [(hframe hdone).1]
        simp [Generation.before]
    case clients =>
      intro client hclient
      obtain ⟨i, hi⟩ := List.getElem?_of_mem hclient
      rw [List.getElem?_mapIdx, Option.map_eq_some_iff] at hi
      obtain ⟨old, hold, rfl⟩ := hi
      have holdmem := List.mem_of_getElem? hold
      obtain ⟨hreached, hresumed, hkept, hframes⟩ := h.clients old holdmem
      have hseen : ∀ frames, (∀ e ∈ frames, e ∈ old.frames ∨ e = event) →
          Seen { s with stream := stream } { old with frames := frames } := by
        intro frames hfrom
        refine ⟨hreached, ?_, ?_, ?_⟩
        · rw [hfor]
          exact hresumed
        · intro hactive
          rw [hfor]
          rcases hkept hactive with hall | hread
          · left
            intro e he hdone
            rcases hmem e he with he | rfl
            · apply hall e he hdone
            · apply hnew old holdmem hdone
          · exact Or.inr hread
        · intro hactive e he hdone
          rcases hfrom e he with he | rfl
          · apply hframes hactive e he hdone
          · apply hnew old holdmem hdone
      split
      · obtain ⟨h₁, h₂, h₃, h₄⟩ := hseen (old.frames ++ [event]) (by simp)
        exact ⟨h₁, h₂, h₃, h₄⟩
      · obtain ⟨h₁, h₂, h₃, h₄⟩ := hseen old.frames (fun e he => Or.inl he)
        exact ⟨h₁, h₂, h₃, h₄⟩

/-- A completion goes on for its execution. -/
theorem Sound.proceed (h : Sound s) {c c' : Completion} (hi : s.completions[i]? = some c)
    (hc : c.generation = some g) (hc' : c'.generation = some g)
    (hopen : s.stream.closed = false) (hnot : ∀ g', c ≠ .finish g') :
  Sound { s with completions := s.completions.set i c' }
  := by
  have hold : ∀ (j : Nat) (b : Completion), (s.completions.set i c')[j]? = some b →
      ∃ b₀, s.completions[j]? = some b₀ ∧ b.generation = b₀.generation := by
    intro j b hj
    rcases (Pool.get_set hi).mp hj with ⟨rfl, rfl⟩ | ⟨-, hj⟩
    · exact ⟨c, hi, hc'.trans hc.symm⟩
    · exact ⟨b, hj, rfl⟩
  constructor
  case inProgress =>
    intro b hb g' hg'
    obtain ⟨j, hj⟩ := List.getElem?_of_mem hb
    obtain ⟨b₀, hj₀, hsame⟩ := hold j b hj
    apply h.inProgress b₀ (List.mem_of_getElem? hj₀) g' (hsame ▸ hg')
  case alone =>
    intro j k a b hj hk ha hb
    obtain ⟨a₀, hj₀, hsamea⟩ := hold j a hj
    obtain ⟨b₀, hk₀, hsameb⟩ := hold k b hk
    apply h.alone j k a₀ b₀ hj₀ hk₀ (hsamea ▸ ha) (hsameb ▸ hb)
  case opened => exact fun _ _ _ _ => hopen
  case closed =>
    rw [hopen]
    nofun
  case reached => apply h.reached
  case undone =>
    intro _ hfinish
    apply h.undone hopen
    intro b hb g' hbg
    obtain ⟨j, hj⟩ := List.getElem?_of_mem hb
    by_cases hji : j = i
    · rw [hji, hi, Option.some.injEq] at hj
      rw [hj] at hnot
      exact hnot g' hbg
    · exact hfinish b (List.mem_of_getElem? ((Pool.get_set hi).mpr (Or.inr ⟨hji, hj⟩))) g' hbg
  case dones => apply h.dones
  case clients =>
    intro client hclient
    obtain ⟨h₁, h₂, h₃, h₄⟩ := h.clients client hclient
    exact ⟨h₁, h₂, h₃, h₄⟩

/-- A completion finds the stream open for its execution. -/
theorem Sound.resumed (h : Sound s) (hi : s.completions[i]? = some (.resume g)) :
  (RunStream.resumeRun s.stream g).closed = false ∧ s.generation.before g = false
  := by
  have hmem := List.mem_of_getElem? hi
  obtain ⟨rfl, -⟩ := h.inProgress _ hmem g rfl
  refine ⟨?_, by simp [Generation.before]⟩
  rcases resumeRun_cases s.stream s.generation with ⟨hsame, hearlier⟩ | ⟨-, -, -, hopen, -⟩
  · rw [hsame]
    by_contra hclosed
    rw [Bool.not_eq_false] at hclosed
    rcases h.closed hclosed with ⟨hcount, hstale⟩ | ⟨hnone, -⟩
    · rcases hearlier with hzero | hnot
      · omega
      · rw [hnot] at hstale
        cases hstale
    · cases hnone _ hmem
  · exact hopen

/-- A completion finishes the stream of its execution. -/
theorem Sound.finish (h : Sound s) (hi : s.completions[i]? = some (.finish g)) :
  Sound { s with stream := s.stream.finish.1, completions := s.completions.set i .ended }
  := by
  have hmem := List.mem_of_getElem? hi
  obtain ⟨-, hended, hfinished⟩ := h.inProgress _ hmem g rfl
  have hopen : s.stream.closed = false := h.opened _ hmem g (Or.inr (Or.inr rfl))
  have hstream : s.stream.finish.1 = { s.stream with closed := true, subscribers := [] } := by
    simp [Stream.finish, hopen]
  have hnone : ∀ c ∈ s.completions.set i .ended, c.generation = none := by
    intro c hc
    obtain ⟨j, hj⟩ := List.getElem?_of_mem hc
    rcases (Pool.get_set hi).mp hj with ⟨-, rfl⟩ | ⟨hne, hj⟩
    · rfl
    · by_contra hsome
      exact hne (h.alone j i c _ hj hi hsome (Option.some_ne_none _))
  rw [hstream]
  constructor
  case inProgress =>
    intro c hc g' hg'
    rw [hnone c hc] at hg'
    cases hg'
  case alone =>
    intro j k a b hj _ ha
    exact absurd (hnone a (List.mem_of_getElem? hj)) ha
  case opened =>
    intro c hc g' hphase
    have hc' := hnone c hc
    rcases hphase with rfl | rfl | rfl <;> cases hc'
  case closed => exact fun _ => Or.inr ⟨hnone, hfinished, hended⟩
  case reached => apply h.reached
  case undone =>
    intro hopen
    cases hopen
  case dones => apply h.dones
  case clients =>
    intro client hclient
    obtain ⟨h₁, h₂, h₃, h₄⟩ := h.clients client hclient
    exact ⟨h₁, h₂, h₃, h₄⟩

theorem publish_completions (s : RunStream) (frame : RunFrame) (completions : List Completion) :
  { s.publish frame with completions := completions }
    = RunStream.publish { s with completions := completions } frame
  := by
  simp only [RunStream.publish]
  split <;> rfl

/-- Every step of a completion keeps the streams apart. -/
theorem Sound.advance (h : Sound s) {c : Completion} (hi : s.completions[i]? = some c)
    (hs : s.advance i c = some s') :
  Sound s'
  := by
  have hmem := List.mem_of_getElem? hi
  cases c with
  | resume g =>
    cases hs
    obtain ⟨hopen, hreached⟩ := h.resumed hi
    apply (h.resumeRun hreached).proceed hi rfl rfl hopen nofun
  | announce g =>
    cases hs
    have hopen := h.opened _ hmem g (Or.inl rfl)
    have hnext : Sound { s with completions := s.completions.set i (.done g) } :=
      h.proceed hi rfl rfl hopen nofun
    rw [publish_completions]
    apply hnext.publish
    intro hdone
    cases hdone
  | done g =>
    cases hs
    have hopen := h.opened _ hmem g (Or.inr (Or.inl rfl))
    have hnext : Sound { s with completions := s.completions.set i (.finish g) } :=
      h.proceed hi rfl rfl hopen nofun
    have hself : .finish g ∈ s.completions.set i (.finish g) :=
      List.mem_of_getElem? (i := i) ((Pool.get_set hi).mpr (Or.inl ⟨rfl, rfl⟩))
    simp only [hopen, Bool.false_eq_true, if_false]
    rw [publish_completions]
    apply hnext.publish
    intro _
    exact ⟨(h.inProgress _ hmem g rfl).1, _, hself, g, rfl⟩
  | finish g =>
    cases hs
    apply h.finish hi
  | ended => cases hs

theorem ended_of_settled (h : s.completions.all (· = .ended) = true) :
  ∀ c ∈ s.completions, c = .ended
  := by
  simpa using h

/-- A completion starts when the run has ended. -/
theorem Sound.complete (h : Sound s) (hrunning : s.status ≠ .running)
    (hwave : s.waveFinished = false) (hended : ∀ c ∈ s.completions, c = .ended) :
  Sound { s with
    waveFinished := true
    completions := s.completions ++ [.resume s.generation] }
  := by
  have hcases : ∀ c ∈ s.completions ++ [.resume s.generation],
      c = .ended ∨ c = .resume s.generation := by
    intro c hc
    rcases List.mem_append.mp hc with hc | hc
    · exact Or.inl (hended c hc)
    · exact Or.inr (List.mem_singleton.mp hc)
  constructor
  case inProgress =>
    intro c hc g hg
    rcases hcases c hc with rfl | rfl
    · cases hg
    · cases hg
      exact ⟨rfl, hrunning, rfl⟩
  case alone =>
    intro j k a b hj hk ha hb
    rcases Pool.get_start.mp hj with ⟨hjlen, -⟩ | hj'
    · rcases Pool.get_start.mp hk with ⟨hklen, -⟩ | hk'
      · rw [hjlen, hklen]
      · rw [hended b (List.mem_of_getElem? hk')] at hb
        exact absurd rfl hb
    · rw [hended a (List.mem_of_getElem? hj')] at ha
      exact absurd rfl ha
  case opened =>
    intro c hc g hphase
    rcases hcases c hc with rfl | rfl <;> rcases hphase with hphase | hphase | hphase <;>
      cases hphase
  case closed =>
    intro hclosed
    rcases h.closed hclosed with hstale | ⟨-, hfinished, -⟩
    · exact Or.inl hstale
    · rw [hwave] at hfinished
      cases hfinished
  case reached => apply h.reached
  case undone =>
    intro hopen _
    apply h.undone hopen
    intro c hc g hfinish
    rw [hended c hc] at hfinish
    cases hfinish
  case dones => apply h.dones
  case clients =>
    intro client hclient
    obtain ⟨h₁, h₂, h₃, h₄⟩ := h.clients client hclient
    exact ⟨h₁, h₂, h₃, h₄⟩

theorem before_restarted (fromFailed : Bool) (hg : s.generation.before g = false) :
  g.before (restarted s.generation fromFailed) = true
  := by
  rw [Bool.eq_false_iff, Ne, before_iff] at hg
  rw [before_iff, restarted]
  cases fromFailed
  · simp only [Bool.false_eq_true, if_false]
    omega
  · simp only [if_true]
    omega

/-- A restart begins an execution after all completions have ended. -/
theorem Sound.restart (h : Sound s) {fromFailed : Bool}
    (hended : ∀ c ∈ s.completions, c = .ended)
    (hopen : fromFailed = false → s.stream.closed = false) :
  Sound { s with
    generation := restarted s.generation fromFailed
    status := .running
    waveFinished := false }
  := by
  have hstale : fromFailed = true → Stale { s with
      generation := restarted s.generation fromFailed
      status := .running
      waveFinished := false } := by
    rintro rfl
    exact ⟨Nat.succ_pos _, before_restarted true h.reached⟩
  have hlater : ∀ g : Generation, s.generation.before g = false →
      (restarted s.generation fromFailed).before g = false := by
    intro g hg
    have hbefore := before_restarted fromFailed hg
    rw [before_iff] at hbefore
    rw [Bool.eq_false_iff, Ne, before_iff]
    omega
  constructor
  case inProgress =>
    intro c hc g hg
    rw [hended c hc] at hg
    cases hg
  case alone =>
    intro j k a b hj _ ha
    rw [hended a (List.mem_of_getElem? hj)] at ha
    exact absurd rfl ha
  case opened =>
    intro c hc g hphase
    rw [hended c hc] at hphase
    rcases hphase with hphase | hphase | hphase <;> cases hphase
  case closed =>
    intro hclosed
    cases hfrom : fromFailed with
    | true => exact Or.inl (hfrom ▸ hstale hfrom)
    | false =>
      rw [hopen hfrom] at hclosed
      cases hclosed
  case reached => apply hlater _ h.reached
  case undone => apply h.undone
  case dones =>
    intro e he hdone
    cases hfrom : fromFailed with
    | true => exact Or.inr (hfrom ▸ hstale hfrom)
    | false =>
      -- an open stream that no completion is about to close holds no done frame
      exfalso
      apply h.undone (hopen hfrom) _ e he hdone
      intro c hc g hfinish
      rw [hended c hc] at hfinish
      cases hfinish
  case clients =>
    intro client hclient
    obtain ⟨hreached, h₂, h₃, h₄⟩ := h.clients client hclient
    exact ⟨hlater _ hreached, h₂, h₃, h₄⟩

/-- A run that runs may end. -/
theorem Sound.endRun (h : Sound s) (hrunning : s.status = .running) (status : RunPhase) :
  Sound { s with status := status }
  := by
  constructor
  case inProgress =>
    intro c hc g hg
    exact absurd hrunning (h.inProgress c hc g hg).2.1
  case alone => apply h.alone
  case opened => apply h.opened
  case closed =>
    intro hclosed
    rcases h.closed hclosed with hstale | ⟨-, -, hnot⟩
    · exact Or.inl hstale
    · exact absurd hrunning hnot
  case reached => apply h.reached
  case undone => apply h.undone
  case dones => apply h.dones
  case clients =>
    intro client hclient
    obtain ⟨h₁, h₂, h₃, h₄⟩ := h.clients client hclient
    exact ⟨h₁, h₂, h₃, h₄⟩

theorem Sound.updateClients (h : Sound s) {clients : List RunClient}
    (hclients : ∀ client ∈ clients, Seen s client) :
  Sound { s with clients := clients }
  := by
  refine ⟨h.inProgress, h.alone, h.opened, h.closed, h.reached, h.undone, h.dones, ?_⟩
  intro client hclient
  obtain ⟨h₁, h₂, h₃, h₄⟩ := hclients client hclient
  exact ⟨h₁, h₂, h₃, h₄⟩

theorem Sound.updateSubscribers (h : Sound s) (subscribers : List Nat) :
  Sound { s with stream := { s.stream with subscribers := subscribers } }
  := by
  refine ⟨h.inProgress, h.alone, h.opened, h.closed, h.reached, h.undone, h.dones, ?_⟩
  intro client hclient
  obtain ⟨h₁, h₂, h₃, h₄⟩ := h.clients client hclient
  exact ⟨h₁, h₂, h₃, h₄⟩

theorem Sound.setClient (h : Sound s) (hclient : Seen s client) :
  Sound { s with clients := s.clients.set i client }
  := by
  apply h.updateClients
  intro c hc
  rcases Pool.mem_of_set hc with rfl | hc
  · exact hclient
  · apply h.clients c hc

/-- A client connects with the execution that it has read. -/
theorem Sound.connect (h : Sound s) (active : Bool) (since : Nat) :
  Sound { s with clients := s.clients ++ [⟨s.generation, active, since, .read, []⟩] }
  := by
  apply h.updateClients
  intro c hc
  rcases List.mem_append.mp hc with hc | hc
  · apply h.clients c hc
  · rw [List.mem_singleton.mp hc]
    refine ⟨by simp [Generation.before], fun hphase => absurd rfl hphase, ?_, nofun⟩
    intro _
    by_cases hstale : Stale s
    · exact Or.inr ⟨rfl, hstale⟩
    · left
      intro e he hdone
      rcases h.dones e he hdone with hdone | hstale'
      · exact hdone
      · exact absurd hstale' hstale

/-- A client opens the stream for the execution that it has read. -/
theorem Sound.resumeClient (h : Sound s) {active : Bool} {since : Nat}
    {frames : List (Event RunFrame)}
    (hi : s.clients[i]? = some ⟨g, active, since, .read, frames⟩) :
  Sound { s with
    stream := RunStream.resumeRun s.stream g
    clients := s.clients.set i ⟨g, active, since, .resumed, frames⟩ }
  := by
  obtain ⟨hreached, -, hkept, hframes⟩ := h.clients _ (List.mem_of_getElem? hi)
  apply (h.resumeRun hreached).setClient
  rcases resumeRun_cases s.stream g with ⟨hsame, hearlier⟩ | ⟨-, -, hfor, -, hnone⟩
  · refine ⟨hreached, ?_, ?_, hframes⟩
    · intro _ hcount
      rw [hsame]
      rcases hearlier with hzero | hnot
      · simp only at hcount
        omega
      · exact hnot
    · intro hactive
      rw [hsame]
      rcases hkept hactive with hall | ⟨-, hcount, hlater⟩
      · exact Or.inl hall
      · rcases hearlier with hzero | hnot
        · simp only at hcount
          omega
        · rw [hnot] at hlater
          cases hlater
  · refine ⟨hreached, ?_, ?_, hframes⟩
    · intro _ _
      rw [hfor]
      simp [Generation.before]
    · intro _
      rw [hnone]
      exact Or.inl nofun

theorem Sound.subscribe (h : Sound s) {active : Bool} {since : Nat}
    {frames : List (Event RunFrame)}
    (hi : s.clients[i]? = some ⟨g, active, since, .resumed, frames⟩) :
  Sound { s with
    stream := (s.stream.subscribe i since).1
    clients := s.clients.set i ⟨g, active, since, .subscribed, (s.stream.subscribe i since).2.1⟩ }
  := by
  obtain ⟨hreached, hresumed, hkept, -⟩ := h.clients _ (List.mem_of_getElem? hi)
  have hall : active = true → ∀ e ∈ s.stream.snapshot, e.payload.kind = .done →
      e.payload.generation.before g = false := by
    intro hactive
    rcases hkept hactive with hall | ⟨hread, -⟩
    · exact hall
    · cases hread
  have hclient : Seen s ⟨g, active, since, .subscribed, s.stream.after since⟩ := by
    refine ⟨hreached, fun _ => hresumed nofun, fun hactive => Or.inl (hall hactive), ?_⟩
    intro hactive e he hdone
    apply hall hactive e (Stream.mem_snapshot_of_mem_after he) hdone
  rw [Stream.subscribe_eq]
  apply (h.setClient hclient).updateSubscribers

theorem Sound.cancel (h : Sound s) {active : Bool} {since : Nat} {frames : List (Event RunFrame)}
    (hi : s.clients[i]? = some ⟨g, active, since, .subscribed, frames⟩) :
  Sound { s with
    stream := s.stream.drop i
    clients := s.clients.set i ⟨g, active, since, .ended, frames⟩ }
  := by
  obtain ⟨hreached, hresumed, hkept, hframes⟩ := h.clients _ (List.mem_of_getElem? hi)
  have hclient : Seen s ⟨g, active, since, .ended, frames⟩ := by
    refine ⟨hreached, fun _ => hresumed nofun, ?_, hframes⟩
    intro hactive
    rcases hkept hactive with hall | ⟨hread, -⟩
    · exact Or.inl hall
    · cases hread
  exact (h.setClient hclient).updateSubscribers _

/-- Every settled event keeps the streams of the executions apart. -/
theorem Sound.step (h : Sound s) {e : RunStreamEvent} (ha : s.settled e = true)
    (hs : step e s = some s') :
  Sound s'
  := by
  cases e with
  | endRun succeeded =>
    simp only [RunStream.step] at hs
    split at hs
    · rename_i hrunning
      cases hs
      apply h.endRun hrunning
    · cases hs
  | restart fromFailed =>
    simp only [settled, Bool.and_eq_true, Bool.or_eq_true, Bool.not_eq_true'] at ha
    simp only [RunStream.step] at hs
    split at hs
    · cases hs
      apply h.restart (ended_of_settled ha.1)
      rintro rfl
      simpa using ha.2
    · cases hs
  | stage =>
    cases hs
    apply h.publish
    intro hdone
    cases hdone
  | complete =>
    simp only [settled, Bool.and_eq_true, Bool.not_eq_true'] at ha
    simp only [RunStream.step] at hs
    split at hs
    · cases hs
    · rename_i hrunning
      cases hs
      apply h.complete hrunning ha.1 (ended_of_settled ha.2)
  | advance i =>
    simp only [RunStream.step] at hs
    split at hs
    · rename_i hi
      apply h.advance hi hs
    · cases hs
  | connect since =>
    cases hs
    apply h.connect
  | resume i =>
    simp only [RunStream.step] at hs
    split at hs
    · rename_i hi
      cases hs
      apply h.resumeClient hi
    · cases hs
  | subscribe i =>
    simp only [RunStream.step] at hs
    split at hs
    · rename_i hi
      split at hs
      · rename_i hterminal
        cases hs
        obtain ⟨hreached, hresumed, -⟩ := h.clients _ (List.mem_of_getElem? hi)
        apply h.setClient
        refine ⟨hreached, fun _ => hresumed nofun, ?_, ?_⟩
        · intro hactive
          simp [hterminal.2] at hactive
        · intro hactive
          simp [hterminal.2] at hactive
      · cases hs
        apply h.subscribe hi
    · cases hs
  | cancel i =>
    simp only [RunStream.step] at hs
    split at hs
    · rename_i hi
      cases hs
      apply h.cancel hi
    · cases hs

end Sound

/-! ### Frames stay in their generation -/

section Main

variable {past : List (RunStream × RunStreamEvent)} {s : RunStream}

/-- In every run no number is given twice. In every run all of whose steps are settled, a client
that has read the run as running is sent no done frame of an earlier generation than it has read;
and once it has subscribed, the stream accepts every frame that is published for that generation. -/
theorem terminal_frames_of_one_generation (h : machine.Execution past s) :
  (s.log.map Event.id).Nodup
    ∧ ((∀ x ∈ past, x.1.settled x.2 = true) → ∀ client ∈ s.clients, client.active = true →
        (∀ e ∈ client.frames, e.payload.kind = .done →
          e.payload.generation.before client.generation = false)
        ∧ (client.phase = .subscribed → ∀ e, s.settled e = true →
            s.published e = some client.generation → s.stream.closed = false))
  := by
  have hlogged : Logged s := by
    apply h.invariant
    · intro s hinit
      constructor <;> simp [hinit.log]
    · intro s e s' hlogged hs
      apply hlogged.step hs
  refine ⟨hlogged.nodup, ?_⟩
  intro ha client hclient hactive
  have hsound : Sound s := by
    apply h.invariant_of_allowed settled (fun _ => Initial.sound) _ ha
    intro s e s' hsound hallowed hs
    apply hsound.step hallowed hs
  have hseen := hsound.clients client hclient
  refine ⟨hseen.frames hactive, ?_⟩
  intro hphase e hsettled hpublished
  cases e with
  | stage =>
    -- the run is running: a closed stream would wait for a resumption this client has announced
    simp only [settled, decide_eq_true_eq] at hsettled
    simp only [published, Option.some.injEq] at hpublished
    by_contra hclosed
    rw [Bool.not_eq_false] at hclosed
    rcases hsound.closed hclosed with ⟨hcount, hstale⟩ | ⟨-, -, hnot⟩
    · rw [hpublished] at hcount hstale
      rw [hseen.resumed (by rw [hphase]; nofun) hcount] at hstale
      cases hstale
    · exact hnot hsettled
  | advance i =>
    simp only [published] at hpublished
    split at hpublished
    · rename_i g hi
      exact hsound.opened _ (List.mem_of_getElem? hi) g (Or.inl rfl)
    · rename_i g hi
      exact hsound.opened _ (List.mem_of_getElem? hi) g (Or.inr (Or.inl rfl))
    · cases hpublished
  | _ => cases hpublished

end Main

/-! ### A run and its restarts -/

namespace Sample

def started : RunStream :=
  ⟨⟨1, 0⟩, .running, false, Stream.new 4, [], [], []⟩

theorem started_initial : Initial started := by
  constructor <;> rfl

/-- The run fails and completes, up to the given step of the completion. -/
def failing (steps : Nat) : List RunStreamEvent :=
  [.endRun false, .complete] ++ List.replicate steps (.advance 0)

/-- A client connects. -/
def connecting : List RunStreamEvent :=
  [.connect 0, .resume 0, .subscribe 0]

/-- The client has read the run as running, and was sent a done frame of an earlier generation. -/
def sentEarlierDone (s : RunStream) : Bool :=
  match s.clients[0]? with
  | some client => client.active && client.frames.any fun e =>
    e.payload.kind = .done && e.payload.generation.before client.generation
  | none => false

/-- The client has subscribed in the generation the run is running in, and its stream is closed. -/
def closedForClient (s : RunStream) : Bool :=
  match s.clients[0]? with
  | some client => client.active && client.phase = .subscribed && s.status = .running
      && s.published .stage = some client.generation && s.stream.closed
  | none => false

/-- A run that ends in a state with the property. -/
def Reaches (events : List RunStreamEvent) (p : RunStream → Bool) : Prop :=
  ∃ past s, machine.Execution past s ∧ past.map Prod.snd = events.reverse ∧ p s = true

theorem reaches_of_follow {events : List RunStreamEvent} {p : RunStream → Bool}
    (h : (machine.follow started events).map p = some true) :
  Reaches events p
  := by
  obtain ⟨s, hfollow, hp⟩ := Option.map_eq_some_iff.mp h
  obtain ⟨past, hexec, hlabels⟩ := Machine.Execution.of_follow started_initial hfollow
  exact ⟨past, s, hexec, hlabels, hp⟩

end Sample

/-- A run that fails, completes and is resumed; a client connects and is sent the progress of a
stage. -/
theorem terminal_frames_of_one_generation_sample :
  ∃ past s client, machine.Execution past s ∧ client ∈ s.clients ∧ client.active = true
    ∧ client.frames.map (·.payload.kind) = [.stage]
    ∧ (s.log.map Event.id).Nodup
    ∧ ∀ e ∈ client.frames, e.payload.kind = .done →
        e.payload.generation.before client.generation = false
  := by
  have hrun : (((machine.restrict settled).follow Sample.started
      (Sample.failing 4 ++ [.restart true] ++ Sample.connecting ++ [.stage])).bind
      (·.clients[0]?)).map (fun client => (client.active, client.frames.map (·.payload.kind)))
      = some (true, [.stage]) := by decide +kernel
  obtain ⟨client, hclient, heq⟩ := Option.map_eq_some_iff.mp hrun
  obtain ⟨s, hfollow, hi⟩ := Option.bind_eq_some_iff.mp hclient
  obtain ⟨past, hexec, hall⟩ := Machine.Execution.of_follow_restrict Sample.started_initial hfollow
  obtain ⟨hactive, hframes⟩ := Prod.mk.inj heq
  obtain ⟨hnodup, hmain⟩ := terminal_frames_of_one_generation hexec
  have hmem := List.mem_of_getElem? hi
  exact ⟨past, s, client, hexec, hmem, hactive, hframes, hnodup, (hmain hall client hmem hactive).1⟩

/-- After a full restart a client is sent the done frame of the attempt before, and the stream is
closed for it. After a restart while a completion is in progress, the completion publishes its done
frame to the client, or closes the stream for it. -/
theorem terminal_frames_of_earlier_generation :
  Sample.Reaches (Sample.failing 4 ++ [.restart false] ++ Sample.connecting) Sample.sentEarlierDone
    ∧ Sample.Reaches (Sample.failing 4 ++ [.restart false] ++ Sample.connecting)
        Sample.closedForClient
    ∧ Sample.Reaches (Sample.failing 2 ++ [.restart true] ++ Sample.connecting ++ [.advance 0])
        Sample.sentEarlierDone
    ∧ Sample.Reaches (Sample.failing 3 ++ [.restart true] ++ Sample.connecting ++ [.advance 0])
        Sample.closedForClient
  := by
  refine ⟨?_, ?_, ?_, ?_⟩ <;> exact Sample.reaches_of_follow (by decide +kernel)

end RunStream

end Ploy
