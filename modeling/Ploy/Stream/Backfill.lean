import Ploy.Stream.JobLogs

/-!
# The backfill shows every record once

What a connection has still to meet on the stream begins with the records that the backfill has
written, each of which it looks for, and goes on with records that it does not look for. So it
leaves out the former and writes the latter.
-/

namespace Ploy

/-! ### Records of events -/

@[simp]
theorem records_nil :
  records [] = []
  := rfl

@[simp]
theorem records_append (a b : List (Event JobFrame)) :
  records (a ++ b) = records a ++ records b
  := List.filterMap_append

theorem records_of_isDone {e : Event JobFrame} (h : e.payload.isDone = true) :
  records [e] = []
  := by
  obtain ⟨id, frame⟩ := e
  cases frame with
  | done status => rfl
  | _ => cases h

@[simp]
theorem records_backfill (chunks : List LogChunk) :
  records (JobLog.backfill chunks) = chunks.flatMap LogChunk.records
  := by
  rw [JobLog.backfill, records, List.filterMap_map]
  exact List.filterMap_some

theorem id_of_getElem? {l : List (Event JobFrame)} {n i : Nat} {e : Event JobFrame}
    (h : l.map Event.id = List.range' 1 n) (hi : l[i]? = some e) :
  e.id = i + 1
  := by
  have hmap : (l.map Event.id)[i]? = some e.id := by rw [List.getElem?_map, hi]; rfl
  rw [h] at hmap
  obtain ⟨hlt, heq⟩ := List.getElem?_eq_some_iff.mp hmap
  rw [List.getElem_range'] at heq
  omega

/-- What comes after a cursor is what follows as many events. -/
theorem filter_eq_drop {l : List (Event JobFrame)} {n : Nat}
    (h : l.map Event.id = List.range' 1 n) (cursor : Nat) :
  l.filter (cursor < ·.id) = l.drop cursor
  := by
  conv_lhs => rw [← List.take_append_drop cursor l]
  rw [List.filter_append, List.filter_eq_nil_iff.mpr, List.nil_append, List.filter_eq_self.mpr]
  · intro e he
    obtain ⟨i, hi⟩ := List.getElem?_of_mem he
    rw [List.getElem?_drop] at hi
    have := id_of_getElem? h hi
    simp only [decide_eq_true_eq]
    omega
  · intro e he
    obtain ⟨i, hi⟩ := List.getElem?_of_mem he
    rw [List.getElem?_take] at hi
    split at hi
    · have := id_of_getElem? h hi
      simp only [decide_eq_true_eq]
      omega
    · cases hi

namespace JobLog

/-! ### What a connection has to meet -/

/-- What is left to meet on the stream, as the records that a connection has written and looks for,
and then the records that it has not written and does not look for. -/
structure Ready (all base rest : List LogRecord) (c : LogConnection) : Prop where
  split : ∃ pending fresh, rest = pending ++ fresh ∧ all = base ++ records c.written ++ fresh
    ∧ pending.Nodup ∧ (∀ r ∈ pending, r ∈ c.backfilled) ∧ ∀ r ∈ fresh, r ∉ c.backfilled

section Ready

variable {all base rest new : List LogRecord} {c : LogConnection} {e : Event JobFrame}

theorem Ready.persist (h : Ready all base rest c) (hnew : ∀ r ∈ new, r ∉ c.backfilled) :
  Ready (all ++ new) base (rest ++ new) c
  := by
  obtain ⟨pending, fresh, rfl, rfl, hnodup, hpending, hfresh⟩ := h.split
  refine ⟨pending, fresh ++ new, ?_, ?_, hnodup, hpending, ?_⟩
  · rw [List.append_assoc]
  · rw [List.append_assoc (base ++ records c.written)]
  · intro r hr
    rcases List.mem_append.mp hr with hr | hr
    · apply hfresh r hr
    · apply hnew r hr

/-- A record that the backfill has shown is skipped, and any other is shown. -/
theorem Ready.consume (h : Ready all base (records [e] ++ rest) c) :
  Ready all base rest (c.consumeBackfilledLogEvent e)
  := by
  obtain ⟨pending, fresh, hrest, hall, hnodup, hpending, hfresh⟩ := h.split
  obtain ⟨id, frame⟩ := e
  cases frame with
  | log record =>
    change record :: rest = pending ++ fresh at hrest
    cases pending with
    | nil =>
      -- nothing is looked for: the record is written
      rw [List.nil_append] at hrest
      subst hrest
      have hnot := hfresh record List.mem_cons_self
      refine ⟨[], rest, rfl, ?_, List.nodup_nil, nofun, ?_⟩
      · simp only [LogConnection.consumeBackfilledLogEvent, if_neg hnot, records_append]
        rw [hall]
        simp [records, JobFrame.record?]
      · simp only [LogConnection.consumeBackfilledLogEvent, if_neg hnot]
        exact fun r hr => hfresh r (List.mem_cons_of_mem _ hr)
    | cons first pending =>
      -- the record is looked for, and no later one is the same
      obtain ⟨rfl, rfl⟩ := List.cons.inj hrest
      have hin := hpending record List.mem_cons_self
      obtain ⟨hfirst, hnodup⟩ := List.nodup_cons.mp hnodup
      refine ⟨pending, fresh, rfl, ?_, hnodup, ?_, ?_⟩
      · simpa only [LogConnection.consumeBackfilledLogEvent, if_pos hin] using hall
      · simp only [LogConnection.consumeBackfilledLogEvent, if_pos hin]
        intro r hr
        refine List.mem_filter.mpr ⟨hpending r (List.mem_cons_of_mem _ hr), ?_⟩
        simp only [decide_eq_true_eq]
        rintro rfl
        exact hfirst hr
      · simp only [LogConnection.consumeBackfilledLogEvent, if_pos hin]
        exact fun r hr hmem => hfresh r hr (List.mem_of_mem_filter hmem)
  | retention _ | done _ =>
    refine ⟨pending, fresh, hrest, ?_, hnodup, hpending, hfresh⟩
    simpa [LogConnection.consumeBackfilledLogEvent, records, JobFrame.record?] using hall

theorem Ready.eq_of_fresh (h : Ready all base rest c)
    (hhead : rest = [] ∨ c.backfilled = [] ∨ ∃ r rest', rest = r :: rest' ∧ r ∉ c.backfilled) :
  all = base ++ records c.written ++ rest
  := by
  obtain ⟨pending, fresh, rfl, hall, -, hpending, -⟩ := h.split
  cases pending with
  | nil => exact hall
  | cons first pending =>
    have hin := hpending first List.mem_cons_self
    rcases hhead with hnil | hnone | ⟨r, rest', hcons, hnot⟩
    · cases hnil
    · rw [hnone] at hin
      cases hin
    · cases hcons
      exact absurd hin hnot

end Ready

/-! ### What the condition keeps -/

/-- A record with a number, and every frame of a connection that goes on after an event, tells how
far the records have got. -/
def Marks (s : JobLog) (c : LogConnection) : Prop :=
  ∀ (w : List (Event JobFrame)) (e : Event JobFrame) (rest : List (Event JobFrame)),
    c.written = w ++ e :: rest → (e.payload.record?.isSome = true ∧ 0 < e.id) ∨ 0 < c.since →
      0 < e.id ∧ e.id ≤ s.log.length
        ∧ records (s.log.take c.since) ++ records (w ++ [e]) = records (s.log.take e.id)

/-- A done frame is the last one, and comes after all records. -/
def Complete (s : JobLog) (c : LogConnection) : Prop :=
  ∀ (w : List (Event JobFrame)) (e : Event JobFrame) (rest : List (Event JobFrame)),
    c.written = w ++ e :: rest → e.payload.isDone = true →
      rest = [] ∧ s.terminal.isSome = true
        ∧ s.persisted = records (s.log.take c.since) ++ records c.written

/-- A connection that has still to meet the events `back`, and then what is published after them. -/
structure Meets (s : JobLog) (c : LogConnection) (back : List (Event JobFrame)) : Prop where
  suffix : back <:+ s.log
  ready : Ready s.persisted (records (s.log.take c.since))
    (records back ++ s.ingests.flatten) c
  undone : ∀ e ∈ c.written, e.payload.isDone = false

def AtPhase (s : JobLog) (i : Nat) (c : LogConnection) : LogPhase → Prop
  | .start => c.since = 0 ∧ c.written = [] ∧ c.backfilled = []
  | .listing preCursor => preCursor ≤ s.log.length ∧ c.since = 0 ∧ c.written = []
    ∧ c.backfilled = []
  | .replaying preCursor => preCursor ≤ s.log.length ∧ c.since = 0
    ∧ Meets s c (s.log.drop preCursor)
  | .subscribing cursor => cursor ≤ s.log.length ∧ Meets s c (s.log.drop cursor)
  | .live => Meets s c c.queue ∧ (i ∈ s.stream.subscribers ∨ s.stream.closed = true)
  | .ended => ∃ fresh, s.persisted = records (s.log.take c.since) ++ records c.written ++ fresh

structure Shown (s : JobLog) (i : Nat) (c : LogConnection) : Prop where
  since : c.since ≤ s.log.length
  resumed : 0 < c.since → c.backfilled = []
  terminal : c.terminal.isSome = true → s.terminal.isSome = true
  phase : AtPhase s i c c.phase
  marks : Marks s c
  complete : Complete s c

/-- The events are numbered from one on, the stream keeps the last of them, their records and those
left to publish are the persisted ones, and every connection is on its way through them. -/
structure Sound (s : JobLog) : Prop where
  numbered : s.log.map Event.id = List.range' 1 s.stream.nextEventID
  kept : s.stream.snapshot <:+ s.log
  persisted : s.persisted = records s.log ++ s.ingests.flatten
  ended : s.terminal.isSome = true → s.ingests.flatten = []
  closed : s.stream.closed = true → s.terminal.isSome = true
  done : ∀ (front : List (Event JobFrame)) (e : Event JobFrame) (back : List (Event JobFrame)),
    s.log = front ++ e :: back → e.payload.isDone = true →
      s.terminal.isSome = true ∧ records back = []
  connections : ∀ (i : Nat) (c : LogConnection), s.connections[i]? = some c → Shown s i c

section Consume

variable {s : JobLog} {c : LogConnection} {e : Event JobFrame} {front back : List (Event JobFrame)}

theorem consume_fields (c : LogConnection) (e : Event JobFrame) :
  (c.consumeBackfilledLogEvent e).since = c.since
    ∧ (c.consumeBackfilledLogEvent e).terminal = c.terminal
    ∧ (c.consumeBackfilledLogEvent e).queue = c.queue
    ∧ (c.consumeBackfilledLogEvent e).phase
      = (if e.payload.isDone then .ended else c.phase)
    ∧ (∀ r ∈ (c.consumeBackfilledLogEvent e).backfilled, r ∈ c.backfilled)
  := by
  obtain ⟨id, frame⟩ := e
  cases frame with
  | log record =>
    simp only [LogConnection.consumeBackfilledLogEvent, JobFrame.isDone, Bool.false_eq_true,
      if_false]
    split
    · exact ⟨rfl, rfl, rfl, rfl, fun r hr => List.mem_of_mem_filter hr⟩
    · exact ⟨rfl, rfl, rfl, rfl, fun r hr => hr⟩
  | retention _ | done _ => exact ⟨rfl, rfl, rfl, rfl, fun r hr => hr⟩

theorem consume_written (c : LogConnection) (e : Event JobFrame) :
  ((c.consumeBackfilledLogEvent e).written = c.written ++ [e]
      ∧ (∀ r, e.payload.record? = some r → r ∉ c.backfilled))
    ∨ ((c.consumeBackfilledLogEvent e).written = c.written ∧ e.payload.isDone = false)
  := by
  obtain ⟨id, frame⟩ := e
  cases frame with
  | log record =>
    simp only [LogConnection.consumeBackfilledLogEvent]
    split
    · exact Or.inr ⟨rfl, rfl⟩
    · rename_i hnot
      refine Or.inl ⟨rfl, ?_⟩
      rintro r hr
      cases hr
      exact hnot
  | retention _ | done _ => exact Or.inl ⟨rfl, nofun⟩

theorem snoc_split {α : Type} {l w rest : List α} {a b : α} (h : l ++ [a] = w ++ b :: rest) :
  (rest = [] ∧ w = l ∧ b = a) ∨ ∃ rest', l = w ++ b :: rest'
  := by
  rcases List.eq_nil_or_concat rest with rfl | ⟨init, last, rfl⟩
  · obtain ⟨rfl, hlast⟩ := List.append_inj' h rfl
    exact Or.inl ⟨rfl, rfl, (List.singleton_inj.mp hlast).symm⟩
  · right
    use init
    rw [List.concat_eq_append, ← List.cons_append, ← List.append_assoc] at h
    exact (List.append_inj' h rfl).1

theorem Sound.id_eq (h : Sound s) (hlog : s.log = front ++ e :: back) :
  e.id = front.length + 1 ∧ s.log.take e.id = front ++ [e]
  := by
  have hget : s.log[front.length]? = some e := by
    rw [hlog, List.getElem?_append_right (Nat.le_refl _), Nat.sub_self]
    rfl
  have hid := id_of_getElem? h.numbered hget
  refine ⟨hid, ?_⟩
  rw [hid, hlog, ← List.singleton_append, ← List.append_assoc]
  apply List.take_left'
  rw [List.length_append]
  rfl

theorem Meets.undone_of_split (h : Meets s c back) {w rest : List (Event JobFrame)}
    (hsplit : c.written = w ++ e :: rest) :
  e.payload.isDone = false
  := by
  apply h.undone
  rw [hsplit]
  exact List.mem_append_right _ List.mem_cons_self

theorem Meets.unended (h : Meets s c back) :
  Complete s c
  := by
  intro w e' rest hsplit hdone
  rw [h.undone_of_split hsplit] at hdone
  cases hdone

/-- A connection goes on to meet what comes next. -/
theorem Meets.consume (h : Meets s c (e :: back)) (hdone : e.payload.isDone = false) :
  Meets s (c.consumeBackfilledLogEvent e) back
  := by
  obtain ⟨hsince, -⟩ := consume_fields c e
  constructor
  · exact (List.suffix_cons e back).trans h.suffix
  · rw [hsince]
    apply Ready.consume
    rw [← List.append_assoc, ← records_append]
    exact h.ready
  · intro e' he'
    rcases consume_written c e with ⟨hwritten, -⟩ | ⟨hwritten, -⟩
    · rw [hwritten] at he'
      rcases List.mem_append.mp he' with he' | he'
      · apply h.undone e' he'
      · rw [List.mem_singleton.mp he']
        exact hdone
    · rw [hwritten] at he'
      apply h.undone e' he'

/-- A frame that is consumed tells how far the records have got. -/
theorem Meets.marks (hs : Sound s) (h : Meets s c (e :: back)) (hmarks : Marks s c)
    (hresumed : 0 < c.since → c.backfilled = []) :
  Marks s (c.consumeBackfilledLogEvent e)
  := by
  obtain ⟨hsince, -⟩ := consume_fields c e
  intro w e' rest hsplit hkind
  rw [hsince] at hkind ⊢
  rcases consume_written c e with ⟨hwritten, hnot⟩ | ⟨hwritten, -⟩
  · rw [hwritten] at hsplit
    rcases snoc_split hsplit with ⟨rfl, rfl, rfl⟩ | ⟨rest', hold⟩
    · -- the frame is new: nothing is looked for before it
      obtain ⟨front, hlog⟩ := h.suffix
      obtain ⟨hplace, htake⟩ := hs.id_eq hlog.symm
      have hall := h.ready.eq_of_fresh (by
        rcases hkind with ⟨hrecord, -⟩ | hpos
        · obtain ⟨r, hr⟩ := Option.isSome_iff_exists.mp hrecord
          refine Or.inr (Or.inr ⟨r, records back ++ s.ingests.flatten, ?_, hnot r hr⟩)
          simp [records, hr]
        · exact Or.inr (Or.inl (hresumed hpos)))
      have hpersisted := hs.persisted
      rw [← hlog, records_append, List.append_assoc] at hpersisted
      rw [hpersisted] at hall
      have hfront := List.append_cancel_right hall
      refine ⟨by omega, ?_, ?_⟩
      · rw [hplace, ← hlog, List.length_append, List.length_cons]
        omega
      · rw [htake, records_append, records_append, ← List.append_assoc, ← hfront]
    · exact hmarks w e' rest' hold hkind
  · rw [hwritten] at hsplit
    exact hmarks w e' rest hsplit hkind

/-- At the end of the stream everything was shown. -/
theorem Meets.complete (hs : Sound s) (h : Meets s c (e :: back))
    (hdone : e.payload.isDone = true) :
  Complete s (c.consumeBackfilledLogEvent e)
    ∧ s.persisted = records (s.log.take c.since) ++ records (c.consumeBackfilledLogEvent e).written
  := by
  obtain ⟨hsince, -⟩ := consume_fields c e
  obtain ⟨front, hlog⟩ := h.suffix
  obtain ⟨hterminal, hback⟩ := hs.done front e back hlog.symm hdone
  have hrest : records (e :: back) ++ s.ingests.flatten = [] := by
    rw [hs.ended hterminal, List.append_nil, ← List.singleton_append, records_append,
      records_of_isDone hdone, hback]
    rfl
  have hall := h.ready.eq_of_fresh (Or.inl hrest)
  rw [hrest, List.append_nil] at hall
  have hwritten : (c.consumeBackfilledLogEvent e).written = c.written ++ [e] := by
    rcases consume_written c e with ⟨hwritten, -⟩ | ⟨-, hnot⟩
    · exact hwritten
    · rw [hdone] at hnot
      cases hnot
  have hall' : s.persisted
      = records (s.log.take c.since) ++ records (c.consumeBackfilledLogEvent e).written := by
    rw [hwritten, records_append, records_of_isDone hdone, List.append_nil]
    exact hall
  refine ⟨?_, hall'⟩
  intro w e' rest hsplit hdone'
  rw [hsince]
  refine ⟨?_, hterminal, hall'⟩
  rw [hwritten] at hsplit
  rcases snoc_split hsplit with ⟨hnil, -⟩ | ⟨rest', hold⟩
  · exact hnil
  · -- no done frame was written before
    rw [h.undone_of_split hold] at hdone'
    cases hdone'

end Consume

/-! ### What a connection meets at once -/

section ConsumeAll

variable {s : JobLog} {c : LogConnection}

theorem consumeAll_fields (c : LogConnection) (back : List (Event JobFrame)) :
  (c.consumeAll back).since = c.since ∧ (c.consumeAll back).terminal = c.terminal
    ∧ (∀ r ∈ (c.consumeAll back).backfilled, r ∈ c.backfilled)
  := by
  induction back generalizing c with
  | nil => exact ⟨rfl, rfl, fun r hr => hr⟩
  | cons e back ih =>
    obtain ⟨hsince, hterminal, -, -, hbackfilled⟩ := consume_fields c e
    rw [LogConnection.consumeAll]
    split
    · exact ⟨hsince, hterminal, hbackfilled⟩
    · obtain ⟨hsince', hterminal', hbackfilled'⟩ := ih (c.consumeBackfilledLogEvent e)
      exact ⟨hsince'.trans hsince, hterminal'.trans hterminal,
        fun r hr => hbackfilled r (hbackfilled' r hr)⟩

/-- A connection consumes what comes, event after event. -/
theorem Meets.consumeAll (hs : Sound s) {back : List (Event JobFrame)} (h : Meets s c back)
    (hmarks : Marks s c) (hresumed : 0 < c.since → c.backfilled = []) :
  Marks s (c.consumeAll back)
    ∧ (back.any (·.payload.isDone) = false → Meets s (c.consumeAll back) [])
    ∧ (back.any (·.payload.isDone) = true → (c.consumeAll back).phase = .ended
      ∧ Complete s (c.consumeAll back)
      ∧ s.persisted = records (s.log.take c.since) ++ records (c.consumeAll back).written)
  := by
  induction back generalizing c with
  | nil => exact ⟨hmarks, fun _ => h, nofun⟩
  | cons e back ih =>
    obtain ⟨hsince, -, -, hphase, hbackfilled⟩ := consume_fields c e
    have hmarks' := h.marks hs hmarks hresumed
    cases hdone : e.payload.isDone with
    | true =>
      obtain ⟨hcomplete, hall⟩ := h.complete hs hdone
      rw [hdone, if_pos rfl] at hphase
      simp only [LogConnection.consumeAll, hdone, if_true, List.any_cons, Bool.true_or]
      exact ⟨hmarks', nofun, fun _ => ⟨hphase, hcomplete, hall⟩⟩
    | false =>
      have hnext := ih (h.consume hdone) hmarks' (by
        intro hpos
        rw [hsince] at hpos
        apply List.eq_nil_iff_forall_not_mem.mpr
        intro r hr
        have hr := hbackfilled r hr
        rw [hresumed hpos] at hr
        cases hr)
      rw [hsince] at hnext
      simpa only [LogConnection.consumeAll, hdone, Bool.false_eq_true, if_false, List.any_cons,
        Bool.false_or] using hnext

end ConsumeAll

/-! ### What is kept after a number -/

section Kept

variable {s : JobLog}

theorem Sound.length_log (h : Sound s) :
  s.log.length = s.stream.nextEventID
  := by
  have hlength := congrArg List.length h.numbered
  rwa [List.length_map, List.length_range'] at hlength

theorem Sound.persisted_split (h : Sound s) (n : Nat) :
  s.persisted = records (s.log.take n) ++ (records (s.log.drop n) ++ s.ingests.flatten)
  := by
  rw [← List.append_assoc, ← records_append, List.take_append_drop]
  exact h.persisted

theorem Sound.hubHighWater_eq (h : Sound s) {l : List (Event JobFrame)} (hsuffix : l <:+ s.log) :
  hubHighWater l = if l = [] then 0 else s.log.length
  := by
  rcases List.eq_nil_or_concat l with rfl | ⟨init, last, rfl⟩
  · rfl
  · rw [List.concat_eq_append] at hsuffix ⊢
    obtain ⟨front, hlog⟩ := hsuffix
    have hplace : s.log = (front ++ init) ++ last :: [] := by
      rw [← hlog, List.append_assoc]
    obtain ⟨hid, -⟩ := h.id_eq hplace
    rw [hubHighWater, List.getLast?_concat, if_neg (by simp), hplace]
    simp only [hid, List.length_append, List.length_cons, List.length_nil]

/-- What is kept after a cursor is the rest of the log. -/
theorem Sound.filter_snapshot (h : Sound s) {cursor : Nat} (hkeeps : s.keepsAfter cursor = true) :
  s.stream.snapshot.filter (cursor < ·.id) = s.log.drop cursor
  := by
  obtain ⟨front, hlog⟩ := h.kept
  rw [← filter_eq_drop h.numbered cursor, ← hlog, List.filter_append]
  symm
  apply List.append_left_eq_self.mpr
  apply List.filter_eq_nil_iff.mpr
  intro e he
  obtain ⟨before, after, rfl⟩ := List.append_of_mem he
  have hplace : s.log = before ++ e :: (after ++ s.stream.snapshot) := by
    rw [← hlog]
    simp
  obtain ⟨hid, -⟩ := h.id_eq hplace
  have hlength := h.length_log
  rw [hplace] at hlength
  simp only [keepsAfter, decide_eq_true_eq] at hkeeps
  simp only [List.length_append, List.length_cons] at hlength
  simp only [decide_eq_true_eq]
  omega

theorem Sound.after_eq (h : Sound s) {cursor : Nat} (hkeeps : s.keepsAfter cursor = true) :
  s.stream.after cursor = s.log.drop cursor
  := by
  have hnumbered : s.stream.Numbered := by
    rw [Stream.Numbered, UpTo, ← h.numbered]
    apply List.IsSuffix.map _ h.kept
  rw [hnumbered.after_eq]
  apply h.filter_snapshot hkeeps

end Kept

/-! ### Steps that leave the records alone -/

section Touch

variable {s s' : JobLog} {c c' : LogConnection} {i : Nat}

theorem Meets.congr {back : List (Event JobFrame)} (h : Meets s c back) (hlog : s'.log = s.log)
    (hchunks : s'.chunks = s.chunks) (hingests : s'.ingests.flatten = s.ingests.flatten)
    (hsince : c'.since = c.since) (hwritten : c'.written = c.written)
    (hbackfilled : c'.backfilled = c.backfilled) :
  Meets s' c' back
  := by
  obtain ⟨hsuffix, ⟨hready⟩, hundone⟩ := h
  have hpersisted : s'.persisted = s.persisted := by rw [persisted, persisted, hchunks]
  rw [← hpersisted, ← hsince, ← hlog, ← hingests, ← hwritten, ← hbackfilled] at hready
  rw [← hlog] at hsuffix
  rw [← hwritten] at hundone
  exact ⟨hsuffix, ⟨hready⟩, hundone⟩

theorem AtPhase.imp {p : LogPhase} (h : AtPhase s i c p)
    (hidle : c.since = 0 ∧ c.written = [] ∧ c.backfilled = [] →
      c'.since = 0 ∧ c'.written = [] ∧ c'.backfilled = [])
    (hsince : c.since = 0 → c'.since = 0) (hlength : s.log.length ≤ s'.log.length)
    (hdrop : ∀ n ≤ s.log.length, Meets s c (s.log.drop n) → Meets s' c' (s'.log.drop n))
    (hlive : p = .live → Meets s c c.queue → Meets s' c' c'.queue)
    (hstream : i ∈ s.stream.subscribers ∨ s.stream.closed = true →
      i ∈ s'.stream.subscribers ∨ s'.stream.closed = true)
    (hended : ∀ fresh, s.persisted = records (s.log.take c.since) ++ records c.written ++ fresh →
      ∃ fresh, s'.persisted = records (s'.log.take c'.since) ++ records c'.written ++ fresh) :
  AtPhase s' i c' p
  := by
  cases p with
  | start => exact hidle h
  | listing preCursor => exact ⟨Nat.le_trans h.1 hlength, hidle h.2⟩
  | replaying preCursor => exact ⟨Nat.le_trans h.1 hlength, hsince h.2.1, hdrop _ h.1 h.2.2⟩
  | subscribing cursor => exact ⟨Nat.le_trans h.1 hlength, hdrop _ h.1 h.2⟩
  | live => exact ⟨hlive rfl h.1, hstream h.2⟩
  | ended =>
    obtain ⟨fresh, hall⟩ := h
    exact hended fresh hall

/-- A connection does not see what does not concern it. -/
theorem Shown.congr (h : Shown s i c) (hlog : s'.log = s.log) (hchunks : s'.chunks = s.chunks)
    (hingests : s'.ingests.flatten = s.ingests.flatten)
    (hterminal : s.terminal.isSome = true → s'.terminal.isSome = true)
    (hstream : i ∈ s.stream.subscribers ∨ s.stream.closed = true →
      i ∈ s'.stream.subscribers ∨ s'.stream.closed = true) :
  Shown s' i c
  := by
  have hpersisted : s'.persisted = s.persisted := by rw [persisted, persisted, hchunks]
  constructor
  · rw [hlog]
    exact h.since
  · exact h.resumed
  · exact fun hc => hterminal (h.terminal hc)
  · have hmeets : ∀ back, Meets s c back → Meets s' c back :=
      fun back h => h.congr hlog hchunks hingests rfl rfl rfl
    apply h.phase.imp id id (by rw [hlog]) _ (fun _ => hmeets _) hstream
    · rw [hlog, hpersisted]
      exact fun fresh hall => ⟨fresh, hall⟩
    · rw [hlog]
      exact fun n _ => hmeets _
  · simp only [Marks, hlog]
    exact h.marks
  · intro w e rest hsplit hdone
    obtain ⟨hnil, hsome, hall⟩ := h.complete w e rest hsplit hdone
    rw [hlog, hpersisted]
    exact ⟨hnil, hterminal hsome, hall⟩

/-- A connection changes, and nothing else. -/
theorem Sound.touch {stream : Stream JobFrame} (h : Sound s) (hc : s.connections[i]? = some c)
    (hnumber : stream.nextEventID = s.stream.nextEventID)
    (hsnapshot : stream.snapshot = s.stream.snapshot) (hclosed : stream.closed = s.stream.closed)
    (hothers : ∀ j ≠ i, j ∈ s.stream.subscribers → j ∈ stream.subscribers)
    (hshown : Shown { s with stream := stream, connections := s.connections.set i c' } i c') :
  Sound { s with stream := stream, connections := s.connections.set i c' }
  := by
  refine { h with numbered := ?_, kept := ?_, closed := ?_, connections := ?_ }
  · rw [hnumber]
    exact h.numbered
  · rw [hsnapshot]
    exact h.kept
  · rw [hclosed]
    exact h.closed
  · intro j d hd
    rcases (Pool.get_set hc).mp hd with ⟨rfl, rfl⟩ | ⟨hne, hd⟩
    · exact hshown
    · refine Shown.congr (h.connections j d hd) ?_ ?_ ?_ ?_ ?_ <;> try rfl
      · exact id
      rintro (hmem | hend)
      · exact Or.inl (hothers j hne hmem)
      · right
        rw [hclosed]
        exact hend

/-- What was written is the first part of what was persisted. -/
theorem Shown.written (h : Shown s i c) :
  ∃ fresh, s.persisted = records (s.log.take c.since) ++ records c.written ++ fresh
  := by
  have hphase := h.phase
  have hmeets : ∀ back, Meets s c back →
      ∃ fresh, s.persisted = records (s.log.take c.since) ++ records c.written ++ fresh := by
    intro back hback
    obtain ⟨-, fresh, -, hall, -⟩ := hback.ready.split
    exact ⟨fresh, hall⟩
  have hnothing : c.since = 0 → c.written = [] →
      ∃ fresh, s.persisted = records (s.log.take c.since) ++ records c.written ++ fresh := by
    intro hsince hwritten
    rw [hsince, hwritten]
    exact ⟨s.persisted, rfl⟩
  generalize c.phase = p at hphase
  cases p with
  | start => exact hnothing hphase.1 hphase.2.1
  | listing preCursor => exact hnothing hphase.2.1 hphase.2.2.1
  | replaying preCursor => exact hmeets _ hphase.2.2
  | subscribing cursor => exact hmeets _ hphase.2
  | live => exact hmeets _ hphase.1
  | ended => exact hphase

end Touch

/-! ### The steps -/

section Steps

variable {s s' : JobLog} {c : LogConnection} {i : Nat}

/-- A chunk is persisted before it is published. -/
theorem Sound.persist (h : Sound s) {chunk : LogChunk}
    (hsteady : steady s (.persist chunk) = true) :
  Sound { s with chunks := s.chunks ++ [chunk], ingests := s.ingests ++ [chunk.records] }
  := by
  obtain ⟨hterminal, hfresh⟩ := Bool.and_eq_true_iff.mp hsteady
  have hnone : s.terminal.isSome ≠ true := by
    rw [← Option.not_isSome] at hterminal
    simpa using hterminal
  have hflatten : (s.ingests ++ [chunk.records]).flatten = s.ingests.flatten ++ chunk.records := by
    simp
  have hpersisted :
      ({ s with chunks := s.chunks ++ [chunk], ingests := s.ingests ++ [chunk.records] } :
        JobLog).persisted = s.persisted ++ chunk.records := by
    simp [JobLog.persisted]
  refine { h with
    persisted := ?_, ended := fun hsome => absurd hsome hnone, connections := ?_ }
  · rw [hpersisted, hflatten, h.persisted, List.append_assoc]
  · intro j d hd
    have hshown := h.connections j d hd
    have hnew : ∀ r ∈ chunk.records, r ∉ d.backfilled := by
      intro r hr
      have hall := List.all_eq_true.mp (List.all_eq_true.mp hfresh d (List.mem_of_getElem? hd)) r hr
      simpa using hall
    have hmeets : ∀ back, Meets s d back → Meets
        { s with chunks := s.chunks ++ [chunk], ingests := s.ingests ++ [chunk.records] }
            d back := by
      intro back hback
      refine ⟨hback.suffix, ?_, hback.undone⟩
      rw [hpersisted, hflatten, ← List.append_assoc]
      apply hback.ready.persist hnew
    refine { hshown with phase := ?_, complete := ?_ }
    · refine AtPhase.imp (c := d) hshown.phase ?_ ?_ ?_ (fun _ _ => hmeets _)
        (fun _ => hmeets _) ?_ ?_
      · exact id
      · exact id
      · exact Nat.le_refl _
      · exact id
      intro fresh hall
      use fresh ++ chunk.records
      rw [hpersisted, hall, List.append_assoc _ fresh]
    · intro w e rest hsplit hdone
      exact absurd (hshown.complete w e rest hsplit hdone).2.1 hnone

/-- A connection meets an event that is published. -/
theorem Shown.publish (h : Shown s i c) {event : Event JobFrame} {queue : List (Event JobFrame)}
    (hlog : s'.log = s.log ++ [event]) (hchunks : s'.chunks = s.chunks)
    (hingests : s.ingests.flatten = records [event] ++ s'.ingests.flatten)
    (hterminal : s'.terminal = s.terminal)
    (hstream : i ∈ s.stream.subscribers ∨ s.stream.closed = true →
      i ∈ s'.stream.subscribers ∨ s'.stream.closed = true)
    (hqueue : c.phase = .live → queue = c.queue ++ [event]) :
  Shown s' i { c with queue := queue }
  := by
  have hpersisted : s'.persisted = s.persisted := by
    rw [JobLog.persisted, JobLog.persisted, hchunks]
  have htake : ∀ n ≤ s.log.length, s'.log.take n = s.log.take n := by
    intro n hn
    rw [hlog, List.take_append_of_le_length hn]
  have hdrop : ∀ n ≤ s.log.length, s'.log.drop n = s.log.drop n ++ [event] := by
    intro n hn
    rw [hlog, List.drop_append_of_le_length hn]
  have hlength : s.log.length ≤ s'.log.length := by
    rw [hlog, List.length_append]
    apply Nat.le_add_right
  have hmeets : ∀ back, Meets s c back → Meets s' { c with queue := queue } (back ++ [event]) := by
    intro back hback
    obtain ⟨⟨front, hfront⟩, ⟨hready⟩, hundone⟩ := hback
    refine ⟨⟨front, ?_⟩, ?_, hundone⟩
    · rw [← List.append_assoc, hfront, hlog]
    · rw [hpersisted, htake _ h.since, records_append, List.append_assoc, ← hingests]
      exact ⟨hready⟩
  constructor
  · exact Nat.le_trans h.since hlength
  · exact h.resumed
  · rw [hterminal]
    exact h.terminal
  · refine AtPhase.imp (c := c) h.phase ?_ ?_ hlength ?_ ?_ hstream ?_
    · exact id
    · exact id
    · intro n hn hback
      rw [hdrop n hn]
      exact hmeets _ hback
    · intro hc hback
      have hnext := hmeets _ hback
      rwa [← hqueue hc] at hnext
    · rw [hpersisted, htake _ h.since]
      exact fun fresh hall => ⟨fresh, hall⟩
  · intro w e rest hsplit hkind
    obtain ⟨hid, hle, hrecords⟩ := h.marks w e rest hsplit hkind
    refine ⟨hid, Nat.le_trans hle hlength, ?_⟩
    rw [htake _ h.since, htake _ hle]
    exact hrecords
  · intro w e rest hsplit hdone
    rw [hpersisted, hterminal, htake _ h.since]
    exact h.complete w e rest hsplit hdone

theorem publishFrame_of_closed (hclosed : s.stream.closed = true) (frame : JobFrame) :
  s.publishFrame frame = s
  := by
  have hpublish : s.stream.publish frame = none := if_pos hclosed
  rw [JobLog.publishFrame, hpublish]

theorem publishFrame_of_open {frame : JobFrame} {stream : Stream JobFrame} {event : Event JobFrame}
    (hpublish : s.stream.publish frame = some (stream, event)) :
  s.publishFrame frame = { s with
    stream := stream
    log := s.log ++ [event]
    connections := s.connections.mapIdx fun i c =>
      if i ∈ stream.subscribers then { c with queue := c.queue ++ [event] } else c }
  := by
  rw [JobLog.publishFrame, hpublish]

/-- A frame is published to the log and to all who are connected. -/
theorem Sound.publishFrame (h : Sound s) {frame : JobFrame} {ingests : List (List LogRecord)}
    (hingests : s.ingests.flatten = records [⟨0, frame⟩] ++ ingests.flatten)
    (hdone : frame.isDone = true → s.terminal.isSome = true) :
  Sound { s.publishFrame frame with ingests := ingests }
  := by
  cases hpublish : s.stream.publish frame with
  | none =>
    -- a closed stream accepts nothing, and nothing was left
    have hclosed : s.stream.closed = true := by
      by_contra hopen
      simp [Stream.publish, hopen] at hpublish
    have hnothing := h.ended (h.closed hclosed)
    have hnone : ingests.flatten = [] := by
      rw [hnothing] at hingests
      exact (List.append_eq_nil_iff.mp hingests.symm).2
    rw [publishFrame_of_closed hclosed]
    refine { h with persisted := ?_, ended := fun _ => hnone, connections := ?_ }
    · rw [hnone, ← hnothing]
      exact h.persisted
    · intro j d hd
      refine Shown.congr (h.connections j d hd) ?_ ?_ (hnone.trans hnothing.symm) ?_ ?_
      · rfl
      · rfl
      · exact id
      · exact id
  | some accepted =>
    obtain ⟨stream, event⟩ := accepted
    obtain ⟨hopen, hevent, hstream⟩ := Stream.publish_eq_some hpublish
    have hrecords : records [event] = records [⟨0, frame⟩] := by rw [hevent]; rfl
    have hpayload : event.payload = frame := by rw [hevent]
    rw [publishFrame_of_open hpublish]
    constructor
    · rw [List.map_append, h.numbered, hstream, hevent]
      rw [List.range'_1_concat, Nat.add_comm 1]
      rfl
    · rw [hstream, Stream.snapshot, RingBuffer.slice_push]
      apply (List.drop_suffix _ _).trans
      obtain ⟨front, hfront⟩ := h.kept
      use front
      rw [← List.append_assoc, ← hfront]
      rfl
    · rw [records_append, hrecords, List.append_assoc, ← hingests]
      exact h.persisted
    · intro hsome
      rw [h.ended hsome] at hingests
      exact (List.append_eq_nil_iff.mp hingests.symm).2
    · rw [hstream]
      exact h.closed
    · intro front e back hlog hend
      rcases snoc_split hlog with ⟨rfl, rfl, rfl⟩ | ⟨back', hold⟩
      · rw [hpayload] at hend
        exact ⟨hdone hend, rfl⟩
      · -- nothing is left after an earlier done frame
        obtain ⟨hsome, hback⟩ := h.done front e back' hold hend
        refine ⟨hsome, ?_⟩
        rw [h.ended hsome] at hingests
        have hlast := (List.append_eq_nil_iff.mp hingests.symm).1
        have hback' : back = back' ++ [event] := by
          rw [hold, List.append_assoc] at hlog
          exact (List.cons.inj (List.append_cancel_left hlog)).2.symm
        rw [hback', records_append, hback, hrecords, hlast]
        rfl
    · intro j d hd
      rw [List.getElem?_mapIdx, Option.map_eq_some_iff] at hd
      obtain ⟨c, hc, rfl⟩ := hd
      have hshown := h.connections j c hc
      have hsubscribers : stream.subscribers = s.stream.subscribers := by rw [hstream]
      have hclosed : stream.closed = s.stream.closed := by rw [hstream]
      have hcongr : j ∈ s.stream.subscribers ∨ s.stream.closed = true →
          j ∈ stream.subscribers ∨ stream.closed = true := by
        rw [hsubscribers, hclosed]
        exact id
      rw [← hrecords] at hingests
      split
      · refine Shown.publish hshown ?_ ?_ hingests ?_ hcongr ?_
        · rfl
        · rfl
        · rfl
        · exact fun _ => rfl
      · rename_i hnot
        refine Shown.publish hshown ?_ ?_ hingests ?_ hcongr ?_
        · rfl
        · rfl
        · rfl
        intro hlive
        have hphase := hshown.phase
        rw [hlive] at hphase
        rcases hphase.2 with hmem | hend
        · rw [hsubscribers] at hnot
          exact absurd hmem hnot
        · rw [hopen] at hend
          cases hend

end Steps

section Connections

variable {s : JobLog} {c : LogConnection} {i : Nat}

/-- A connection starts with nothing shown. -/
theorem Sound.connect (h : Sound s) {since : Nat} (hsteady : steady s (.connect since) = true) :
  Sound { s with connections := s.connections ++ [⟨since, s.terminal,
    if since = 0 then .start else .subscribing since, [], [], []⟩] }
  := by
  have hsince : since ≤ s.log.length := by
    rw [h.length_log]
    simpa [steady] using hsteady
  refine { h with connections := ?_ }
  · intro j d hd
    rcases Pool.get_start.mp hd with ⟨-, rfl⟩ | hd
    · constructor
      · exact hsince
      · exact fun _ => rfl
      · exact id
      · by_cases hzero : since = 0
        · simp only [hzero, if_true, AtPhase, and_self]
        · simp only [hzero, if_false]
          refine ⟨hsince, List.drop_suffix _ _, ?_, nofun⟩
          refine ⟨[], records (s.log.drop since) ++ s.ingests.flatten, rfl, ?_, List.nodup_nil,
            nofun, fun r _ => List.not_mem_nil⟩
          simp only [records_nil, List.append_nil]
          exact h.persisted_split since
      · intro w e rest hsplit
        simp at hsplit
      · intro w e rest hsplit
        simp at hsplit
    · refine Shown.congr (h.connections j d hd) ?_ ?_ ?_ ?_ ?_ <;> first | rfl | exact id

/-- The chunks are listed up to what was persisted by then. -/
theorem Sound.list (h : Sound s) (hc : s.connections[i]? = some c) {preCursor : Nat}
    (hphase : c.phase = .listing preCursor) (hsteady : steady s (.list i) = true) :
  Sound { s with connections := s.connections.set i { c with
    phase := .replaying preCursor
    backfilled := s.persisted
    written := c.written ++ backfill s.listLogs } }
  := by
  simp only [steady, hc, Option.map_some, hphase, Bool.and_eq_true, decide_eq_true_eq] at hsteady
  obtain ⟨hsorted, hsteady⟩ := hsteady
  rw [listLogs, hsorted.insertionSort_eq]
  have hshown := h.connections i c hc
  have hat := hshown.phase
  rw [hphase] at hat
  obtain ⟨hcursor, hsince, hwritten, -⟩ := hat
  have hpersisted := h.persisted_split preCursor
  have hnodup : (records (s.log.drop preCursor) ++ s.ingests.flatten).Nodup := by
    rw [hpersisted, List.drop_left] at hsteady
    exact hsteady
  refine Sound.touch h hc rfl rfl rfl (fun j _ hj => hj) ?_
  constructor
  · exact hshown.since
  · intro hpos
    exact absurd hsince (Nat.ne_of_gt hpos)
  · exact hshown.terminal
  · refine ⟨hcursor, hsince, List.drop_suffix _ _, ?_, ?_⟩
    · refine ⟨_, [], (List.append_nil _).symm, ?_, hnodup, ?_, nofun⟩
      · simp only [hsince, hwritten, List.take_zero, List.nil_append, List.append_nil,
          records_backfill]
        rfl
      · intro r hr
        change r ∈ s.persisted
        rw [hpersisted]
        exact List.mem_append_right _ hr
    · intro e he
      rw [hwritten, List.nil_append] at he
      obtain ⟨record, -, rfl⟩ := List.mem_map.mp he
      rfl
  · -- the frames of the backfill have no number
    intro w e rest hsplit hkind
    have hmem : e ∈ c.written ++ backfill s.chunks := by
      change c.written ++ backfill s.chunks = w ++ e :: rest at hsplit
      rw [hsplit]
      exact List.mem_append_right _ List.mem_cons_self
    rw [hwritten, List.nil_append] at hmem
    obtain ⟨record, -, rfl⟩ := List.mem_map.mp hmem
    rcases hkind with ⟨-, hid⟩ | hpos
    · exact absurd hid (Nat.lt_irrefl 0)
    · exact absurd hsince (Nat.ne_of_gt hpos)
  · intro w e rest hsplit hdone
    have hmem : e ∈ c.written ++ backfill s.chunks := by
      change c.written ++ backfill s.chunks = w ++ e :: rest at hsplit
      rw [hsplit]
      exact List.mem_append_right _ List.mem_cons_self
    rw [hwritten, List.nil_append] at hmem
    obtain ⟨record, -, rfl⟩ := List.mem_map.mp hmem
    cases hdone

/-- Frames without a record need no mark. -/
theorem Marks.append {tail : List (Event JobFrame)} {phase : LogPhase} (h : Marks s c)
    (hsince : c.since = 0) (htail : ∀ e ∈ tail, e.payload.record? = none) :
  Marks s { c with written := c.written ++ tail, phase := phase }
  := by
  intro w e rest hsplit hkind
  change c.written ++ tail = w ++ e :: rest at hsplit
  have hrecord : e.payload.record?.isSome = true ∧ 0 < e.id := by
    rcases hkind with hrecord | hpos
    · exact hrecord
    · exact absurd hsince (Nat.ne_of_gt hpos)
  rcases List.append_eq_append_iff.mp hsplit with ⟨more, -, hmore⟩ | ⟨more, hold, hmore⟩
  · -- the frame is one of the tail
    have hmem : e ∈ tail := by
      rw [hmore]
      exact List.mem_append_right _ List.mem_cons_self
    rw [htail e hmem] at hrecord
    cases hrecord.1
  · cases more with
    | nil =>
      have hmem : e ∈ tail := by
        rw [List.nil_append] at hmore
        rw [← hmore]
        exact List.mem_cons_self
      rw [htail e hmem] at hrecord
      cases hrecord.1
    | cons e' more =>
      cases hmore
      exact h w e more hold (Or.inl hrecord)

/-- A log that has ended is wrapped up with everything shown. -/
theorem Meets.wrapUp (hs : Sound s) (h : Meets s c []) (hlength : c.since ≤ s.log.length)
    (hsince : c.since = 0) (hmarks : Marks s c) (hsome : s.terminal.isSome = true)
    {hints : List (Event JobFrame)} (hhints : ∀ e ∈ hints, e.payload.isRetention = true)
    (status : String) :
  Shown s i { c with written := c.written ++ hints ++ [⟨0, .done status⟩], phase := .ended }
  := by
  have hquiet : ∀ e ∈ hints ++ [(⟨0, .done status⟩ : Event JobFrame)],
      e.payload.record? = none := by
    intro e he
    rcases List.mem_append.mp he with he | he
    · obtain ⟨id, frame⟩ := e
      cases frame with
      | retention hint => rfl
      | _ => cases hhints _ he
    · rw [List.mem_singleton.mp he]
      rfl
  -- nothing is left to publish
  have hall := h.ready.eq_of_fresh (Or.inl (by rw [hs.ended hsome]; rfl))
  rw [hs.ended hsome] at hall
  have hall' : s.persisted = records (s.log.take c.since)
      ++ records (c.written ++ hints ++ [⟨0, .done status⟩]) := by
    have hnone : records (hints ++ [⟨0, .done status⟩]) = [] :=
      List.filterMap_eq_nil_iff.mpr hquiet
    rw [List.append_assoc c.written, records_append, hnone, List.append_nil]
    simpa only [records_nil, List.append_nil] using hall
  constructor
  · exact hlength
  · exact fun hpos => absurd hsince (Nat.ne_of_gt hpos)
  · exact fun _ => hsome
  · use []
    rw [List.append_nil]
    exact hall'
  · rw [List.append_assoc]
    exact hmarks.append hsince hquiet
  · intro w e rest hsplit hend
    refine ⟨?_, hsome, hall'⟩
    rcases snoc_split hsplit with ⟨hnil, -⟩ | ⟨rest', hold⟩
    · exact hnil
    · have hmem : e ∈ c.written ++ hints := by
        rw [hold]
        exact List.mem_append_right _ List.mem_cons_self
      rcases List.mem_append.mp hmem with hmem | hmem
      · rw [h.undone e hmem] at hend
        cases hend
      · have hkind := hhints e hmem
        obtain ⟨id, frame⟩ := e
        cases frame with
        | retention hint => cases hend
        | _ => cases hkind

/-- The replay closes the gap behind the listing. -/
theorem Shown.replayGap (hs : Sound s) (h : Shown s i c) {preCursor : Nat}
    (hphase : c.phase = .replaying preCursor) (hkeeps : s.keepsAfter preCursor = true) :
  Shown s i (s.replayGap c preCursor)
  := by
  have hat := h.phase
  rw [hphase] at hat
  obtain ⟨hcursor, hsince, hmeets⟩ := hat
  obtain ⟨hmarks, hgoes, hends⟩ := hmeets.consumeAll hs h.marks h.resumed
  obtain ⟨hsince', hterminal', -⟩ := consumeAll_fields c (s.log.drop preCursor)
  have hlength : c.since ≤ s.log.length := h.since
  simp only [JobLog.replayGap, hs.filter_snapshot hkeeps]
  split
  · -- a done frame came in between
    rename_i hdone
    obtain ⟨hended, hcomplete, hall⟩ := hends hdone
    constructor
    · rw [hsince']
      exact hlength
    · intro hpos
      rw [hsince', hsince] at hpos
      cases hpos
    · rw [hterminal']
      exact h.terminal
    · rw [hended]
      use []
      rw [List.append_nil, hsince']
      exact hall
    · exact hmarks
    · exact hcomplete
  · rename_i hdone
    have hnext := hgoes (by simpa using hdone)
    cases hterminal : c.terminal with
    | some status =>
      have hsome := h.terminal (by rw [hterminal]; rfl)
      apply hnext.wrapUp hs (by rw [hsince']; exact hlength) (hsince'.trans hsince) hmarks hsome
      intro e he
      exact (Bool.and_eq_true_iff.mp (List.mem_filter.mp he).2).1
    | none =>
      have hcursor' : ∀ cursor, cursor = (if s.log.drop preCursor = [] then preCursor
          else hubHighWater (s.log.drop preCursor)) →
          cursor ≤ s.log.length ∧ s.log.drop cursor = [] := by
        rintro cursor rfl
        split
        · rename_i hnil
          exact ⟨hcursor, hnil⟩
        · rename_i hcons
          rw [hs.hubHighWater_eq (List.drop_suffix _ _), if_neg hcons]
          exact ⟨Nat.le_refl _, List.drop_length⟩
      obtain ⟨hle, hdrop⟩ := hcursor' _ rfl
      constructor
      · rw [hsince']
        exact hlength
      · intro hpos
        change 0 < (c.consumeAll _).since at hpos
        rw [hsince', hsince] at hpos
        cases hpos
      · intro hsome
        change (c.consumeAll _).terminal.isSome = true at hsome
        rw [hterminal', hterminal] at hsome
        cases hsome
      · refine ⟨hle, ?_⟩
        rw [hdrop]
        exact hnext.congr rfl rfl rfl rfl rfl rfl
      · exact hmarks
      · exact hnext.unended

theorem Sound.cursor (h : Sound s) (hc : s.connections[i]? = some c) (hphase : c.phase = .start) :
  Sound { s with
    connections := s.connections.set i
      { c with phase := .listing (hubHighWater s.stream.snapshot) } }
  := by
  have hshown := h.connections i c hc
  have hat := hshown.phase
  rw [hphase] at hat
  refine Sound.touch h hc rfl rfl rfl (fun j _ hj => hj) ?_
  refine { hshown with phase := ⟨?_, hat⟩ }
  rw [h.hubHighWater_eq h.kept]
  split
  · apply Nat.zero_le
  · apply Nat.le_refl

theorem Sound.subscribe (h : Sound s) (hc : s.connections[i]? = some c) {cursor : Nat}
    (hphase : c.phase = .subscribing cursor) (hsteady : steady s (.subscribe i) = true) :
  Sound { s with
    stream := (s.stream.subscribe i cursor).1
    connections := s.connections.set i { c with
      phase := .live
      queue := (s.stream.subscribe i cursor).2.1 } }
  := by
  have hkeeps : s.keepsAfter cursor = true := by
    simpa only [steady, hc, Option.map_some, hphase] using hsteady
  have hshown := h.connections i c hc
  have hat := hshown.phase
  rw [hphase] at hat
  rw [Stream.subscribe_eq, h.after_eq hkeeps]
  refine Sound.touch h hc rfl rfl rfl (fun j _ hj => List.mem_append_left _ hj) ?_
  refine { hshown with phase := ⟨?_, ?_⟩ }
  · refine hat.2.congr ?_ ?_ ?_ ?_ ?_ ?_ <;> rfl
  · cases hclosed : s.stream.closed with
    | true => exact Or.inr rfl
    | false => exact Or.inl (List.mem_append_right _ List.mem_cons_self)

/-- A live connection forwards what is queued for it. -/
theorem Sound.forward (h : Sound s) (hc : s.connections[i]? = some c) (hphase : c.phase = .live)
    {e : Event JobFrame} {rest : List (Event JobFrame)} (hqueue : c.queue = e :: rest) :
  Sound { s with
    connections := s.connections.set i ({ c with queue := rest }.consumeBackfilledLogEvent e) }
  := by
  have hshown := h.connections i c hc
  have hat := hshown.phase
  rw [hphase, AtPhase, hqueue] at hat
  obtain ⟨hmeets, hregistered⟩ := hat
  have hnext : Meets s { c with queue := rest } (e :: rest) :=
    hmeets.congr rfl rfl rfl rfl rfl rfl
  obtain ⟨hsince, hterminal, hrest, hat, hbackfilled⟩ := consume_fields { c with queue := rest } e
  refine Sound.touch h hc rfl rfl rfl (fun j _ hj => hj) ?_
  refine Shown.congr (s := s) ?_ rfl rfl rfl id id
  constructor
  · rw [hsince]
    exact hshown.since
  · intro hpos
    rw [hsince] at hpos
    apply List.eq_nil_iff_forall_not_mem.mpr
    intro r hr
    have hr : r ∈ c.backfilled := hbackfilled r hr
    rw [hshown.resumed hpos] at hr
    cases hr
  · rw [hterminal]
    exact hshown.terminal
  · rw [hat]
    split
    · rename_i hdone
      use []
      rw [List.append_nil, hsince]
      exact (hnext.complete h hdone).2
    · rename_i hdone
      have hlive : AtPhase s i ({ c with queue := rest }.consumeBackfilledLogEvent e) .live := by
        rw [AtPhase, hrest]
        exact ⟨hnext.consume (by simpa using hdone), hregistered⟩
      rw [← hphase] at hlive
      exact hlive
  · exact hnext.marks h hshown.marks hshown.resumed
  · cases hdone : e.payload.isDone with
    | true => exact (hnext.complete h hdone).1
    | false => exact (hnext.consume hdone).unended

theorem Sound.cut (h : Sound s) (hc : s.connections[i]? = some c) :
  Sound { s with
    stream := s.stream.drop i
    connections := s.connections.set i { c with phase := .ended } }
  := by
  have hshown := h.connections i c hc
  refine Sound.touch h hc rfl rfl rfl ?_ ?_
  · intro j hne hj
    exact List.mem_filter.mpr ⟨hj, by simpa using hne⟩
  · exact { hshown with phase := hshown.written }

end Connections

/-! ### Whole runs -/

/-- An empty log is sound. -/
theorem sound_of_initial {s : JobLog} (h : Initial s) :
  Sound s
  := by
  have hsnapshot : s.stream.snapshot = [] := by
    rw [h.stream, Stream.snapshot]
    apply RingBuffer.slice_new
  have hnumber : s.stream.nextEventID = 0 := by rw [h.stream]; rfl
  have hclosed : s.stream.closed = false := by rw [h.stream]; rfl
  constructor
  · rw [h.log, hnumber]
    rfl
  · rw [hsnapshot, h.log]
  · rw [JobLog.persisted, h.chunks, h.log, h.ingests]
    rfl
  · rw [h.ingests]
    exact fun _ => rfl
  · rw [hclosed]
    intro hend
    cases hend
  · intro front e back hlog
    rw [h.log] at hlog
    simp at hlog
  · intro i c hc
    rw [h.connections] at hc
    cases hc

theorem flatten_of_first {ingests : List (List LogRecord)} {i : Nat} {record : LogRecord}
    {rest : List LogRecord} (hi : ingests[i]? = some (record :: rest))
    (hearlier : (ingests.take i).all (·.isEmpty) = true) :
  ingests.flatten = record :: (ingests.set i rest).flatten
  := by
  obtain ⟨hlt, hget⟩ := List.getElem?_eq_some_iff.mp hi
  have hnone : (ingests.take i).flatten = [] := by
    apply List.flatten_eq_nil_iff.mpr
    intro l hl
    exact List.isEmpty_iff.mp (List.all_eq_true.mp hearlier l hl)
  have hsplit : ingests = ingests.take i ++ (record :: rest) :: ingests.drop (i + 1) := by
    rw [← hget, List.getElem_cons_drop, List.take_append_drop]
  rw [List.set_eq_take_append_cons_drop, if_pos hlt]
  conv_lhs => rw [hsplit]
  simp only [List.flatten_append, List.flatten_cons, hnone, List.nil_append, List.cons_append]

theorem Sound.publish {s : JobLog} (h : Sound s) {i : Nat} {record : LogRecord}
    {rest : List LogRecord} (hi : s.ingests[i]? = some (record :: rest))
    (hsteady : steady s (.publish i) = true) :
  Sound { s.publishFrame (.log record) with
    ingests := s.ingests.set i (if s.stream.closed then [] else rest) }
  := by
  have hflatten := flatten_of_first hi hsteady
  have hopen : s.stream.closed ≠ true := by
    intro hclosed
    rw [h.ended (h.closed hclosed)] at hflatten
    cases hflatten
  rw [if_neg hopen]
  refine Sound.publishFrame h ?_ ?_
  · exact hflatten
  · exact nofun

theorem Sound.terminate {s : JobLog} (h : Sound s) {status : String}
    (hsteady : steady s (.terminate status) = true) :
  Sound { s with terminal := some status }
  := by
  have hnothing : s.ingests.flatten = [] := by
    apply List.flatten_eq_nil_iff.mpr
    intro l hl
    exact List.isEmpty_iff.mp (List.all_eq_true.mp hsteady l hl)
  refine { h with
    ended := fun _ => hnothing
    closed := fun _ => rfl
    done := ?_
    connections := ?_ }
  · intro front e back hlog hdone
    exact ⟨rfl, (h.done front e back hlog hdone).2⟩
  · intro j d hd
    exact Shown.congr (s := s) (h.connections j d hd) rfl rfl rfl (fun _ => rfl) id

/-- A frame that is not of an ingest. -/
theorem Sound.control {s : JobLog} (h : Sound s) {frame : JobFrame}
    (hframe : records [⟨0, frame⟩] = [])
    (hdone : frame.isDone = true → s.terminal.isSome = true) :
  Sound (s.publishFrame frame)
  := by
  have hkeep : { s.publishFrame frame with ingests := s.ingests } = s.publishFrame frame := by
    rw [JobLog.publishFrame]
    split <;> rfl
  rw [← hkeep]
  exact h.publishFrame (by rw [hframe, List.nil_append]) hdone

/-- The stream is finished after its last event. -/
theorem Sound.finish {s : JobLog} (h : Sound s) (hsteady : steady s .finish = true) :
  Sound { s with stream := s.stream.finish.1 }
  := by
  have hfinish : s.stream.finish.1.nextEventID = s.stream.nextEventID
      ∧ s.stream.finish.1.snapshot = s.stream.snapshot
      ∧ s.stream.finish.1.closed = true := by
    rw [Stream.finish]
    split
    · exact ⟨rfl, rfl, by assumption⟩
    · exact ⟨rfl, rfl, rfl⟩
  obtain ⟨hnumber, hsnapshot, hclosed⟩ := hfinish
  refine { h with numbered := ?_, kept := ?_, closed := fun _ => hsteady, connections := ?_ }
  · rw [hnumber]
    exact h.numbered
  · rw [hsnapshot]
    exact h.kept
  · intro j d hd
    exact Shown.congr (s := s) (h.connections j d hd) rfl rfl rfl id (fun _ => Or.inr hclosed)

theorem Sound.replay {s : JobLog} (h : Sound s) {i : Nat} {c : LogConnection}
    (hc : s.connections[i]? = some c) {preCursor : Nat} (hphase : c.phase = .replaying preCursor)
    (hsteady : steady s (.replay i) = true) :
  Sound { s with connections := s.connections.set i (s.replayGap c preCursor) }
  := by
  simp only [steady, hc, Option.map_some, hphase] at hsteady
  refine Sound.touch h hc rfl rfl rfl (fun j _ hj => hj) ?_
  exact Shown.congr (s := s) ((h.connections i c hc).replayGap h hphase hsteady) rfl rfl rfl id id

/-- Every steady event keeps what connections show in step with the log. -/
theorem Sound.step {s s' : JobLog} (h : Sound s) {l : JobLogEvent} (hsteady : steady s l = true)
    (hstep : JobLog.step l s = some s') :
  Sound s'
  := by
  cases l with
  | persist chunk =>
    cases hstep
    exact h.persist hsteady
  | publish i =>
    simp only [JobLog.step] at hstep
    split at hstep
    · rename_i record rest hi
      cases hstep
      exact h.publish hi hsteady
    · cases hstep
  | terminate status =>
    simp only [JobLog.step] at hstep
    split at hstep
    · cases hstep
      exact h.terminate hsteady
    · cases hstep
  | retention hint =>
    cases hstep
    exact h.control rfl nofun
  | done status =>
    cases hstep
    exact h.control rfl fun _ => hsteady
  | finish =>
    cases hstep
    exact h.finish hsteady
  | connect since =>
    cases hstep
    exact h.connect hsteady
  | cursor i | list i | replay i | subscribe i | forward i | cut i =>
    simp only [JobLog.step] at hstep
    split at hstep
    · rename_i c hc
      first
        | cases hstep
          exact h.cut hc
        | split at hstep
          · cases hstep
            first
              | exact h.cursor hc (by assumption)
              | exact h.list hc (by assumption) hsteady
              | exact h.replay hc (by assumption) hsteady
              | exact h.subscribe hc (by assumption) hsteady
              | exact h.forward hc (by assumption) (by assumption)
          · cases hstep
    · cases hstep

theorem sound_of_execution {past : List (JobLog × JobLogEvent)} {s : JobLog}
    (h : machine.Execution past s) (hsteady : ∀ x ∈ past, steady x.1 x.2 = true) :
  Sound s
  := h.invariant_of_allowed steady (fun _ => sound_of_initial)
    (fun _ _ _ hs hl hstep => hs.step hl hstep) hsteady

/-- In every run whose steps all meet the condition, a fresh connection has written a first part of
the persisted records, each once and in order. What it has not written is still on its channel or
left to publish; and once it has written a done frame, nothing is missing. -/
theorem backfill_shows_each_record_once
    {past : List (JobLog × JobLogEvent)} {s : JobLog} (h : machine.Execution past s)
    (hsteady : ∀ x ∈ past, steady x.1 x.2 = true) {i : Nat} {c : LogConnection}
    (hc : s.connections[i]? = some c) (hfresh : c.since = 0) :
  ∃ rest, s.persisted = records c.written ++ rest
    ∧ (c.phase = .live → rest <:+ records c.queue ++ s.ingests.flatten)
    ∧ (c.written.any (·.payload.isDone) = true → rest = [])
  := by
  have hshown := (sound_of_execution h hsteady).connections i c hc
  have hbase : records (s.log.take c.since) = [] := by
    rw [hfresh]
    rfl
  obtain ⟨rest, hrest⟩ := hshown.written
  rw [hbase, List.nil_append] at hrest
  refine ⟨rest, hrest, ?_, ?_⟩
  · intro hlive
    have hat := hshown.phase
    rw [hlive] at hat
    obtain ⟨pending, fresh, hsplit, hall, -⟩ := hat.1.ready.split
    rw [hbase, List.nil_append, hrest] at hall
    rw [List.append_cancel_left hall, hsplit]
    exact List.suffix_append _ _
  · intro hany
    obtain ⟨e, he, hdone⟩ := List.any_eq_true.mp hany
    obtain ⟨w, back, hsplit⟩ := List.append_of_mem he
    have hall := (hshown.complete w e back hsplit hdone).2.2
    rw [hbase, List.nil_append, hrest] at hall
    exact List.append_right_eq_self.mp hall

/-! ### A job and its connections -/

namespace Sample

/-- A new job, whose stream keeps eight events. -/
def job : JobLog :=
  ⟨Stream.new 8, [], [], none, [], []⟩

theorem job_initial : Initial job :=
  ⟨rfl, rfl, rfl, rfl, rfl, rfl⟩

/-- A chunk with lines of the standard output. -/
def chunk (chunkNo : Int) (createdAt : Nat) (lines : List String) : LogChunk :=
  ⟨chunkNo, createdAt, lines.map fun line => ("stdout", line)⟩

/-- What the first connection has written in a run, where nothing is on its way. -/
def Writes (events : List JobLogEvent) (persisted written : List String) : Prop :=
  ∃ (past : List (JobLog × JobLogEvent)) (s : JobLog) (c : LogConnection), machine.Execution past s
    ∧ past.map Prod.snd = events.reverse ∧ s.connections[0]? = some c ∧ c.since = 0
    ∧ (c.phase = .live ∧ c.queue = [] ∧ s.ingests.flatten = [] ∧ s.keepsAfter 0 = true)
    ∧ s.persisted.map LogRecord.line = persisted ∧ (records c.written).map LogRecord.line = written

/-- Whether the first connection has written some records and nothing is on its way. -/
def writes (persisted written : List String) (s : JobLog) : Bool :=
  match s.connections[0]? with
  | some c => c.since == 0 && c.phase == .live && c.queue.isEmpty && s.ingests.flatten.isEmpty
      && s.keepsAfter 0 && s.persisted.map LogRecord.line == persisted
      && (records c.written).map LogRecord.line == written
  | none => false

theorem writes_of_follow {events : List JobLogEvent} {persisted written : List String}
    (h : (machine.follow job events).map (writes persisted written) = some true) :
  Writes events persisted written
  := by
  obtain ⟨s, hfollow, hs⟩ := Option.map_eq_some_iff.mp h
  obtain ⟨past, hexec, hlabels⟩ := Machine.Execution.of_follow job_initial hfollow
  rw [writes] at hs
  split at hs
  · rename_i c hc
    simp only [Bool.and_eq_true, beq_iff_eq, List.isEmpty_iff] at hs
    obtain ⟨⟨⟨⟨⟨⟨hsince, hlive⟩, hqueue⟩, hingests⟩, hkeeps⟩, hpersisted⟩, hwritten⟩ := hs
    exact ⟨past, s, c, hexec, hlabels, hc, hsince, ⟨hlive, hqueue, hingests, hkeeps⟩, hpersisted,
      hwritten⟩
  · cases hs

/-- A connection that lists two chunks, of which one record is published before it reads its cursor
and one after it has subscribed, and that is sent a third. -/
def steadyEvents : List JobLogEvent :=
  [.persist (chunk 0 1000 ["a", "b"]), .publish 0, .connect 0, .cursor 0, .publish 0,
    .persist (chunk 1 1500 ["c"]), .list 0, .replay 0, .publish 1, .subscribe 0,
    .persist (chunk 2 2000 ["a"]), .publish 2, .forward 0, .forward 0]

end Sample

/-- A connection that comes while two chunks are published shows the records of all chunks. -/
theorem backfill_shows_each_record_once_sample :
  ∃ (past : List (JobLog × JobLogEvent)) (s : JobLog) (c : LogConnection), machine.Execution past s
    ∧ s.connections[0]? = some c ∧ (records c.written).map LogRecord.line = ["a", "b", "c", "a"]
    ∧ ∃ rest, s.persisted = records c.written ++ rest
  := by
  have hsome : (((machine.restrict steady).follow Sample.job Sample.steadyEvents).bind fun s =>
      (s.connections[0]?).map fun c => (c.since, (records c.written).map LogRecord.line))
      = some (0, ["a", "b", "c", "a"]) := by decide +kernel
  obtain ⟨s, hfollow, hs⟩ := Option.bind_eq_some_iff.mp hsome
  obtain ⟨c, hc, heq⟩ := Option.map_eq_some_iff.mp hs
  obtain ⟨past, hexec, hall⟩ := Machine.Execution.of_follow_restrict Sample.job_initial hfollow
  obtain ⟨hsince, hlines⟩ := Prod.mk.inj heq
  obtain ⟨rest, hrest, -⟩ := backfill_shows_each_record_once hexec hall hc hsince
  exact ⟨past, s, c, hexec, hc, hlines, rest, hrest⟩

/-- A line that is logged twice in a second is shown three times, where it is published while the
connection lists the chunks; a line that is logged again in the second in which it was listed is
missing; two chunks whose records are published in the other order are shown in it; and a chunk that
is persisted behind one with a greater number is shown before it. -/
theorem backfill_repeats_and_loses_records :
  Sample.Writes [.persist (Sample.chunk 0 1000 ["a", "a"]), .connect 0, .cursor 0, .list 0,
      .publish 0, .publish 0, .replay 0, .subscribe 0] ["a", "a"] ["a", "a", "a"]
    ∧ Sample.Writes [.persist (Sample.chunk 0 1000 ["a"]), .publish 0, .connect 0,
      .cursor 0, .list 0,
      .persist (Sample.chunk 1 1500 ["a"]), .publish 1, .replay 0, .subscribe 0] ["a", "a"] ["a"]
    ∧ Sample.Writes [.connect 0, .cursor 0, .list 0, .replay 0, .subscribe 0,
      .persist (Sample.chunk 0 1000 ["a"]), .persist (Sample.chunk 1 1000 ["b"]), .publish 1,
      .publish 0, .forward 0, .forward 0] ["a", "b"] ["b", "a"]
    ∧ Sample.Writes [.persist (Sample.chunk 1 1000 ["b"]), .publish 0,
      .persist (Sample.chunk 0 1000 ["a"]), .publish 1, .connect 0, .cursor 0, .list 0, .replay 0,
      .subscribe 0] ["b", "a"] ["a", "b"]
  := by
  refine ⟨?_, ?_, ?_, ?_⟩ <;> exact Sample.writes_of_follow (by decide +kernel)

end JobLog

end Ploy
