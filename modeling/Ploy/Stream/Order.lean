import Ploy.Stream.InHand

/-!
# Order of delivery

The sections of the mutex take channels in hand. Where they find them free, every step keeps the
invariant of the channels: no event is sent on a closed channel, and a subscriber reads consecutive
events. Where they do not, neither holds.
-/

namespace Ploy

namespace Delivery

variable {ε : Type}

section Sound

variable {strict : Bool} {s s' : Delivery ε} {stream : Stream ε} {i k : Nat}
  {sub sub' : Subscriber ε} {call call' : DeliveryCall ε} {hand : Hand ε}

/-! ### Sections that take channels in hand -/

theorem Sound.closeOne (h : Sound strict s) {todo : List Nat}
    (hi : s.calls[i]? = some (.closing todo)) (hmem : k ∈ todo)
    (hs : s.closeSub i k (.closing (todo.erase k)) = some s') :
  Sound strict s'
  := by
  have hheld : (DeliveryCall.closing todo : DeliveryCall ε).hand k = some .out := if_pos hmem
  apply h.closeSub hi hheld _ _ _ _ hs
  · trivial
  · intro k' hne
    simp [DeliveryCall.hand, List.mem_erase_of_ne hne]
  · intro sub hand' hout hhand'
    simp only [DeliveryCall.hand] at hhand'
    split at hhand'
    · cases hhand'
      exact hout
    · cases hhand'
  · intro sub hout _
    exact hout

theorem Sound.of_free (h : Sound strict s) (hk : s.subs[k]? = some sub)
    (hreg : k ∈ s.stream.subscribers) (hfree : ∀ c ∈ s.calls, c.hand k = none) :
  sub.closed = false ∧ UpTo sub.sent s.stream.nextEventID
  := by
  rcases h.free k sub hk hfree with ⟨-, hgood⟩ | ⟨hnot, -⟩
  · exact hgood
  · exact absurd hreg hnot

/-- A section that starts a call keeps the invariant if the call takes only channels in hand that
are in no hand, and all channels are as they should be with it. -/
theorem Sound.start (h : Sound strict s) (added : List (Subscriber ε)) (hnumbered : stream.Numbered)
    (hnodup : stream.subscribers.Nodup)
    (hregistered : ∀ k ∈ stream.subscribers, k < (s.subs ++ added).length)
    (hwf : call.WellFormed)
    (hhand : ∀ k, call.hand k ≠ none →
      k < (s.subs ++ added).length ∧ ∀ c ∈ s.calls, c.hand k = none)
    (honce : ∀ sub ∈ added, sub.once = sub.closed)
    (hordered : ∀ sub ∈ s.subs ++ added, Ordered strict stream sub)
    (hheld : ∀ c ∈ s.calls, ∀ k hand sub, c.hand k = some hand → s.subs[k]? = some sub →
      Fits strict s.stream k sub hand → Fits strict stream k sub hand)
    (hmine : ∀ k hand sub, call.hand k = some hand → (s.subs ++ added)[k]? = some sub →
      Fits strict stream k sub hand)
    (hfree : ∀ k sub, (s.subs ++ added)[k]? = some sub → call.hand k = none →
      (∀ c ∈ s.calls, c.hand k = none) → Free stream k sub) :
  Sound strict { s with
    stream := stream
    subs := s.subs ++ added
    calls := s.calls ++ [call] }
  := by
  constructor
  case crash => apply h.crash
  case once => exact fun sub hsub => (List.mem_append.mp hsub).elim (h.once sub) (honce sub)
  case numbered => apply hnumbered
  case nodup => apply hnodup
  case registered => apply hregistered
  case wellFormed =>
    intro c hc
    rcases List.mem_append.mp hc with hc | hc
    · apply h.wellFormed c hc
    · rw [List.mem_singleton.mp hc]
      exact hwf
  case known =>
    intro c hc k hsome
    rcases List.mem_append.mp hc with hc | hc
    · rw [List.length_append]
      exact Nat.lt_add_right _ (h.known c hc k hsome)
    · rw [List.mem_singleton.mp hc] at hsome
      exact (hhand k hsome).1
  case exclusive =>
    intro i j a b k hi hj ha hb
    rcases Pool.get_start.mp hi with ⟨hilen, rfl⟩ | hi'
    · rcases Pool.get_start.mp hj with ⟨hjlen, rfl⟩ | hj'
      · rw [hilen, hjlen]
      · exact absurd ((hhand k ha).2 b (List.mem_of_getElem? hj')) hb
    · rcases Pool.get_start.mp hj with ⟨-, rfl⟩ | hj'
      · exact absurd ((hhand k hb).2 a (List.mem_of_getElem? hi')) ha
      · apply h.exclusive i j a b k hi' hj' ha hb
  case held =>
    intro c hc k hand sub hsome hk
    rcases List.mem_append.mp hc with hc | hc
    · have hlt := h.known c hc k (by rw [hsome]; apply Option.some_ne_none)
      rw [List.getElem?_append_left hlt] at hk
      apply hheld c hc k hand sub hsome hk (h.held c hc k hand sub hsome hk)
    · rw [List.mem_singleton.mp hc] at hsome
      apply hmine k hand sub hsome hk
  case free =>
    intro k sub hk hnone
    apply hfree k sub hk
    · apply hnone _ (List.mem_append_right _ (List.mem_singleton_self _))
    · exact fun c hc => hnone c (List.mem_append_left _ hc)
  case ordered => apply hordered

/-- More events do not disturb what was put on a channel. -/
theorem Ordered.of_le (h : Ordered strict s.stream sub)
    (hle : s.stream.nextEventID ≤ stream.nextEventID) :
  Ordered strict stream sub
  := ⟨h.consecutive, fun hs => ⟨(h.since hs).1.trans hle, (h.since hs).2⟩⟩

/-- A publisher takes the channels of all who are registered in hand. -/
theorem Sound.publish (h : Sound strict s) {payload : ε} {event : Event ε}
    (hfree : ∀ k ∈ s.stream.subscribers, ∀ c ∈ s.calls, c.hand k = none)
    (hp : s.stream.publish payload = some (stream, event)) :
  Sound strict { s with
    stream := stream
    calls := s.calls ++ [.publishing event stream.subscribers none []] }
  := by
  have hnumbered := h.numbered.publish hp
  obtain ⟨hopen, hevent, hstream⟩ := Stream.publish_eq_some hp
  have hsubs : stream.subscribers = s.stream.subscribers := by rw [hstream]
  have hnext : stream.nextEventID = s.stream.nextEventID + 1 := by rw [hstream]
  have hhand : ∀ k, (DeliveryCall.publishing event stream.subscribers none []).hand k
      = if k ∈ s.stream.subscribers then some (.send event) else none := by
    intro k
    simp [DeliveryCall.hand, hsubs]
  rw [← List.append_nil s.subs]
  apply h.start [] hnumbered
  · rw [hsubs]
    apply h.nodup
  · rw [hsubs, List.append_nil]
    apply h.registered
  · rw [DeliveryCall.WellFormed, hsubs]
    simpa using h.nodup
  · intro k hsome
    have hreg : k ∈ s.stream.subscribers := by
      by_contra hnot
      rw [hhand, if_neg hnot] at hsome
      exact hsome rfl
    rw [List.append_nil]
    exact ⟨h.registered k hreg, hfree k hreg⟩
  · simp
  · rw [List.append_nil]
    exact fun sub hsub => (h.ordered sub hsub).of_le (hnext ▸ Nat.le_succ _)
  · intro c hc k hand sub hsome hk hold
    -- the stream is open, so what is in hand is out of it or about to be
    have hnot : k ∉ s.stream.subscribers := by
      intro hreg
      rw [hfree k hreg c hc] at hsome
      cases hsome
    cases hand with
    | send _ | full | drop | replayDrop => exact absurd hold.1 hnot
    | out => simpa only [Fits, hsubs] using hnot
    | replayFull registered => simpa only [Fits, hsubs] using hold
    | replay todo registered =>
      obtain ⟨hreg, -, hshut, -⟩ := hold
      cases registered with
      | true => exact absurd (hreg.mp rfl) hnot
      | false =>
        rw [hopen] at hshut
        cases hshut rfl
  · intro k hand sub hsome hk
    rw [List.append_nil] at hk
    rw [hhand] at hsome
    split at hsome
    · rename_i hreg
      cases hsome
      obtain ⟨hsubopen, hupto⟩ := h.of_free hk hreg (hfree k hreg)
      have hsince := (h.ordered sub (List.mem_of_getElem? hk)).since
      refine ⟨?_, hsubopen, s.stream.nextEventID, by rw [hevent], hnext, hupto,
        fun hs => (hsince hs).1⟩
      rw [hsubs]
      exact hreg
    · cases hsome
  · intro k sub hk hnew hnone
    rw [List.append_nil] at hk
    have hnot : k ∉ s.stream.subscribers := by
      intro hreg
      rw [hhand, if_pos hreg] at hnew
      cases hnew
    rcases h.free k sub hk hnone with ⟨hreg, -⟩ | hout
    · exact absurd hreg hnot
    · exact Or.inr (by rw [hsubs]; exact hout)

/-- Subscribers are taken out of the stream, and their channels in hand. -/
theorem Sound.takeOut (h : Sound strict s) {ks : List Nat}
    (hks : ∀ k ∈ ks, k ∈ s.stream.subscribers)
    (hfree : ∀ k ∈ ks, ∀ c ∈ s.calls, c.hand k = none)
    (hmem : ∀ k, k ∈ stream.subscribers ↔ k ∈ s.stream.subscribers ∧ k ∉ ks)
    (hnodup : stream.subscribers.Nodup) (hhistory : stream.history = s.stream.history)
    (hnext : stream.nextEventID = s.stream.nextEventID)
    (hclosed : s.stream.closed = true → stream.closed = true) :
  Sound strict { s with stream := stream, calls := s.calls ++ [.closing ks] }
  := by
  have hhand : ∀ k, (DeliveryCall.closing ks : DeliveryCall ε).hand k
      = if k ∈ ks then some .out else none := fun _ => rfl
  have hrest : ∀ k, k ∉ ks → (k ∈ stream.subscribers ↔ k ∈ s.stream.subscribers) := by
    intro k hnot
    rw [hmem]
    exact and_iff_left hnot
  rw [← List.append_nil s.subs]
  apply h.start [] _ hnodup
  · exact fun k hk => by simpa using h.registered k ((hmem k).mp hk).1
  · trivial
  · intro k hsome
    have hk : k ∈ ks := by
      by_contra hnot
      exact hsome (if_neg hnot)
    rw [List.append_nil]
    exact ⟨h.registered k (hks k hk), hfree k hk⟩
  · simp
  · rw [List.append_nil]
    exact fun sub hsub => (h.ordered sub hsub).of_le hnext.ge
  · intro c hc k hand sub hsome hk hold
    have hnot : k ∉ ks := by
      intro hk'
      rw [hfree k hk' c hc] at hsome
      cases hsome
    apply hold.of_same (hrest k hnot) hnext hclosed
  · intro k hand sub hsome hk
    rw [hhand] at hsome
    split at hsome
    · rename_i hk'
      cases hsome
      exact fun hreg => ((hmem k).mp hreg).2 hk'
    · cases hsome
  · intro k sub hk hnew hnone
    rw [List.append_nil] at hk
    have hnot : k ∉ ks := by
      intro hk'
      rw [hhand, if_pos hk'] at hnew
      cases hnew
    exact (h.free k sub hk hnone).of_same (hrest k hnot) hnext
  · rw [Stream.Numbered, Stream.snapshot, hhistory, hnext]
    apply h.numbered

/-- Who is registered after a subscription: whoever was, and the new subscriber unless the stream is
closed. -/
theorem Sound.mem_subscribed (h : Sound strict s) :
  (s.subs.length ∈ s.stream.subscribers ++ (if s.stream.closed then [] else [s.subs.length])
      ↔ s.stream.closed = false)
    ∧ ∀ k < s.subs.length, (k ∈ s.stream.subscribers
        ++ (if s.stream.closed then [] else [s.subs.length]) ↔ k ∈ s.stream.subscribers)
  := by
  have hfresh : s.subs.length ∉ s.stream.subscribers :=
    fun hreg => Nat.lt_irrefl _ (h.registered _ hreg)
  constructor
  · cases s.stream.closed <;> simp [hfresh]
  · intro k hlt
    cases s.stream.closed with
    | true => simp
    | false => simp [Nat.ne_of_lt hlt]

theorem Sound.nodup_subscribed (h : Sound strict s) :
  (s.stream.subscribers ++ (if s.stream.closed then [] else [s.subs.length])).Nodup
  := by
  cases s.stream.closed with
  | true => simpa using h.nodup
  | false =>
    simp only [Bool.false_eq_true, if_false]
    rw [List.nodup_append]
    refine ⟨h.nodup, List.nodup_singleton _, ?_⟩
    rintro a ha b hb rfl
    rw [List.mem_singleton.mp hb] at ha
    exact Nat.lt_irrefl _ (h.registered _ ha)

/-- A subscription takes the channel it makes in hand, to replay what is kept to it. -/
theorem Sound.subscribe (h : Sound strict s) {since : Nat}
    (hsince : strict = true → since ≤ s.stream.nextEventID) :
  Sound strict { s with
    stream := (s.stream.subscribe s.subs.length since).1
    subs := s.subs ++ [⟨since, [], [], false, false⟩]
    calls := s.calls ++ [.replaying s.subs.length (s.stream.subscribe s.subs.length since).2.1
      (s.stream.subscribe s.subs.length since).2.2] }
  := by
  rw [Stream.subscribe_eq]
  obtain ⟨hnew, hmem⟩ := h.mem_subscribed
  have hmine : ∀ k (todo : List (Event ε)) (registered : Bool),
      (DeliveryCall.replaying s.subs.length todo registered).hand k ≠ none → k = s.subs.length := by
    intro k todo registered hsome
    by_contra hnot
    exact hsome (if_neg (Ne.symm hnot))
  apply h.start [⟨since, [], [], false, false⟩]
  · apply h.numbered
  · apply h.nodup_subscribed
  · intro k hk
    rw [List.length_append, List.length_singleton]
    rcases List.mem_append.mp hk with hk | hk
    · exact Nat.lt_succ_of_lt (h.registered k hk)
    · split at hk
      · cases hk
      · rw [List.mem_singleton.mp hk]
        exact Nat.lt_succ_self _
  · trivial
  · intro k hsome
    rw [hmine k _ _ hsome, List.length_append, List.length_singleton]
    refine ⟨Nat.lt_succ_self _, ?_⟩
    intro c hc
    by_contra hheld
    exact Nat.lt_irrefl _ (h.known c hc _ hheld)
  · intro sub hsub
    rw [List.mem_singleton.mp hsub]
  · intro sub hsub
    rcases List.mem_append.mp hsub with hsub | hsub
    · exact (h.ordered sub hsub).of_le (Nat.le_refl _)
    · rw [List.mem_singleton.mp hsub]
      exact ⟨⟨0, UpTo.nil 0⟩, fun hstrict => ⟨hsince hstrict, nofun⟩⟩
  · intro c hc k hand sub hsome hk hold
    have hlt := h.known c hc k (by rw [hsome]; apply Option.some_ne_none)
    exact hold.of_same (hmem k hlt) rfl id
  · intro k hand sub hsome hk
    have hlen : k = s.subs.length := hmine k _ _ (by rw [hsome]; apply Option.some_ne_none)
    subst hlen
    rw [List.getElem?_concat_length] at hk
    cases hk
    cases (if_pos rfl).symm.trans hsome
    refine ⟨?_, rfl, ?_, ?_, ?_⟩
    · rw [hnew]
      simp
    · simp
    · apply h.numbered.after
    · intro hstrict event hevent
      rw [h.numbered.after_eq] at hevent
      simpa using (List.mem_filter.mp hevent).2
  · intro k sub hk hown hnone
    rcases Pool.get_start.mp hk with ⟨rfl, rfl⟩ | hk'
    · cases (if_pos rfl).symm.trans hown
    · have hlt := (List.getElem?_eq_some_iff.mp hk').1
      exact (h.free k sub hk' hnone).of_same (hmem k hlt) rfl

theorem closeAll_of_closed {subs : List (Subscriber ε)} {ks : List Nat}
    (h : ∀ k ∈ ks, ∀ sub, subs[k]? = some sub → sub.once = true) :
  closeAll subs ks = some subs
  := by
  induction ks with
  | nil => rfl
  | cons k rest ih =>
    have hrest := ih (fun k' hk' => h k' (List.mem_cons_of_mem _ hk'))
    simp only [closeAll]
    split
    · apply hrest
    · rename_i sub hk
      rw [Subscriber.close, if_pos (h k List.mem_cons_self sub hk)]
      dsimp only
      rw [Pool.set_self hk]
      apply hrest

/-- A publisher takes out whom it could not send to. Their channels are closed already. -/
theorem Sound.dropFull (h : Sound strict s) {event : Event ε} {dropped : List Nat}
    (hi : s.calls[i]? = some (.publishing event [] none dropped)) :
  closeAll s.subs (dropped.filter (· ∈ s.stream.subscribers)) = some s.subs
    ∧ Sound strict { s with
        stream := { s.stream with subscribers := s.stream.subscribers.filter (· ∉ dropped) }
        calls := s.calls.set i .ended }
  := by
  have hhand : ∀ k, (DeliveryCall.publishing event [] none dropped).hand k
      = if k ∈ dropped then some .drop else none := by
    intro k
    simp [DeliveryCall.hand]
  have hcall := List.mem_of_getElem? hi
  have hclosed : ∀ k ∈ dropped, ∀ sub, s.subs[k]? = some sub → sub.closed = true := by
    intro k hk sub hsub
    have hheld := hhand k
    rw [if_pos hk] at hheld
    exact (h.held _ hcall k _ sub hheld hsub).2
  have hmem : ∀ k, k ∉ dropped →
      (k ∈ s.stream.subscribers.filter (· ∉ dropped) ↔ k ∈ s.stream.subscribers) := by
    intro k hk
    simp [hk]
  -- what another call has in hand was not dropped here
  have hother : ∀ (j : Nat) (c : DeliveryCall ε) (k : Nat), (s.calls.set i .ended)[j]? = some c →
      c.hand k ≠ none → s.calls[j]? = some c ∧ k ∉ dropped := by
    intro j c k hj hsome
    rcases (Pool.get_set hi).mp hj with ⟨-, rfl⟩ | ⟨hne, hj⟩
    · exact absurd rfl hsome
    · refine ⟨hj, fun hk => ?_⟩
      apply hne
      apply h.exclusive j i c _ k hj hi hsome
      rw [hhand, if_pos hk]
      apply Option.some_ne_none
  constructor
  · apply closeAll_of_closed
    intro k hk sub hsub
    rw [h.once sub (List.mem_of_getElem? hsub)]
    apply hclosed k (List.mem_of_mem_filter hk) sub hsub
  constructor
  case crash => apply h.crash
  case once => apply h.once
  case numbered => apply h.numbered
  case nodup => apply h.nodup.filter
  case registered => exact fun k hk => h.registered k (List.mem_of_mem_filter hk)
  case wellFormed =>
    intro c hc
    rcases Pool.mem_of_set hc with rfl | hc
    · trivial
    · apply h.wellFormed c hc
  case known =>
    intro c hc k hsome
    obtain ⟨j, hj⟩ := List.getElem?_of_mem hc
    apply h.known c (List.mem_of_getElem? (hother j c k hj hsome).1) k hsome
  case exclusive =>
    intro j l a b k hj hl ha hb
    apply h.exclusive j l a b k (hother j a k hj ha).1 (hother l b k hl hb).1 ha hb
  case held =>
    intro c hc k hand sub hsome hk
    obtain ⟨j, hj⟩ := List.getElem?_of_mem hc
    obtain ⟨hj', hnot⟩ := hother j c k hj (by rw [hsome]; apply Option.some_ne_none)
    apply Fits.of_same (h.held c (List.mem_of_getElem? hj') k hand sub hsome hk) (hmem k hnot)
    · rfl
    · exact id
  case free =>
    intro k sub hk hnone
    by_cases hdropped : k ∈ dropped
    · refine Or.inr ⟨?_, hclosed k hdropped sub hk⟩
      simp [hdropped]
    · refine (h.free k sub hk ?_).of_same (hmem k hdropped) rfl
      intro c hc
      obtain ⟨j, hj⟩ := List.getElem?_of_mem hc
      by_cases hji : j = i
      · rw [hji, hi, Option.some.injEq] at hj
        rw [← hj, hhand, if_neg hdropped]
      · apply hnone c (List.mem_of_getElem? ((Pool.get_set hi).mpr (Or.inr ⟨hji, hj⟩)))
  case ordered =>
    intro sub hsub
    obtain ⟨hconsecutive, hsince⟩ := h.ordered sub hsub
    exact ⟨hconsecutive, hsince⟩

/-- A reader takes an event from its channel. -/
theorem Sound.receive (h : Sound strict s) {since : Nat} {event : Event ε}
    {rest read : List (Event ε)} {closed once : Bool}
    (hk : s.subs[k]? = some ⟨since, event :: rest, read, closed, once⟩) :
  Sound strict { s with subs := s.subs.set k ⟨since, rest, read ++ [event], closed, once⟩ }
  := by
  -- only where the event is has changed
  have hsent : Subscriber.sent ⟨since, rest, read ++ [event], closed, once⟩
      = Subscriber.sent ⟨since, event :: rest, read, closed, once⟩ := by
    simp [Subscriber.sent]
  have hmem := List.mem_of_getElem? hk
  constructor
  case crash => apply h.crash
  case once =>
    intro sub hsub
    have honce := h.once _ hmem
    rcases Pool.mem_of_set hsub with rfl | hsub
    · exact honce
    · apply h.once sub hsub
  case numbered => apply h.numbered
  case nodup => apply h.nodup
  case registered =>
    rw [List.length_set]
    apply h.registered
  case wellFormed => apply h.wellFormed
  case known =>
    rw [List.length_set]
    apply h.known
  case exclusive => apply h.exclusive
  case held =>
    intro c hc k' hand sub hsome hsub
    rcases (Pool.get_set hk).mp hsub with ⟨rfl, rfl⟩ | ⟨-, hsub⟩
    · have hold := h.held c hc k' hand _ hsome hk
      cases hand <;> simpa only [Fits, hsent] using hold
    · apply h.held c hc k' hand sub hsome hsub
  case free =>
    intro k' sub hsub hnone
    rcases (Pool.get_set hk).mp hsub with ⟨rfl, rfl⟩ | ⟨-, hsub⟩
    · have hold := h.free k' _ hk hnone
      simpa only [Free, hsent] using hold
    · apply h.free k' sub hsub hnone
  case ordered =>
    intro sub hsub
    rcases Pool.mem_of_set hsub with rfl | hsub
    · obtain ⟨hconsecutive, hsince⟩ := h.ordered _ hmem
      constructor
      · rw [hsent]
        exact hconsecutive
      · rw [hsent]
        exact hsince
    · apply h.ordered sub hsub

/-! ### Steps -/

theorem Sound.running (h : Sound strict s) :
  ¬ s.crash.isSome = true
  := by
  simp [h.crash]

/-- Finishing the stream takes everybody out, the first time. -/
theorem Sound.finish (h : Sound strict s)
    (hfree : ∀ k ∈ s.stream.subscribers, ∀ c ∈ s.calls, c.hand k = none) :
  Sound strict { s with
    stream := s.stream.finish.1
    calls := s.calls ++ [.closing s.stream.finish.2] }
  := by
  cases hclosed : s.stream.closed with
  | true =>
    simp only [Stream.finish, hclosed, if_true]
    refine h.takeOut ?_ ?_ ?_ h.nodup rfl rfl id
    · simp
    · simp
    · simp
  | false =>
    simp only [Stream.finish, hclosed, Bool.false_eq_true, if_false]
    refine h.takeOut (fun k hk => hk) hfree ?_ List.nodup_nil rfl rfl (fun _ => rfl)
    intro k
    simp

/-- A subscriber that cancels is taken out. -/
theorem Sound.cancel (h : Sound strict s) (hreg : k ∈ s.stream.subscribers)
    (hfree : ∀ c ∈ s.calls, c.hand k = none) :
  Sound strict { s with stream := s.stream.drop k, calls := s.calls ++ [.closing [k]] }
  := by
  refine h.takeOut ?_ ?_ ?_ (h.nodup.filter _) rfl rfl id
  · intro k' hk'
    rw [List.mem_singleton.mp hk']
    exact hreg
  · intro k' hk'
    rw [List.mem_singleton.mp hk']
    exact hfree
  · intro k'
    simp [Stream.drop]

/-- The steps of a publisher. -/
theorem Sound.step_publisher (h : Sound strict s) {e : DeliveryEvent ε}
    (he : (∃ i k, e = .send i k) ∨ ∃ i, e = .closeFull i ∨ e = .dropFull i)
    (hs : step e s = some s') :
  Sound strict s'
  := by
  rcases he with ⟨i, k, rfl⟩ | ⟨i, rfl | rfl⟩
  all_goals
    simp only [Delivery.step, if_neg h.running] at hs
    split at hs
  · rename_i hi
    split at hs
    · rename_i hmem
      apply h.send hi hmem hs
    · cases hs
  · cases hs
  · rename_i hi
    apply h.closeFull hi hs
  · cases hs
  · rename_i hi
    obtain ⟨hclose, hsound⟩ := h.dropFull hi
    rw [hclose] at hs
    cases hs
    apply hsound
  · cases hs

/-- The steps of a subscription that replays. -/
theorem Sound.step_replay (h : Sound strict s) {e : DeliveryEvent ε}
    (he : ∃ i, e = .replay i ∨ e = .closeReplay i ∨ e = .dropReplay i) (hs : step e s = some s') :
  Sound strict s'
  := by
  rcases he with ⟨i, rfl | rfl | rfl⟩
  all_goals
    simp only [Delivery.step, if_neg h.running] at hs
    split at hs
  · rename_i hi
    apply h.replay hi hs
  · rename_i hi
    cases hs
    apply h.replayed hi
  · rename_i hi
    cases hs
    apply h.replayed hi
  · cases hs
  · rename_i hi
    apply h.closeReplay hi hs
  · rename_i hi
    apply h.closeReplay hi hs
  · cases hs
  · rename_i hi
    obtain ⟨hreg, hsound⟩ := h.dropReplay hi
    rw [if_pos hreg] at hs
    cases hs
    apply hsound
  · cases hs

/-- The steps of a subscription that was returned, and of who closes channels. -/
theorem Sound.step_subscribed (h : Sound strict s) {e : DeliveryEvent ε}
    (he : (∃ i k, e = .close i k) ∨ ∃ i, e = .cancel i ∨ e = .receive i)
    (ha : s.undisputed e = true) (hs : step e s = some s') :
  Sound strict s'
  := by
  rcases he with ⟨i, k, rfl⟩ | ⟨i, rfl | rfl⟩
  all_goals
    simp only [Delivery.step, if_neg h.running] at hs
    split at hs
  · rename_i hi
    split at hs
    · rename_i hmem
      apply h.closeOne hi hmem hs
    · cases hs
  · rename_i hi
    split at hs
    · rename_i hk
      cases hk
      apply h.closeReplayed hi hs
    · cases hs
  · cases hs
  · rename_i k hi
    split at hs
    · rename_i hreg
      cases hs
      simp only [undisputed, hi, hreg, not_true_eq_false, decide_false, Bool.false_or,
        Delivery.free, List.all_eq_true, Option.isNone_iff_eq_none] at ha
      apply h.cancel hreg ha
    · cases hs
      apply h
  · cases hs
  · split at hs
    · rename_i hk
      cases hs
      apply h.receive hk
    · cases hs
  · cases hs

/-- Every undisputed step keeps the invariant. -/
theorem Sound.step (h : Sound strict s) {e : DeliveryEvent ε} (ha : s.undisputed e = true)
    (hgiven : strict = true → ∀ since, e = .subscribe since → since ≤ s.stream.nextEventID)
    (hs : step e s = some s') :
  Sound strict s'
  := by
  cases e with
  | publish payload =>
    simp only [Delivery.step, if_neg h.running] at hs
    simp only [undisputed, Delivery.free, List.all_eq_true, Option.isNone_iff_eq_none] at ha
    split at hs
    · cases hs
      apply h
    · rename_i hp
      cases hs
      apply h.publish ha hp
  | subscribe since =>
    simp only [Delivery.step, if_neg h.running] at hs
    cases hs
    apply h.subscribe
    exact fun hstrict => hgiven hstrict since rfl
  | finish =>
    simp only [Delivery.step, if_neg h.running] at hs
    simp only [undisputed, Delivery.free, List.all_eq_true, Option.isNone_iff_eq_none] at ha
    cases hs
    apply h.finish ha
  | send i k => exact h.step_publisher (Or.inl ⟨i, k, rfl⟩) hs
  | closeFull i => exact h.step_publisher (Or.inr ⟨i, Or.inl rfl⟩) hs
  | dropFull i => exact h.step_publisher (Or.inr ⟨i, Or.inr rfl⟩) hs
  | replay i => exact h.step_replay ⟨i, Or.inl rfl⟩ hs
  | closeReplay i => exact h.step_replay ⟨i, Or.inr (Or.inl rfl)⟩ hs
  | dropReplay i => exact h.step_replay ⟨i, Or.inr (Or.inr rfl)⟩ hs
  | close i k => exact h.step_subscribed (Or.inl ⟨i, k, rfl⟩) ha hs
  | cancel i => exact h.step_subscribed (Or.inr ⟨i, Or.inl rfl⟩) ha hs
  | receive i => exact h.step_subscribed (Or.inr ⟨i, Or.inr rfl⟩) ha hs

end Sound

/-! ### Delivery in every run -/

section Main

variable {past : List (Delivery ε × DeliveryEvent ε)} {s : Delivery ε} {k : Nat}
  {sub : Subscriber ε}

theorem sound_of_undisputed (h : machine.Execution past s)
    (ha : ∀ x ∈ past, x.1.undisputed x.2 = true) :
  Sound false s
  := by
  apply h.invariant_of_allowed undisputed (fun _ => Initial.sound) _ ha
  intro s e s' hsound hallowed hs
  apply hsound.step hallowed nofun hs

theorem sound_of_orderly (h : machine.Execution past s) (ha : ∀ x ∈ past, x.1.orderly x.2 = true) :
  Sound true s
  := by
  apply h.invariant_of_allowed orderly (fun _ => Initial.sound) _ ha
  intro s e s' hsound hallowed hs
  simp only [orderly, Bool.and_eq_true] at hallowed
  apply hsound.step hallowed.1 _ hs
  rintro - since rfl
  simpa using hallowed.2

/-- In every run no channel is closed twice; and in every run in which a section that takes the
channel of a registered subscriber in hand finds no other call that has it in hand, no event is sent
on a closed channel. -/
theorem no_send_on_closed_channel (h : machine.Execution past s) :
  s.crash ≠ some .closeOfClosed
    ∧ ((∀ x ∈ past, x.1.undisputed x.2 = true) → s.crash = none)
  := by
  constructor
  · have honce : ClosedOnce s := by
      apply h.invariant
      · intro s hinit
        constructor
        · rw [hinit.subs]
          nofun
        · rw [hinit.running]
          nofun
      · intro s e s' honce hs
        apply honce.step hs
    exact honce.crash
  · intro ha
    exact (sound_of_undisputed h ha).crash

/-- In every such run in which nobody subscribes after a number that was not given yet, a subscriber
reads events with increasing numbers that come after the one it subscribed after, none left out from
the first it reads on. While its channel is open and no call has it in hand, everything up to the
last event was put on it; and what is kept is replayed to whoever subscribes after an earlier
number. -/
theorem delivered_in_order (h : machine.Execution past s) (ha : ∀ x ∈ past, x.1.orderly x.2 = true)
    (hk : s.subs[k]? = some sub) :
  (sub.read.map Event.id).Pairwise (· < ·) ∧ (∀ e ∈ sub.read, sub.since < e.id)
    ∧ (∃ first, sub.read.map Event.id = List.range' first sub.read.length)
    ∧ (s.free k = true → sub.closed = false →
        ∃ first, first + sub.sent.length = s.stream.nextEventID + 1
          ∧ sub.sent = List.range' first sub.sent.length)
    ∧ ∀ since e, e ∈ s.stream.snapshot → since < e.id → e ∈ s.stream.after since
  := by
  have hsound := sound_of_orderly h ha
  obtain ⟨⟨n, hn⟩, hsince⟩ := hsound.ordered sub (List.mem_of_getElem? hk)
  -- what was read is the first part of what was put on the channel
  have hsplit : sub.sent = sub.read.map Event.id ++ sub.buf.map Event.id := List.map_append
  rw [hsplit] at hn
  obtain ⟨m, hm⟩ := hn.left
  obtain ⟨first, -, hrange⟩ := hm.split
  rw [List.length_map] at hrange
  refine ⟨?_, ?_, ⟨1 + first, hrange⟩, ?_, ?_⟩
  · rw [hrange]
    exact List.pairwise_lt_range'
  · intro e he
    apply (hsince rfl).2 e.id
    rw [hsplit]
    exact List.mem_append_left _ (List.mem_map_of_mem he)
  · intro hfree hopen
    simp only [Delivery.free, List.all_eq_true, Option.isNone_iff_eq_none] at hfree
    rcases hsound.free k sub hk hfree with ⟨-, -, hupto⟩ | ⟨-, hclosed⟩
    · obtain ⟨l, hlength, hall⟩ := hupto.split
      refine ⟨1 + l, ?_, hall⟩
      omega
    · rw [hopen] at hclosed
      cases hclosed
  · intro since e he hlt
    rw [hsound.numbered.after_eq]
    exact List.mem_filter.mpr ⟨he, by simpa using hlt⟩

end Main

/-! ### A stream and its subscribers -/

namespace Sample

/-- A new stream, with channels for two events. -/
def idle : Delivery String :=
  Delivery.new ⟨2, 0⟩

theorem idle_initial : Initial idle :=
  initial_new _

/-- A subscriber that is sent two events, the second of which it gets after it has read the first.
-/
def orderlyEvents : List (DeliveryEvent String) :=
  [.publish "a", .subscribe 0, .replay 1, .replay 1, .publish "b", .send 2 0,
    .dropFull 2, .receive 1,
    .receive 1, .cancel 1, .close 3 0]

/-- What the first subscriber reads in a run. -/
def Reads (events : List (DeliveryEvent String)) (since : Nat) (ids : List Nat) : Prop :=
  ∃ past s sub, machine.Execution past s ∧ past.map Prod.snd = events.reverse
    ∧ s.subs[0]? = some sub ∧ sub.since = since ∧ sub.read.map Event.id = ids

theorem reads_of_follow {events : List (DeliveryEvent String)} {since : Nat} {ids : List Nat}
    (h : ((machine.follow idle events).bind (·.subs[0]?)).map
      (fun sub => (sub.since, sub.read.map Event.id)) = some (since, ids)) :
  Reads events since ids
  := by
  obtain ⟨sub, hsub, heq⟩ := Option.map_eq_some_iff.mp h
  obtain ⟨s, hfollow, hk⟩ := Option.bind_eq_some_iff.mp hsub
  obtain ⟨past, hexec, hlabels⟩ := Machine.Execution.of_follow idle_initial hfollow
  cases heq
  exact ⟨past, s, sub, hexec, hlabels, hk, rfl, rfl⟩

/-- The process ends in a run with a send on a closed channel. -/
def Crashes (events : List (DeliveryEvent String)) : Prop :=
  ∃ past s, machine.Execution past s ∧ past.map Prod.snd = events.reverse
    ∧ s.crash = some .sendOnClosed

theorem crashes_of_follow {events : List (DeliveryEvent String)}
    (h : (machine.follow idle events).map Delivery.crash = some (some .sendOnClosed)) :
  Crashes events
  := by
  obtain ⟨s, hfollow, hcrash⟩ := Option.map_eq_some_iff.mp h
  obtain ⟨past, hexec, hlabels⟩ := Machine.Execution.of_follow idle_initial hfollow
  exact ⟨past, s, hexec, hlabels, hcrash⟩

end Sample

/-- A subscriber that reads two events and cancels. -/
theorem no_send_on_closed_channel_sample :
  ∃ past s, machine.Execution past s ∧ past.map Prod.snd = Sample.orderlyEvents.reverse
    ∧ s.crash = none
  := by
  have hsome : ((machine.restrict undisputed).follow Sample.idle Sample.orderlyEvents).isSome
      = true := by
    decide +kernel
  obtain ⟨s, hs⟩ := Option.isSome_iff_exists.mp hsome
  obtain ⟨past, hexec, hlabels⟩ := Machine.Execution.of_follow (M := machine.restrict undisputed)
    Sample.idle_initial hs
  obtain ⟨hexec, hall⟩ := hexec.of_restrict
  exact ⟨past, s, hexec, hlabels, (no_send_on_closed_channel hexec).2 hall⟩

/-- A publisher that found a subscriber registered sends to it after the subscriber has cancelled,
or after the stream was finished; and a replay goes on after the stream was finished. -/
theorem send_on_closed_channel :
  Sample.Crashes [.subscribe 0, .replay 0, .publish "a", .cancel 0, .close 2 0, .send 1 0]
    ∧ Sample.Crashes [.subscribe 0, .replay 0, .publish "a", .finish, .close 2 0, .send 1 0]
    ∧ Sample.Crashes [.publish "a", .subscribe 0, .finish, .close 2 0, .replay 1]
  := by
  refine ⟨?_, ?_, ?_⟩ <;> exact Sample.crashes_of_follow (by decide +kernel)

/-- A subscriber that reads two events, one of them replayed. -/
theorem delivered_in_order_sample :
  ∃ (past : List (Delivery String × DeliveryEvent String)) (s : Delivery String)
      (sub : Subscriber String), machine.Execution past s ∧ s.subs[0]? = some sub
    ∧ sub.read.map Event.id = [1, 2] ∧ (sub.read.map Event.id).Pairwise (· < ·)
    ∧ ∃ first, sub.read.map Event.id = List.range' first sub.read.length
  := by
  have hread : ((((machine.restrict orderly).follow Sample.idle Sample.orderlyEvents).bind
      (·.subs[0]?)).map fun sub => sub.read.map Event.id) = some [1, 2] := by decide +kernel
  obtain ⟨sub, hsub, hids⟩ := Option.map_eq_some_iff.mp hread
  obtain ⟨s, hfollow, hk⟩ := Option.bind_eq_some_iff.mp hsub
  obtain ⟨past, hexec, hall⟩ := Machine.Execution.of_follow_restrict Sample.idle_initial hfollow
  obtain ⟨hincreasing, -, hrange, -⟩ := delivered_in_order hexec hall hk
  exact ⟨past, s, sub, hexec, hk, hids, hincreasing, hrange⟩

/-- Two publishers overtake each other, a publisher overtakes a replay, and a subscriber that comes
after a number not given yet is sent an earlier event. -/
theorem delivered_out_of_order :
  Sample.Reads [.subscribe 0, .replay 0, .publish "a", .publish "b", .send 2 0, .send 1 0,
      .receive 0, .receive 0] 0 [2, 1]
    ∧ Sample.Reads [.publish "a", .subscribe 0, .publish "b", .send 2 0, .replay 1, .replay 1,
      .receive 1, .receive 1] 0 [2, 1]
    ∧ Sample.Reads [.subscribe 5, .replay 0, .publish "a", .send 1 0, .receive 0] 5 [1]
  := by
  refine ⟨?_, ?_, ?_⟩ <;> exact Sample.reads_of_follow (by decide +kernel)

end Delivery

end Ploy
