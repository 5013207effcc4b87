import Ploy.Stream.Delivery

/-!
# Channels in hand

The invariant of delivery: a channel is in the hand of one call at most, and how it is depends on
what that call is about to do with it. A call that goes on leaves every other channel alone.
-/

namespace Ploy

open DeliveryCall

namespace Delivery

variable {ε : Type}

/-! ### What the condition keeps -/

/-- How the channel of a subscriber is when a call has it in hand. -/
def Fits (strict : Bool) (stream : Stream ε) (k : Nat) (sub : Subscriber ε) : Hand ε → Prop
  | .send event => k ∈ stream.subscribers ∧ sub.closed = false
      ∧ ∃ n, event.id = n + 1 ∧ stream.nextEventID = n + 1 ∧ UpTo sub.sent n
        ∧ (strict = true → sub.since ≤ n)
  | .full => k ∈ stream.subscribers ∧ sub.closed = false
  | .drop => k ∈ stream.subscribers ∧ sub.closed = true
  | .replay todo registered => (registered = true ↔ k ∈ stream.subscribers) ∧ sub.closed = false
      ∧ (registered = false → stream.closed = true)
      ∧ UpTo (sub.sent ++ todo.map Event.id) stream.nextEventID
      ∧ (strict = true → ∀ event ∈ todo, sub.since < event.id)
  | .replayFull registered => (registered = true ↔ k ∈ stream.subscribers) ∧ sub.closed = false
  | .replayDrop => k ∈ stream.subscribers ∧ sub.closed = true
  | .out => k ∉ stream.subscribers

/-- How the channel of a subscriber is when no call has it in hand: everything up to the last event
was put on it, or it is closed. -/
def Free (stream : Stream ε) (k : Nat) (sub : Subscriber ε) : Prop :=
  (k ∈ stream.subscribers ∧ sub.closed = false ∧ UpTo sub.sent stream.nextEventID)
    ∨ (k ∉ stream.subscribers ∧ sub.closed = true)

/-- What was put on a channel: consecutive numbers, and if nobody subscribes after a number that was
not given yet, only such as come after the one subscribed after. -/
structure Ordered (strict : Bool) (stream : Stream ε) (sub : Subscriber ε) : Prop where
  consecutive : ∃ n, UpTo sub.sent n
  since : strict = true → sub.since ≤ stream.nextEventID ∧ ∀ id ∈ sub.sent, sub.since < id

/-- The process runs, a channel is in the hand of one call at most, and every channel is as the call
that has it in hand leaves it. -/
structure Sound (strict : Bool) (s : Delivery ε) : Prop where
  crash : s.crash = none
  once : ∀ sub ∈ s.subs, sub.once = sub.closed
  numbered : s.stream.Numbered
  nodup : s.stream.subscribers.Nodup
  registered : ∀ k ∈ s.stream.subscribers, k < s.subs.length
  wellFormed : ∀ call ∈ s.calls, call.WellFormed
  known : ∀ call ∈ s.calls, ∀ k, call.hand k ≠ none → k < s.subs.length
  exclusive : ∀ (i j : Nat) (a b : DeliveryCall ε) (k : Nat), s.calls[i]? = some a →
    s.calls[j]? = some b → a.hand k ≠ none → b.hand k ≠ none → i = j
  held : ∀ call ∈ s.calls, ∀ (k : Nat) (hand : Hand ε) (sub : Subscriber ε),
    call.hand k = some hand → s.subs[k]? = some sub → Fits strict s.stream k sub hand
  free : ∀ (k : Nat) (sub : Subscriber ε), s.subs[k]? = some sub →
    (∀ call ∈ s.calls, call.hand k = none) → Free s.stream k sub
  ordered : ∀ sub ∈ s.subs, Ordered strict s.stream sub

section Sound

variable {strict : Bool} {s s' : Delivery ε} {stream : Stream ε} {i k : Nat}
  {sub sub' : Subscriber ε} {call call' : DeliveryCall ε} {hand : Hand ε}

theorem Initial.sound (h : Initial s) :
  Sound strict s
  := by
  constructor
  case crash => apply h.running
  case numbered => apply h.numbered
  all_goals simp [h.unsubscribed, h.subs, h.calls]

theorem Fits.of_same (h : Fits strict s.stream k sub hand)
    (hmem : k ∈ stream.subscribers ↔ k ∈ s.stream.subscribers)
    (hnext : stream.nextEventID = s.stream.nextEventID)
    (hclosed : s.stream.closed = true → stream.closed = true) :
  Fits strict stream k sub hand
  := by
  cases hand with
  | replay todo registered =>
    obtain ⟨hreg, hopen, hshut, hrest⟩ := h
    rw [← hmem] at hreg
    rw [← hnext] at hrest
    exact ⟨hreg, hopen, fun hr => hclosed (hshut hr), hrest⟩
  | _ => simpa only [Fits, hmem, hnext] using h

theorem Free.of_same (h : Free s.stream k sub)
    (hmem : k ∈ stream.subscribers ↔ k ∈ s.stream.subscribers)
    (hnext : stream.nextEventID = s.stream.nextEventID) :
  Free stream k sub
  := by
  simpa only [Free, hmem, hnext] using h

/-! ### A call that goes on -/

/-- What a call in the new pool has in hand, the call in the same place had; but only the call that
goes on may have its own channel in hand. -/
theorem Sound.hand_of_set (h : Sound strict s) (hi : s.calls[i]? = some call)
    (hheld : call.hand k = some hand) (hothers : ∀ k', k' ≠ k → call'.hand k' = call.hand k')
    {j : Nat} {c : DeliveryCall ε} (hj : (s.calls.set i call')[j]? = some c) :
  ∃ c₀, s.calls[j]? = some c₀ ∧ (∀ k', k' ≠ k → c.hand k' = c₀.hand k')
    ∧ (c.hand k ≠ none → j = i ∧ c = call')
  := by
  rcases (Pool.get_set hi).mp hj with ⟨rfl, rfl⟩ | ⟨hne, hj⟩
  · exact ⟨call, hi, hothers, fun _ => ⟨rfl, rfl⟩⟩
  · refine ⟨c, hj, fun _ _ => rfl, ?_⟩
    intro hsome
    exact absurd (h.exclusive j i c call k hj hi hsome (by rw [hheld]; nofun)) hne

/-- A channel is still in the hand of one call at most. -/
theorem Sound.exclusive_set (h : Sound strict s) (hi : s.calls[i]? = some call)
    (hheld : call.hand k = some hand) (hothers : ∀ k', k' ≠ k → call'.hand k' = call.hand k')
    {j l : Nat} {a b : DeliveryCall ε} {k' : Nat} (hj : (s.calls.set i call')[j]? = some a)
    (hl : (s.calls.set i call')[l]? = some b) (ha : a.hand k' ≠ none) (hb : b.hand k' ≠ none) :
  j = l
  := by
  obtain ⟨a₀, hj₀, hsamea, hthisa⟩ := h.hand_of_set hi hheld hothers hj
  obtain ⟨b₀, hl₀, hsameb, hthisb⟩ := h.hand_of_set hi hheld hothers hl
  by_cases hkk : k' = k
  · rw [hkk] at ha hb
    rw [(hthisa ha).1, (hthisb hb).1]
  · rw [hsamea k' hkk] at ha
    rw [hsameb k' hkk] at hb
    apply h.exclusive j l a₀ b₀ k' hj₀ hl₀ ha hb

/-- A channel that no call of the new pool has in hand was in no hand before. -/
theorem hand_eq_none_of_set (hi : s.calls[i]? = some call)
    (hothers : ∀ k', k' ≠ k → call'.hand k' = call.hand k') {k' : Nat} (hkk : k' ≠ k)
    (hnone : ∀ c ∈ s.calls.set i call', c.hand k' = none) :
  ∀ c ∈ s.calls, c.hand k' = none
  := by
  intro c hc
  obtain ⟨j, hj⟩ := List.getElem?_of_mem hc
  by_cases hji : j = i
  · rw [hji, hi, Option.some.injEq] at hj
    rw [← hj, ← hothers k' hkk]
    apply hnone call' (List.mem_of_getElem? (i := i) ((Pool.get_set hi).mpr (Or.inl ⟨rfl, rfl⟩)))
  · apply hnone c (List.mem_of_getElem? ((Pool.get_set hi).mpr (Or.inr ⟨hji, hj⟩)))

/-- A call changes the channel that it has in hand, and may take its subscriber out. -/
theorem Sound.touch (h : Sound strict s) (hi : s.calls[i]? = some call) (hk : s.subs[k]? = some sub)
    (hheld : call.hand k = some hand) (hwf : call'.WellFormed)
    (hothers : ∀ k', k' ≠ k → call'.hand k' = call.hand k')
    (hstream : stream = s.stream ∨ stream = s.stream.drop k)
    (honce : sub'.once = sub'.closed) (hordered : Ordered strict s.stream sub')
    (hfits : ∀ hand', call'.hand k = some hand' → Fits strict stream k sub' hand')
    (hfree : call'.hand k = none → Free stream k sub') :
  Sound strict { s with
    stream := stream
    subs := s.subs.set k sub'
    calls := s.calls.set i call' }
  := by
  have hnext : stream.nextEventID = s.stream.nextEventID := by
    rcases hstream with rfl | rfl <;> rfl
  have hmem : ∀ k', k' ≠ k → (k' ∈ stream.subscribers ↔ k' ∈ s.stream.subscribers) := by
    intro k' hne
    rcases hstream with rfl | rfl
    · exact Iff.rfl
    · simp [Stream.drop, hne]
  constructor
  case crash => apply h.crash
  case once =>
    intro x hx
    rcases Pool.mem_of_set hx with rfl | hx
    · apply honce
    · apply h.once x hx
  case numbered => rcases hstream with rfl | rfl <;> apply h.numbered
  case nodup =>
    rcases hstream with rfl | rfl
    · apply h.nodup
    · apply h.nodup.filter
  case registered =>
    intro k' hk'
    rw [List.length_set]
    apply h.registered k'
    rcases hstream with rfl | rfl
    · exact hk'
    · exact List.mem_of_mem_filter hk'
  case wellFormed =>
    intro c hc
    rcases Pool.mem_of_set hc with rfl | hc
    · apply hwf
    · apply h.wellFormed c hc
  case known =>
    intro c hc k' hsome
    rw [List.length_set]
    obtain ⟨j, hj⟩ := List.getElem?_of_mem hc
    obtain ⟨c₀, hj₀, hsame, -⟩ := h.hand_of_set hi hheld hothers hj
    by_cases hkk : k' = k
    · rw [hkk]
      exact (List.getElem?_eq_some_iff.mp hk).1
    · rw [hsame k' hkk] at hsome
      apply h.known c₀ (List.mem_of_getElem? hj₀) k' hsome
  case exclusive => exact fun j l a b k' => h.exclusive_set hi hheld hothers
  case held =>
    intro c hc k' hand' x hsome hx
    obtain ⟨j, hj⟩ := List.getElem?_of_mem hc
    obtain ⟨c₀, hj₀, hsame, hthis⟩ := h.hand_of_set hi hheld hothers hj
    rcases (Pool.get_set hk).mp hx with ⟨rfl, rfl⟩ | ⟨hkk, hx⟩
    · obtain ⟨-, rfl⟩ := hthis (by rw [hsome]; nofun)
      apply hfits hand' hsome
    · rw [hsame k' hkk] at hsome
      have hold := h.held c₀ (List.mem_of_getElem? hj₀) k' hand' x hsome hx
      apply hold.of_same (hmem k' hkk) hnext
      rcases hstream with rfl | rfl <;> exact id
  case free =>
    intro k' x hx hnone
    rcases (Pool.get_set hk).mp hx with ⟨rfl, rfl⟩ | ⟨hkk, hx⟩
    · apply hfree
      apply hnone call' (List.mem_of_getElem? (i := i) ((Pool.get_set hi).mpr (Or.inl ⟨rfl, rfl⟩)))
    · exact (h.free k' x hx (hand_eq_none_of_set hi hothers hkk hnone)).of_same (hmem k' hkk) hnext
  case ordered =>
    intro x hx
    have hold : Ordered strict s.stream x := by
      rcases Pool.mem_of_set hx with rfl | hx
      · apply hordered
      · apply h.ordered x hx
    refine ⟨hold.consecutive, ?_⟩
    rw [hnext]
    apply hold.since

theorem Sound.keep (h : Sound strict s) (hi : s.calls[i]? = some call) (hk : s.subs[k]? = some sub)
    (hheld : call.hand k = some hand) (hwf : call'.WellFormed)
    (hothers : ∀ k', k' ≠ k → call'.hand k' = call.hand k')
    (hstream : stream = s.stream ∨ stream = s.stream.drop k)
    (hfits : ∀ hand', call'.hand k = some hand' → Fits strict stream k sub hand')
    (hfree : call'.hand k = none → Free stream k sub) :
  Sound strict { s with stream := stream, calls := s.calls.set i call' }
  := by
  have hmem : sub ∈ s.subs := List.mem_of_getElem? hk
  have htouch := h.touch hi hk hheld hwf hothers hstream (h.once sub hmem) (h.ordered sub hmem)
    hfits hfree
  rw [Pool.set_self hk] at htouch
  exact htouch

/-- A call closes the channel that it has in hand. -/
theorem Sound.closeSub (h : Sound strict s) (hi : s.calls[i]? = some call)
    (hheld : call.hand k = some hand) (hwf : call'.WellFormed)
    (hothers : ∀ k', k' ≠ k → call'.hand k' = call.hand k')
    (hfits : ∀ (sub : Subscriber ε) (hand' : Hand ε), Fits strict s.stream k sub hand →
      call'.hand k = some hand' →
      Fits strict s.stream k { sub with closed := true, once := true } hand')
    (hfree : ∀ sub : Subscriber ε, Fits strict s.stream k sub hand → call'.hand k = none →
      k ∉ s.stream.subscribers)
    (hs : s.closeSub i k call' = some s') :
  Sound strict s'
  := by
  simp only [Delivery.closeSub] at hs
  split at hs
  · cases hs
  · rename_i sub hk
    have hmem : sub ∈ s.subs := List.mem_of_getElem? hk
    have hsub := h.held call (List.mem_of_getElem? hi) k hand sub hheld hk
    rw [close_of_once (h.once sub hmem)] at hs
    cases hs
    apply h.touch hi hk hheld hwf hothers (Or.inl rfl) rfl
    · obtain ⟨hconsecutive, hsince⟩ := h.ordered sub hmem
      exact ⟨hconsecutive, hsince⟩
    · intro hand' hhand'
      apply hfits sub hand' hsub hhand'
    · intro hnone
      exact Or.inr ⟨hfree sub hsub hnone, rfl⟩

/-- A call sends on the channel that it has in hand, and finds it open. -/
theorem Sound.sendTo (h : Sound strict s) {event : Event ε} {full : DeliveryCall ε}
    (hi : s.calls[i]? = some call) (hheld : call.hand k = some hand)
    (hopen : ∀ sub : Subscriber ε, Fits strict s.stream k sub hand → sub.closed = false)
    (hsent : ∀ sub : Subscriber ε, s.subs[k]? = some sub → Fits strict s.stream k sub hand →
      Sound strict { s with
        subs := s.subs.set k { sub with buf := sub.buf ++ [event] }
        calls := s.calls.set i call' })
    (hfull : ∀ sub : Subscriber ε, s.subs[k]? = some sub → Fits strict s.stream k sub hand →
      Sound strict { s with calls := s.calls.set i full })
    (hs : s.sendTo i k event call' full = some s') :
  Sound strict s'
  := by
  simp only [Delivery.sendTo] at hs
  split at hs
  · cases hs
  · rename_i sub hk
    have hsub := h.held call (List.mem_of_getElem? hi) k hand sub hheld hk
    split at hs
    · rename_i hclosed
      rw [hopen sub hsub] at hclosed
      cases hclosed
    · split at hs
      · cases hs
        apply hsent sub hk hsub
      · cases hs
        apply hfull sub hk hsub

theorem sent_snoc (sub : Subscriber ε) (event : Event ε) :
  Subscriber.sent { sub with buf := sub.buf ++ [event] } = sub.sent ++ [event.id]
  := by
  simp [Subscriber.sent]

theorem Ordered.snoc (h : Ordered strict s.stream sub) {event : Event ε} {n : Nat}
    (hn : UpTo (sub.sent ++ [event.id]) n) (hsince : strict = true → sub.since < event.id) :
  Ordered strict s.stream { sub with buf := sub.buf ++ [event] }
  := by
  constructor
  · rw [sent_snoc]
    exact ⟨n, hn⟩
  · intro hstrict
    obtain ⟨hgiven, hall⟩ := h.since hstrict
    refine ⟨hgiven, ?_⟩
    rw [sent_snoc]
    intro id hid
    rcases List.mem_append.mp hid with hid | hid
    · apply hall id hid
    · rw [List.mem_singleton.mp hid]
      apply hsince hstrict

/-! ### Publishers -/

section Publishing

variable {event : Event ε} {todo dropped : List Nat}

/-- A publisher sends to one of its subscribers. -/
theorem Sound.send (h : Sound strict s)
    (hi : s.calls[i]? = some (.publishing event todo none dropped)) (hmem : k ∈ todo)
    (hs : s.sendTo i k event (.publishing event (todo.erase k) none dropped)
      (.publishing event (todo.erase k) (some k) dropped) = some s') :
  Sound strict s'
  := by
  have hheld : (publishing event todo none dropped).hand k = some (.send event) :=
    if_pos hmem
  have hnodup : (todo ++ [] ++ dropped).Nodup := h.wellFormed _ (List.mem_of_getElem? hi)
  rw [List.append_nil, List.nodup_append] at hnodup
  obtain ⟨htodo, hdropped, hdisjoint⟩ := hnodup
  have hgone : k ∉ todo.erase k := htodo.not_mem_erase
  have hkdropped : k ∉ dropped := fun hk => hdisjoint k hmem k hk rfl
  have herase : ∀ x ∈ todo.erase k, ∀ y ∈ dropped, x ≠ y :=
    fun x hx => hdisjoint x (List.mem_of_mem_erase hx)
  apply h.sendTo hi hheld (fun sub hfits => hfits.2.1) _ _ hs
  · -- the channel takes it, and the publisher is done with it
    rintro sub hk ⟨hreg, hopen, n, hid, hnext, hupto, hsince⟩
    have hsent : UpTo (sub.sent ++ [event.id]) s.stream.nextEventID := by
      rw [hid, hnext]
      apply hupto.snoc
    have hordered := h.ordered sub (List.mem_of_getElem? hk)
    refine h.touch hi hk hheld ?_ ?_ (Or.inl rfl) ?_ ?_ ?_ ?_
    · rw [DeliveryCall.WellFormed, Option.toList_none, List.append_nil, List.nodup_append]
      exact ⟨htodo.erase k, hdropped, herase⟩
    · intro k' hne
      simp [hand, List.mem_erase_of_ne hne]
    · apply h.once sub (List.mem_of_getElem? hk)
    · apply hordered.snoc hsent
      intro hstrict
      rw [hid]
      exact Nat.lt_succ_of_le (hsince hstrict)
    · intro hand' hhand'
      simp [hand, hgone, hkdropped] at hhand'
    · intro _
      refine Or.inl ⟨hreg, hopen, ?_⟩
      rw [sent_snoc]
      exact hsent
  · -- the channel is full, and the publisher is to close it
    rintro sub hk ⟨hreg, hopen, -⟩
    refine h.keep hi hk hheld ?_ ?_ (Or.inl rfl) ?_ ?_
    · rw [DeliveryCall.WellFormed, Option.toList_some, List.append_assoc, List.nodup_append]
      refine ⟨htodo.erase k, List.nodup_cons.mpr ⟨hkdropped, hdropped⟩, ?_⟩
      intro x hx y hy
      rcases List.mem_cons.mp hy with rfl | hy
      · rintro rfl
        exact hgone hx
      · apply herase x hx y hy
    · intro k' hne
      simp [hand, List.mem_erase_of_ne hne, hne.symm]
    · intro hand' hhand'
      simp only [hand, hgone, if_false, if_true, Option.some.injEq] at hhand'
      rw [← hhand']
      exact ⟨hreg, hopen⟩
    · intro hnone
      simp [hand, hgone] at hnone

/-- A publisher closes a channel that was full. -/
theorem Sound.closeFull (h : Sound strict s)
    (hi : s.calls[i]? = some (.publishing event todo (some k) dropped))
    (hs : s.closeSub i k (.publishing event todo none (dropped ++ [k])) = some s') :
  Sound strict s'
  := by
  have hnodup : (todo ++ [k] ++ dropped).Nodup := h.wellFormed _ (List.mem_of_getElem? hi)
  have hgone : k ∉ todo := by
    rw [List.append_assoc, List.nodup_append] at hnodup
    exact fun hk => hnodup.2.2 k hk k List.mem_cons_self rfl
  have hheld : (publishing event todo (some k) dropped).hand k = some .full := by
    simp [hand, hgone]
  apply h.closeSub hi hheld _ _ _ _ hs
  · rw [DeliveryCall.WellFormed, Option.toList_none, List.append_nil, ← List.append_assoc]
    rw [List.append_assoc] at hnodup
    apply (List.Perm.nodup_iff ?_).mpr hnodup
    rw [List.append_assoc]
    apply List.Perm.append_left
    apply List.perm_append_comm
  · intro k' hne
    simp [hand, hne, hne.symm]
  · rintro sub hand' ⟨hreg, -⟩ hhand'
    simp only [hand, hgone, if_false, reduceCtorEq, List.mem_append,
      List.mem_singleton, or_true, if_true, Option.some.injEq] at hhand'
    rw [← hhand']
    exact ⟨hreg, rfl⟩
  · intro sub _ hnone
    simp [hand, hgone] at hnone

end Publishing

/-! ### Replays -/

section Replaying

variable {todo : List (Event ε)} {registered : Bool}

/-- A subscription replays one event. -/
theorem Sound.replay (h : Sound strict s) {event : Event ε}
    (hi : s.calls[i]? = some (.replaying k (event :: todo) registered))
    (hs : s.sendTo i k event (.replaying k todo registered) (.replayFull k registered) = some s') :
  Sound strict s'
  := by
  have hheld : (replaying k (event :: todo) registered).hand k
      = some (.replay (event :: todo) registered) := if_pos rfl
  apply h.sendTo hi hheld (fun sub hfits => hfits.2.1) _ _ hs
  · rintro sub hk ⟨hreg, hopen, hshut, hupto, hsince⟩
    rw [List.map_cons, List.append_cons] at hupto
    obtain ⟨n, hn⟩ := hupto.left
    refine h.touch hi hk hheld trivial ?_ (Or.inl rfl) ?_ ?_ ?_ ?_
    · intro k' hne
      exact (if_neg hne.symm).trans (if_neg hne.symm).symm
    · apply h.once sub (List.mem_of_getElem? hk)
    · apply (h.ordered sub (List.mem_of_getElem? hk)).snoc hn
      exact fun hstrict => hsince hstrict event List.mem_cons_self
    · intro hand' hhand'
      cases (if_pos rfl).symm.trans hhand'
      refine ⟨hreg, hopen, hshut, ?_, ?_⟩
      · rw [sent_snoc]
        exact hupto
      · exact fun hstrict e he => hsince hstrict e (List.mem_cons_of_mem _ he)
    · intro hnone
      cases (if_pos rfl).symm.trans hnone
  · rintro sub hk ⟨hreg, hopen, -⟩
    refine h.keep hi hk hheld trivial ?_ (Or.inl rfl) ?_ ?_
    · intro k' hne
      exact (if_neg hne.symm).trans (if_neg hne.symm).symm
    · intro hand' hhand'
      cases (if_pos rfl).symm.trans hhand'
      exact ⟨hreg, hopen⟩
    · intro hnone
      cases (if_pos rfl).symm.trans hnone

/-- A subscription that has replayed everything is returned, or closed. -/
theorem Sound.replayed (h : Sound strict s)
    (hi : s.calls[i]? = some (.replaying k [] registered)) :
  Sound strict { s with
    calls := s.calls.set i (if registered then .subscribed k else .replayClosing k) }
  := by
  have hheld : (replaying k ([] : List (Event ε)) registered).hand k
      = some (.replay [] registered) := if_pos rfl
  have hlt : k < s.subs.length := h.known _ (List.mem_of_getElem? hi) k (by rw [hheld]; nofun)
  have hk := List.getElem?_eq_getElem hlt
  obtain ⟨hreg, hopen, hshut, hupto, -⟩ :=
    h.held _ (List.mem_of_getElem? hi) k _ _ hheld hk
  rw [List.map_nil, List.append_nil] at hupto
  cases registered with
  | true =>
    refine h.keep hi hk hheld trivial ?_ (Or.inl rfl) nofun ?_
    · intro k' hne
      exact (if_neg hne.symm).symm
    · exact fun _ => Or.inl ⟨hreg.mp rfl, hopen, hupto⟩
  | false =>
    refine h.keep hi hk hheld trivial ?_ (Or.inl rfl) ?_ ?_
    · intro k' hne
      exact (if_neg hne.symm).trans (if_neg hne.symm).symm
    · intro hand' hhand'
      cases (if_pos rfl).symm.trans hhand'
      intro hmem
      cases hreg.mpr hmem
    · intro hnone
      cases (if_pos rfl).symm.trans hnone

/-- A subscription closes its channel when it was full. -/
theorem Sound.closeReplay (h : Sound strict s)
    (hi : s.calls[i]? = some (.replayFull k registered))
    (hs : s.closeSub i k (if registered then .replayDropping k else .replayClosing k) = some s') :
  Sound strict s'
  := by
  have hheld : (replayFull k registered : DeliveryCall ε).hand k
      = some (.replayFull registered) := if_pos rfl
  cases registered with
  | true =>
    apply h.closeSub hi hheld _ _ _ _ hs
    · trivial
    · intro k' hne
      exact (if_neg hne.symm).trans (if_neg hne.symm).symm
    · rintro sub hand' ⟨hreg, -⟩ hhand'
      cases (if_pos rfl).symm.trans hhand'
      exact ⟨hreg.mp rfl, rfl⟩
    · intro sub _ hnone
      cases (if_pos rfl).symm.trans hnone
  | false =>
    apply h.closeSub hi hheld _ _ _ _ hs
    · trivial
    · intro k' hne
      exact (if_neg hne.symm).trans (if_neg hne.symm).symm
    · rintro sub hand' ⟨hreg, -⟩ hhand'
      cases (if_pos rfl).symm.trans hhand'
      intro hmem
      cases hreg.mpr hmem
    · intro sub _ hnone
      cases (if_pos rfl).symm.trans hnone

theorem Sound.dropReplay (h : Sound strict s) (hi : s.calls[i]? = some (.replayDropping k)) :
  k ∈ s.stream.subscribers
    ∧ Sound strict { s with
        stream := s.stream.drop k
        calls := s.calls.set i (.replayClosing k) }
  := by
  have hheld : (replayDropping k : DeliveryCall ε).hand k = some .replayDrop := if_pos rfl
  have hlt : k < s.subs.length := h.known _ (List.mem_of_getElem? hi) k (by rw [hheld]; nofun)
  have hk := List.getElem?_eq_getElem hlt
  obtain ⟨hreg, -⟩ := h.held _ (List.mem_of_getElem? hi) k _ _ hheld hk
  refine ⟨hreg, ?_⟩
  refine h.keep hi hk hheld trivial ?_ (Or.inr rfl) ?_ ?_
  · intro k' hne
    exact (if_neg hne.symm).trans (if_neg hne.symm).symm
  · intro hand' hhand'
    cases (if_pos rfl).symm.trans hhand'
    simp [Fits, Stream.drop]
  · intro hnone
    cases (if_pos rfl).symm.trans hnone

theorem Sound.closeReplayed (h : Sound strict s) (hi : s.calls[i]? = some (.replayClosing k))
    (hs : s.closeSub i k (.subscribed k) = some s') :
  Sound strict s'
  := by
  have hheld : (replayClosing k : DeliveryCall ε).hand k = some .out := if_pos rfl
  apply h.closeSub hi hheld _ _ _ _ hs
  · trivial
  · intro k' hne
    exact (if_neg hne.symm).symm
  · nofun
  · intro sub hout _
    exact hout

end Replaying

end Sound

end Delivery

end Ploy
