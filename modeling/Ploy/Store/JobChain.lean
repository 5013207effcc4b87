import Ploy.Store.Query
import Ploy.Foundations.LinkedChain

/-!
# The order of a job chain

`order` arranges items by their successors, whatever the links are like. The jobs that a
retry from the failed job resets are read off the ordered chain once it has been checked to
be one complete chain.
-/

namespace Ploy

section Order

variable {T : Type} (idOf : T → JobID) (nextOf : T → Option JobID)

/-- The item that a map filled from the list, in order, holds under an identifier. -/
def itemByID (items : List T) (id : JobID) : Option T :=
  items.reverse.find? (idOf · = id)

/-- The links to items of the list. -/
def links (items : List T) : List (JobID × JobID) :=
  items.filterMap fun item =>
    match nextOf item with
    | none => none
    | some next =>
      if next.isZero then none
      else if (itemByID idOf items next).isNone then none
      else some (idOf item, next)

/-- The successor that a map filled from the links, in order, holds for an identifier. -/
def nextByID (items : List T) (id : JobID) : Option JobID :=
  (links idOf nextOf items).reverse.find? (·.1 = id) |>.map (·.2)

/-- Appending to `out` the items met from `current` on, until one is met again or has no
successor. An item is visited once it is in `out`. -/
def walkChain (items : List T) : Nat → List T → JobID → List T
  | 0, out, _ => out
  | fuel + 1, out, current =>
    if current ∈ out.map idOf then out
    else match itemByID idOf items current with
      | none => out
      | some item =>
        match nextByID idOf nextOf items current with
        | none => out ++ [item]
        | some next => walkChain items fuel (out ++ [item]) next

/-- The chains that start at each of the identifiers, in their order. -/
def walkChains (items : List T) (out : List T) (starts : List JobID) : List T :=
  (starts.insertionSort (·.raw ≤ ·.raw)).foldl (walkChain idOf nextOf items items.length) out

/-- Items in the order of their successors: the chains of the items that are the successor
of none, then what is left. -/
def order (items : List T) : List T :=
  if items.length ≤ 1 then items
  else
    let heads := (items.map idOf).filter fun id => !(links idOf nextOf items).any (·.2 = id)
    let out := walkChains idOf nextOf items [] heads
    if out.length = items.length then out
    else walkChains idOf nextOf items out ((items.map idOf).filter (· ∉ out.map idOf))

variable {idOf nextOf}

variable {items out : List T} {item : T}

theorem itemByID_eq_some {id : JobID}
    (h : itemByID idOf items id = some item) :
  item ∈ items ∧ idOf item = id
  := by
  constructor
  · simpa using List.mem_of_find?_eq_some h
  · simpa using List.find?_some h

theorem itemByID_of_mem (hnodup : (items.map idOf).Nodup)
    (hmem : item ∈ items) :
  itemByID idOf items (idOf item) = some item
  := by
  cases h : itemByID idOf items (idOf item) with
  | none =>
    have := List.find?_eq_none.mp h item (List.mem_reverse.mpr hmem)
    simp at this
  | some other =>
    obtain ⟨hother, hid⟩ := itemByID_eq_some h
    rw [List.inj_on_of_nodup_map hnodup hother hmem hid]

/-- The items of `out` are among `items`, and no two have the same identifier. -/
def Visits (idOf : T → JobID) (items out : List T) : Prop :=
  out ⊆ items ∧ (out.map idOf).Nodup

theorem Visits.concat (h : Visits idOf items out) (hmem : item ∈ items)
    (hnew : idOf item ∉ out.map idOf) :
  Visits idOf items (out ++ [item])
  := by
  constructor
  · apply List.append_subset.mpr ⟨h.1, by simpa using hmem⟩
  · rw [List.map_append]
    apply h.2.append (List.nodup_singleton _)
    simpa using hnew

/-- A walk visits items, each once. -/
theorem Visits.walkChain (h : Visits idOf items out) (fuel : Nat) (current : JobID) :
  Visits idOf items (walkChain idOf nextOf items fuel out current)
  := by
  induction fuel generalizing out current with
  | zero => apply h
  | succ fuel ih =>
    unfold Ploy.walkChain
    split
    · apply h
    · rename_i hnew
      split
      · apply h
      · rename_i item hitem
        obtain ⟨hmem, rfl⟩ := itemByID_eq_some hitem
        split
        · apply h.concat hmem hnew
        · apply ih (h.concat hmem hnew)

theorem Visits.walkChains (h : Visits idOf items out) (starts : List JobID) :
  Visits idOf items (walkChains idOf nextOf items out starts)
  := by
  unfold Ploy.walkChains
  induction starts.insertionSort (·.raw ≤ ·.raw) generalizing out with
  | nil => apply h
  | cons start starts ih => apply ih (h.walkChain _ start)

theorem visits_order (items : List T) :
  Visits idOf items (order idOf nextOf items)
  := by
  have hnil : Visits idOf items [] := ⟨List.nil_subset _, List.nodup_nil⟩
  unfold order
  split
  · rename_i hshort
    constructor
    · apply List.Subset.refl
    · match items, hshort with
      | [], _ => apply List.nodup_nil
      | [a], _ => apply List.nodup_singleton
  · dsimp only
    split
    · apply hnil.walkChains
    · apply (hnil.walkChains _).walkChains

theorem order_perm (h : (order idOf nextOf items).length = items.length) :
  (order idOf nextOf items).Perm items
  := by
  have hvisits : Visits idOf items (order idOf nextOf items) := visits_order items
  obtain ⟨hsub, hnodup⟩ := hvisits
  have hsubperm := List.subperm_of_subset (hnodup.of_map idOf) hsub
  apply hsubperm.perm_of_length_le (le_of_eq h.symm)

/-! #### Ordering a chain -/

/-- Every successor that an item names is that of an item of the list. -/
def Closed (idOf : T → JobID) (nextOf : T → Option JobID) (items : List T) : Prop :=
  ∀ item ∈ items, ∀ next, nextOf item = some next → next.isZero = false ∧ next ∈ items.map idOf

/-- A link leads from an item to another one. -/
theorem mem_links {link : JobID × JobID} :
  link ∈ links idOf nextOf items ↔ ∃ item ∈ items, idOf item = link.1
    ∧ nextOf item = some link.2 ∧ link.2.isZero = false ∧ link.2 ∈ items.map idOf
  := by
  have hpresent : ∀ id, (itemByID idOf items id).isNone = false ↔ id ∈ items.map idOf := by
    intro id
    simp [itemByID, Option.isNone_eq_false_iff, List.find?_isSome]
  simp only [links, List.mem_filterMap]
  constructor
  · rintro ⟨item, hitem, hlink⟩
    use item, hitem
    split at hlink
    · cases hlink
    · rename_i next hnext
      split at hlink
      · cases hlink
      · rename_i hzero
        split at hlink
        · cases hlink
        · rename_i hnone
          cases hlink
          exact ⟨rfl, hnext, by simpa using hzero, (hpresent next).mp (Bool.eq_false_iff.mpr hnone)⟩
  · rintro ⟨item, hitem, hid, hnext, hzero, hmem⟩
    use item, hitem
    simp [hnext, hzero, (hpresent _).mpr hmem, hid]

/-- The next item is the one linked to. -/
theorem nextByID_eq_some (hnodup : (items.map idOf).Nodup) {id next : JobID} :
  nextByID idOf nextOf items id = some next ↔ (id, next) ∈ links idOf nextOf items
  := by
  rw [nextByID, Option.map_eq_some_iff]
  constructor
  · rintro ⟨link, hfind, rfl⟩
    obtain rfl : link.1 = id := by simpa using List.find?_some hfind
    simpa using List.mem_of_find?_eq_some hfind
  · intro hlink
    cases hfind : (links idOf nextOf items).reverse.find? (·.1 = id) with
    | none =>
      have := List.find?_eq_none.mp hfind _ (List.mem_reverse.mpr hlink)
      simp at this
    | some other =>
      have hother : other ∈ links idOf nextOf items := by
        simpa using List.mem_of_find?_eq_some hfind
      have hid : other.1 = id := by simpa using List.find?_some hfind
      obtain ⟨item, hitem, hitem', hnext, -⟩ := mem_links.mp hlink
      obtain ⟨item', hmem, hmem', hnext', -⟩ := mem_links.mp hother
      rw [List.inj_on_of_nodup_map hnodup hmem hitem (hmem'.trans (hid.trans hitem'.symm)), hnext]
        at hnext'
      exact ⟨other, rfl, (Option.some.inj hnext').symm⟩

theorem nextByID_of_mem (hnodup : (items.map idOf).Nodup)
    (hclosed : Closed idOf nextOf items) (hitem : item ∈ items) :
  nextByID idOf nextOf items (idOf item) = nextOf item
  := by
  apply Option.ext
  intro next
  rw [nextByID_eq_some hnodup, mem_links]
  constructor
  · rintro ⟨other, hother, hid, hnext, -⟩
    rw [← List.inj_on_of_nodup_map hnodup hother hitem hid, hnext]
  · intro hnext
    exact ⟨item, hitem, rfl, hnext, hclosed item hitem next hnext⟩

theorem not_mem_of_perm {items pre post : List T} (hnodup : (items.map idOf).Nodup)
    (hperm : (pre ++ item :: post).Perm items) :
  idOf item ∉ pre.map idOf
  := by
  have hchain := (hperm.map idOf).nodup_iff.mpr hnodup
  rw [List.map_append, List.map_cons, List.nodup_append] at hchain
  intro h
  apply hchain.2.2 _ h _ List.mem_cons_self rfl

theorem walkChain_item (hnodup : (items.map idOf).Nodup)
    (hclosed : Closed idOf nextOf items) {out : List T} (hitem : item ∈ items)
    (hfresh : idOf item ∉ out.map idOf) (fuel : Nat) :
  walkChain idOf nextOf items (fuel + 1) out (idOf item)
    = match nextOf item with
      | none => out ++ [item]
      | some next => walkChain idOf nextOf items fuel (out ++ [item]) next
  := by
  simp only [walkChain, hfresh, if_false, itemByID_of_mem hnodup hitem,
    nextByID_of_mem hnodup hclosed hitem]

theorem walkChain_linked (hnodup : (items.map idOf).Nodup)
    (hclosed : Closed idOf nextOf items) {pre post : List T}
    (hperm : (pre ++ item :: post).Perm items) (hlinked : Linked idOf nextOf (item :: post))
    {fuel : Nat} (hfuel : post.length < fuel) :
  walkChain idOf nextOf items fuel pre (idOf item) = pre ++ item :: post
  := by
  induction post generalizing pre item fuel with
  | nil =>
    obtain ⟨fuel, rfl⟩ : ∃ n, fuel = n + 1 := ⟨fuel - 1, by omega⟩
    rw [walkChain_item hnodup hclosed (hperm.subset (by simp)) (not_mem_of_perm hnodup hperm),
      hlinked.1]
    rfl
  | cons next rest ih =>
    obtain ⟨fuel, rfl⟩ : ∃ n, fuel = n + 1 := ⟨fuel - 1, by omega⟩
    rw [walkChain_item hnodup hclosed (hperm.subset (by simp)) (not_mem_of_perm hnodup hperm),
      hlinked.1]
    have hperm' : ((pre ++ [item]) ++ next :: rest).Perm items := by simpa using hperm
    have hrest := ih hperm' hlinked.2 (Nat.lt_of_succ_lt_succ hfuel)
    simpa using hrest

/-- The only head of a chain is its first item. -/
theorem heads_linked (hnodup : (items.map idOf).Nodup)
    (hclosed : Closed idOf nextOf items) {post : List T}
    (hperm : (item :: post).Perm items) (hlinked : Linked idOf nextOf (item :: post)) :
  (items.map idOf).filter (fun id => !(links idOf nextOf items).any (·.2 = id)) = [idOf item]
  := by
  have hnodup' := (hperm.map idOf).nodup_iff.mpr hnodup
  rw [List.map_cons, List.nodup_cons] at hnodup'
  apply List.perm_singleton.mp
  apply ((hperm.map idOf).filter _).symm.trans
  rw [List.map_cons, List.filter_cons_of_pos, List.filter_eq_nil_iff.mpr]
  · -- every later item is the successor of the one before it
    intro id hid
    obtain ⟨front, back, hsplit⟩ := List.append_of_mem hid
    obtain ⟨xs, ys, rfl, rfl, hys⟩ := List.map_eq_append_iff.mp hsplit
    obtain ⟨x, back, rfl, rfl, -⟩ := List.map_eq_cons_iff.mp hys
    obtain ⟨p, hp, hnext⟩ : ∃ p ∈ item :: (xs ++ x :: back), nextOf p = some (idOf x) := by
      rcases List.eq_nil_or_concat (item :: xs) with hnil | ⟨front, p, hfront⟩
      · cases hnil
      · use p
        have heq : item :: (xs ++ x :: back) = front ++ p :: x :: back := by
          rw [← List.cons_append, hfront]
          simp
        rw [heq] at hlinked ⊢
        exact ⟨by simp, hlinked.next_eq⟩
    have hlink : (idOf p, idOf x) ∈ links idOf nextOf items :=
      mem_links.mpr ⟨p, hperm.subset hp, rfl, hnext, hclosed p (hperm.subset hp) _ hnext⟩
    simp only [Bool.not_eq_true', Bool.not_eq_false, List.any_eq_true, decide_eq_true_eq]
    exact ⟨_, hlink, rfl⟩
  · -- the first item is the successor of none, since the successors stand after it
    simp only [Bool.not_eq_true', List.any_eq_false, decide_eq_true_eq]
    intro link hlink hid
    obtain ⟨p, hp, -, hnext, -⟩ := mem_links.mp hlink
    rw [hid] at hnext
    obtain ⟨pre, rest, hsplit⟩ := List.append_of_mem (hperm.symm.subset hp)
    rw [hsplit] at hlinked
    rw [hlinked.next_eq, Option.map_eq_some_iff] at hnext
    obtain ⟨k, hk, hkid⟩ := hnext
    have hkpost : k ∈ post := by
      have hk := List.mem_of_mem_head? hk
      cases pre with
      | nil =>
        cases hsplit
        apply hk
      | cons _ pre =>
        cases hsplit
        simp [hk]
    apply hnodup'.1
    rw [← hkid]
    apply List.mem_map_of_mem hkpost

theorem closed_of_linked {items chain : List T} (hzero : ∀ item ∈ items, (idOf item).isZero = false)
    (hperm : chain.Perm items) (hlinked : Linked idOf nextOf chain) :
  Closed idOf nextOf items
  := by
  intro item hitem next hnext
  obtain ⟨other, hother, rfl⟩ := hlinked.exists_of_next (hperm.symm.subset hitem) hnext
  exact ⟨hzero other (hperm.subset hother), List.mem_map_of_mem (hperm.subset hother)⟩

/-- Items that form a chain are put in its order. -/
theorem order_closed {items chain : List T} (hnodup : (items.map idOf).Nodup)
    (hclosed : Closed idOf nextOf items) (hperm : chain.Perm items)
    (hlinked : Linked idOf nextOf chain) :
  order idOf nextOf items = chain
  := by
  unfold order
  split
  · rename_i hshort
    match items, hshort with
    | [], _ => rw [List.perm_nil.mp hperm]
    | [a], _ => rw [List.perm_singleton.mp hperm]
  · rename_i hlong
    cases chain with
    | nil =>
      rw [← hperm.length_eq] at hlong
      apply absurd (Nat.zero_le 1) hlong
    | cons item post =>
      have hlength := hperm.length_eq
      rw [List.length_cons] at hlength
      have hwalk : walkChain idOf nextOf items items.length [] (idOf item) = [] ++ item :: post :=
        walkChain_linked hnodup hclosed hperm hlinked (by omega)
      simp only [heads_linked hnodup hclosed hperm hlinked, walkChains, List.insertionSort_cons,
        List.insertionSort_nil, List.orderedInsert_nil, List.foldl_cons, List.foldl_nil, hwalk]
      rw [if_pos]
      · rfl
      · simpa using hlength

end Order

/-! ### The failed suffix -/

/-- Whether each job names the one after it, and the last names none. -/
def chainLinked : List Job → Bool
  | [] => true
  | job :: rest => job.nextID = rest.head?.map Job.id && chainLinked rest

theorem chainLinked_iff {chain : List Job} :
  chainLinked chain = true ↔ Linked Job.id Job.nextID chain
  := by
  induction chain with
  | nil => simp [chainLinked, Linked]
  | cons job rest ih => simp [chainLinked, Linked, ih]

/-- The owner of the jobs looked at so far and of one more, unless there are two. The empty
name stands for no owner. -/
def nextOwner (owner : NodeID) (job : Job) : Option NodeID :=
  match job.nodeID with
  | none => some owner
  | some n => if owner.raw ≠ "" ∧ owner ≠ n then none else some n

/-- Whether the jobs after a failed one were cancelled before they started. -/
def neverStarted (owner : NodeID) : List Job → Bool
  | [] => true
  | job :: rest =>
    match nextOwner owner job with
    | none => false
    | some owner =>
      job.status = .cancelled && job.startedAt.isNone && job.nodeID.isNone
        && neverStarted owner rest

/-- The part of a chain from its failed job on, where all before it succeeded and none after
it started. -/
def scanChain (owner : NodeID) : List Job → Option (List Job)
  | [] => none
  | job :: rest =>
    match nextOwner owner job with
    | none => none
    | some owner =>
      if job.status = .success then scanChain owner rest
      else if (job.status ≠ .fail ∧ job.status ≠ .error) ∨ job.nodeID = none
          ∨ job.nodeID = some ⟨""⟩ ∨ !isCanonicalFullCommitSHA job.repoShaIn then none
      else if neverStarted owner rest then some (job :: rest)
      else none

/-- The jobs that a retry from the failed job executes again: the failed job and its
successors. There are none unless the jobs are one complete chain. -/
def failedJobSuffix (jobs : List Job) : Option (List Job) :=
  let chain := order Job.id Job.nextID jobs
  if chain.length = 0 ∨ chain.length ≠ jobs.length then none
  else if !chainLinked chain then none
  else scanChain ⟨""⟩ chain

/-- A failed job that can be retried, as the check of a chain finds it. -/
structure Retryable (j : Job) : Prop where
  failed : j.status = .fail ∨ j.status = .error
  owned : ∃ n, j.nodeID = some n
  input : isCanonicalFullCommitSHA j.repoShaIn = true

/-- A job that was cancelled before it started. -/
structure NeverStarted (j : Job) : Prop where
  cancelled : j.status = .cancelled
  unstarted : j.startedAt = none
  unowned : j.nodeID = none

variable {owner : NodeID}

theorem neverStarted_spec {jobs : List Job} (h : neverStarted owner jobs = true) :
  ∀ k ∈ jobs, NeverStarted k
  := by
  induction jobs generalizing owner with
  | nil => simp
  | cons job rest ih =>
    simp only [neverStarted] at h
    split at h
    · cases h
    · simp only [Bool.and_eq_true, decide_eq_true_eq, Option.isNone_iff_eq_none] at h
      obtain ⟨⟨⟨hstatus, hstarted⟩, hnode⟩, hrest⟩ := h
      intro k hk
      rcases List.mem_cons.mp hk with rfl | hk
      · apply NeverStarted.mk hstatus hstarted hnode
      · apply ih hrest k hk

/-- A chain is resumed at its first job that has not succeeded. -/
theorem scanChain_spec
    {chain suffix : List Job} (h : scanChain owner chain = some suffix) :
  ∃ pre j post, chain = pre ++ j :: post ∧ suffix = j :: post
    ∧ (∀ k ∈ pre, k.status = .success) ∧ Retryable j ∧ ∀ k ∈ post, NeverStarted k
  := by
  induction chain generalizing owner with
  | nil => cases h
  | cons job rest ih =>
    simp only [scanChain] at h
    split at h
    · cases h
    · split at h
      · rename_i hsuccess
        obtain ⟨pre, j, post, rfl, rfl, hpre, hj, hpost⟩ := ih h
        use job :: pre, j, post
        refine ⟨rfl, rfl, ?_, hj, hpost⟩
        simpa [hsuccess] using hpre
      · split at h
        · cases h
        · rename_i hguard
          split at h
          · rename_i hrest
            cases h
            simp only [ne_eq, not_or, not_and, not_not, Bool.not_eq_eq_eq_not, Bool.not_true,
              Bool.not_eq_false] at hguard
            obtain ⟨hfailed, hnode, -, hinput⟩ := hguard
            use [], job, rest
            refine ⟨rfl, rfl, by simp, ⟨?_, Option.ne_none_iff_exists'.mp hnode, hinput⟩,
              neverStarted_spec hrest⟩
            by_cases hf : job.status = .fail
            · apply Or.inl hf
            · apply Or.inr (hfailed hf)
          · cases h

theorem failedJobSuffix_spec {jobs suffix : List Job} (h : failedJobSuffix jobs = some suffix) :
  ∃ pre j post, (pre ++ j :: post).Perm jobs ∧ Linked Job.id Job.nextID (pre ++ j :: post)
    ∧ suffix = j :: post ∧ (∀ k ∈ pre, k.status = .success) ∧ Retryable j
    ∧ ∀ k ∈ post, NeverStarted k
  := by
  simp only [failedJobSuffix] at h
  split at h
  · cases h
  · rename_i hlength
    split at h
    · cases h
    · rename_i hlinked
      obtain ⟨pre, j, post, hchain, hsuffix, hrest⟩ := scanChain_spec h
      have hperm := order_perm (not_not.mp (not_or.mp hlength).2)
      rw [Bool.not_eq_true', Bool.not_eq_false, chainLinked_iff] at hlinked
      rw [hchain] at hperm hlinked
      use pre, j, post

theorem neverStarted_of {jobs : List Job} (h : ∀ k ∈ jobs, NeverStarted k) :
  neverStarted owner jobs = true
  := by
  induction jobs with
  | nil => rfl
  | cons job rest ih =>
    obtain ⟨hcancelled, hunstarted, hunowned⟩ := h job List.mem_cons_self
    simp only [neverStarted, nextOwner, hunowned, hcancelled, hunstarted]
    apply ih
    intro k hk
    apply h k (List.mem_cons_of_mem _ hk)

/-- A chain that failed at a job of one node is resumed there. -/
theorem scanChain_of {n owner : NodeID} {pre post : List Job} {j : Job}
    (howner : owner.raw = "" ∨ owner = n)
    (hbound : ∀ k ∈ pre ++ j :: post, k.nodeID = none ∨ k.nodeID = some n)
    (hpre : ∀ k ∈ pre, k.status = .success) (hj : Retryable j) (hnamed : j.nodeID ≠ some ⟨""⟩)
    (hpost : ∀ k ∈ post, NeverStarted k) :
  scanChain owner (pre ++ j :: post) = some (j :: post)
  := by
  have hnext : ∀ owner : NodeID, owner.raw = "" ∨ owner = n → ∀ k ∈ pre ++ j :: post,
      ∃ owner', nextOwner owner k = some owner' ∧ (owner'.raw = "" ∨ owner' = n) := by
    intro owner howner k hk
    rcases hbound k hk with hnone | hsome
    · exact ⟨owner, by simp [nextOwner, hnone], howner⟩
    · use n
      simp only [nextOwner, hsome]
      refine ⟨if_neg ?_, by simp⟩
      rintro ⟨hne, hother⟩
      rcases howner with hempty | hsame
      · apply hne hempty
      · apply hother hsame
  induction pre generalizing owner with
  | nil =>
    obtain ⟨owner', hsame, -⟩ := hnext owner howner j (by simp)
    obtain ⟨m, hm⟩ := hj.owned
    have hstatus : j.status ≠ .success := by
      rcases hj.failed with h | h <;> simp [h]
    have hguard : ¬ ((j.status ≠ .fail ∧ j.status ≠ .error) ∨ j.nodeID = none
        ∨ j.nodeID = some ⟨""⟩ ∨ !isCanonicalFullCommitSHA j.repoShaIn) := by
      rw [hm] at hnamed ⊢
      rcases hj.failed with h | h <;> simp [h, hj.input, Option.some_inj.not.mp hnamed]
    rw [List.nil_append, scanChain, hsame]
    dsimp only
    rw [if_neg hstatus, if_neg hguard, if_pos (neverStarted_of hpost)]
  | cons k pre ih =>
    obtain ⟨owner', hsame, howner'⟩ := hnext owner howner k (by simp)
    rw [List.cons_append, scanChain, hsame]
    dsimp only
    rw [if_pos (hpre k List.mem_cons_self)]
    apply ih howner'
    · intro k' hk'
      apply hbound k' (List.mem_cons_of_mem _ hk')
    · intro k' hk'
      apply hpre k' (List.mem_cons_of_mem _ hk')
    · intro owner howner k' hk'
      apply hnext owner howner k' (List.mem_cons_of_mem _ hk')

theorem failedJobSuffix_closed {n : NodeID} {jobs pre post : List Job} {j : Job}
    (hnodup : (jobs.map Job.id).Nodup) (hclosed : Closed Job.id Job.nextID jobs)
    (hperm : (pre ++ j :: post).Perm jobs) (hlinked : Linked Job.id Job.nextID (pre ++ j :: post))
    (hbound : ∀ k ∈ pre ++ j :: post, k.nodeID = none ∨ k.nodeID = some n)
    (hpre : ∀ k ∈ pre, k.status = .success) (hj : Retryable j) (hnamed : j.nodeID ≠ some ⟨""⟩)
    (hpost : ∀ k ∈ post, NeverStarted k) :
  failedJobSuffix jobs = some (j :: post)
  := by
  have horder := order_closed hnodup hclosed hperm hlinked
  have hlength := hperm.length_eq
  have hchain : chainLinked (pre ++ j :: post) = true := chainLinked_iff.mpr hlinked
  simp only [failedJobSuffix, horder, hchain]
  rw [if_neg, if_neg]
  · apply scanChain_of (Or.inl rfl) hbound hpre hj hnamed hpost
  · simp
  · rw [not_or, not_not]
    exact ⟨by simp, hlength⟩

theorem failedJobSuffix_of {n : NodeID} {jobs pre post : List Job} {j : Job}
    (hnodup : (jobs.map Job.id).Nodup) (hzero : ∀ k ∈ jobs, k.id.isZero = false)
    (hperm : (pre ++ j :: post).Perm jobs) (hlinked : Linked Job.id Job.nextID (pre ++ j :: post))
    (hbound : ∀ k ∈ pre ++ j :: post, k.nodeID = none ∨ k.nodeID = some n)
    (hpre : ∀ k ∈ pre, k.status = .success) (hj : Retryable j) (hnamed : j.nodeID ≠ some ⟨""⟩)
    (hpost : ∀ k ∈ post, NeverStarted k) :
  failedJobSuffix jobs = some (j :: post)
  := failedJobSuffix_closed hnodup (closed_of_linked hzero hperm hlinked) hperm hlinked
    hbound hpre hj
    hnamed hpost

/-! ### Which jobs can be retried -/

theorem nextOwner_some {owner owner' n : NodeID} {job : Job} (hnode : job.nodeID = some n)
    (h : nextOwner owner job = some owner') :
  owner' = n ∧ (owner.raw = "" ∨ owner = n)
  := by
  simp only [nextOwner, hnode] at h
  split at h
  · cases h
  · rename_i hsame
    cases h
    by_cases hempty : owner.raw = ""
    · exact ⟨rfl, Or.inl hempty⟩
    · exact ⟨rfl, Or.inr (by simpa [hempty] using hsame)⟩

/-- A chain that is resumed has jobs of one node at most. -/
theorem scanChain_owner {chain suffix : List Job}
    (h : scanChain owner chain = some suffix) (hnamed : ∀ k ∈ chain, k.nodeID ≠ some ⟨""⟩) :
  ∃ n : NodeID, (owner.raw = "" ∨ owner = n)
    ∧ ∀ k ∈ chain, k.nodeID = none ∨ k.nodeID = some n
  := by
  induction chain generalizing owner with
  | nil => cases h
  | cons job rest ih =>
    have hrest : ∀ k ∈ rest, k.nodeID ≠ some ⟨""⟩ :=
      fun k hk => hnamed k (List.mem_cons_of_mem _ hk)
    simp only [scanChain] at h
    split at h
    · cases h
    · rename_i owner' howner
      cases hnode : job.nodeID with
      | none =>
        -- The job says nothing about the owner, so it is not the failed one.
        have hsame : owner' = owner := by simpa [nextOwner, hnode] using howner.symm
        subst hsame
        split at h
        · obtain ⟨n, hn, hbound⟩ := ih h hrest
          exact ⟨n, hn, by simpa [hnode] using hbound⟩
        · simp [hnode] at h
      | some m =>
        obtain ⟨rfl, hsame⟩ := nextOwner_some hnode howner
        have hne : owner'.raw ≠ "" := by
          intro hempty
          apply hnamed job List.mem_cons_self
          rw [hnode, ← hempty]
        split at h
        · obtain ⟨n, hn, hbound⟩ := ih h hrest
          obtain rfl := hn.resolve_left hne
          exact ⟨owner', hsame, by simpa [hnode] using hbound⟩
        · split at h
          · cases h
          · split at h
            · rename_i hpost
              refine ⟨owner', hsame, ?_⟩
              intro k hk
              rcases List.mem_cons.mp hk with rfl | hk
              · apply Or.inr hnode
              · apply Or.inl (neverStarted_spec hpost k hk).unowned
            · cases h

/-- A chain of jobs along their successors that can be retried: jobs that succeeded, then a failed
one with an owner and an input, then jobs that were cancelled before they started, with one owner
and without a job that is met twice. -/
structure RetryableChain (pre : List Job) (j : Job) (post : List Job) : Prop where
  linked : Linked Job.id Job.nextID (pre ++ j :: post)
  acyclic : ((pre ++ j :: post).map Job.id).Nodup
  succeeded : ∀ k ∈ pre, k.status = .success
  failed : Retryable j
  remaining : ∀ k ∈ post, NeverStarted k
  owner : ∀ k ∈ pre, k.nodeID = none ∨ k.nodeID = j.nodeID

/-- The jobs that can be retried are exactly the chains of that form, and what is retried is the
failed job and its successors. A node has a name, and a successor has an identifier. -/
theorem failedJobSuffix_eq_some_iff {jobs suffix : List Job}
    (hnamed : ∀ k ∈ jobs, k.nodeID ≠ some ⟨""⟩)
    (hnext : ∀ k ∈ jobs, ∀ next, k.nextID = some next → next.isZero = false) :
  failedJobSuffix jobs = some suffix ↔
    ∃ pre j post, (pre ++ j :: post).Perm jobs ∧ RetryableChain pre j post ∧ suffix = j :: post
  := by
  constructor
  · intro h
    obtain ⟨pre, j, post, hperm, hlinked, hsuffix, hpre, hj, hpost⟩ := failedJobSuffix_spec h
    -- The check went through the chain, so the chain has one owner, and no job is met twice.
    simp only [failedJobSuffix] at h
    split at h
    · cases h
    · rename_i hlength
      split at h
      · cases h
      · have horder := order_perm (not_not.mp (not_or.mp hlength).2)
        obtain ⟨n, -, hbound⟩ := scanChain_owner h
          fun k hk => hnamed k (horder.subset hk)
        have hnodup : (jobs.map Job.id).Nodup :=
          (horder.map Job.id).nodup_iff.mp (visits_order jobs).2
        have howner : ∀ k ∈ pre ++ j :: post, k.nodeID = none ∨ k.nodeID = some n :=
          fun k hk => hbound k (horder.symm.subset (hperm.subset hk))
        obtain ⟨m, hm⟩ := hj.owned
        have hjn : j.nodeID = some n := by
          rcases howner j (by simp) with hnone | hsome
          · rw [hm] at hnone
            cases hnone
          · exact hsome
        refine ⟨pre, j, post, hperm, ?_, hsuffix⟩
        exact {
          linked := hlinked
          acyclic := (hperm.map Job.id).nodup_iff.mpr hnodup
          succeeded := hpre
          failed := hj
          remaining := hpost
          owner := by
            intro k hk
            rw [hjn]
            exact howner k (List.mem_append_left _ hk) }
  · rintro ⟨pre, j, post, hperm, hchain, rfl⟩
    obtain ⟨n, hn⟩ := hchain.failed.owned
    have hclosed : Closed Job.id Job.nextID jobs := by
      intro k hk next hknext
      obtain ⟨other, hother, rfl⟩ :=
        hchain.linked.exists_of_next (hperm.symm.subset hk) hknext
      exact ⟨hnext k hk _ hknext, List.mem_map_of_mem (hperm.subset hother)⟩
    apply failedJobSuffix_closed ((hperm.map Job.id).nodup_iff.mp hchain.acyclic) hclosed hperm
      hchain.linked _ hchain.succeeded hchain.failed _ hchain.remaining
    · exact n
    · intro k hk
      rcases List.mem_append.mp hk with hk | hk
      · rw [← hn]
        exact hchain.owner k hk
      · rcases List.mem_cons.mp hk with rfl | hk
        · exact Or.inr hn
        · exact Or.inl (hchain.remaining k hk).unowned
    · exact hnamed j (hperm.subset (by simp))

namespace RetrySample

/-- A job of a chain. -/
def job (id : String) (next : Option String) (status : JobStatus) (node : Option String) : Job where
  id := ⟨id⟩
  runID := ⟨"r"⟩
  repoID := ⟨"repo"⟩
  repoBaseRef := "main"
  attempt := 1
  status := status
  jobType := .mig
  jobImage := ""
  nextID := next.map fun id => ⟨id⟩
  name := ""
  nodeID := node.map fun n => ⟨n⟩
  startedAt := none
  repoShaIn := "aaaaaaaaaaaaaaaaaaaaaaaaaaaaaaaaaaaaaaaa"
  repoShaOut := ""
  repoShaIn8 := ""
  repoShaOut8 := ""
  metadata := .object []

def first : Job := job "a" (some "b") .success (some "n")
def failed : Job := job "b" (some "c") .fail (some "n")
def last : Job := job "c" none .cancelled none

end RetrySample

open RetrySample in
theorem failedJobSuffix_eq_some_iff_sample :
  failedJobSuffix [last, first, failed] = some [failed, last]
  := by
  have hnamed : ∀ k ∈ [last, first, failed], k.nodeID ≠ some ⟨""⟩ := by decide
  have hnext : ∀ k ∈ [last, first, failed], ∀ next, k.nextID = some next →
      next.isZero = false := by
    intro k hk next hknext
    simp only [List.mem_cons, List.not_mem_nil, or_false] at hk
    rcases hk with rfl | rfl | rfl <;> cases hknext <;> decide
  apply (failedJobSuffix_eq_some_iff hnamed hnext).mpr
  refine ⟨[first], failed, [last], List.perm_append_singleton last [first, failed], ?_, rfl⟩
  exact {
    linked := by simp [Linked, first, failed, last, job]
    acyclic := by decide
    succeeded := by simp [first, job]
    failed := ⟨Or.inl rfl, ⟨_, rfl⟩, by decide +kernel⟩
    remaining := by
      intro k hk
      rw [List.mem_singleton.mp hk]
      exact ⟨rfl, rfl, rfl⟩
    owner := by simp [first, failed, job] }

open RetrySample in
/-- The name of a node may be empty: then two jobs with different nodes are taken for one owner's.
A blank identifier is no successor: then a chain is not found. -/
theorem failedJobSuffix_unnamed :
  (failedJobSuffix [job "a" (some "b") .success (some ""), job "b" none .fail (some "n")]).isSome
      = true ∧
    failedJobSuffix [job "a" (some "") .fail (some "n"), job "" none .cancelled none] = none
  := by
  refine ⟨?_, ?_⟩ <;> decide +kernel

end Ploy
