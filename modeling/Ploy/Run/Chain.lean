import Ploy.Store.Effects

/-!
# The chain of an attempt

The jobs of an attempt of a run, read along their successors. No statement changes the
successor of a job, so rewriting rows rewrites chains item by item.
-/

namespace Ploy

/-- The list `l` is the chain of the jobs of an attempt of a run. -/
def IsChain (db : DB) (run : RunID) (attempt : Nat) (l : List Job) : Prop :=
  l.Perm (db.jobs.rows.filter (Job.inAttempt run attempt)) ∧ Linked Job.id Job.nextID l

namespace IsChain

variable {db db' : DB} {run : RunID} {attempt : Nat} {l l' : List Job}

theorem mem_iff (h : IsChain db run attempt l) {j : Job} :
  j ∈ l ↔ j ∈ db.jobs ∧ j.runID = run ∧ j.attempt = attempt
  := by
  rw [h.1.mem_iff]
  simp [Job.inAttempt, Table.mem_rows]

theorem nodup (h : IsChain db run attempt l) :
  (l.map Job.id).Nodup
  := by
  rw [(h.1.map Job.id).nodup_iff]
  apply db.jobs.nodup.sublist (List.filter_sublist.map _)

theorem unique (h : IsChain db run attempt l) (h' : IsChain db run attempt l') :
  l = l'
  := h.2.unique h'.2 (h.1.trans h'.1.symm) h.nodup

theorem of_jobs_eq (h : IsChain db run attempt l) (hjobs : db'.jobs = db.jobs) :
  IsChain db' run attempt l
  := by
  rw [IsChain, hjobs]
  apply h

theorem updateJobs (h : IsChain db run attempt l) (u : JobUpdate) :
  IsChain (db.updateJobs u) run attempt (l.map u.apply)
  := by
  constructor
  · have hp : Job.inAttempt run attempt ∘ u.apply = Job.inAttempt run attempt := by
      funext j
      simp [Job.inAttempt, u.runID_apply, u.attempt_apply]
    have hrows : (db.updateJobs u).jobs.rows = db.jobs.rows.map u.apply := rfl
    rw [hrows, List.filter_map, hp]
    apply h.1.map
  · apply h.2.map u.id_apply u.nextID_apply

theorem eq_of_id_eq (h : IsChain db run attempt l) {j k : Job} (hj : j ∈ l) (hk : k ∈ db.jobs)
    (hid : k.id = j.id) :
  k = j
  := Table.eq_of_key_eq hk (h.mem_iff.mp hj).1 hid

theorem id_ne (h : IsChain db run attempt l) {j k : Job} (hj : j ∈ l) (hk : k ∈ db.jobs)
    (hout : ¬ (k.runID = run ∧ k.attempt = attempt)) :
  k.id ≠ j.id
  := by
  intro hid
  rw [h.eq_of_id_eq hj hk hid] at hout
  apply hout (h.mem_iff.mp hj).2

theorem nil_iff (h : IsChain db run attempt l) :
  l = [] ↔ ∀ j ∈ db.jobs, ¬ (j.runID = run ∧ j.attempt = attempt)
  := by
  rw [List.eq_nil_iff_forall_not_mem]
  constructor
  · intro hnil j hj hin
    apply hnil j (h.mem_iff.mpr ⟨hj, hin⟩)
  · intro hnone j hj
    obtain ⟨hmem, hin⟩ := h.mem_iff.mp hj
    apply hnone j hmem hin

theorem append_other (h : IsChain db run attempt l) {created : List Job}
    (hrows : db'.jobs.rows = db.jobs.rows ++ created.reverse)
    (hother : ∀ k ∈ created, ¬ (k.runID = run ∧ k.attempt = attempt)) :
  IsChain db' run attempt l
  := by
  have hnone : created.reverse.filter (Job.inAttempt run attempt) = [] := by
    rw [List.filter_eq_nil_iff]
    intro k hk
    simpa [Job.inAttempt] using hother k (List.mem_reverse.mp hk)
  rw [IsChain, hrows, List.filter_append, hnone, List.append_nil]
  apply h

theorem append_new (h : IsChain db run attempt []) {created : List Job}
    (hrows : db'.jobs.rows = db.jobs.rows ++ created.reverse)
    (hnew : ∀ k ∈ created, k.runID = run ∧ k.attempt = attempt)
    (hlinked : Linked Job.id Job.nextID created) :
  IsChain db' run attempt created
  := by
  have hall : created.reverse.filter (Job.inAttempt run attempt) = created.reverse := by
    rw [List.filter_eq_self]
    intro k hk
    simpa [Job.inAttempt] using hnew k (List.mem_reverse.mp hk)
  constructor
  · rw [hrows, List.filter_append, hall, ← h.1.nil_eq, List.nil_append]
    apply (List.reverse_perm created).symm
  · apply hlinked

end IsChain

/-- A list is split in one way only where a property first fails. -/
theorem first_unique {α : Type} {p : α → Prop} {pre pre' post post' : List α} {a a' : α}
    (hpre : ∀ x ∈ pre, p x) (ha : ¬ p a) (hpre' : ∀ x ∈ pre', p x) (ha' : ¬ p a')
    (h : pre ++ a :: post = pre' ++ a' :: post') :
  pre = pre' ∧ a = a' ∧ post = post'
  := by
  induction pre generalizing pre' with
  | nil =>
    cases pre' with
    | nil =>
      cases h
      exact ⟨rfl, rfl, rfl⟩
    | cons x rest =>
      cases h
      apply absurd (hpre' a List.mem_cons_self) ha
  | cons x rest ih =>
    cases pre' with
    | nil =>
      cases h
      apply absurd (hpre a' List.mem_cons_self) ha'
    | cons x' rest' =>
      obtain ⟨rfl, htail⟩ := List.cons.inj h
      obtain ⟨rfl, hrest⟩ := ih (fun y hy => hpre y (List.mem_cons_of_mem _ hy))
        (fun y hy => hpre' y (List.mem_cons_of_mem _ hy)) htail
      exact ⟨rfl, hrest⟩

/-! ### Rewriting one job of a chain -/

section Map

variable {pre post : List Job} {j : Job} {u : JobUpdate}

theorem map_at {f : Job → Job} (hpre : ∀ k ∈ pre, f k = k) (hpost : ∀ k ∈ post, f k = k) :
  (pre ++ j :: post).map f = pre ++ f j :: post
  := by
  rw [List.map_append, List.map_cons, List.map_congr_left hpre, List.map_congr_left hpost]
  simp

theorem map_eq_self {f : Job → Job} {l : List Job} (h : ∀ k ∈ l, f k = k) :
  l.map f = l
  := by
  rw [List.map_congr_left h]
  simp

theorem ne_of_nodup (hnodup : ((pre ++ j :: post).map Job.id).Nodup) {k : Job}
    (hk : k ∈ pre ∨ k ∈ post) :
  k.id ≠ j.id
  := by
  rw [List.map_append, List.map_cons, List.nodup_append, List.nodup_cons] at hnodup
  obtain ⟨-, ⟨hpost, -⟩, hpre⟩ := hnodup
  intro hid
  rcases hk with hk | hk
  · apply hpre k.id (List.mem_map_of_mem hk) j.id List.mem_cons_self hid
  · apply hpost
    rw [← hid]
    apply List.mem_map_of_mem hk

theorem not_mem_post (hnodup : ((pre ++ j :: post).map Job.id).Nodup) {k : Job}
    (hk : k ∈ pre ∨ k = j) :
  k.id ∉ post.map Job.id
  := by
  rw [List.map_append, List.map_cons, List.nodup_append, List.nodup_cons] at hnodup
  obtain ⟨-, ⟨hpost, -⟩, hpre⟩ := hnodup
  rcases hk with hk | rfl
  · intro hmem
    apply hpre k.id (List.mem_map_of_mem hk) k.id (List.mem_cons_of_mem _ hmem) rfl
  · apply hpost

theorem map_onlyIf_id (hnodup : ((pre ++ j :: post).map Job.id).Nodup) {p : Job → Bool}
    (hp : ∀ k, p k = true → k.id = j.id) (hj : p j = true) :
  (pre ++ j :: post).map (u.onlyIf p).apply = pre ++ u.apply j :: post
  := by
  rw [map_at, RowUpdate.onlyIf_pos hj]
  · intro k hk
    apply RowUpdate.onlyIf_neg
    intro hpk
    apply ne_of_nodup hnodup (Or.inl hk) (hp k hpk)
  · intro k hk
    apply RowUpdate.onlyIf_neg
    intro hpk
    apply ne_of_nodup hnodup (Or.inr hk) (hp k hpk)

end Map

/-! ### Well-formed stores -/

/-- Every job belongs to a run and to an attempt that the run has reached, and the jobs of
every attempt form a chain. -/
structure WellFormed (db : DB) : Prop where
  referenced : ∀ j ∈ db.jobs, ∃ r ∈ db.runs, r.id = j.runID ∧ j.attempt ≤ r.attempt
  chained : ∀ run attempt, ∃ l, IsChain db run attempt l

namespace WellFormed

variable {db : DB}

theorem mem_of_next (h : WellFormed db) {run : RunID} {attempt : Nat} {l : List Job}
    (hl : IsChain db run attempt l) {p k : Job} (hp : p ∈ db.jobs) (hk : k ∈ l)
    (hnext : p.nextID = some k.id) :
  p ∈ l
  := by
  obtain ⟨l', hl'⟩ := h.chained p.runID p.attempt
  have hpmem : p ∈ l' := hl'.mem_iff.mpr ⟨hp, rfl, rfl⟩
  obtain ⟨k', hk', hid⟩ := hl'.2.exists_of_next hpmem hnext
  obtain ⟨hkjobs, hrun, hattempt⟩ := hl.mem_iff.mp hk
  obtain ⟨hk'jobs, hrun', hattempt'⟩ := hl'.mem_iff.mp hk'
  obtain rfl := Table.eq_of_key_eq hk'jobs hkjobs hid
  apply hl.mem_iff.mpr ⟨hp, hrun'.symm.trans hrun, hattempt'.symm.trans hattempt⟩

theorem nil_of_lt (h : WellFormed db) {r : Run} (hr : r ∈ db.runs) {attempt : Nat}
    (hlt : r.attempt < attempt) {l : List Job} (hl : IsChain db r.id attempt l) :
  l = []
  := by
  rw [hl.nil_iff]
  rintro j hj ⟨hrun, hattempt⟩
  obtain ⟨r', hr', hid, hle⟩ := h.referenced j hj
  obtain rfl := Table.eq_of_key_eq hr' hr (hid.trans hrun)
  omega

end WellFormed

end Ploy
