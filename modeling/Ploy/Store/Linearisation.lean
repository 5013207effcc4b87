import Ploy.Store.JobChain

/-!
# Ordering items whatever their links are like

The links of a list of items with distinct identifiers form a functional graph: chains, trees that
grow into them, and cycles. `order` walks it from the items that are the successor of none, and then
from what is left, which are the cycles. Every item is met, each once, and an item off the cycles
stands right before its successor unless another item has the same one.
-/

namespace Ploy

section Cycles

variable {α : Type} {r : α → α → Prop}

/-- On a finite type a function without a start goes round. -/
theorem transGen_self [Finite α] (hfun : ∀ x y z, r x y → r x z → y = z) (hpred : ∀ y, ∃ x, r x y)
    (y : α) :
  Relation.TransGen r y y
  := by
  choose p hp using hpred
  have hinj : Function.Injective p := by
    intro x z hxz
    exact hfun (p x) x z (hp x) (hxz ▸ hp z)
  have hpath : ∀ n, Relation.TransGen r (p^[n + 1] y) y := by
    intro n
    induction n with
    | zero => exact .single (hp y)
    | succ n ih =>
      rw [Function.iterate_succ_apply']
      exact .head (hp _) ih
  obtain ⟨n, hpos, hn⟩ := Function.mem_periodicPts.mp (hinj.mem_periodicPts y)
  obtain ⟨n, rfl⟩ : ∃ m, n = m + 1 := ⟨n - 1, by omega⟩
  have h := hpath n
  rwa [hn] at h

end Cycles

section Order

variable {T : Type} {idOf : T → JobID} {nextOf : T → Option JobID} {items out : List T}

/-- The list has an item with its identifier for the successor of another. -/
def Follows (idOf : T → JobID) (nextOf : T → Option JobID) (items : List T) (a b : T) : Prop :=
  a ∈ items ∧ b ∈ items ∧ nextOf a = some (idOf b)

/-- An item, and its successor, which is that of no other and not on a cycle. -/
structure SoleSuccessor (idOf : T → JobID) (nextOf : T → Option JobID) (items : List T) (a b : T) :
    Prop where
  follows : Follows idOf nextOf items a b
  sole : ∀ c, Follows idOf nextOf items c b → c = a
  acyclic : ¬ Relation.TransGen (Follows idOf nextOf items) b b

theorem Visits.perm (hvisits : Visits idOf items out) (hnodup : (items.map idOf).Nodup)
    (h : items.length ≤ out.length ∨ items ⊆ out) :
  out.Perm items
  := by
  rcases h with hlen | hsub
  · exact (List.subperm_of_subset (hvisits.2.of_map idOf) hvisits.1).perm_of_length_le hlen
  · rw [List.perm_ext_iff_of_nodup (hvisits.2.of_map idOf) (hnodup.of_map idOf)]
    exact fun a => ⟨fun ha => hvisits.1 ha, fun ha => hsub ha⟩

/-! ### A walk -/

/-- What a walk keeps from item to item holds at its end. -/
theorem walkChain_rule (hnodup : (items.map idOf).Nodup) {P : List T → JobID → Prop}
    {Q : List T → Prop} (hstop : ∀ out current, P out current → current ∈ out.map idOf → Q out)
    (hlast : ∀ out, ∀ item ∈ items, P out (idOf item) → idOf item ∉ out.map idOf →
      (∀ next, (idOf item, next) ∉ links idOf nextOf items) → Q (out ++ [item]))
    (hstep : ∀ out, ∀ item ∈ items, P out (idOf item) → idOf item ∉ out.map idOf →
      ∀ next, (idOf item, next) ∈ links idOf nextOf items → P (out ++ [item]) next)
    {fuel : Nat} {current : JobID} (hvisits : Visits idOf items out)
    (hfuel : items.length ≤ out.length + fuel) (hcurrent : current ∈ items.map idOf)
    (h : P out current) :
  Q (walkChain idOf nextOf items fuel out current)
  := by
  induction fuel generalizing out current with
  | zero =>
    have hperm := hvisits.perm hnodup (Or.inl hfuel)
    exact hstop out current h ((hperm.map idOf).mem_iff.mpr hcurrent)
  | succ fuel ih =>
    obtain ⟨item, hitem, rfl⟩ := List.mem_map.mp hcurrent
    simp only [walkChain, itemByID_of_mem hnodup hitem]
    split
    · rename_i hseen
      exact hstop out _ h hseen
    · rename_i hnew
      cases hnext : nextByID idOf nextOf items (idOf item) with
      | none =>
        refine hlast out item hitem h hnew fun next hlink => ?_
        rw [(nextByID_eq_some hnodup).mpr hlink] at hnext
        cases hnext
      | some next =>
        have hlink := (nextByID_eq_some hnodup).mp hnext
        obtain ⟨-, -, -, -, -, hmem⟩ := mem_links.mp hlink
        apply ih (hvisits.concat hitem hnew) _ hmem (hstep out item hitem h hnew next hlink)
        rw [List.length_append, List.length_singleton]
        omega

/-- More fuel than there are items changes nothing. -/
theorem walkChain_fuel (hnodup : (items.map idOf).Nodup) {fuel : Nat} {current : JobID}
    (hvisits : Visits idOf items out) (hfuel : items.length ≤ out.length + fuel) :
  walkChain idOf nextOf items (fuel + 1) out current = walkChain idOf nextOf items fuel out current
  := by
  induction fuel generalizing out current with
  | zero =>
    have hperm := hvisits.perm hnodup (Or.inl hfuel)
    simp only [walkChain]
    split
    · rfl
    · rename_i hnew
      cases hitem : itemByID idOf items current with
      | none => rfl
      | some item =>
        obtain ⟨hmem, rfl⟩ := itemByID_eq_some hitem
        exact absurd (List.mem_map_of_mem (hperm.mem_iff.mpr hmem)) hnew
  | succ fuel ih =>
    unfold walkChain
    split
    · rfl
    · rename_i hnew
      cases hitem : itemByID idOf items current with
      | none => rfl
      | some item =>
        cases hnext : nextByID idOf nextOf items current with
        | none => rfl
        | some next =>
          obtain ⟨hmem, rfl⟩ := itemByID_eq_some hitem
          apply ih (hvisits.concat hmem hnew)
          rw [List.length_append, List.length_singleton]
          omega

theorem walkChain_grows (nextOf : T → Option JobID) (hnodup : (items.map idOf).Nodup)
    {start : JobID}
    (hvisits : Visits idOf items out) (hstart : start ∈ items.map idOf) :
  out <+: walkChain idOf nextOf items items.length out start
    ∧ start ∈ (walkChain idOf nextOf items items.length out start).map idOf
  := by
  apply walkChain_rule hnodup
    (P := fun seen current => out <+: seen ∧ (current = start ∨ start ∈ seen.map idOf))
    (Q := fun seen => out <+: seen ∧ start ∈ seen.map idOf) _ _ _ hvisits (by omega) hstart
    ⟨List.prefix_rfl, Or.inl rfl⟩
  · rintro seen current ⟨hpre, rfl | hseen⟩ hmem
    · exact ⟨hpre, hmem⟩
    · exact ⟨hpre, hseen⟩
  all_goals
    rintro seen item - ⟨hpre, hseen⟩ -
    intros
    refine ⟨hpre.trans (List.prefix_append _ _), ?_⟩
    rcases hseen with rfl | hseen <;> simp_all

/-- The successors of what was visited were visited. -/
def Ends (idOf : T → JobID) (nextOf : T → Option JobID) (items out : List T) : Prop :=
  ∀ link ∈ links idOf nextOf items, link.1 ∈ out.map idOf → link.2 ∈ out.map idOf

/-- A walk goes on to an item without a successor, or to one it has met. -/
theorem Ends.walkChain (hnodup : (items.map idOf).Nodup) {start : JobID}
    (h : Ends idOf nextOf items out) (hvisits : Visits idOf items out)
    (hstart : start ∈ items.map idOf) :
  Ends idOf nextOf items (walkChain idOf nextOf items items.length out start)
  := by
  apply walkChain_rule hnodup (P := fun seen current => ∀ link ∈ links idOf nextOf items,
      link.1 ∈ seen.map idOf → link.2 ∈ seen.map idOf ∨ link.2 = current)
    _ _ _ hvisits (by omega) hstart fun link hlink hmem => Or.inl (h link hlink hmem)
  · intro seen current hP hcurrent link hlink hmem
    rcases hP link hlink hmem with hseen | rfl
    · exact hseen
    · exact hcurrent
  · intro seen item _ hP _ hnone link hlink hmem
    rw [List.map_append, List.mem_append] at hmem ⊢
    rcases hmem with hmem | hmem
    · exact (hP link hlink hmem).imp id (by simp)
    · have hid : link.1 = idOf item := by simpa using hmem
      exact absurd (hid ▸ hlink) (hnone link.2)
  · intro seen item _ hP _ next hnext link hlink hmem
    rw [List.map_append, List.mem_append] at hmem ⊢
    rcases hmem with hmem | hmem
    · exact Or.inl ((hP link hlink hmem).imp id (by simp))
    · -- the successor of the item that was just visited is where the walk goes on
      have hid : link.1 = idOf item := by simpa using hmem
      have h₁ := (nextByID_eq_some hnodup).mpr hlink
      rw [hid, (nextByID_eq_some hnodup).mpr hnext] at h₁
      exact Or.inr (Option.some.inj h₁).symm

/-- Of two items, none was visited, or one right after the other. -/
def Adjacent (idOf : T → JobID) (a b : T) (out : List T) : Prop :=
  (idOf a ∉ out.map idOf ∧ idOf b ∉ out.map idOf) ∨ [a, b] <:+: out

variable {a b : T}

theorem SoleSuccessor.ne (h : SoleSuccessor idOf nextOf items a b) :
  a ≠ b
  := by
  rintro rfl
  exact h.acyclic (.single h.follows)

theorem SoleSuccessor.link_iff (h : SoleSuccessor idOf nextOf items a b)
    (hnodup : (items.map idOf).Nodup) {link : JobID × JobID}
    (hlink : link ∈ links idOf nextOf items) :
  link.1 = idOf a ↔ link.2 = idOf b
  := by
  obtain ⟨c, hc, hid, hnext, -⟩ := mem_links.mp hlink
  constructor
  · intro heq
    rw [List.inj_on_of_nodup_map hnodup hc h.follows.1 (hid.trans heq), h.follows.2.2] at hnext
    exact (Option.some.inj hnext).symm
  · intro heq
    rw [← hid, h.sole c ⟨hc, h.follows.2.1, heq ▸ hnext⟩]

/-- A walk puts the only successor of an item right after it. -/
theorem Adjacent.walkChain (hnodup : (items.map idOf).Nodup)
    (hsole : SoleSuccessor idOf nextOf items a b)
    (hlink : (idOf a, idOf b) ∈ links idOf nextOf items)
    {start : JobID} (h : Adjacent idOf a b out) (hvisits : Visits idOf items out)
    (hstart : start ∈ items.map idOf) (hne : start ≠ idOf b) :
  Adjacent idOf a b (walkChain idOf nextOf items items.length out start)
  := by
  obtain ⟨ha, hb, -⟩ := hsole.follows
  have hids : idOf a ≠ idOf b := fun h => hsole.ne (List.inj_on_of_nodup_map hnodup ha hb h)
  have hboth : ∀ (seen : List T) (item : T), item ∈ items →
      ([a] <:+ seen ∧ idOf b ∉ seen.map idOf ∧ idOf item = idOf b) ∨ [a, b] <:+: seen →
      [a, b] <:+: seen ++ [item] := by
    rintro seen item hitem (⟨⟨pre, rfl⟩, -, hid⟩ | hinfix)
    · rw [List.inj_on_of_nodup_map hnodup hitem hb hid]
      exact ⟨pre, [], by simp⟩
    · exact hinfix.trans (List.prefix_append _ _).isInfix
  -- The walk may stand between the two: then it goes on with the second.
  apply walkChain_rule hnodup (P := fun seen current =>
      (idOf a ∉ seen.map idOf ∧ idOf b ∉ seen.map idOf ∧ current ≠ idOf b)
      ∨ ([a] <:+ seen ∧ idOf b ∉ seen.map idOf ∧ current = idOf b) ∨ [a, b] <:+: seen)
    _ _ _ hvisits (by omega) hstart (h.imp (fun h => ⟨h.1, h.2, hne⟩) Or.inr)
  · rintro seen current (⟨ha, hb, -⟩ | ⟨-, hb, rfl⟩ | hinfix) hmem
    · exact Or.inl ⟨ha, hb⟩
    · exact absurd hmem hb
    · exact Or.inr hinfix
  · rintro seen item hitem (⟨ha, hb, hcurrent⟩ | hright) - hnone
    · have hitem' : idOf item ≠ idOf a := fun h => hnone (idOf b) (h ▸ hlink)
      exact Or.inl ⟨by simp [ha, hitem'.symm], by simp [hb, hcurrent.symm]⟩
    · exact Or.inr (hboth seen item hitem hright)
  · rintro seen item hitem (⟨ha', hb', hcurrent⟩ | hright) - next hnext
    · have hb'' : idOf b ∉ (seen ++ [item]).map idOf := by simp [hb', hcurrent.symm]
      by_cases hid : idOf item = idOf a
      · rw [List.inj_on_of_nodup_map hnodup hitem ha hid] at hb'' ⊢
        exact Or.inr (Or.inl ⟨List.suffix_append _ _, hb'', (hsole.link_iff hnodup hnext).mp hid⟩)
      · exact Or.inl ⟨by simp [ha', Ne.symm hid], hb'',
          fun h => hid ((hsole.link_iff hnodup hnext).mpr h)⟩
    · exact Or.inr (Or.inr (hboth seen item hitem hright))

/-! ### The passes -/

theorem Visits.mem_of_map (hvisits : Visits idOf items out) (hnodup : (items.map idOf).Nodup)
    (ha : a ∈ items) (h : idOf a ∈ out.map idOf) :
  a ∈ out
  := by
  obtain ⟨c, hc, hid⟩ := List.mem_map.mp h
  rwa [← List.inj_on_of_nodup_map hnodup (hvisits.1 hc) ha hid]

/-- What every walk keeps holds after all of them. -/
theorem walkChains_rule (nextOf : T → Option JobID) (hnodup : (items.map idOf).Nodup)
    {R : List T → Prop} (starts : List JobID)
    (hstarts : ∀ start ∈ starts, start ∈ items.map idOf)
    (hwalk : ∀ out, ∀ start ∈ starts, Visits idOf items out → R out →
      R (walkChain idOf nextOf items items.length out start))
    (hvisits : Visits idOf items out) (h : R out) :
  R (walkChains idOf nextOf items out starts)
    ∧ out <+: walkChains idOf nextOf items out starts
    ∧ ∀ start ∈ starts, start ∈ (walkChains idOf nextOf items out starts).map idOf
  := by
  have hperm := List.perm_insertionSort (fun a b : JobID => a.raw ≤ b.raw) starts
  have hsorted : ∀ start ∈ starts.insertionSort (·.raw ≤ ·.raw), start ∈ starts :=
    fun start => hperm.mem_iff.mp
  simp only [← fun s => hperm.mem_iff (a := s), walkChains]
  generalize starts.insertionSort (·.raw ≤ ·.raw) = sorted at hsorted ⊢
  induction sorted generalizing out with
  | nil => exact ⟨h, List.prefix_rfl, by simp⟩
  | cons start sorted ih =>
    have hmem := hsorted start List.mem_cons_self
    obtain ⟨hgrows, hstart⟩ := walkChain_grows nextOf hnodup hvisits (hstarts start hmem)
    obtain ⟨hR, hmore, hall⟩ := ih (hvisits.walkChain _ start) (hwalk out start hmem hvisits h)
      fun s hs => hsorted s (List.mem_cons_of_mem _ hs)
    refine ⟨hR, hgrows.trans hmore, fun s hs => ?_⟩
    rcases List.mem_cons.mp hs with rfl | hs
    · exact (hmore.map idOf).subset hstart
    · exact hall s hs

/-- The items that are the successor of none. -/
def heads (idOf : T → JobID) (nextOf : T → Option JobID) (items : List T) : List JobID :=
  (items.map idOf).filter fun id => !(links idOf nextOf items).any (·.2 = id)

/-- What is left when the chains have been walked. -/
def remaining (idOf : T → JobID) (items out : List T) : List JobID :=
  (items.map idOf).filter (· ∉ out.map idOf)

theorem order_cases (idOf : T → JobID) (nextOf : T → Option JobID) (items : List T) :
  (items.length ≤ 1 ∧ order idOf nextOf items = items)
    ∨ ∃ out, out = walkChains idOf nextOf items [] (heads idOf nextOf items)
      ∧ (out.length = items.length ∧ order idOf nextOf items = out
        ∨ order idOf nextOf items = walkChains idOf nextOf items out (remaining idOf items out))
  := by
  rw [order]
  split
  · exact Or.inl ⟨‹_›, rfl⟩
  · refine Or.inr ⟨_, rfl, ?_⟩
    dsimp only
    split
    · exact Or.inl ⟨‹_›, rfl⟩
    · exact Or.inr rfl

theorem visits_nil (idOf : T → JobID) (items : List T) :
  Visits idOf items []
  := ⟨List.nil_subset _, List.nodup_nil⟩

theorem walkChains_remaining (nextOf : T → Option JobID) (hnodup : (items.map idOf).Nodup)
    (hvisits : Visits idOf items out) :
  out <+: walkChains idOf nextOf items out (remaining idOf items out)
    ∧ items ⊆ walkChains idOf nextOf items out (remaining idOf items out)
  := by
  obtain ⟨-, hmore, hstarts⟩ := walkChains_rule nextOf hnodup (R := fun _ => True)
    (remaining idOf items out) (fun _ h => List.mem_of_mem_filter h) (fun _ _ _ _ _ => trivial)
    hvisits trivial
  refine ⟨hmore, fun c hc => (hvisits.walkChains _).mem_of_map hnodup hc ?_⟩
  by_cases hseen : idOf c ∈ out.map idOf
  · exact (hmore.map idOf).subset hseen
  · exact hstarts _ (List.mem_filter.mpr ⟨List.mem_map_of_mem hc, by simpa using hseen⟩)

theorem order_perm_of_nodup (hnodup : (items.map idOf).Nodup) :
  (order idOf nextOf items).Perm items
  := by
  rcases order_cases idOf nextOf items with ⟨-, horder⟩ | ⟨out, hout, ⟨hall, horder⟩ | horder⟩
  · rw [horder]
  · exact order_perm (horder ▸ hall)
  · have hvisits : Visits idOf items out := hout ▸ (visits_nil idOf items).walkChains _
    rw [horder]
    apply (hvisits.walkChains _).perm hnodup
    exact Or.inr (walkChains_remaining nextOf hnodup hvisits).2

/-- An item that is not reached from a head is on a cycle. -/
theorem cyclic_of_unvisited (hnodup : (items.map idOf).Nodup)
    (hvisits : Visits idOf items out)
    (hends : Ends idOf nextOf items out) (hheads : ∀ id ∈ heads idOf nextOf items,
      id ∈ out.map idOf)
    (ha : a ∈ items) (hnew : a ∉ out) :
  Relation.TransGen (Follows idOf nextOf items) a a
  := by
  have : Finite { c // c ∈ items ∧ c ∉ out } :=
    (items.finite_toSet.subset fun c hc => hc.1 : Set.Finite { c | c ∈ items ∧ c ∉ out })
  have hcycle := transGen_self (r := fun x y : { c // c ∈ items ∧ c ∉ out } =>
    Follows idOf nextOf items x y) ?_ ?_ ⟨a, ha, hnew⟩
  · exact hcycle.lift Subtype.val fun _ _ h => h
  · rintro x y z hy hz
    apply Subtype.ext
    exact List.inj_on_of_nodup_map hnodup y.2.1 z.2.1 (Option.some.inj (hy.2.2.symm.trans hz.2.2))
  · rintro ⟨y, hy, hynew⟩
    -- It is no head, so it is the successor of an item, which was not visited either.
    have hhead : idOf y ∉ heads idOf nextOf items :=
      fun h => hynew (hvisits.mem_of_map hnodup hy (hheads _ h))
    simp only [heads, List.mem_filter, List.mem_map_of_mem hy, true_and, Bool.not_eq_true',
      Bool.not_eq_false, List.any_eq_true, decide_eq_true_eq] at hhead
    obtain ⟨link, hlink, hid⟩ := hhead
    obtain ⟨x, hx, hid', hnext, -⟩ := mem_links.mp hlink
    refine ⟨⟨x, hx, fun hseen => hynew (hvisits.mem_of_map hnodup hy ?_)⟩, hx, hy, hid ▸ hnext⟩
    exact hid ▸ hends link hlink (hid' ▸ List.mem_map_of_mem hseen)

/-- The only successor of an item comes right after it. -/
theorem order_followed (hnodup : (items.map idOf).Nodup)
    (hzero : ∀ c ∈ items, (idOf c).isZero = false) (hsole : SoleSuccessor idOf nextOf items a b) :
  [a, b] <:+: order idOf nextOf items
  := by
  obtain ⟨ha, hb, hnext⟩ := hsole.follows
  have hlink : (idOf a, idOf b) ∈ links idOf nextOf items :=
    mem_links.mpr ⟨a, ha, rfl, hnext, hzero b hb, List.mem_map_of_mem hb⟩
  rcases order_cases idOf nextOf items with ⟨hshort, -⟩ | ⟨out, hout, hcases⟩
  · -- There are two items, at least.
    match items, hshort with
    | [c], _ =>
      exact absurd ((List.mem_singleton.mp ha).trans (List.mem_singleton.mp hb).symm) hsole.ne
  · have hvisits : Visits idOf items out := hout ▸ (visits_nil idOf items).walkChains _
    have hnothead : ∀ start ∈ heads idOf nextOf items, start ≠ idOf b := by
      rintro start hstart rfl
      have hnone := (List.mem_filter.mp hstart).2
      simp only [Bool.not_eq_true', List.any_eq_false, decide_eq_true_eq] at hnone
      exact hnone _ hlink rfl
    obtain ⟨⟨hends, htogether⟩, -, hheads⟩ :=
      walkChains_rule nextOf hnodup (heads idOf nextOf items)
      (R := fun out => Ends idOf nextOf items out ∧ Adjacent idOf a b out)
      (fun _ h => List.mem_of_mem_filter h)
      (fun seen start hstart hseen h =>
        have hmem := List.mem_of_mem_filter hstart
        ⟨h.1.walkChain hnodup hseen hmem,
          h.2.walkChain hnodup hsole hlink hseen hmem (hnothead start hstart)⟩)
      (visits_nil idOf items) ⟨fun _ _ h => absurd h (by simp), Or.inl ⟨by simp, by simp⟩⟩
    rw [← hout] at hends htogether hheads
    have hinfix : [a, b] <:+: out := by
      refine htogether.resolve_left fun h => hsole.acyclic ?_
      have hcycle := cyclic_of_unvisited hnodup hvisits hends hheads ha
        fun hseen => h.1 (List.mem_map_of_mem hseen)
      obtain ⟨c, hfirst, hrest⟩ := Relation.TransGen.head'_iff.mp hcycle
      rw [← List.inj_on_of_nodup_map hnodup hb hfirst.2.1
        (Option.some.inj (hnext.symm.trans hfirst.2.2))] at hrest
      exact Relation.TransGen.tail' hrest hsole.follows
    rcases hcases with ⟨-, horder⟩ | horder
    · rwa [horder]
    · rw [horder]
      exact hinfix.trans (walkChains_remaining nextOf hnodup hvisits).1.isInfix

/-! ### The order of the input -/

section Perm

variable {items' : List T} (hnodup : (items.map idOf).Nodup) (hperm : items'.Perm items)

include hperm

theorem mem_links_of_perm (link : JobID × JobID) :
  link ∈ links idOf nextOf items' ↔ link ∈ links idOf nextOf items
  := by
  simp only [mem_links, hperm.mem_iff, (hperm.map idOf).mem_iff]

include hnodup

/-- A walk does not depend on the order of the items. -/
theorem walkChain_of_perm (fuel : Nat) (out : List T) (current : JobID) :
  walkChain idOf nextOf items' fuel out current = walkChain idOf nextOf items fuel out current
  := by
  have hnodup' := (hperm.map idOf).nodup_iff.mpr hnodup
  have hitem : itemByID idOf items' = itemByID idOf items := by
    have hfound : ∀ {l : List T}, (l.map idOf).Nodup → ∀ id c,
        itemByID idOf l id = some c ↔ c ∈ l ∧ idOf c = id := by
      intro l hl id c
      exact ⟨itemByID_eq_some, fun ⟨hc, hid⟩ => hid ▸ itemByID_of_mem hl hc⟩
    funext id
    apply Option.ext
    intro c
    rw [hfound hnodup', hfound hnodup, hperm.mem_iff]
  have hnext : nextByID idOf nextOf items' = nextByID idOf nextOf items := by
    funext id
    apply Option.ext
    intro next
    rw [nextByID_eq_some hnodup', nextByID_eq_some hnodup, mem_links_of_perm hperm]
  induction fuel generalizing out current with
  | zero => rfl
  | succ fuel ih => simp only [walkChain, hitem, hnext, ih]

theorem walkChains_of_perm {starts starts' : List JobID} (hstarts : starts'.Perm starts)
    (out : List T) :
  walkChains idOf nextOf items' out starts' = walkChains idOf nextOf items out starts
  := by
  have : Std.Total fun x y : JobID => x.raw ≤ y.raw := ⟨fun x y => String.le_total x.raw y.raw⟩
  have : IsTrans JobID fun x y => x.raw ≤ y.raw := ⟨fun _ _ _ => String.le_trans⟩
  have hsorted : starts'.insertionSort (·.raw ≤ ·.raw) = starts.insertionSort (·.raw ≤ ·.raw) := by
    apply List.Perm.eq_of_pairwise _ (List.pairwise_insertionSort _ _)
      (List.pairwise_insertionSort _ _)
      ((List.perm_insertionSort _ _).trans (hstarts.trans (List.perm_insertionSort _ _).symm))
    rintro ⟨x⟩ ⟨y⟩ - - hle hge
    exact congrArg StringID.mk (String.le_antisymm hle hge)
  have hwalk : walkChain idOf nextOf items' items'.length
      = walkChain idOf nextOf items items.length := by
    funext out current
    rw [hperm.length_eq, walkChain_of_perm hnodup hperm]
  rw [walkChains, walkChains, hsorted, hwalk]

theorem order_of_perm :
  order idOf nextOf items' = order idOf nextOf items
  := by
  have hids := hperm.map idOf
  rw [order, order, hperm.length_eq]
  split
  · rename_i hshort
    match items, hshort with
    | [], _ => exact List.perm_nil.mp hperm
    | [c], _ => exact List.perm_singleton.mp hperm
  · have hany : ∀ id, (links idOf nextOf items').any (·.2 = id)
        = (links idOf nextOf items).any (·.2 = id) := by
      intro id
      rw [Bool.eq_iff_iff]
      simp only [List.any_eq_true, mem_links_of_perm hperm]
    simp only [hany, walkChains_of_perm hnodup hperm (hids.filter _)]

end Perm

/-! ### Linearisation -/

/-- Of items with distinct identifiers, ordering gives each once, in an order that does not depend
on that of the input. Where no identifier is blank, every item off the cycles with a successor of
its own is immediately followed by it. No walk needs more steps than there are items. -/
theorem order_linearises {T : Type} {idOf : T → JobID} {nextOf : T → Option JobID} {items : List T}
    (hnodup : (items.map idOf).Nodup) :
  (order idOf nextOf items).Perm items
    ∧ ((∀ c ∈ items, (idOf c).isZero = false) → ∀ a b, SoleSuccessor idOf nextOf items a b →
      [a, b] <:+: order idOf nextOf items)
    ∧ (∀ items' : List T, items'.Perm items → order idOf nextOf items' = order idOf nextOf items)
    ∧ ∀ out, Visits idOf items out → ∀ current, ∀ n,
      walkChain idOf nextOf items (items.length + n) out current
        = walkChain idOf nextOf items items.length out current
  := by
  refine ⟨order_perm_of_nodup hnodup, fun hzero a b h => order_followed hnodup hzero h,
    fun items' hperm => order_of_perm hnodup hperm, fun out hvisits current n => ?_⟩
  induction n with
  | zero => rfl
  | succ n ih => rw [← ih, ← Nat.add_assoc, walkChain_fuel hnodup hvisits (by omega)]

end Order

/-- Items by their identifier and the successor they name. -/
abbrev LinkedItem := JobID × Option JobID

/-- A tree that grows into a chain, next to a cycle. -/
theorem order_linearises_sample :
  let items : List LinkedItem := [(⟨"b"⟩, some ⟨"c"⟩), (⟨"a"⟩, some ⟨"b"⟩), (⟨"y"⟩, some ⟨"x"⟩),
    (⟨"c"⟩, none), (⟨"x"⟩, some ⟨"y"⟩)]
  (items.map Prod.fst).Nodup ∧ (order Prod.fst Prod.snd items).Perm items
  := by
  intro items
  have hnodup : (items.map Prod.fst).Nodup := by decide
  have h : (order Prod.fst Prod.snd items).Perm items ∧ _ := order_linearises hnodup
  exact ⟨hnodup, h.1⟩

/-- An item with a blank identifier is nobody's successor for the ordering: it is put where it would
be without the link to it. -/
theorem order_unnamed :
  let a : LinkedItem := (⟨"a"⟩, some ⟨""⟩)
  let b : LinkedItem := (⟨""⟩, none)
  ([a, b].map Prod.fst).Nodup ∧ SoleSuccessor Prod.fst Prod.snd [a, b] a b
    ∧ order Prod.fst Prod.snd [a, b] = [b, a] ∧ ¬ [a, b] <:+: order Prod.fst Prod.snd [a, b]
  := by
  intro a b
  have horder : order Prod.fst Prod.snd [a, b] = [b, a] := by decide
  refine ⟨by decide, ⟨⟨by simp, by simp, rfl⟩, ?_, ?_⟩, horder, ?_⟩
  · rintro c ⟨hc, -, hnext⟩
    rcases List.mem_pair.mp hc with rfl | rfl
    · rfl
    · cases hnext
  · intro hcycle
    obtain ⟨c, ⟨-, -, hnext⟩, -⟩ := Relation.TransGen.head'_iff.mp hcycle
    cases hnext
  · rw [horder]
    decide

end Ploy
