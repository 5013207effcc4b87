import Ploy.Foundations.Dictionary
import Ploy.Foundations.JsonText

/-!
# Documents

A document is a JSON value as a program holds it: an object has every key once. Of the members of a
text that have the same key the last counts. When a document is written its members are put in the
order of their keys.

A scalar that is neither a string nor a truth value is kept by the text that is written for it, so
one that cannot be written is kept by a text that is no JSON.
-/

namespace JsonDocument

open JsonText (Value)

/-! ### Reading -/

mutual

/-- The document that a value stands for. The numbers are read by `number`, which may refuse
them. -/
def decode (number : Str → Option Str) : Value → Option Value
  | .null => some .null
  | .bool b => some (.bool b)
  | .number literal => (number literal).map .number
  | .string s => some (.string s)
  | .array l => (decodeElements number l).map .array
  | .object l => (decodeMembers number l []).map .object

def decodeElements (number : Str → Option Str) : List Value → Option (List Value)
  | [] => some []
  | v :: rest =>
    match decode number v, decodeElements number rest with
    | some v, some rest => some (v :: rest)
    | _, _ => none

/-- The members are put into a dictionary, one after the other. -/
def decodeMembers (number : Str → Option Str) :
    List (Str × Value) → List (Str × Value) → Option (List (Str × Value))
  | [], d => some d
  | (key, v) :: rest, d =>
    match decode number v with
    | some v => decodeMembers number rest (Dictionary.set d key v)
    | none => none

end

/-! ### Writing -/

section Sorting

variable {ν : Type}

/-- A member put in its place among others. It takes the place of one with the same key. -/
def insertMember (m : Str × ν) : List (Str × ν) → List (Str × ν)
  | [] => [m]
  | x :: rest =>
    if m.1 = x.1 then m :: rest
    else if m.1 < x.1 then m :: x :: rest
    else x :: insertMember m rest

/-- The members in the order of their keys. The first member of a key counts. -/
def sortMembers : List (Str × ν) → List (Str × ν)
  | [] => []
  | m :: rest => insertMember m (sortMembers rest)

end Sorting

/-- The scalar that is written for one kept by its text. -/
def marshalScalar (literal : Str) : Option Value :=
  match JsonText.parse literal with
  | some (.number literal) => some (.number literal)
  | some (.string s) => some (.string s)
  | _ => none

mutual

/-- The value that is written for a document. -/
def marshal : Value → Option Value
  | .null => some .null
  | .bool b => some (.bool b)
  | .number literal => marshalScalar literal
  | .string s => some (.string s)
  | .array l => (marshalElements l).map .array
  | .object l => (marshalMembers l).map fun l => .object (sortMembers l)

def marshalElements : List Value → Option (List Value)
  | [] => some []
  | v :: rest =>
    match marshal v, marshalElements rest with
    | some v, some rest => some (v :: rest)
    | _, _ => none

def marshalMembers : List (Str × Value) → Option (List (Str × Value))
  | [] => some []
  | (key, v) :: rest =>
    match marshal v, marshalMembers rest with
    | some v, some rest => some ((key, v) :: rest)
    | _, _ => none

end

/-! ### The order of the members -/

section Sorting

variable {ν : Type}

/-- The members stand in the order of their keys, each key once. -/
def Sorted (l : List (Str × ν)) : Prop :=
  l.Pairwise fun a b => a.1 < b.1

variable {m : Str × ν} {l : List (Str × ν)}

/-- Inserting a member adds nothing else. -/
theorem mem_insertMember {x : Str × ν} (h : x ∈ insertMember m l) :
  x = m ∨ x ∈ l
  := by
  induction l with
  | nil => exact Or.inl (List.mem_singleton.mp h)
  | cons y l ih =>
    rw [insertMember] at h
    split at h
    · rcases List.mem_cons.mp h with rfl | h
      · exact Or.inl rfl
      · exact Or.inr (List.mem_cons_of_mem _ h)
    · split at h
      · rcases List.mem_cons.mp h with rfl | h
        · exact Or.inl rfl
        · exact Or.inr h
      · rcases List.mem_cons.mp h with rfl | h
        · exact Or.inr List.mem_cons_self
        · rcases ih h with rfl | h
          · exact Or.inl rfl
          · exact Or.inr (List.mem_cons_of_mem _ h)

/-- Inserting a member keeps the order. -/
theorem Sorted.insertMember (h : Sorted l) (m : Str × ν) :
  Sorted (insertMember m l)
  := by
  induction l with
  | nil => exact List.pairwise_singleton _ _
  | cons x l ih =>
    obtain ⟨hx, hl⟩ := List.pairwise_cons.mp h
    rw [JsonDocument.insertMember]
    split
    · next heq => exact List.pairwise_cons.mpr ⟨fun y hy => heq ▸ hx y hy, hl⟩
    · split
      · next hlt =>
          refine List.pairwise_cons.mpr ⟨?_, h⟩
          intro y hy
          rcases List.mem_cons.mp hy with rfl | hy
          · exact hlt
          · exact lt_trans hlt (hx y hy)
      · next hne hnlt =>
          have hlt : x.1 < m.1 := (lt_trichotomy x.1 m.1).resolve_right fun hor =>
            hor.elim (fun heq => hne heq.symm) hnlt
          refine List.pairwise_cons.mpr ⟨?_, ih hl⟩
          intro y hy
          rcases mem_insertMember hy with rfl | hy
          · exact hlt
          · exact hx y hy

theorem sorted_sortMembers (l : List (Str × ν)) :
  Sorted (sortMembers l)
  := by
  induction l with
  | nil => exact List.Pairwise.nil
  | cons m l ih => exact ih.insertMember m

/-- An inserted member takes the place of the one with its key. -/
theorem get_insertMember (m : Str × ν) (l : List (Str × ν)) (key : Str) :
  Dictionary.get (insertMember m l) key = if m.1 = key then some m.2 else Dictionary.get l key
  := by
  induction l with
  | nil => rfl
  | cons x l ih =>
    rw [insertMember]
    split
    · next heq => rw [Dictionary.get, Dictionary.get, heq]
                  split <;> rfl
    · split
      · rw [Dictionary.get]
      · next hne _ =>
          rw [Dictionary.get, ih, Dictionary.get]
          by_cases hx : x.1 = key
          · rw [if_pos hx, if_neg (fun hm => hne (hm.trans hx.symm)), if_pos hx]
          · rw [if_neg hx, if_neg hx]

theorem get_sortMembers (l : List (Str × ν)) (key : Str) :
  Dictionary.get (sortMembers l) key = Dictionary.get l key
  := by
  induction l with
  | nil => rfl
  | cons m l ih => rw [sortMembers, get_insertMember, ih, Dictionary.get]

theorem Sorted.erase (h : Sorted l) (key : Str) :
  Sorted (Dictionary.erase l key)
  := List.Pairwise.filter _ h

theorem Sorted.get_tail (h : Sorted (m :: l)) :
  Dictionary.get l m.1 = none
  := by
  cases hget : Dictionary.get l m.1 with
  | none => rfl
  | some v =>
    have hlt := (List.pairwise_cons.mp h).1 _ (Dictionary.mem_of_get hget)
    exact absurd hlt (lt_irrefl _)

theorem Sorted.get_of_mem (h : Sorted l) (hm : m ∈ l) :
  Dictionary.get l m.1 = some m.2
  := by
  induction l with
  | nil => cases hm
  | cons x l ih =>
    obtain ⟨hx, hl⟩ := List.pairwise_cons.mp h
    rw [Dictionary.get]
    rcases List.mem_cons.mp hm with rfl | hm
    · exact if_pos rfl
    · have hne : x.1 ≠ m.1 := fun heq => absurd (hx m hm) (heq ▸ lt_irrefl _)
      rw [if_neg hne]
      exact ih hl hm

/-- Sorted objects are equal if they have the same members. -/
theorem Sorted.ext {l' : List (Str × ν)} (h : Sorted l) (h' : Sorted l')
    (heq : ∀ key, Dictionary.get l key = Dictionary.get l' key) :
  l = l'
  := by
  induction l generalizing l' with
  | nil =>
    cases l' with
    | nil => rfl
    | cons x l' =>
      have hx := heq x.1
      rw [Dictionary.get_nil, Dictionary.get, if_pos rfl] at hx
      cases hx
  | cons m l ih =>
    cases l' with
    | nil =>
      have hm := heq m.1
      rw [Dictionary.get_nil, Dictionary.get, if_pos rfl] at hm
      cases hm
    | cons x l' =>
      obtain ⟨hm, hl⟩ := List.pairwise_cons.mp h
      obtain ⟨hx, hl'⟩ := List.pairwise_cons.mp h'
      -- each head is found in the other list, and neither can stand before the other
      have hkey : m.1 = x.1 := by
        by_contra hne
        have hml : Dictionary.get l' m.1 = some m.2 := by
          have := heq m.1
          rw [Dictionary.get, if_pos rfl, Dictionary.get, if_neg (Ne.symm hne)] at this
          exact this.symm
        have hxl : Dictionary.get l x.1 = some x.2 := by
          have := heq x.1
          rw [Dictionary.get, if_neg hne, Dictionary.get, if_pos rfl] at this
          exact this
        have hlt := hx _ (Dictionary.mem_of_get hml)
        have hgt := hm _ (Dictionary.mem_of_get hxl)
        exact absurd (lt_trans hlt hgt) (lt_irrefl _)
      have hvalue : m.2 = x.2 := by
        have := heq m.1
        rw [Dictionary.get, if_pos rfl, Dictionary.get, if_pos hkey.symm] at this
        exact Option.some.inj this
      have htail : l = l' := by
        apply ih hl hl'
        intro key
        by_cases hk : m.1 = key
        · subst hk
          rw [h.get_tail, hkey, h'.get_tail]
        · have := heq key
          rwa [Dictionary.get, if_neg hk, Dictionary.get, if_neg (hkey ▸ hk)] at this
      rw [htail, Prod.ext hkey hvalue]

end Sorting

/-! ### What is written -/

/-- The members of an object are written one by one. -/
theorem get_marshalMembers
    {l l' : List (Str × Value)} (h : marshalMembers l = some l') (key : Str) :
  Dictionary.get l' key = (Dictionary.get l key).bind marshal
  := by
  induction l generalizing l' with
  | nil =>
    cases h
    rfl
  | cons m l ih =>
    obtain ⟨k, v⟩ := m
    rw [marshalMembers] at h
    split at h
    · next w rest hw hrest =>
        cases h
        rw [Dictionary.get, Dictionary.get, ih hrest]
        split
        · rw [Option.bind_some, hw]
        · rfl
    · cases h

theorem marshalMembers_isSome (l : List (Str × Value)) :
  (marshalMembers l).isSome ↔ ∀ m ∈ l, (marshal m.2).isSome
  := by
  induction l with
  | nil => simp [marshalMembers]
  | cons m l ih =>
    obtain ⟨k, v⟩ := m
    rw [marshalMembers, List.forall_mem_cons, ← ih]
    cases marshal v with
    | none => simp
    | some w => cases marshalMembers l <;> simp

theorem marshal_object
    {l : List (Str × Value)} {text : Value} (h : marshal (.object l) = some text) :
  ∃ t, text = .object t ∧ Sorted t ∧
    ∀ key, Dictionary.get t key = (Dictionary.get l key).bind marshal
  := by
  rw [marshal, Option.map_eq_some_iff] at h
  obtain ⟨l', hl', rfl⟩ := h
  refine ⟨sortMembers l', rfl, sorted_sortMembers l', ?_⟩
  intro key
  rw [get_sortMembers, get_marshalMembers hl']

/-! ### Reading what was written -/

section Reading

variable {number : Str → Option Str}

variable {l : List (Str × Value)}

theorem set_of_get_none {key : Str} (h : Dictionary.get l key = none) (v : Value) :
  Dictionary.set l key v = l ++ [(key, v)]
  := by
  induction l with
  | nil => rfl
  | cons m l ih =>
    rw [Dictionary.get] at h
    split at h
    · cases h
    · next hne => rw [Dictionary.set, if_neg hne, ih h, List.cons_append]

theorem get_append
    (l l' : List (Str × Value)) (key : Str) :
  Dictionary.get (l ++ l') key = (Dictionary.get l key).or (Dictionary.get l' key)
  := by
  induction l with
  | nil => rfl
  | cons m l ih =>
    rw [List.cons_append, Dictionary.get, Dictionary.get, ih]
    split <;> rfl

/-- Sorted members that are read as they are written are kept. -/
theorem decodeMembers_of_sorted {d : List (Str × Value)} (hsorted : Sorted l)
    (hfixed : ∀ m ∈ l, decode number m.2 = some m.2) (hnew : ∀ m ∈ l, Dictionary.get d m.1 = none) :
  decodeMembers number l d = some (d ++ l)
  := by
  induction l generalizing d with
  | nil => rw [decodeMembers, List.append_nil]
  | cons m l ih =>
    obtain ⟨key, v⟩ := m
    obtain ⟨hlt, hl⟩ := List.pairwise_cons.mp hsorted
    have hset := set_of_get_none (hnew _ List.mem_cons_self) v
    have hrest : decodeMembers number l (d ++ [(key, v)]) = some (d ++ [(key, v)] ++ l) := by
      apply ih hl (fun m hm => hfixed m (List.mem_cons_of_mem _ hm))
      intro m hm
      have hne : key ≠ m.1 := fun heq => absurd (hlt m hm) (heq ▸ lt_irrefl _)
      rw [get_append, hnew m (List.mem_cons_of_mem _ hm), Option.none_or, Dictionary.get,
        if_neg hne]
      rfl
    rw [decodeMembers, hfixed _ List.mem_cons_self]
    simp only
    rw [hset, hrest, List.append_assoc, List.singleton_append]

theorem decodeElements_of_fixed
    {l : List Value} (h : ∀ v ∈ l, decode number v = some v) :
  decodeElements number l = some l
  := by
  induction l with
  | nil => rfl
  | cons v l ih =>
    rw [decodeElements, h v List.mem_cons_self, ih fun w hw => h w (List.mem_cons_of_mem _ hw)]

theorem mem_sortMembers {m : Str × Value} (h : m ∈ sortMembers l) :
  m ∈ l
  := by
  induction l with
  | nil => exact h
  | cons x l ih =>
    rcases mem_insertMember h with rfl | h
    · exact List.mem_cons_self
    · exact List.mem_cons_of_mem _ (ih h)

/-- What is written for the scalars of a document is read as it is. -/
def ReadsScalars (number : Str → Option Str) : Prop :=
  ∀ literal l, marshalScalar literal = some (.number l) → number l = some l

theorem decode_marshalScalar
    (hscalars : ReadsScalars number) {literal : Str} {text : Value}
    (h : marshalScalar literal = some text) :
  decode number text = some text
  := by
  have hnumber := hscalars literal
  rw [h] at hnumber
  rw [marshalScalar] at h
  split at h
  · cases h
    rw [decode, hnumber _ rfl]
    rfl
  · cases h
    rfl
  · cases h

mutual

theorem decode_marshal
    (hscalars : ReadsScalars number) :
    ∀ {v text : Value}, marshal v = some text → decode number text = some text
  | .null, _, h => by
      cases h
      rfl
  | .bool b, _, h => by
      cases h
      rfl
  | .number literal, _, h => by
      rw [marshal] at h
      exact decode_marshalScalar hscalars h
  | .string s, _, h => by
      cases h
      rfl
  | .array l, _, h => by
      rw [marshal, Option.map_eq_some_iff] at h
      obtain ⟨l', hl', rfl⟩ := h
      rw [decode, decodeElements_of_fixed (decode_marshalElements hscalars hl')]
      rfl
  | .object l, _, h => by
      rw [marshal, Option.map_eq_some_iff] at h
      obtain ⟨l', hl', rfl⟩ := h
      have hfixed : ∀ m ∈ sortMembers l', decode number m.2 = some m.2 := fun m hm =>
        decode_marshalMembers hscalars hl' m (mem_sortMembers hm)
      have hread : decodeMembers number (sortMembers l') [] = some ([] ++ sortMembers l') :=
        decodeMembers_of_sorted (sorted_sortMembers l') hfixed fun _ _ => rfl
      rw [decode, hread]
      rfl

theorem decode_marshalElements
    (hscalars : ReadsScalars number) :
    ∀ {l l' : List Value}, marshalElements l = some l' → ∀ v ∈ l', decode number v = some v
  | [], _, h => by
      cases h
      intro v hv
      cases hv
  | w :: l, _, h => by
      rw [marshalElements] at h
      split at h
      · next w' rest hw hrest =>
          cases h
          intro v hv
          rcases List.mem_cons.mp hv with rfl | hv
          · exact decode_marshal hscalars hw
          · exact decode_marshalElements hscalars hrest v hv
      · cases h

theorem decode_marshalMembers
    (hscalars : ReadsScalars number) :
    ∀ {l l' : List (Str × Value)}, marshalMembers l = some l' →
      ∀ m ∈ l', decode number m.2 = some m.2
  | [], _, h => by
      cases h
      intro m hm
      cases hm
  | (key, w) :: l, _, h => by
      rw [marshalMembers] at h
      split at h
      · next w' rest hw hrest =>
          cases h
          intro m hm
          rcases List.mem_cons.mp hm with rfl | hm
          · exact decode_marshal hscalars hw
          · exact decode_marshalMembers hscalars hrest m hm
      · cases h

end

theorem readsScalars_some :
  ReadsScalars some
  := fun _ _ _ => rfl

end Reading

/-! ### Documents that differ in some members -/

/-- Objects with the same keys in the same places, whose values are the same or related. -/
def Alike (R : Str → Value → Value → Prop) (l l' : List (Str × Value)) : Prop :=
  List.Forall₂ (fun m m' => m'.1 = m.1 ∧ (m'.2 = m.2 ∨ R m.1 m.2 m'.2)) l l'

namespace Alike

variable {R R' : Str → Value → Value → Prop} {l l' l'' : List (Str × Value)}

theorem refl (l : List (Str × Value)) :
  Alike R l l
  := List.forall₂_same.mpr fun _ _ => ⟨rfl, Or.inl rfl⟩

/-- Likeness of objects is transitive if that of their members is. -/
theorem trans
    (hR : ∀ key u v w, R key u v → R key v w → R key u w) (h : Alike R l l') (h' : Alike R l' l'') :
  Alike R l l''
  := by
  induction h generalizing l'' with
  | nil =>
    cases h'
    exact .nil
  | @cons a b l l' hab hl ih =>
    cases h' with
    | @cons _ c _ l'' hbc hl' =>
      refine .cons ⟨hbc.1.trans hab.1, ?_⟩ (ih hl')
      obtain ⟨hkey, hab⟩ := hab
      obtain ⟨hkey', hbc⟩ := hbc
      rcases hab with hab | hab
      · rcases hbc with hbc | hbc
        · exact Or.inl (hbc.trans hab)
        · exact Or.inr (hab ▸ hkey ▸ hbc)
      · rcases hbc with hbc | hbc
        · exact Or.inr (hbc.symm ▸ hab)
        · exact Or.inr (hR _ _ _ _ hab (hkey ▸ hbc))

theorem set
    {key : Str} {v w : Value} (hget : Dictionary.get l key = some v) (h : R key v w) :
  Alike R l (Dictionary.set l key w)
  := by
  induction l with
  | nil => cases hget
  | cons m l ih =>
    rw [Dictionary.get] at hget
    rw [Dictionary.set]
    split at hget
    · next hkey =>
        cases hget
        rw [if_pos hkey]
        exact .cons ⟨rfl, Or.inr (hkey.symm ▸ h)⟩ (refl l)
    · next hkey =>
        rw [if_neg hkey]
        exact .cons ⟨rfl, Or.inl rfl⟩ (ih hget)

theorem get (h : Alike R l l') (key : Str) :
  Dictionary.get l' key = Dictionary.get l key ∨
    ∃ v w, Dictionary.get l key = some v ∧ Dictionary.get l' key = some w ∧ R key v w
  := by
  induction h with
  | nil => exact Or.inl rfl
  | @cons a b l l' hab hl ih =>
    obtain ⟨hkey, hab⟩ := hab
    rw [Dictionary.get, Dictionary.get, hkey]
    by_cases hk : a.1 = key
    · rw [if_pos hk, if_pos hk]
      rcases hab with hab | hab
      · exact Or.inl (congrArg some hab)
      · exact Or.inr ⟨a.2, b.2, rfl, rfl, hk ▸ hab⟩
    · rw [if_neg hk, if_neg hk]
      exact ih

/-- Related values are both written or both not, and what is written is related again. -/
def Kept (R R' : Str → Value → Value → Prop) : Prop :=
  ∀ key v w, R key v w →
    (marshal v = none ∧ marshal w = none) ∨
      ∃ v' w', marshal v = some v' ∧ marshal w = some w' ∧ R' key v' w'

/-- Objects that are alike are both refused, or written alike. -/
theorem marshalMembers
    (hR : Kept R R') (h : Alike R l l') :
  (JsonDocument.marshalMembers l = none ∧ JsonDocument.marshalMembers l' = none) ∨
    ∃ t t', JsonDocument.marshalMembers l = some t ∧ JsonDocument.marshalMembers l' = some t' ∧
      Alike R' t t'
  := by
  induction h with
  | nil => exact Or.inr ⟨[], [], rfl, rfl, .nil⟩
  | @cons a b l l' hab hl ih =>
    obtain ⟨key, v⟩ := a
    obtain ⟨key', w⟩ := b
    obtain ⟨hkey, hab⟩ := hab
    cases hkey
    have hvalues : (marshal v = none ∧ marshal w = none) ∨
        ∃ v' w', marshal v = some v' ∧ marshal w = some w' ∧ (w' = v' ∨ R' key v' w') := by
      rcases hab with hab | hab
      · cases hab
        cases hv : marshal v with
        | none => exact Or.inl ⟨rfl, rfl⟩
        | some v' => exact Or.inr ⟨v', v', rfl, rfl, Or.inl rfl⟩
      · rcases hR _ _ _ hab with hnone | ⟨v', w', hv, hw, h⟩
        · exact Or.inl hnone
        · exact Or.inr ⟨v', w', hv, hw, Or.inr h⟩
    rw [JsonDocument.marshalMembers, JsonDocument.marshalMembers]
    rcases hvalues with ⟨hv, hw⟩ | ⟨v', w', hv, hw, hvalue⟩
    · rw [hv, hw]
      exact Or.inl ⟨rfl, rfl⟩
    · rw [hv, hw]
      rcases ih with ⟨hl, hl'⟩ | ⟨t, t', hl, hl', ht⟩
      · rw [hl, hl']
        exact Or.inl ⟨rfl, rfl⟩
      · rw [hl, hl']
        exact Or.inr ⟨_, _, rfl, rfl, .cons ⟨rfl, hvalue⟩ ht⟩

theorem marshal
    (hR : Kept R R') (h : Alike R l l') :
  (JsonDocument.marshal (.object l) = none ∧ JsonDocument.marshal (.object l') = none) ∨
    ∃ t t', JsonDocument.marshal (.object l) = some (.object t) ∧
      JsonDocument.marshal (.object l') = some (.object t') ∧
      ∀ key, Dictionary.get t' key = Dictionary.get t key ∨
        ∃ v w, Dictionary.get t key = some v ∧ Dictionary.get t' key = some w ∧ R' key v w
  := by
  rw [JsonDocument.marshal, JsonDocument.marshal]
  rcases marshalMembers hR h with ⟨hl, hl'⟩ | ⟨t, t', hl, hl', ht⟩
  · rw [hl, hl']
    exact Or.inl ⟨rfl, rfl⟩
  · rw [hl, hl']
    refine Or.inr ⟨_, _, rfl, rfl, ?_⟩
    intro key
    rw [get_sortMembers, get_sortMembers]
    exact ht.get key

end Alike

end JsonDocument
