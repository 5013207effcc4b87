import Ploy.Foundations.Text

/-!
# Slash-separated paths

The lexical processing of paths: a path is split at its slashes, empty and dot elements are
dropped and every dot-dot element takes away the element before it.
-/

namespace SlashPath

instance lawfulBEq : LawfulBEq Str :=
  inferInstance

/-- The element that names a directory itself. -/
def dot : Str := ['.']

/-- The element that names the directory above. -/
def dotDot : Str := ['.', '.']

/-- A path is absolute when it begins with a slash. -/
def isAbs (p : Str) : Bool :=
  p.head? = some '/'

/-- The elements of a path that name something. -/
def elements (p : Str) : List Str :=
  (p.splitOn '/').filter fun e => e ≠ [] ∧ e ≠ dot

/-- One element taken after those before it, the innermost first. Nothing is above the root. -/
def push (rooted : Bool) (before : List Str) (e : Str) : List Str :=
  if e = dotDot then
    match before with
    | [] => if rooted then [] else [e]
    | d :: above => if d = dotDot then e :: before else above
  else e :: before

/-- The elements left when every dot-dot has taken away the element before it. -/
def resolve (rooted : Bool) (es : List Str) : List Str :=
  (es.foldl (push rooted) []).reverse

/-- Elements joined by slashes. -/
def join (es : List Str) : Str :=
  ['/'].intercalate es

/-- The elements of the shortest path that names the same thing. -/
def cleaned (p : Str) : List Str :=
  resolve (isAbs p) (elements p)

/-- The shortest path that names the same thing. -/
def clean (p : Str) : Str :=
  if isAbs p then '/' :: join (cleaned p)
  else if cleaned p = [] then dot
  else join (cleaned p)

/-- A path taken from a directory. -/
def joined (dir p : Str) : Str :=
  if dir = [] then (if p = [] then [] else clean p)
  else if p = [] then clean dir
  else clean (dir ++ '/' :: p)

/-- The directory of a path: all but its last element. -/
def dirName (p : Str) : Str :=
  clean (p.reverse.dropWhile (· ≠ '/')).reverse

/-- The elements of a clean path. The root has none. -/
def cleanElements (p : Str) : List Str :=
  if trimRoot p = [] then [] else (trimRoot p).splitOn '/'
where
  /-- A path without the slash before it. -/
  trimRoot (p : Str) : Str :=
    if isAbs p then p.drop 1 else p

/-- Two lists without the elements they both begin with. -/
def dropCommon : List Str → List Str → List Str × List Str
  | b :: bs, t :: ts => if b = t then dropCommon bs ts else (b :: bs, t :: ts)
  | bs, ts => (bs, ts)

/-- A path to a target that is taken from a base, if there is one that does not go by way of names
that are not known. -/
def rel (base target : Str) : Option Str :=
  if clean target = clean base then some dot
  else
    let base := if clean base = dot then [] else clean base
    if isAbs base ≠ isAbs (clean target) then none
    else
      match dropCommon (cleanElements base) (cleanElements (clean target)) with
      | ([], ts) => some (join ts)
      | (b :: bs, ts) =>
        if b = dotDot then none
        else some (join (List.replicate (bs.length + 1) dotDot ++ ts))

/-- An element that names something in a directory. -/
structure Proper (e : Str) : Prop where
  ne_nil : e ≠ []
  ne_dot : e ≠ dot
  ne_dotDot : e ≠ dotDot
  no_slash : '/' ∉ e

instance (e : Str) : Decidable (Proper e) :=
  decidable_of_iff (e ≠ [] ∧ e ≠ dot ∧ e ≠ dotDot ∧ '/' ∉ e)
    ⟨fun h => ⟨h.1, h.2.1, h.2.2.1, h.2.2.2⟩, fun h => ⟨h.1, h.2, h.3, h.4⟩⟩

variable {es : List Str}

theorem elements_join
    (h : ∀ e ∈ es, Proper e) (hne : es ≠ []) :
  elements (join es) = es
  := by
  rw [elements, join, List.splitOn_intercalate '/' (fun e he => (h e he).no_slash) hne]
  apply List.filter_eq_self.mpr
  intro e he
  simp [(h e he).ne_nil, (h e he).ne_dot]

variable {rooted : Bool} {before : List Str}

theorem push_of_ne
    {e : Str} (h : e ≠ dotDot) :
  push rooted before e = e :: before
  := by
  unfold push
  rw [if_neg h]

theorem foldl_push_of_ne
    {es before : List Str} (h : ∀ e ∈ es, e ≠ dotDot) :
  es.foldl (push rooted) before = es.reverse ++ before
  := by
  induction es generalizing before with
  | nil => rfl
  | cons e es ih =>
    rw [List.foldl_cons, push_of_ne (h e List.mem_cons_self),
      ih (fun e he => h e (List.mem_cons_of_mem _ he))]
    simp

theorem resolve_of_ne
    (h : ∀ e ∈ es, e ≠ dotDot) :
  resolve rooted es = es
  := by
  rw [resolve, foldl_push_of_ne h]
  simp

theorem join_cons (e : Str) (es : List Str) :
  join (e :: es) = if es = [] then e else e ++ '/' :: join es
  := by
  cases es with
  | nil | cons => simp [join, List.intercalate]

theorem isAbs_join
    (h : ∀ e ∈ es, Proper e) :
  isAbs (join es) = false
  := by
  cases es with
  | nil => rfl
  | cons e es =>
    have hp := h e List.mem_cons_self
    cases e with
    | nil => exact absurd rfl hp.ne_nil
    | cons c e =>
      have hc : c ≠ '/' := fun hc => hp.no_slash (hc ▸ List.mem_cons_self)
      rw [join_cons]
      split <;> simpa [isAbs] using hc

theorem cleaned_join
    (h : ∀ e ∈ es, Proper e) (hne : es ≠ []) :
  cleaned (join es) = es
  := by
  rw [cleaned, elements_join h hne, resolve_of_ne (fun e he => (h e he).ne_dotDot)]

variable {p e : Str}

/-- The parts of a text do not have the separator. -/
theorem not_mem_of_mem_splitOn
    {x : Char} (he : e ∈ p.splitOn x) :
  x ∉ e
  := by
  induction p generalizing e with
  | nil =>
    rw [List.splitOn_nil, List.mem_singleton] at he
    rw [he]
    exact List.not_mem_nil
  | cons c p ih =>
    rw [List.splitOn_cons_eq_if_modifyHead] at he
    split at he
    · next hc =>
        rcases List.mem_cons.mp he with rfl | he
        · exact List.not_mem_nil
        · exact ih he
    · next hc =>
        cases hsplit : p.splitOn x with
        | nil => exact absurd hsplit (List.splitOn_ne_nil _ _)
        | cons d ds =>
          rw [hsplit] at he ih
          rcases List.mem_cons.mp he with rfl | he
          · rw [List.mem_cons, not_or]
            have hxc : ¬ c = x := by simpa using hc
            exact ⟨fun h => hxc h.symm, ih List.mem_cons_self⟩
          · exact ih (List.mem_cons_of_mem _ he)

theorem splitOn_slash_cons (p : Str) :
  ('/' :: p).splitOn '/' = [] :: p.splitOn '/'
  := by
  rw [List.splitOn_cons_eq_if_modifyHead]
  simp

theorem elements_slash_cons (p : Str) :
  elements ('/' :: p) = elements p
  := by
  rw [elements, splitOn_slash_cons, List.filter_cons_of_neg (by simp)]
  rfl

variable {p : Str}

theorem clean_slash_join
    (h : ∀ e ∈ es, Proper e) (hne : es ≠ []) :
  clean ('/' :: join es) = '/' :: join es
  := by
  have habs : isAbs ('/' :: join es) = true := rfl
  rw [clean, if_pos habs, cleaned, elements_slash_cons, elements_join h hne,
    resolve_of_ne (fun e he => (h e he).ne_dotDot)]

theorem clean_join
    (h : ∀ e ∈ es, Proper e) (hne : es ≠ []) :
  clean (join es) = join es
  := by
  rw [clean, isAbs_join h, cleaned_join h hne, if_neg (by simp), if_neg hne]

theorem splitOn_join
    (h : ∀ e ∈ es, Proper e) (hne : es ≠ []) :
  (join es).splitOn '/' = es
  := List.splitOn_intercalate '/' (fun e he => (h e he).no_slash) hne

theorem dotDot_not_mem_splitOn_join
    (h : ∀ e ∈ es, Proper e) :
  dotDot ∉ (join es).splitOn '/'
  := by
  by_cases hne : es = []
  · rw [hne]
    decide
  · rw [splitOn_join h hne]
    intro hmem
    exact (h _ hmem).ne_dotDot rfl

theorem mem_join
    {c : Char} (h : c ∈ join es) :
  c = '/' ∨ ∃ e ∈ es, c ∈ e
  := by
  induction es with
  | nil => cases h
  | cons e es ih =>
    rw [join_cons] at h
    split at h
    · exact Or.inr ⟨e, List.mem_cons_self, h⟩
    · rcases List.mem_append.mp h with h | h
      · exact Or.inr ⟨e, List.mem_cons_self, h⟩
      · rcases List.mem_cons.mp h with h | h
        · exact Or.inl h
        · rcases ih h with h | ⟨d, hd, hc⟩
          · exact Or.inl h
          · exact Or.inr ⟨d, List.mem_cons_of_mem _ hd, hc⟩

/-- The parts of a text have only its characters. -/
theorem mem_of_mem_splitOn
    {x c : Char} (he : e ∈ p.splitOn x) (hc : c ∈ e) :
  c ∈ p
  := by
  have hwhole : [x].intercalate (p.splitOn x) = p := List.intercalate_splitOn x
  have hsub : e.Sublist ([x].intercalate (p.splitOn x)) := by
    rw [List.intercalate]
    apply List.sublist_flatten_of_mem
    generalize p.splitOn x = pieces at he
    induction pieces with
    | nil => cases he
    | cons d ds ih =>
      cases ds with
      | nil => exact he
      | cons d' ds =>
        rcases List.mem_cons.mp he with rfl | he
        · exact List.mem_cons_self
        · exact List.mem_cons_of_mem _ (List.mem_cons_of_mem _ (ih he))
  have hmem := hsub.subset hc
  rwa [hwhole] at hmem

/-- Names, the innermost first, that are taken below a number of parent directories. -/
def Climbs (before : List Str) : Prop :=
  ∃ names k, before = names ++ List.replicate k dotDot ∧ ∀ e ∈ names, e ≠ dotDot

/-- The elements that climb stay in front. -/
theorem climbs_push
    (h : Climbs before) (e : Str) :
  Climbs (push rooted before e)
  := by
  obtain ⟨names, k, rfl, hnames⟩ := h
  unfold push
  split
  · next he =>
      cases names with
      | nil =>
        cases k with
        | zero =>
          cases rooted with
          | true => exact ⟨[], 0, rfl, hnames⟩
          | false => exact ⟨[], 1, by rw [he]; rfl, hnames⟩
        | succ k => exact ⟨[], k + 2, by rw [he]; rfl, hnames⟩
      | cons name names =>
        have hname := hnames name List.mem_cons_self
        refine ⟨names, k, ?_, fun n hn => hnames n (List.mem_cons_of_mem _ hn)⟩
        exact if_neg hname
  · next he =>
      refine ⟨e :: names, k, rfl, ?_⟩
      intro n hn
      rcases List.mem_cons.mp hn with rfl | hn
      · exact he
      · exact hnames n hn

theorem climbs_foldl
    (h : Climbs before) (es : List Str) :
  Climbs (es.foldl (push rooted) before)
  := by
  induction es generalizing before with
  | nil => exact h
  | cons e es ih => exact ih (climbs_push h e)

/-- Pushing an element adds nothing else. -/
theorem mem_push
    {e n : Str} (h : n ∈ push rooted before e) :
  n ∈ before ∨ n = e
  := by
  unfold push at h
  split at h
  · cases before with
    | nil =>
      cases rooted with
      | true => cases h
      | false => exact Or.inr (List.mem_singleton.mp h)
    | cons d above =>
      dsimp only at h
      split at h
      · rcases List.mem_cons.mp h with h | h
        · exact Or.inr h
        · exact Or.inl h
      · exact Or.inl (List.mem_cons_of_mem _ h)
  · rcases List.mem_cons.mp h with h | h
    · exact Or.inr h
    · exact Or.inl h

theorem mem_foldl_push
    {es before : List Str} {n : Str}
    (h : n ∈ es.foldl (push rooted) before) :
  n ∈ before ∨ n ∈ es
  := by
  induction es generalizing before with
  | nil => exact Or.inl h
  | cons e es ih =>
    rcases ih h with h | h
    · rcases mem_push h with h | rfl
      · exact Or.inl h
      · exact Or.inr List.mem_cons_self
    · exact Or.inr (List.mem_cons_of_mem _ h)

theorem mem_elements_of_mem_cleaned (h : e ∈ cleaned p) :
  e ∈ elements p
  := by
  rcases mem_foldl_push (List.mem_reverse.mp h) with hnil | hkept
  · cases hnil
  · exact hkept

/-- A clean path that does not climb has proper elements only. -/
theorem proper_of_mem_cleaned
    (h : (cleaned p).head? ≠ some dotDot) :
  ∀ e ∈ cleaned p, Proper e
  := by
  intro e he
  obtain ⟨hmem, hnamed⟩ := List.mem_filter.mp (mem_elements_of_mem_cleaned he)
  have hnamed : e ≠ [] ∧ e ≠ dot := of_decide_eq_true hnamed
  refine ⟨hnamed.1, hnamed.2, ?_, not_mem_of_mem_splitOn hmem⟩
  -- a dot-dot would stand first
  have hstart : Climbs [] := ⟨[], 0, rfl, fun _ hn => nomatch hn⟩
  have hend : Climbs ((elements p).foldl (push (isAbs p)) []) := climbs_foldl hstart _
  obtain ⟨names, k, hclimbs, hnames⟩ := hend
  have hcleaned : cleaned p = List.replicate k dotDot ++ names.reverse := by
    rw [cleaned, resolve, hclimbs, List.reverse_append, List.reverse_replicate]
  rw [hcleaned] at h he
  cases k with
  | zero =>
    rw [List.replicate_zero, List.nil_append, List.mem_reverse] at he
    exact hnames e he
  | succ k => exact absurd rfl h

/-! ### Absolute paths -/

theorem dotDot_notMem_push
    (h : dotDot ∉ before) (e : Str) :
  dotDot ∉ push true before e
  := by
  unfold push
  split
  · cases before with
    | nil => exact List.not_mem_nil
    | cons d above =>
      rw [List.mem_cons, not_or] at h
      dsimp only
      rw [if_neg (Ne.symm h.1)]
      exact h.2
  · next he =>
      rw [List.mem_cons, not_or]
      exact ⟨Ne.symm he, h⟩

theorem proper_of_isAbs
    (habs : isAbs p = true) :
  ∀ e ∈ cleaned p, Proper e
  := by
  have hfold : ∀ es before : List Str, dotDot ∉ before →
      dotDot ∉ es.foldl (push true) before := by
    intro es
    induction es with
    | nil => exact fun before h => h
    | cons e es ih => exact fun before h => ih _ (dotDot_notMem_push h e)
  apply proper_of_mem_cleaned
  intro hhead
  have hmem : dotDot ∈ cleaned p := List.mem_of_mem_head? hhead
  rw [cleaned, habs, resolve, List.mem_reverse] at hmem
  exact hfold (elements p) [] List.not_mem_nil hmem

theorem elements_slash_join
    (h : ∀ e ∈ es, Proper e) :
  elements ('/' :: join es) = es
  := by
  rw [elements_slash_cons]
  by_cases hne : es = []
  · rw [hne]
    rfl
  · exact elements_join h hne

theorem eq_slash_join
    (habs : isAbs p = true) (hclean : clean p = p) :
  p = '/' :: join (elements p) ∧ ∀ e ∈ elements p, Proper e
  := by
  have hproper := proper_of_isAbs habs
  rw [clean, if_pos habs] at hclean
  have helements : elements p = cleaned p := by
    rw [← hclean, elements_slash_join hproper, hclean]
  rw [helements]
  exact ⟨hclean.symm, hproper⟩

theorem join_append
    {es fs : List Str} (hes : es ≠ []) (hfs : fs ≠ []) :
  join (es ++ fs) = join es ++ '/' :: join fs
  := by
  induction es with
  | nil => exact absurd rfl hes
  | cons e es ih =>
    cases es with
    | nil =>
      rw [List.cons_append, List.nil_append, join_cons, if_neg hfs, join_cons e [], if_pos rfl]
    | cons d es =>
      rw [List.cons_append, join_cons, if_neg (by simp), ih (by simp), join_cons e (d :: es),
        if_neg (by simp), List.append_assoc]
      rfl

/-- A clean path whose elements come first is the same path or a directory of it. -/
theorem prefix_of_elements_prefix
    {p q : Str} (hp : isAbs p = true) (hpclean : clean p = p) (hroot : p ≠ ['/'])
    (hq : isAbs q = true) (hqclean : clean q = q) (h : elements p <+: elements q) :
  p = q ∨ p ++ ['/'] <+: q
  := by
  obtain ⟨hpjoin, -⟩ := eq_slash_join hp hpclean
  obtain ⟨hqjoin, -⟩ := eq_slash_join hq hqclean
  have hne : elements p ≠ [] := by
    intro hnil
    rw [hnil] at hpjoin
    exact hroot hpjoin
  obtain ⟨rest, hrest⟩ := h
  by_cases hnil : rest = []
  · left
    rw [hpjoin, hqjoin, ← hrest, hnil, List.append_nil]
  · right
    refine ⟨join rest, ?_⟩
    rw [hqjoin, ← hrest, join_append hne hnil]
    nth_rewrite 1 [hpjoin]
    simp

theorem isAbs_clean
    (habs : isAbs p = true) :
  isAbs (clean p) = true
  := by
  rw [clean, if_pos habs]
  rfl

/-- A relative path stays relative when it is cleaned. -/
theorem isAbs_clean_of_not (hrelative : isAbs p = false) :
  isAbs (clean p) = false
  := by
  rw [clean, hrelative, if_neg Bool.false_ne_true]
  split
  · rfl
  · cases hcleaned : cleaned p with
    | nil => rfl
    | cons e es =>
      have hmem := mem_elements_of_mem_cleaned (hcleaned ▸ List.mem_cons_self : e ∈ cleaned p)
      obtain ⟨hsplit, hnamed⟩ := List.mem_filter.mp hmem
      have hslash := not_mem_of_mem_splitOn hsplit
      have hnamed : e ≠ [] ∧ e ≠ dot := of_decide_eq_true hnamed
      obtain ⟨c, rest, rfl⟩ := List.exists_cons_of_ne_nil hnamed.1
      have hc : c ≠ '/' := fun heq => hslash (heq ▸ List.mem_cons_self)
      rw [join_cons]
      split <;> simpa [isAbs] using hc

/-- A relative path that does not lead upwards is, cleaned, a path of proper elements. -/
theorem clean_eq_join (habs : isAbs (clean p) = false) (hdot : clean p ≠ dot)
    (hsafe : dotDot ∉ (clean p).splitOn '/') :
  clean p = join (cleaned p) ∧ cleaned p ≠ [] ∧ ∀ e ∈ cleaned p, Proper e
  := by
  have hrelative : isAbs p = false := by
    by_contra h
    rw [isAbs_clean (by simpa using h)] at habs
    cases habs
  have hne : cleaned p ≠ [] := by
    intro hnil
    apply hdot
    rw [clean, hrelative, if_neg Bool.false_ne_true, if_pos hnil]
  have hjoin : clean p = join (cleaned p) := by
    rw [clean, hrelative, if_neg Bool.false_ne_true, if_neg hne]
  refine ⟨hjoin, hne, proper_of_mem_cleaned ?_⟩
  intro hhead
  have hslash : ∀ e ∈ cleaned p, '/' ∉ e := by
    intro e he
    exact not_mem_of_mem_splitOn (List.mem_filter.mp (mem_elements_of_mem_cleaned he)).1
  rw [hjoin, join, List.splitOn_intercalate '/' hslash hne] at hsafe
  exact hsafe (List.mem_of_head? hhead)

/-- What stands in a clean path, slashes and dots apart, stands in the path. -/
theorem mem_of_mem_clean {c : Char} (h : c ∈ clean p) (hslash : c ≠ '/') (hdot : c ≠ '.') :
  c ∈ p
  := by
  have hjoin : c ∈ join (cleaned p) := by
    rw [clean] at h
    split at h
    · exact (List.mem_cons.mp h).resolve_left hslash
    · split at h
      · exact absurd (List.mem_singleton.mp h) hdot
      · exact h
  rcases mem_join hjoin with heq | ⟨e, he, hc⟩
  · exact absurd heq hslash
  · exact mem_of_mem_splitOn (List.mem_filter.mp (mem_elements_of_mem_cleaned he)).1 hc

theorem clean_clean
    (habs : isAbs p = true) :
  clean (clean p) = clean p
  := by
  have hclean : clean p = '/' :: join (cleaned p) := if_pos habs
  rw [hclean]
  by_cases hnil : cleaned p = []
  · rw [hnil]
    decide
  · exact clean_slash_join (proper_of_isAbs habs) hnil

theorem joined_of_isAbs
    {dir : Str} (habs : isAbs dir = true) (p : Str) :
  isAbs (joined dir p) = true ∧ clean (joined dir p) = joined dir p
  := by
  have hne : dir ≠ [] := by
    rintro rfl
    cases habs
  have hlonger : isAbs (dir ++ '/' :: p) = true := by
    cases dir with
    | nil => exact absurd rfl hne
    | cons c dir => exact habs
  rw [joined, if_neg hne]
  split
  · exact ⟨isAbs_clean habs, clean_clean habs⟩
  · exact ⟨isAbs_clean hlonger, clean_clean hlonger⟩

theorem isAbs_dirName
    (habs : isAbs p = true) :
  isAbs (dirName p) = true
  := by
  apply isAbs_clean
  cases p with
  | nil => cases habs
  | cons c rest =>
    obtain rfl : c = '/' := by simpa [isAbs] using habs
    rw [List.reverse_cons, List.dropWhile_append]
    split
    · rfl
    · rw [List.reverse_append]
      rfl

/-- A clean absolute path has its elements as they are written. -/
theorem cleanElements_eq
    (habs : isAbs p = true) (hclean : clean p = p) :
  cleanElements p = elements p
  := by
  obtain ⟨hjoin, hproper⟩ := eq_slash_join habs hclean
  have hroot : cleanElements.trimRoot p = join (elements p) := by
    rw [cleanElements.trimRoot, if_pos habs, hjoin, elements_slash_join hproper]
    rfl
  rw [cleanElements, hroot]
  by_cases hnil : elements p = []
  · rw [hnil]
    rfl
  · have hne : join (elements p) ≠ [] := by
      obtain ⟨e, es, hes⟩ := List.exists_cons_of_ne_nil hnil
      have he := (hproper e (by rw [hes]; exact List.mem_cons_self)).ne_nil
      rw [hes, join_cons]
      split
      · exact he
      · simp
    rw [if_neg hne, splitOn_join hproper hnil]

theorem dropCommon_append (es rest : List Str) :
  dropCommon es (es ++ rest) = ([], rest)
  := by
  induction es with
  | nil => cases rest <;> rfl
  | cons e es ih =>
    rw [List.cons_append, dropCommon, if_pos rfl]
    exact ih

theorem prefix_of_dropCommon
    {es fs ts : List Str} (h : dropCommon es fs = ([], ts)) :
  fs = es ++ ts
  := by
  induction es generalizing fs with
  | nil => cases fs <;> cases h <;> rfl
  | cons e es ih =>
    cases fs with
    | nil => cases h
    | cons f fs =>
      rw [dropCommon] at h
      split at h
      · next heq => rw [heq, List.cons_append, ih h]
      · cases h

theorem dotDot_prefix_join
    {e : Str} (he : Proper e) (es : List Str) :
  dotDot <+: join (e :: es) ↔ dotDot <+: e
  := by
  have hlong : ∀ rest : Str, dotDot <+: e ++ '/' :: rest ↔ dotDot <+: e := by
    intro rest
    match e, he with
    | [], he => exact absurd rfl he.ne_nil
    | [c], he =>
      have hdot : c ≠ '.' := fun h => he.ne_dot (by rw [h]; rfl)
      simp [dotDot, Ne.symm hdot]
    | c :: d :: e, he => simp [dotDot]
  rw [join_cons]
  split
  · exact Iff.rfl
  · exact hlong _

/-- A relative path does not climb exactly if the target is below the base. -/
theorem rel_below_iff
    {p q : Str} (hp : isAbs p = true) (hpclean : clean p = p) (hq : isAbs q = true)
    (hqclean : clean q = q) :
  (∃ r, rel p q = some r ∧ ¬ dotDot <+: r) ↔
    ∃ rest, elements q = elements p ++ rest ∧ ∀ e ∈ rest.head?, ¬ dotDot <+: e
  := by
  obtain ⟨hpjoin, hpproper⟩ := eq_slash_join hp hpclean
  obtain ⟨hqjoin, hqproper⟩ := eq_slash_join hq hqclean
  have hdot : p ≠ dot := by
    rintro rfl
    cases hp
  rw [rel, hpclean, hqclean]
  by_cases hsame : q = p
  · subst hsame
    simp only [if_true, Option.some.injEq, exists_eq_left']
    constructor
    · intro _
      exact ⟨[], (List.append_nil _).symm, fun e he => nomatch he⟩
    · intro _
      decide
  · rw [if_neg hsame]
    simp only [if_neg hdot, hp, hq, ne_eq, not_true_eq_false, if_false, cleanElements_eq hp hpclean,
      cleanElements_eq hq hqclean]
    constructor
    · rintro ⟨r, hr, hbelow⟩
      split at hr
      · next ts hdrop =>
          cases hr
          refine ⟨ts, prefix_of_dropCommon hdrop, fun e he => ?_⟩
          obtain ⟨es, rfl⟩ : ∃ es, ts = e :: es := by
            cases ts with
            | nil => cases he
            | cons f es =>
              cases he
              exact ⟨es, rfl⟩
          have hproper : Proper e := by
            apply hqproper
            rw [prefix_of_dropCommon hdrop]
            exact List.mem_append_right _ List.mem_cons_self
          rwa [dotDot_prefix_join hproper] at hbelow
      · next b bs ts hdrop =>
          split at hr
          · cases hr
          · cases hr
            exfalso
            apply hbelow
            rw [List.replicate_succ, List.cons_append, join_cons]
            split
            · exact List.prefix_refl _
            · exact List.prefix_append _ _
    · rintro ⟨rest, hrest, hfirst⟩
      have hne : rest ≠ [] := by
        rintro rfl
        apply hsame
        rw [hqjoin, hrest, List.append_nil, ← hpjoin]
      obtain ⟨e, es, rfl⟩ := List.exists_cons_of_ne_nil hne
      have hproper : Proper e := by
        apply hqproper
        rw [hrest]
        exact List.mem_append_right _ List.mem_cons_self
      rw [hrest, dropCommon_append]
      refine ⟨join (e :: es), rfl, ?_⟩
      rw [dotDot_prefix_join hproper]
      exact hfirst e rfl

end SlashPath
