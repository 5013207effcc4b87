import Ploy.Foundations.LineScanner
import Ploy.Foundations.Text

/-!
# The statistics of a patch

The summary of a diff counts the files and the lines of a patch by the first characters of its
lines. The patch that git writes for a list of changes has headers and contents whose lines may
begin alike.
-/

namespace Ploy

open LineScanner (newline carriageReturn dropCR scan unlines)

/-- The bytes of a text. -/
def bytes (s : String) : List UInt8 :=
  Utf8.encode s.toList

/-! ### Counting -/

@[ext]
structure PatchStats where
  filesChanged : Nat := 0
  linesAdded : Nat := 0
  linesRemoved : Nat := 0
  deriving DecidableEq, Repr

/-- The size of the buffer for a line. -/
def maxScanTokenSize : Nat := 64 * 1024

/-- One line more. -/
def countLine (stats : PatchStats) (line : List UInt8) : PatchStats :=
  if (bytes "diff --").isPrefixOf line then { stats with filesChanged := stats.filesChanged + 1 }
  else if (bytes "+++ ").isPrefixOf line then stats
  else if (bytes "--- ").isPrefixOf line then stats
  else if (bytes "+").isPrefixOf line then { stats with linesAdded := stats.linesAdded + 1 }
  else if (bytes "-").isPrefixOf line then { stats with linesRemoved := stats.linesRemoved + 1 }
  else stats

def countPatchStats (patchBytes : List UInt8) : PatchStats :=
  if patchBytes = [] then {}
  else (scan maxScanTokenSize patchBytes).foldl countLine {}

/-! ### The patch of a list of changes -/

/-- A text on one line. -/
structure Text where
  raw : List UInt8
  oneLine : newline ∉ raw

inductive LineKind where
  | context | added | removed
  deriving DecidableEq, Repr

/-- The first character of a line of a hunk. -/
def LineKind.mark : LineKind → List UInt8
  | .context => bytes " "
  | .added => bytes "+"
  | .removed => bytes "-"

/-- A line of a hunk. The last line of a file may have no end. -/
structure HunkLine where
  kind : LineKind
  text : Text
  unterminated : Bool

structure Hunk where
  /-- The ranges, and what git finds above them. -/
  header : Text
  lines : List HunkLine

/-- What git says about a file besides its contents. -/
inductive ExtendedHeader where
  | oldMode | newMode | deletedFileMode | newFileMode | copyFrom | copyTo | renameFrom | renameTo
  | similarityIndex | dissimilarityIndex | index | binaryFiles
  deriving DecidableEq, Repr

def ExtendedHeader.keyword : ExtendedHeader → List UInt8
  | .oldMode => bytes "old mode "
  | .newMode => bytes "new mode "
  | .deletedFileMode => bytes "deleted file mode "
  | .newFileMode => bytes "new file mode "
  | .copyFrom => bytes "copy from "
  | .copyTo => bytes "copy to "
  | .renameFrom => bytes "rename from "
  | .renameTo => bytes "rename to "
  | .similarityIndex => bytes "similarity index "
  | .dissimilarityIndex => bytes "dissimilarity index "
  | .index => bytes "index "
  | .binaryFiles => bytes "Binary files "

/-- The change of a file. It has names only, when its contents are not shown. -/
structure FileChange where
  names : Text
  extended : List (ExtendedHeader × Text)
  oldName : Text
  newName : Text
  hunks : List Hunk

namespace PatchStats

/-- Two counts together. -/
def add (a b : PatchStats) : PatchStats :=
  ⟨a.filesChanged + b.filesChanged, a.linesAdded + b.linesAdded, a.linesRemoved + b.linesRemoved⟩

/-- The counts of a list together. -/
def sum (l : List PatchStats) : PatchStats :=
  l.foldr add {}

end PatchStats

/-- A line of a patch, with what it stands for in the counts. -/
structure PatchLine where
  raw : List UInt8
  counts : PatchStats

def HunkLine.counts (line : HunkLine) : PatchStats :=
  match line.kind with
  | .context => {}
  | .added => { linesAdded := 1 }
  | .removed => { linesRemoved := 1 }

def HunkLine.render (line : HunkLine) : List PatchLine :=
  ⟨line.kind.mark ++ line.text.raw, line.counts⟩
    :: if line.unterminated then [⟨bytes "\\ No newline at end of file", {}⟩] else []

def Hunk.render (hunk : Hunk) : List PatchLine :=
  ⟨bytes "@@ " ++ hunk.header.raw, {}⟩ :: hunk.lines.flatMap HunkLine.render

/-- The lines that say which versions of a file are compared. -/
def FileChange.versions (change : FileChange) : List PatchLine :=
  if change.hunks.isEmpty then []
  else [⟨bytes "--- " ++ change.oldName.raw, {}⟩, ⟨bytes "+++ " ++ change.newName.raw, {}⟩]

def FileChange.render (change : FileChange) : List PatchLine :=
  ⟨bytes "diff --git " ++ change.names.raw, { filesChanged := 1 }⟩
    :: (change.extended.map (fun e => ⟨e.1.keyword ++ e.2.raw, {}⟩) ++ change.versions
      ++ change.hunks.flatMap Hunk.render)

def renderLines (changes : List FileChange) : List PatchLine :=
  changes.flatMap FileChange.render

def renderPatch (changes : List FileChange) : List UInt8 :=
  unlines ((renderLines changes).map PatchLine.raw)

def countKind (kind : LineKind) (changes : List FileChange) : Nat :=
  (changes.map fun change => (change.hunks.map fun hunk =>
    hunk.lines.countP (·.kind = kind)).sum).sum

/-! ### The lines that are missed -/

namespace PatchLine

def fits (line : PatchLine) : Bool :=
  line.raw.length < maxScanTokenSize

/-- A line that counts and looks like the name of a version: an added line that begins with `++ `,
or a removed one that begins with `-- `. -/
def misread (line : PatchLine) : Bool :=
  line.counts ≠ {} && ((bytes "+++ ").isPrefixOf line.raw || (bytes "--- ").isPrefixOf line.raw)

end PatchLine

/-- The lines of a patch that are not counted for what they are: before the first one that does not
fit into the buffer those that are misread, and from it on all. -/
def missed (lines : List PatchLine) : List PatchLine :=
  (lines.takeWhile PatchLine.fits).filter PatchLine.misread ++ lines.dropWhile PatchLine.fits

/-- No added or removed line and no file is among the missed lines of the patch. -/
def plainChanges (changes : List FileChange) : Bool :=
  (missed (renderLines changes)).all (·.counts = {})

/-! ### What a line counts for -/

namespace PatchStats

theorem sum_append (a b : List PatchStats) :
  sum (a ++ b) = (sum a).add (sum b)
  := by
  induction a with
  | nil => simp [sum, add]
  | cons x a ih =>
    simp only [sum, List.cons_append, List.foldr_cons] at ih ⊢
    rw [ih]
    simp only [add, Nat.add_assoc]

/-- Counts that add up to nothing are nothing. -/
theorem sum_eq_zero {l : List PatchStats} :
  sum l = {} ↔ ∀ a ∈ l, a = {}
  := by
  induction l with
  | nil => simp [sum]
  | cons x l ih =>
    rw [List.forall_mem_cons, ← ih]
    simp only [sum, List.foldr_cons, add, PatchStats.ext_iff, Nat.add_eq_zero_iff]
    tauto

end PatchStats

/-- A line is counted for what it is unless it is misread, and has no line break in it. -/
structure PatchLine.Sound (line : PatchLine) : Prop where
  oneLine : newline ∉ line.raw
  counted : ∀ stats, countLine stats line.raw
    = stats.add (if line.misread then {} else line.counts)

theorem newline_notMem_append {a b : List UInt8} (ha : newline ∉ a) (hb : newline ∉ b) :
  newline ∉ a ++ b
  := by
  rw [List.mem_append, not_or]
  exact ⟨ha, hb⟩

/-- Headers count for nothing, whatever their texts are. -/
theorem sound_extended (e : ExtendedHeader × Text) :
  PatchLine.Sound ⟨e.1.keyword ++ e.2.raw, {}⟩
  := by
  constructor
  · have hkeyword : newline ∉ e.1.keyword := by
      cases e.1 <;> decide
    exact newline_notMem_append hkeyword e.2.oneLine
  · intro stats
    cases e.1 <;> rfl

/-- Only the contents of a line of a hunk can be taken for the name of a version. -/
theorem sound_hunkLine (line : HunkLine) :
  PatchLine.Sound ⟨line.kind.mark ++ line.text.raw, line.counts⟩
  := by
  obtain ⟨kind, text, _⟩ := line
  constructor
  · have hmark : newline ∉ kind.mark := by
      cases kind <;> decide
    exact newline_notMem_append hmark text.oneLine
  · intro stats
    cases kind with
    | context => rfl
    | added =>
      rw [countLine, PatchLine.misread]
      dsimp only
      cases (bytes "+++ ").isPrefixOf (LineKind.added.mark ++ text.raw) <;> rfl
    | removed =>
      rw [countLine, PatchLine.misread]
      dsimp only
      cases (bytes "--- ").isPrefixOf (LineKind.removed.mark ++ text.raw) <;> rfl

/-- Every line of a rendered hunk is what it was rendered from. -/
theorem sound_hunk {hunk : Hunk} {line : PatchLine} (h : line ∈ hunk.render) :
  line.Sound
  := by
  rw [Hunk.render, List.mem_cons, List.mem_flatMap] at h
  rcases h with rfl | ⟨hunkLine, -, h⟩
  · exact ⟨newline_notMem_append (by decide) hunk.header.oneLine, fun _ => rfl⟩
  · rw [HunkLine.render, List.mem_cons] at h
    rcases h with rfl | h
    · exact sound_hunkLine hunkLine
    · split at h
      · rw [List.mem_singleton.mp h]
        exact ⟨by decide, fun _ => rfl⟩
      · cases h

/-- Every line of a rendered patch is what it was rendered from. -/
theorem sound_renderLines {changes : List FileChange} {line : PatchLine}
    (h : line ∈ renderLines changes) :
  line.Sound
  := by
  obtain ⟨change, -, h⟩ := List.mem_flatMap.mp h
  rw [FileChange.render, List.mem_cons, List.mem_append, List.mem_append] at h
  rcases h with rfl | (h | h) | h
  · exact ⟨newline_notMem_append (by decide) change.names.oneLine, fun _ => rfl⟩
  · obtain ⟨e, -, rfl⟩ := List.mem_map.mp h
    exact sound_extended e
  · rw [FileChange.versions] at h
    split at h
    · cases h
    · rw [List.mem_cons, List.mem_singleton] at h
      rcases h with rfl | rfl
      · exact ⟨newline_notMem_append (by decide) change.oldName.oneLine, fun _ => rfl⟩
      · exact ⟨newline_notMem_append (by decide) change.newName.oneLine, fun _ => rfl⟩
  · obtain ⟨hunk, -, h⟩ := List.mem_flatMap.mp h
    exact sound_hunk h

/-! ### What a patch counts for -/

theorem countLine_dropCR (stats : PatchStats) (line : List UInt8) :
  countLine stats (dropCR line) = countLine stats line
  := by
  unfold countLine
  repeat rw [LineScanner.isPrefixOf_dropCR (by decide)]

/-- Lines that are read are counted but for those that are misread. -/
theorem foldl_countLine {lines : List PatchLine} (h : ∀ line ∈ lines, line.Sound)
    (stats : PatchStats) :
  ((lines.map PatchLine.raw).map dropCR).foldl countLine stats
    = stats.add (PatchStats.sum (lines.map fun line => if line.misread then {} else line.counts))
  := by
  induction lines generalizing stats with
  | nil => rfl
  | cons line lines ih =>
    have hrest := ih fun line hline => h line (List.mem_cons_of_mem _ hline)
    rw [List.map_cons, List.map_cons, List.foldl_cons, countLine_dropCR,
      (h line List.mem_cons_self).counted, hrest]
    simp only [PatchStats.sum, List.map_cons, List.foldr_cons, PatchStats.add, Nat.add_assoc]

/-- What is counted and what is missed is everything. -/
theorem sum_missed (lines : List PatchLine) :
  (PatchStats.sum ((lines.takeWhile PatchLine.fits).map fun line =>
      if line.misread then {} else line.counts)).add
    (PatchStats.sum ((missed lines).map PatchLine.counts))
    = PatchStats.sum (lines.map PatchLine.counts)
  := by
  have hfront : ∀ front : List PatchLine,
      (PatchStats.sum (front.map fun line => if line.misread then {} else line.counts)).add
        (PatchStats.sum ((front.filter PatchLine.misread).map PatchLine.counts))
        = PatchStats.sum (front.map PatchLine.counts) := by
    intro front
    induction front with
    | nil => rfl
    | cons line front ih =>
      simp only [PatchStats.sum, List.map_cons, List.foldr_cons] at ih ⊢
      rw [← ih]
      cases hline : line.misread <;> simp [hline, PatchStats.add] <;> omega
  have hall : lines = lines.takeWhile PatchLine.fits ++ lines.dropWhile PatchLine.fits :=
    List.takeWhile_append_dropWhile.symm
  conv_rhs => rw [hall, List.map_append, PatchStats.sum_append, ← hfront]
  rw [missed, List.map_append, PatchStats.sum_append]
  simp only [PatchStats.add, Nat.add_assoc]

/-- The lines of a hunk add up to its changed lines. -/
theorem sum_lines (lines : List HunkLine) :
  PatchStats.sum ((lines.flatMap HunkLine.render).map PatchLine.counts)
    = ⟨0, lines.countP (·.kind = .added), lines.countP (·.kind = .removed)⟩
  := by
  induction lines with
  | nil => rfl
  | cons line lines ih =>
    have hline : PatchStats.sum (line.render.map PatchLine.counts) = line.counts := by
      rw [HunkLine.render]
      split <;> rfl
    rw [List.flatMap_cons, List.map_append, PatchStats.sum_append, ih, hline, HunkLine.counts,
      List.countP_cons, List.countP_cons]
    cases line.kind <;> simp [PatchStats.add, Nat.add_comm]

/-- The hunks of a file add up to its changed lines. -/
theorem sum_hunks (hunks : List Hunk) :
  PatchStats.sum ((hunks.flatMap Hunk.render).map PatchLine.counts)
    = ⟨0, (hunks.map fun hunk => hunk.lines.countP (·.kind = .added)).sum,
      (hunks.map fun hunk => hunk.lines.countP (·.kind = .removed)).sum⟩
  := by
  induction hunks with
  | nil => rfl
  | cons hunk hunks ih =>
    have hhunk : PatchStats.sum (hunk.render.map PatchLine.counts)
        = PatchStats.sum ((hunk.lines.flatMap HunkLine.render).map PatchLine.counts) := by
      simp [Hunk.render, PatchStats.sum, PatchStats.add]
    rw [List.flatMap_cons, List.map_append, PatchStats.sum_append, ih, hhunk, sum_lines]
    simp [PatchStats.add]

/-- The lines of a patch add up to its files and its changed lines. -/
theorem sum_changes (changes : List FileChange) :
  PatchStats.sum ((renderLines changes).map PatchLine.counts)
    = ⟨changes.length, countKind .added changes, countKind .removed changes⟩
  := by
  induction changes with
  | nil => rfl
  | cons change changes ih =>
    have hheaders : ∀ l : List (ExtendedHeader × Text), PatchStats.sum
        ((l.map fun e => PatchLine.mk (e.1.keyword ++ e.2.raw) {}).map PatchLine.counts) = {} := by
      intro l
      apply PatchStats.sum_eq_zero.mpr
      intro counts hcounts
      obtain ⟨_, hline, rfl⟩ := List.mem_map.mp hcounts
      obtain ⟨e, -, rfl⟩ := List.mem_map.mp hline
      rfl
    have hversions : PatchStats.sum (change.versions.map PatchLine.counts) = {} := by
      rw [FileChange.versions]
      split <;> rfl
    have hchange : PatchStats.sum (change.render.map PatchLine.counts)
        = PatchStats.add { filesChanged := 1 }
          (PatchStats.sum ((change.hunks.flatMap Hunk.render).map PatchLine.counts)) := by
      rw [FileChange.render, List.map_cons, List.map_append, List.map_append]
      change PatchStats.add _ (PatchStats.sum _) = _
      rw [PatchStats.sum_append, PatchStats.sum_append, hheaders, hversions]
      simp [PatchStats.add]
    rw [renderLines, List.flatMap_cons, List.map_append, PatchStats.sum_append, ← renderLines, ih,
      hchange, sum_hunks]
    simp [PatchStats.add, countKind, Nat.add_comm]

/-- The scan counts the lines before the first one too long, some of them wrongly. -/
theorem countPatchStats_render (changes : List FileChange) :
  countPatchStats (renderPatch changes)
    = PatchStats.sum (((renderLines changes).takeWhile PatchLine.fits).map fun line =>
      if line.misread then {} else line.counts)
  := by
  have hscan : scan maxScanTokenSize (renderPatch changes)
      = (((renderLines changes).takeWhile PatchLine.fits).map PatchLine.raw).map dropCR := by
    rw [renderPatch, LineScanner.scan_unlines, List.takeWhile_map]
    · rfl
    · intro raw hraw
      obtain ⟨line, hline, rfl⟩ := List.mem_map.mp hraw
      exact (sound_renderLines hline).oneLine
  rw [countPatchStats]
  split
  · rename_i hempty
    cases changes with
    | nil => rfl
    | cons change changes => cases hempty
  · rw [hscan, foldl_countLine fun line hline =>
      sound_renderLines ((List.takeWhile_prefix _).subset hline)]
    simp [PatchStats.add]

/-- The statistics of the patch of a list of changes are the numbers of its files and of the lines
that were added and removed exactly when none of them is among the lines that are missed. -/
theorem countPatchStats_exact (changes : List FileChange) :
  countPatchStats (renderPatch changes)
      = ⟨changes.length, countKind .added changes, countKind .removed changes⟩
    ↔ plainChanges changes = true
  := by
  have hplain : plainChanges changes = true
      ↔ PatchStats.sum ((missed (renderLines changes)).map PatchLine.counts) = {} := by
    rw [PatchStats.sum_eq_zero, plainChanges, List.all_eq_true]
    simp
  rw [hplain, countPatchStats_render, ← sum_changes, ← sum_missed]
  generalize PatchStats.sum (List.map PatchLine.counts _) = rest
  simp only [PatchStats.ext_iff, PatchStats.add]
  omega

namespace PatchSample

def text (s : String) (h : newline ∉ bytes s) : Text := ⟨bytes s, h⟩

def change (lines : List HunkLine) : FileChange where
  names := text "a/f b/f" (by decide)
  extended := [(.index, text "1..2 100644" (by decide))]
  oldName := text "a/f" (by decide)
  newName := text "b/f" (by decide)
  hunks := [⟨text "-1 +1,2 @@" (by decide), lines⟩]

def added : HunkLine := ⟨.added, text "diff -- y" (by decide), true⟩

/-- A line of a counter, as in many languages. -/
def increment : HunkLine := ⟨.added, text "++ i;" (by decide), false⟩

/-- A line as long as the buffer. -/
def long : HunkLine where
  kind := .added
  text := ⟨List.replicate maxScanTokenSize 97, by
    rw [List.mem_replicate]
    decide⟩
  unterminated := false

end PatchSample

open PatchSample in
/-- An added line that begins with `++ ` is not counted, and neither is what follows a line as long
as the buffer. -/
theorem countPatchStats_misses_lines :
  (countKind .added [change [increment]] = 1 ∧
      (countPatchStats (renderPatch [change [increment]])).linesAdded = 0) ∧
    countKind .added [change [long, added]] = 2 ∧
      (countPatchStats (renderPatch [change [long, added]])).linesAdded = 0
  := by
  refine ⟨⟨rfl, by decide +kernel⟩, rfl, ?_⟩
  have hlines : renderLines [change [long, added]]
      = (change []).render ++ ⟨bytes "+" ++ long.text.raw, long.counts⟩ :: added.render := rfl
  have hfront : ∀ line ∈ (change []).render, line.fits = true := by decide +kernel
  have hlong : PatchLine.fits ⟨bytes "+" ++ long.text.raw, long.counts⟩ = false := by
    rw [PatchLine.fits, List.length_append, long, List.length_replicate]
    exact decide_eq_false (by omega)
  -- the lines before the long one are read, and nothing else is
  rw [countPatchStats_render, hlines, List.takeWhile_append_of_pos hfront,
    List.takeWhile_cons_of_neg (by simp [hlong]), List.append_nil]
  decide +kernel

end Ploy
