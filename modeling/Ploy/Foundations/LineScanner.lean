import Mathlib

/-!
# Lines with a bound on their length

A text is read line by line. A line that is too long for the buffer ends the reading, and what
follows it is not seen. A carriage return at the end of a line is left out.
-/

namespace LineScanner

def newline : UInt8 := 10

def carriageReturn : UInt8 := 13

/-- A line without the carriage return at its end. -/
def dropCR (line : List UInt8) : List UInt8 :=
  if line.getLast? = some carriageReturn then line.dropLast else line

/-- The lines of a text, the first of which began with `line`. One that does not fit into a buffer
of `limit` bytes, where its end takes one, is the end. -/
def scanFrom (limit : Nat) (line : List UInt8) : List UInt8 → List (List UInt8)
  | [] => if limit ≤ line.length ∨ line = [] then [] else [dropCR line]
  | b :: rest =>
    if b = newline then
      if limit ≤ line.length then [] else dropCR line :: scanFrom limit [] rest
    else scanFrom limit (line ++ [b]) rest

def scan (limit : Nat) (text : List UInt8) : List (List UInt8) :=
  scanFrom limit [] text

/-- The text that is made of lines. -/
def unlines (lines : List (List UInt8)) : List UInt8 :=
  lines.flatMap (· ++ [newline])

theorem unlines_cons (line : List UInt8) (lines : List (List UInt8)) :
  unlines (line :: lines) = line ++ newline :: unlines lines
  := by
  rw [unlines, List.flatMap_cons, List.append_assoc, List.singleton_append]
  rfl

variable {limit : Nat}

theorem scanFrom_append {line rest : List UInt8} (h : newline ∉ rest) (text : List UInt8) :
  scanFrom limit line (rest ++ text) = scanFrom limit (line ++ rest) text
  := by
  induction rest generalizing line with
  | nil => simp
  | cons b rest ih =>
    rw [List.mem_cons, not_or] at h
    rw [List.cons_append, scanFrom, if_neg (Ne.symm h.1), ih h.2, List.append_assoc,
      List.singleton_append]

theorem scan_line {line : List UInt8} (h : newline ∉ line) (hfits : line.length < limit)
    (text : List UInt8) :
  scan limit (line ++ newline :: text) = dropCR line :: scan limit text
  := by
  rw [scan, scanFrom_append h, List.nil_append, scanFrom, if_pos rfl, if_neg (by omega)]
  rfl

theorem scan_long {line : List UInt8} (h : newline ∉ line) (hlong : limit ≤ line.length)
    (text : List UInt8) :
  scan limit (line ++ newline :: text) = []
  := by
  rw [scan, scanFrom_append h, List.nil_append, scanFrom, if_pos rfl, if_pos hlong]

/-- The lines of a text are read up to the first one that does not fit. -/
theorem scan_unlines {lines : List (List UInt8)} (h : ∀ line ∈ lines, newline ∉ line) :
  scan limit (unlines lines) = (lines.takeWhile (·.length < limit)).map dropCR
  := by
  induction lines with
  | nil => simp [unlines, scan, scanFrom]
  | cons line lines ih =>
    have hline := h line List.mem_cons_self
    have hrest := ih fun line hmem => h line (List.mem_cons_of_mem _ hmem)
    rw [unlines_cons, List.takeWhile_cons]
    by_cases hfits : line.length < limit
    · rw [scan_line hline hfits, hrest, if_pos (decide_eq_true hfits), List.map_cons]
    · rw [scan_long hline (by omega), if_neg (by simpa using hfits), List.map_nil]

/-- A dropped carriage return is not part of a prefix. -/
theorem isPrefixOf_dropCR {p : List UInt8} (h : carriageReturn ∉ p) (line : List UInt8) :
  p.isPrefixOf (dropCR line) = p.isPrefixOf line
  := by
  rw [Bool.eq_iff_iff, List.isPrefixOf_iff_prefix, List.isPrefixOf_iff_prefix, dropCR]
  split
  · rename_i hlast
    obtain ⟨init, rfl⟩ := List.getLast?_eq_some_iff.mp hlast
    rw [List.dropLast_concat]
    constructor
    · intro hp
      exact hp.trans (List.prefix_append init [carriageReturn])
    · intro hp
      rcases List.prefix_concat_iff.mp hp with rfl | hp
      · exact absurd (by simp) h
      · exact hp
  · exact Iff.rfl

end LineScanner
