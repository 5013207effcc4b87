import Mathlib

/-!
# Texts

A text is a list of characters. It has bytes, and it may be a template: a text with holes.
-/

/-- A text. -/
abbrev Str := List Char

/-! ### Bytes -/

namespace Utf8

/-- The bytes of a character. -/
def encodeChar (c : Char) : List UInt8 :=
  let n := c.toNat
  if n < 0x80 then [UInt8.ofNat n]
  else if n < 0x800 then [UInt8.ofNat (0xc0 + n / 64), UInt8.ofNat (0x80 + n % 64)]
  else if n < 0x10000 then
    [UInt8.ofNat (0xe0 + n / 4096), UInt8.ofNat (0x80 + n / 64 % 64), UInt8.ofNat (0x80 + n % 64)]
  else
    [UInt8.ofNat (0xf0 + n / 262144), UInt8.ofNat (0x80 + n / 4096 % 64),
      UInt8.ofNat (0x80 + n / 64 % 64), UInt8.ofNat (0x80 + n % 64)]

def encode (s : Str) : List UInt8 :=
  s.flatMap encodeChar

end Utf8

/-! ### Templates

The holes are found from left to right, and what is filled in is not looked at again. -/

namespace Template

variable {η : Type}

/-- The characters and the holes of a text, where `hole` finds the hole a text begins with and what
comes after it. -/
def pieces (hole : Str → Option (η × Str)) : Nat → Str → List (Char ⊕ η)
  | 0, _ => []
  | _ + 1, [] => []
  | n + 1, c :: rest =>
    match hole (c :: rest) with
    | some (h, rest) => .inr h :: pieces hole n rest
    | none => .inl c :: pieces hole n rest

/-- The pieces of a text. A hole takes up at least one character of it. -/
def parse (hole : Str → Option (η × Str)) (text : Str) : List (Char ⊕ η) :=
  pieces hole text.length text

def holes (hole : Str → Option (η × Str)) (text : Str) : List η :=
  (parse hole text).filterMap Sum.getRight?

/-- The text of the pieces, with the holes filled. A hole that has no value is left out. -/
def fill (value : η → Option Str) : List (Char ⊕ η) → Str
  | [] => []
  | .inl c :: rest => c :: fill value rest
  | .inr h :: rest => (value h).getD [] ++ fill value rest

theorem fill_congr
    {value value' : η → Option Str} {l : List (Char ⊕ η)}
    (h : ∀ x, .inr x ∈ l → value x = value' x) :
  fill value l = fill value' l
  := by
  induction l with
  | nil => rfl
  | cons piece rest ih =>
    have hrest : fill value rest = fill value' rest :=
      ih fun x hx => h x (List.mem_cons_of_mem _ hx)
    cases piece with
    | inl c => rw [fill, fill, hrest]
    | inr x => rw [fill, fill, hrest, h x List.mem_cons_self]

theorem mem_holes
    {hole : Str → Option (η × Str)} {text : Str} {x : η}
    (h : Sum.inr x ∈ parse hole text) :
  x ∈ holes hole text
  :=
  List.mem_filterMap.mpr ⟨.inr x, h, rfl⟩

end Template
