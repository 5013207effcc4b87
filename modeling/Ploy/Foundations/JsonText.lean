import Ploy.Foundations.Text

/-!
# JSON texts

Values are written without spaces, with the escapes that keep a text safe inside HTML, and read with
a parser for the whole grammar.
-/

namespace JsonText

/-- A value. A number is kept as it is written. -/
inductive Value where
  | null
  | bool (b : Bool)
  | number (literal : Str)
  | string (s : Str)
  | array (elements : List Value)
  | object (members : List (Str × Value))

/-! ### Writing -/

def hexDigit (n : Nat) : Char :=
  if n < 10 then Char.ofNat (48 + n) else Char.ofNat (87 + n)

/-- A character below `0x10000`, by its number. -/
def unicodeEscape (n : Nat) : Str :=
  ['\\', 'u', hexDigit (n / 4096 % 16), hexDigit (n / 256 % 16), hexDigit (n / 16 % 16),
    hexDigit (n % 16)]

/-- The character that stands for another after a backslash. -/
def shortEscape (c : Char) : Option Char :=
  if c = '"' ∨ c = '\\' then some c
  else if c = '\x08' then some 'b'
  else if c = '\x0c' then some 'f'
  else if c = '\n' then some 'n'
  else if c = '\r' then some 'r'
  else if c = '\t' then some 't'
  else none

/-- Characters that are written by their number. -/
def isEscaped (c : Char) : Bool :=
  c.toNat < 32 || c == '<' || c == '>' || c == '&' || c.toNat == 0x2028 || c.toNat == 0x2029

def escapeChar (c : Char) : Str :=
  match shortEscape c with
  | some e => ['\\', e]
  | none => if isEscaped c then unicodeEscape c.toNat else [c]

def quote (s : Str) : Str :=
  '"' :: (s.flatMap escapeChar ++ ['"'])

def intText : Int → Str
  | .ofNat n => Nat.toDigits 10 n
  | .negSucc n => '-' :: Nat.toDigits 10 (n + 1)

mutual

def render : Value → Str
  | .null => ['n', 'u', 'l', 'l']
  | .bool true => ['t', 'r', 'u', 'e']
  | .bool false => ['f', 'a', 'l', 's', 'e']
  | .number literal => literal
  | .string s => quote s
  | .array [] => ['[', ']']
  | .array (v :: rest) => '[' :: (render v ++ renderElements rest)
  | .object [] => ['{', '}']
  | .object ((key, v) :: rest) => '{' :: (quote key ++ ':' :: (render v ++ renderMembers rest))

def renderElements : List Value → Str
  | [] => [']']
  | v :: rest => ',' :: (render v ++ renderElements rest)

def renderMembers : List (Str × Value) → Str
  | [] => ['}']
  | (key, v) :: rest => ',' :: (quote key ++ ':' :: (render v ++ renderMembers rest))

end

/-! ### Reading -/

def unhex (c : Char) : Option Nat :=
  if '0' ≤ c ∧ c ≤ '9' then some (c.toNat - 48)
  else if 'a' ≤ c ∧ c ≤ 'f' then some (c.toNat - 87)
  else if 'A' ≤ c ∧ c ≤ 'F' then some (c.toNat - 55)
  else none

/-- The number written with four hexadecimal digits. -/
def code (a b c d : Char) : Option Nat := do
  let a ← unhex a
  let b ← unhex b
  let c ← unhex c
  let d ← unhex d
  some (4096 * a + 256 * b + 16 * c + d)

/-- The character after a backslash, other than `u`. -/
def unescape (c : Char) : Option Char :=
  if c = '"' ∨ c = '\\' ∨ c = '/' then some c
  else if c = 'b' then some '\x08'
  else if c = 'f' then some '\x0c'
  else if c = 'n' then some '\n'
  else if c = 'r' then some '\r'
  else if c = 't' then some '\t'
  else none

def isSurrogate (n : Nat) : Bool :=
  0xd800 ≤ n && n < 0xe000

def replacement : Char := '�'

/-- The character of a surrogate and the one that is written after it, if they make up a pair. -/
def surrogatePair (hi : Nat) : Str → Option Char
  | '\\' :: 'u' :: a :: b :: c :: d :: _ => do
      let lo ← code a b c d
      if 0xd800 ≤ hi ∧ hi < 0xdc00 ∧ 0xdc00 ≤ lo ∧ lo < 0xe000 then
        some (Char.ofNat (0x10000 + 0x400 * (hi - 0xd800) + (lo - 0xdc00)))
      else none
  | _ => none

/-- What a string holds, after its first quotation mark, and what comes after it. A surrogate that
is not part of a pair stands for the replacement character. -/
def unquote (text : Str) : Option (Str × Str) :=
  match text with
  | [] => none
  | c :: rest =>
    if c = '"' then some ([], rest)
    else if c = '\\' then
      match rest with
      | [] => none
      | 'u' :: a :: b :: c :: d :: rest =>
        match code a b c d with
        | none => none
        | some n =>
          if isSurrogate n then
            match surrogatePair n rest with
            | some c =>
              match rest with
              | _ :: _ :: _ :: _ :: _ :: _ :: rest =>
                (unquote rest).map fun x => (c :: x.1, x.2)
              | _ => none
            | none => (unquote rest).map fun x => (replacement :: x.1, x.2)
          else (unquote rest).map fun x => (Char.ofNat n :: x.1, x.2)
      | e :: rest =>
        match unescape e with
        | none => none
        | some c => (unquote rest).map fun x => (c :: x.1, x.2)
    else if c.toNat < 32 then none
    else (unquote rest).map fun x => (c :: x.1, x.2)
termination_by structural text

def isSpace (c : Char) : Bool :=
  c == ' ' || c == '\t' || c == '\n' || c == '\r'

def skipSpace (text : Str) : Str :=
  text.dropWhile isSpace

/-- The exponent of a number. -/
def exponent (literal : Str) : Str → Option (Str × Str)
  | [] => some (literal, [])
  | c :: rest =>
    if c = 'e' ∨ c = 'E' then
      let (sign, rest) := match rest with
        | '+' :: rest => (['+'], rest)
        | '-' :: rest => (['-'], rest)
        | rest => ([], rest)
      if rest.takeWhile Char.isDigit = [] then none
      else some (literal ++ c :: (sign ++ rest.takeWhile Char.isDigit), rest.dropWhile Char.isDigit)
    else some (literal, c :: rest)

/-- The fraction and the exponent of a number. -/
def fraction (literal : Str) : Str → Option (Str × Str)
  | '.' :: rest =>
    if rest.takeWhile Char.isDigit = [] then none
    else exponent (literal ++ '.' :: rest.takeWhile Char.isDigit) (rest.dropWhile Char.isDigit)
  | rest => exponent literal rest

/-- A number after its sign. -/
def magnitude (sign : Str) : Str → Option (Str × Str)
  | [] => none
  | c :: rest =>
    if c = '0' then fraction (sign ++ ['0']) rest
    else if c.isDigit then
      fraction (sign ++ c :: rest.takeWhile Char.isDigit) (rest.dropWhile Char.isDigit)
    else none

def number : Str → Option (Str × Str)
  | '-' :: rest => magnitude ['-'] rest
  | text => magnitude [] text

mutual

/-- The value at the head of a text, and what comes after it. -/
def value : Nat → Str → Option (Value × Str)
  | 0, _ => none
  | fuel + 1, text =>
    match skipSpace text with
    | 'n' :: 'u' :: 'l' :: 'l' :: rest => some (.null, rest)
    | 't' :: 'r' :: 'u' :: 'e' :: rest => some (.bool true, rest)
    | 'f' :: 'a' :: 'l' :: 's' :: 'e' :: rest => some (.bool false, rest)
    | '"' :: rest => (unquote rest).map fun x => (.string x.1, x.2)
    | '[' :: rest =>
      match skipSpace rest with
      | ']' :: rest => some (.array [], rest)
      | rest => (elements fuel rest).map fun x => (.array x.1, x.2)
    | '{' :: rest =>
      match skipSpace rest with
      | '}' :: rest => some (.object [], rest)
      | rest => (members fuel rest).map fun x => (.object x.1, x.2)
    | rest => (number rest).map fun x => (.number x.1, x.2)

/-- The values up to a closing bracket. -/
def elements : Nat → Str → Option (List Value × Str)
  | 0, _ => none
  | fuel + 1, text =>
    match value fuel text with
    | none => none
    | some (v, rest) =>
      match skipSpace rest with
      | ']' :: rest => some ([v], rest)
      | ',' :: rest => (elements fuel rest).map fun x => (v :: x.1, x.2)
      | _ => none

/-- The members up to a closing brace. -/
def members : Nat → Str → Option (List (Str × Value) × Str)
  | 0, _ => none
  | fuel + 1, text =>
    match skipSpace text with
    | '"' :: rest =>
      match unquote rest with
      | none => none
      | some (key, rest) =>
        match skipSpace rest with
        | ':' :: rest =>
          match value fuel rest with
          | none => none
          | some (v, rest) =>
            match skipSpace rest with
            | '}' :: rest => some ([(key, v)], rest)
            | ',' :: rest => (members fuel rest).map fun x => ((key, v) :: x.1, x.2)
            | _ => none
        | _ => none
    | _ => none

end

/-- The only value of a text. -/
def parse (text : Str) : Option Value :=
  match value (2 * text.length) text with
  | some (v, rest) => if skipSpace rest = [] then some v else none
  | none => none

/-! ### Reading into records -/

def readNat (digits : Str) : Option Nat :=
  if digits ≠ [] ∧ digits.all Char.isDigit then some (Nat.ofDigitChars 10 digits 0) else none

/-- The integer that a literal stands for, if it has neither a fraction nor an exponent. -/
def readInt : Str → Option Int
  | '-' :: digits => (readNat digits).map fun n => -n
  | digits => (readNat digits).map fun n => n

/-- The smallest of the characters that differ in case only. -/
def foldChar (c : Char) : Char :=
  if 'a' ≤ c ∧ c ≤ 'z' then Char.ofNat (c.toNat - 32)
  else if c.toNat = 0x17f then 'S'
  else if c.toNat = 0x212a then 'K'
  else c

/-- The field that a key names, or else one whose name differs from it in case only. -/
def lookupField {α : Type} (fields : List (String × α)) (key : Str) : Option α :=
  match fields.find? (·.1.toList = key) with
  | some field => some field.2
  | none => (fields.find? (·.1.toList.map foldChar = key.map foldChar)).map Prod.snd

theorem lookupField_of_mem
    {α : Type} {fields : List (String × α)} {name : String} {a : α} (h : (name, a) ∈ fields)
    (hnames : (fields.map Prod.fst).Nodup) :
  lookupField fields name.toList = some a
  := by
  have hfind : fields.find? (·.1.toList = name.toList) = some (name, a) := by
    induction fields with
    | nil => cases h
    | cons field fields ih =>
      rw [List.map_cons, List.nodup_cons] at hnames
      rcases List.mem_cons.mp h with heq | h
      · subst heq
        exact List.find?_cons_of_pos (by simp)
      · have hne : field.1 ≠ name := fun heq =>
          hnames.1 (heq ▸ List.mem_map_of_mem h)
        rw [List.find?_cons_of_neg (by simpa [String.toList_inj] using hne)]
        exact ih h hnames.2
  rw [lookupField, hfind]

theorem mem_of_lookupField
    {α : Type} {fields : List (String × α)} {key : Str} {a : α}
    (h : lookupField fields key = some a) :
  ∃ name, (name, a) ∈ fields
  := by
  rw [lookupField] at h
  split at h
  · next field hfind =>
      cases h
      exact ⟨field.1, List.mem_of_find?_eq_some hfind⟩
  · obtain ⟨field, hfind, rfl⟩ := Option.map_eq_some_iff.mp h
    exact ⟨field.1, List.mem_of_find?_eq_some hfind⟩

/-- The members of an object are read into a record, one after the other. -/
def readMembers {σ ε : Type} (fields : List (String × (Value → σ → Except ε σ)))
    (unknown : Str → σ → Except ε σ) : List (Str × Value) → σ → Except ε σ
  | [], s => .ok s
  | (key, v) :: rest, s =>
    match (lookupField fields key).elim (unknown key s) (fun set => set v s) with
    | .ok s => readMembers fields unknown rest s
    | .error e => .error e

end JsonText
