import Ploy.Foundations.Chase
import Ploy.Foundations.Dictionary
import Ploy.Spec.Hydra

/-!
# The properties of a Maven project

A project file has properties and may name a parent file, from which it takes the properties that it
does not have itself. The value of a property may refer to another property.
-/

namespace Ploy

open SlashPath (clean elements rel joined joined_of_isAbs dotDot dirName)
open Dictionary (set mem_of_get get_nil get_set)
open Bounded

namespace Maven

/-! ### Properties -/

/-- The name of an element as the decoder delivers it: its prefix, and its local part. -/
structure Name where
  space : Str
  localName : Str
  ne_nil : localName ≠ []
  deriving DecidableEq

/-- What the decoder delivers. -/
inductive Token where
  | startElement (name : Name)
  | charData (text : Str)
  | endElement (name : Name)
  | comment
  deriving DecidableEq

/-- A part of the content of an element without elements in it. -/
inductive Piece where
  | text (s : Str)
  | cdata (s : Str)
  | comment (s : Str)
  deriving DecidableEq, Repr

/-- A property: an element with a value. -/
structure Definition where
  name : Name
  pieces : List Piece
  deriving DecidableEq

/-- What stands in the list of properties. -/
inductive Item where
  | property (d : Definition)
  | text (s : Str)
  | comment (s : Str)
  deriving DecidableEq

def Piece.token : Piece → Token
  | text s | cdata s => .charData s
  | comment _ => .comment

def Definition.tokens (d : Definition) : List Token :=
  .startElement d.name :: d.pieces.map Piece.token ++ [.endElement d.name]

def Item.tokens : Item → List Token
  | property d => d.tokens
  | text s => [.charData s]
  | comment _ => [.comment]

def rootName : Str := "root".toList

/-- The element that a list of properties is put into for the decoder. -/
def rootElement : Name :=
  ⟨[], rootName, by decide⟩

def wrapped (items : List Item) : List Token :=
  .startElement rootElement :: items.flatMap Item.tokens ++ [.endElement rootElement]

abbrev Props := List (Str × Str)

structure ParserState where
  props : Props
  currentKey : Str
  inRoot : Bool
  deriving DecidableEq, Repr

def parseToken (s : ParserState) : Token → ParserState
  | .startElement name =>
    if name.localName = rootName then { s with inRoot := true }
    else if s.inRoot then { s with currentKey := name.localName }
    else s
  | .charData text =>
    if s.currentKey ≠ [] ∧ trim text ≠ [] then
      { s with props := set s.props s.currentKey (trim text) }
    else s
  | .endElement name =>
    { s with inRoot := if name.localName = rootName then false else s.inRoot, currentKey := [] }
  | .comment => s

def parseProperties (items : List Item) : Props :=
  ((wrapped items).foldl parseToken ⟨[], [], false⟩).props

/-! ### Project files -/

/-- A project file: the relative path to its parent, where it has one, and its properties. -/
structure Pom where
  parent : Option Str
  properties : List Item
  deriving DecidableEq

/-- The files that can be seen: the directories, and the project files that can be read and
decoded. -/
structure Checkout where
  workspace : Str
  isAbs : SlashPath.isAbs workspace = true
  isDir : Str → Bool
  poms : List (Str × Pom)

namespace Checkout

variable (c : Checkout)

def parsePom (path : Str) : Option Pom :=
  Dictionary.get c.poms path

def resolveParentPath (pomPath relativePath : Str) : Str :=
  let relativePath := if relativePath = [] then "../pom.xml".toList else relativePath
  let parentPath := joined (dirName pomPath) relativePath
  if c.isDir parentPath then joined parentPath "pom.xml".toList else parentPath

def isWithinWorkspace (path : Str) : Bool :=
  match rel (clean c.workspace) (clean path) with
  | some rel => !SlashPath.dotDot.isPrefixOf rel
  | none => false

/-- The parent of a project file, if it is a file in the workspace that can be read. -/
def loadParent (pomPath : Str) (pom : Pom) : Option (Str × Pom) :=
  match pom.parent with
  | none => none
  | some relativePath =>
    let parentPath := c.resolveParentPath pomPath relativePath
    if parentPath ≠ [] && c.isWithinWorkspace parentPath && !c.isDir parentPath then
      (c.parsePom parentPath).map fun parentPom => (parentPath, parentPom)
    else none

end Checkout

/-- A map with the entries of another one set. -/
def mergeProps (base override : Props) : Props :=
  override.foldr (fun entry props => set props entry.1 entry.2) base

/-- The properties of a project file and its parents. A number of steps is given, and none is the
result where they do not suffice. -/
def buildPropertyMap (c : Checkout) : Nat → List Str → Str → Pom → Option Props
  | 0, _, _, _ => none
  | fuel + 1, visited, pomPath, pom =>
    let absPath := clean pomPath
    if absPath ∈ visited then some []
    else
      match c.loadParent pomPath pom with
      | some (parentPath, parentPom) =>
        (buildPropertyMap c fuel (absPath :: visited) parentPath parentPom).map fun parentProps =>
          mergeProps (mergeProps [] parentProps) (parseProperties pom.properties)
      | none => some (mergeProps [] (parseProperties pom.properties))

/-! ### References -/

/-- The name in a value that is a reference as a whole. -/
def reference : Str → Option Str
  | '$' :: '\x7b' :: rest =>
    if rest.getLast? = some '\x7d' ∧ rest.dropLast ≠ [] ∧ '\x7d' ∉ rest.dropLast then
      some rest.dropLast
    else none
  | _ => none

inductive ResolveError where
  | circular (name : Str)
  | unresolved (name : Str)
  deriving DecidableEq, Repr

def resolveValueVisited (props : Props) :
    Nat → List Str → Str → Option (Except ResolveError Str)
  | 0, _, _ => none
  | fuel + 1, visited, value =>
    match reference value with
    | none => some (.ok value)
    | some name =>
      if name ∈ visited then some (.error (.circular name))
      else
        match Dictionary.get props name with
        | none => some (.error (.unresolved name))
        | some resolved => resolveValueVisited props fuel (name :: visited) resolved

def resolveValue (props : Props) (fuel : Nat) (value : Str) :
    Option (Except ResolveError Str) :=
  resolveValueVisited props fuel [] value

/-! ### References are followed -/

/-- The name that the value of a property refers to. -/
def nextName (props : Props) (name : Str) : Option Str :=
  (Dictionary.get props name).bind reference

/-- The references in a value lead to a value without one. -/
def Resolves (props : Props) (value final : Str) : Prop :=
  (reference value = none ∧ final = value) ∨
    ∃ name last, reference value = some name ∧ Chase.Ends (nextName props) name last ∧
      Dictionary.get props last = some final

/-- The references in a value lead to a name without a value. -/
def LeadsNowhere (props : Props) (value : Str) : Prop :=
  ∃ name last, reference value = some name ∧ Chase.Ends (nextName props) name last ∧
    Dictionary.get props last = none

/-- The references in a value lead to the same name again. -/
def Circles (props : Props) (value : Str) : Prop :=
  ∃ name, reference value = some name ∧ Chase.Loops (nextName props) name

/-- What a walk over names comes to. -/
def outcome (props : Props) (value : Str) (trail : List Str) :
    Option Str → Except ResolveError Str
  | some name => .error (.circular name)
  | none =>
    match trail.getLast? with
    | none => .ok value
    | some last =>
      match Dictionary.get props last with
      | none => .error (.unresolved last)
      | some final => .ok final

/-- Resolving a reference follows the walk over property names. -/
theorem resolveValueVisited_of_walk
    {props : Props} {visited : List Str} {name : Str} {trail : List Str}
    {stop : Option Str} (h : Chase.Walk (nextName props) visited name trail stop)
    {value : Str} (hvalue : reference value = some name) :
  Settles (fun fuel => resolveValueVisited props fuel visited value)
    (outcome props value trail stop)
  := by
  induction h generalizing value with
  | seen h =>
    apply Settles.succ
    apply Settles.of_forall
    intro fuel
    simp only [resolveValueVisited, hvalue, h, if_true]
    rfl
  | @last visited name h hnext =>
    cases hget : Dictionary.get props name with
    | none =>
      apply Settles.succ
      apply Settles.of_forall
      intro fuel
      simp only [resolveValueVisited, hvalue, h, if_false, hget]
      simp [outcome, hget]
    | some resolved =>
      have hdone : reference resolved = none := by
        simpa [nextName, hget] using hnext
      apply Settles.succ
      apply Settles.succ
      apply Settles.of_forall
      intro fuel
      simp only [resolveValueVisited, hvalue, h, if_false, hget, hdone]
      simp [outcome, hget]
  | @step visited name name' trail stop h hnext rest ih =>
    obtain ⟨resolved, hget, href⟩ := Option.bind_eq_some_iff.mp hnext
    have hsettles := ih href
    apply Settles.succ
    have houtcome : outcome props value (name :: trail) stop
        = outcome props resolved trail stop := by
      cases stop with
      | some x => rfl
      | none =>
        obtain ⟨x, hlast, -⟩ := rest.ends
        simp [outcome, List.getLast?_cons, hlast]
    rw [houtcome]
    simp only [resolveValueVisited, hvalue, h, if_false, hget]
    exact hsettles

theorem exists_walk (props : Props) (name : Str) :
  ∃ trail stop, Chase.Walk (nextName props) [] name trail stop
  := by
  apply Chase.exists_walk (insert name (props.filterMap fun entry => reference entry.2).toFinset) _
    (Finset.mem_insert_self _ _)
  intro k k' hnext
  obtain ⟨value, hget, href⟩ := Option.bind_eq_some_iff.mp hnext
  apply Finset.mem_insert_of_mem
  rw [List.mem_toFinset, List.mem_filterMap]
  exact ⟨(k, value), mem_of_get hget, href⟩

section Reference

variable {props : Props} {value name : Str} (hvalue : reference value = some name)
include hvalue

/-- A reference resolves to the value of the name it ends at. -/
theorem resolves_iff {final : Str} :
  Resolves props value final
    ↔ ∃ last, Chase.Ends (nextName props) name last ∧ Dictionary.get props last = some final
  := by
  simp [Resolves, hvalue]

theorem leadsNowhere_iff :
  LeadsNowhere props value
    ↔ ∃ last, Chase.Ends (nextName props) name last ∧ Dictionary.get props last = none
  := by
  simp [LeadsNowhere, hvalue]

theorem circles_iff :
  Circles props value ↔ Chase.Loops (nextName props) name
  := by
  simp [Circles, hvalue]

end Reference

/-- A value is resolved, or ends at a name without a value, or goes round. -/
theorem resolveValue_settles (props : Props) (value : Str) :
  ∃ r, Settles (fun fuel => resolveValue props fuel value) r ∧
    (∀ final, r = .ok final ↔ Resolves props value final) ∧
    ((∃ name, r = .error (.unresolved name)) ↔ LeadsNowhere props value) ∧
    ((∃ name, r = .error (.circular name)) ↔ Circles props value)
  := by
  cases hvalue : reference value with
  | none =>
    refine ⟨.ok value, ?_, ?_, ?_, ?_⟩
    · apply Settles.succ
      apply Settles.of_forall
      intro fuel
      simp only [resolveValue, resolveValueVisited, hvalue]
    · intro final
      simp [Resolves, hvalue, eq_comm]
    · simp [LeadsNowhere, hvalue]
    · simp [Circles, hvalue]
  | some name =>
    obtain ⟨trail, stop, hwalk⟩ := exists_walk props name
    refine ⟨_, resolveValueVisited_of_walk hwalk hvalue, ?_⟩
    simp only [resolves_iff hvalue, leadsNowhere_iff hvalue, circles_iff hvalue]
    cases stop with
    | some again =>
      have hloops := hwalk.loops
      refine ⟨?_, ?_, ?_⟩
      · simp [outcome, hloops.not_ends]
      · simp [outcome, hloops.not_ends]
      · simp [outcome, hloops]
    | none =>
      -- The walk ends at one name only, and its value decides.
      obtain ⟨last, hlast, hends⟩ := hwalk.ends
      have hlasts : ∀ last', Chase.Ends (nextName props) name last' ↔ last' = last :=
        fun last' => ⟨fun hends' => hends'.unique hends, fun h => h ▸ hends⟩
      have hcircles : ¬ Chase.Loops (nextName props) name := fun hloops => hloops.not_ends hends
      cases hget : Dictionary.get props last with
      | none => simp [outcome, hlast, hget, hlasts, hcircles]
      | some final => simp [outcome, hlast, hget, hlasts, hcircles]

/-! ### Properties are read -/

namespace Definition

/-- The pieces of a value that are text. -/
def texts (d : Definition) : List Str :=
  d.pieces.filterMap fun
    | .text s | .cdata s => some s
    | .comment _ => none

/-- The pieces of text that are not blank, without the white space around them. -/
def kept (d : Definition) : List Str :=
  (d.texts.map trim).filter (· ≠ [])

/-- The value of a property: its text without the white space around it. -/
def value (d : Definition) : Str :=
  trim d.texts.flatten

/-- What a property is called, without the prefix of its element. -/
def key (d : Definition) : Str :=
  d.name.localName

end Definition

/-- The property that an item is. -/
def Item.definition : Item → Option Definition
  | property d => some d
  | text _ | comment _ => none

namespace Pom

/-- The properties of a project file. -/
def definitions (pom : Pom) : List Definition :=
  pom.properties.filterMap Item.definition

/-- The value of a property in a project file: that of its last definition. -/
def text (pom : Pom) (name : Str) : Option Str :=
  (pom.definitions.reverse.find? fun d => d.key = name).map Definition.value

/-- The last piece of text of a property, up to a property that is called as the element around the
list. -/
def lastPiece (pom : Pom) (name : Str) : Option Str :=
  (((pom.definitions.takeWhile fun d => d.key ≠ rootName).filter fun d =>
    d.key = name).flatMap Definition.kept).getLast?

end Pom

/-- Trimming leaves nothing of white space only. -/
theorem trim_eq_nil_iff {s : Str} :
  trim s = [] ↔ ∀ c ∈ s, isSpace c = true
  := by
  rw [trim, List.reverse_eq_nil_iff, List.dropWhile_eq_nil_iff]
  constructor
  · intro h
    rw [← List.dropWhile_eq_nil_iff]
    cases hdrop : s.dropWhile isSpace with
    | nil => rfl
    | cons c rest =>
      have hhead := List.head?_dropWhile_not isSpace s
      rw [hdrop] at hhead
      change isSpace c = false at hhead
      rw [h c (by simp [hdrop])] at hhead
      cases hhead
  · intro h c hc
    exact h c (List.dropWhile_subset _ (List.mem_reverse.mp hc))

/-- Where no property is called as the element around the list, one without a piece of text is
empty. -/
theorem text_of_lastPiece_eq_none
    {pom : Pom} (hroot : pom.text rootName = none) {name value : Str}
    (hpiece : pom.lastPiece name = none) (htext : pom.text name = some value) :
  value = []
  := by
  obtain ⟨d, hfind, rfl⟩ := Option.map_eq_some_iff.mp htext
  have hmem := List.mem_reverse.mp (List.mem_of_find?_eq_some hfind)
  have hheard : pom.definitions.takeWhile (fun d => d.key ≠ rootName) = pom.definitions := by
    rw [List.takeWhile_eq_self_iff]
    rw [Pom.text, Option.map_eq_none_iff, List.find?_eq_none] at hroot
    intro e he
    simpa using hroot e (List.mem_reverse.mpr he)
  rw [Pom.lastPiece, hheard, List.getLast?_eq_none_iff, List.flatMap_eq_nil_iff] at hpiece
  have hkept : d.kept = [] := by
    have hname := List.find?_some hfind
    exact hpiece d (List.mem_filter.mpr ⟨hmem, hname⟩)
  rw [Definition.value, trim_eq_nil_iff]
  intro c hc
  obtain ⟨t, ht, hc⟩ := List.mem_flatten.mp hc
  have hblank := List.filter_eq_nil_iff.mp hkept (trim t) (List.mem_map_of_mem ht)
  exact trim_eq_nil_iff.mp (by simpa using hblank) c hc

theorem lastPiece_ne_nil {pom : Pom} {name : Str} :
  pom.lastPiece name ≠ some []
  := by
  intro h
  obtain ⟨d, -, hmem⟩ := List.mem_flatMap.mp (List.mem_of_getLast? h)
  simpa using (List.mem_filter.mp hmem).2

/-- A property with a piece of text has a text. -/
theorem text_of_lastPiece {pom : Pom} {name piece : Str} (h : pom.lastPiece name = some piece) :
  pom.text name ≠ none ∧ name ≠ rootName
  := by
  obtain ⟨d, hd, -⟩ := List.mem_flatMap.mp (List.mem_of_getLast? h)
  obtain ⟨hheard, hname⟩ := List.mem_filter.mp hd
  rw [decide_eq_true_eq] at hname
  constructor
  · rw [Pom.text, Ne, Option.map_eq_none_iff, List.find?_eq_none]
    intro hnone
    exact hnone d (List.mem_reverse.mpr ((List.takeWhile_sublist _).mem hheard)) (by simp [hname])
  · rw [← hname]
    simpa using List.mem_takeWhile_imp hheard

/-- The pieces of a value outside a property are skipped. -/
theorem foldl_pieces_skip (inRoot : Bool) (pieces : List Piece) (props : Props) :
  (pieces.map Piece.token).foldl parseToken ⟨props, [], inRoot⟩ = ⟨props, [], inRoot⟩
  := by
  induction pieces with
  | nil => rfl
  | cons piece pieces ih =>
    cases piece with
    | text | cdata | comment =>
      rw [List.map_cons, List.foldl_cons]
      simpa [Piece.token, parseToken] using ih

/-- The pieces of a value are set one after another. -/
theorem foldl_pieces (d : Definition) (props : Props) :
  (d.pieces.map Piece.token).foldl parseToken ⟨props, d.key, true⟩
    = ⟨d.kept.foldl (fun props text => set props d.key text) props, d.key, true⟩
  := by
  obtain ⟨name, pieces⟩ := d
  have htext : ∀ (text : Str) (props : Props),
      parseToken ⟨props, name.localName, true⟩ (.charData text) = ⟨if trim text ≠ [] then
        set props name.localName (trim text) else props, name.localName, true⟩ := by
    intro text props
    by_cases hblank : trim text = []
    · simp [parseToken, hblank]
    · simp [parseToken, hblank, name.ne_nil]
  induction pieces generalizing props with
  | nil => rfl
  | cons piece pieces ih =>
    rw [List.map_cons, List.foldl_cons]
    cases piece with
    | text s | cdata s =>
      have hkept : ∀ rest, Definition.texts ⟨name, rest⟩ = s :: Definition.texts ⟨name, pieces⟩ →
          Definition.kept ⟨name, rest⟩
            = if trim s ≠ [] then trim s :: Definition.kept ⟨name, pieces⟩
              else Definition.kept ⟨name, pieces⟩ := by
        intro rest hrest
        simp only [Definition.kept, hrest, List.map_cons, List.filter_cons, decide_eq_true_eq]
      change (pieces.map Piece.token).foldl parseToken
        (parseToken ⟨props, name.localName, true⟩ (.charData s)) = _
      rw [htext, hkept _ rfl]
      refine (ih _).trans ?_
      split <;> rfl
    | comment s => exact ih props

/-- Behind a property that is called as the element around the list, no property is read. -/
theorem foldl_items_skip (items : List Item) (props : Props) :
  (items.flatMap Item.tokens).foldl parseToken ⟨props, [], false⟩ = ⟨props, [], false⟩
  := by
  induction items with
  | nil => rfl
  | cons item items ih =>
    rw [List.flatMap_cons, List.foldl_append]
    cases item with
    | text | comment => simpa [Item.tokens, parseToken] using ih
    | property d =>
      rw [Item.tokens, Definition.tokens, List.cons_append, List.foldl_cons, List.foldl_append]
      by_cases hroot : d.name.localName = rootName
      · rw [show parseToken ⟨props, [], false⟩ (.startElement d.name) = ⟨props, [], true⟩ by
          simp [parseToken, hroot], foldl_pieces_skip]
        simpa [parseToken, hroot] using ih
      · rw [show parseToken ⟨props, [], false⟩ (.startElement d.name) = ⟨props, [], false⟩ by
          simp [parseToken, hroot], foldl_pieces_skip]
        simpa [parseToken, hroot] using ih

/-- The tokens of items define their properties, up to one named like the root. -/
theorem foldl_items (items : List Item) (props : Props) :
  ((items.flatMap Item.tokens).foldl parseToken ⟨props, [], true⟩).props
    = ((items.filterMap Item.definition).takeWhile fun d => d.key ≠ rootName).foldl
        (fun props d => d.kept.foldl (fun props text => set props d.key text) props) props
  := by
  induction items generalizing props with
  | nil => rfl
  | cons item items ih =>
    rw [List.flatMap_cons, List.foldl_append]
    cases item with
    | text | comment =>
      rw [List.filterMap_cons_none (by rfl), ← ih]
      simp [Item.tokens, parseToken]
    | property d =>
      rw [List.filterMap_cons_some (by rfl : Item.definition (.property d) = some d), Item.tokens,
        Definition.tokens, List.cons_append, List.foldl_cons, List.foldl_append,
          List.takeWhile_cons]
      by_cases hroot : d.key = rootName
      · have hstart : parseToken ⟨props, [], true⟩ (.startElement d.name) = ⟨props, [], true⟩ :=
          if_pos hroot
        rw [hstart, foldl_pieces_skip, List.foldl_cons, List.foldl_nil,
          show parseToken ⟨props, [], true⟩ (.endElement d.name) = ⟨props, [], false⟩ by
            simp [parseToken, show d.name.localName = rootName from hroot], foldl_items_skip]
        simp [hroot]
      · have hstart : parseToken ⟨props, [], true⟩ (.startElement d.name)
            = ⟨props, d.key, true⟩ := if_neg hroot
        have hend : ∀ props, parseToken ⟨props, d.key, true⟩ (.endElement d.name)
            = ⟨props, [], true⟩ := by
          intro props
          simp [parseToken, show d.name.localName ≠ rootName from hroot]
        rw [hstart, foldl_pieces, List.foldl_cons, List.foldl_nil, hend, ih]
        simp [hroot]

/-- The last piece of text of a name counts. -/
theorem get_foldl_set (ds : List Definition) (props : Props) (name : Str) :
  Dictionary.get (ds.foldl
      (fun props d => d.kept.foldl (fun props text => set props d.key text) props) props) name
    = (((ds.filter fun d => d.key = name).flatMap Definition.kept).getLast?).or
        (Dictionary.get props name)
  := by
  have hkept : ∀ (key : Str) (texts : List Str) (props : Props),
      Dictionary.get (texts.foldl (fun props text => set props key text) props) name
        = if key = name then texts.getLast?.or (Dictionary.get props name)
          else Dictionary.get props name := by
    intro key texts
    induction texts with
    | nil => simp
    | cons text texts ih =>
      intro props
      rw [List.foldl_cons, ih, get_set, List.getLast?_cons]
      by_cases hname : key = name
      · simp only [hname, if_true]
        cases texts.getLast? <;> rfl
      · simp [hname, Ne.symm hname]
  induction ds generalizing props with
  | nil => rfl
  | cons d ds ih =>
    rw [List.foldl_cons, ih, hkept, List.filter_cons]
    by_cases hname : d.key = name
    · rw [if_pos hname, if_pos (by simpa using hname), List.flatMap_cons, List.getLast?_append,
        Option.or_assoc]
    · rw [if_neg hname, if_neg (by simpa using hname)]

/-- The value that is read of a property is its last piece of text. -/
theorem get_parseProperties (pom : Pom) (name : Str) :
  Dictionary.get (parseProperties pom.properties) name = pom.lastPiece name
  := by
  have hstart : parseToken ⟨[], [], false⟩ (.startElement rootElement) = ⟨[], [], true⟩ := rfl
  have hend : ∀ s : ParserState, (parseToken s (.endElement rootElement)).props = s.props :=
    fun _ => rfl
  rw [parseProperties, wrapped, List.cons_append, List.foldl_cons, hstart, List.foldl_append,
    List.foldl_cons, List.foldl_nil, hend, foldl_items, get_foldl_set, get_nil, Option.or_none]
  rfl

/-! ### Parents -/

namespace Checkout

variable (c : Checkout)

/-- The project file that is loaded after one. -/
def nextPom (path : Str) : Option Str :=
  (c.parsePom path).bind fun pom => (c.loadParent path pom).map Prod.fst

/-- A path leads into the workspace. -/
def Inside (path : Str) : Prop :=
  elements (clean c.workspace) <+: elements path

instance (path : Str) : Decidable (c.Inside path) :=
  inferInstanceAs (Decidable (_ <+: _))

/-- The parent of a project file: what it names, if that is a project file in the workspace. -/
def parent (path : Str) : Option Str :=
  (c.parsePom path).bind fun pom => pom.parent.bind fun relativePath =>
    let parentPath := c.resolveParentPath path relativePath
    if c.Inside parentPath ∧ c.isDir parentPath = false ∧ (c.parsePom parentPath).isSome then
      some parentPath
    else none

/-- A project file is the nearest one that has a property, some steps on the way from a project file
to its parent and on. -/
def NearestFile (path name : Str) (n : Nat) (q : Str) (value : Str) : Prop :=
  Chase.follow c.parent n path = some q ∧ (c.parsePom q).bind (Pom.text · name) = some value ∧
    ∀ m < n, ∀ q', Chase.follow c.parent m path = some q' →
      (c.parsePom q').bind (Pom.text · name) = none

/-- The value of a property in the nearest project file that has it. -/
def Nearest (path name value : Str) : Prop :=
  ∃ n q, c.NearestFile path name n q value

/-- The name right below the workspace does not begin with two dots. -/
def isClear (path : Str) : Bool :=
  (((elements path).drop (elements (clean c.workspace)).length).head?).all fun e =>
    !dotDot.isPrefixOf e

/-- The nearest project file with a property is reached by way of project files that are clear, and
its last definition there has its text in one piece. -/
def Reads (path : Str) : Prop :=
  ∀ name n q value, c.NearestFile path name n q value →
    (∀ m < n, ∀ q', Chase.follow c.parent (m + 1) path = some q' → c.isClear q' = true) ∧
      (c.parsePom q).bind (Pom.lastPiece · name) = some value

variable {c}

/-- A path is absolute and clean. -/
def IsPlace (path : Str) : Prop :=
  SlashPath.isAbs path = true ∧ clean path = path

/-- The parent of a place is a place. -/
theorem resolveParentPath_isPlace {path : Str} (h : IsPlace path) (relativePath : Str) :
  IsPlace (c.resolveParentPath path relativePath)
  := by
  have hjoined : ∀ p, IsPlace (joined (dirName path) p) :=
    joined_of_isAbs (SlashPath.isAbs_dirName h.1)
  unfold resolveParentPath
  generalize (if relativePath = [] then "../pom.xml".toList else relativePath) = relative
  dsimp only
  split
  · exact joined_of_isAbs (hjoined _).1 _
  · exact hjoined _

/-- A parent that is loaded is a file that parses. -/
theorem loadParent_eq_some
    {path : Str} {pom : Pom} {path' : Str} {pom' : Pom}
    (h : c.loadParent path pom = some (path', pom')) :
  (∃ relativePath, path' = c.resolveParentPath path relativePath) ∧ c.parsePom path' = some pom'
  := by
  unfold loadParent at h
  split at h
  · cases h
  · rename_i relativePath hparent
    dsimp only at h
    split at h
    · obtain ⟨pom'', hpom, heq⟩ := Option.map_eq_some_iff.mp h
      cases heq
      exact ⟨⟨relativePath, rfl⟩, hpom⟩
    · cases h

theorem nextPom_eq_some {path path' : Str} (h : c.nextPom path = some path') :
  (∃ relativePath, path' = c.resolveParentPath path relativePath) ∧
    ∃ pom, c.parsePom path' = some pom
  := by
  obtain ⟨pom, -, h⟩ := Option.bind_eq_some_iff.mp h
  obtain ⟨⟨path'', pom'⟩, hload, rfl⟩ := Option.map_eq_some_iff.mp h
  obtain ⟨hnamed, hpom⟩ := loadParent_eq_some hload
  exact ⟨hnamed, pom', hpom⟩

theorem parent_isPlace {path path' : Str} (hpath : IsPlace path)
    (h : c.parent path = some path') :
  IsPlace path'
  := by
  obtain ⟨pom, -, h⟩ := Option.bind_eq_some_iff.mp h
  obtain ⟨relativePath, -, h⟩ := Option.bind_eq_some_iff.mp h
  dsimp only at h
  split at h
  · cases h
    exact resolveParentPath_isPlace hpath relativePath
  · cases h

/-- A path is taken for one in the workspace if it is, and its name is clear. -/
theorem isWithinWorkspace_iff {path : Str} (hpath : IsPlace path) :
  c.isWithinWorkspace path = true ↔ c.Inside path ∧ c.isClear path = true
  := by
  have hrel := SlashPath.rel_below_iff (SlashPath.isAbs_clean c.isAbs)
    (SlashPath.clean_clean c.isAbs) hpath.1 hpath.2
  have hwithin : c.isWithinWorkspace path = true ↔
      ∃ r, rel (clean c.workspace) path = some r ∧
        ¬ dotDot <+: r := by
    unfold isWithinWorkspace
    rw [hpath.2]
    cases rel (clean c.workspace) path with
    | none => simp
    | some r => simp [← List.isPrefixOf_iff_prefix]
  have hclear : ∀ rest, elements path = elements (clean c.workspace) ++ rest →
      (c.isClear path = true ↔ ∀ e ∈ rest.head?, ¬ dotDot <+: e) := by
    intro rest hrest
    rw [isClear, hrest, List.drop_left]
    cases rest.head? with
    | none => simp
    | some e => simp [← List.isPrefixOf_iff_prefix]
  rw [hwithin, hrel]
  constructor
  · rintro ⟨rest, hrest, hhead⟩
    exact ⟨⟨rest, hrest.symm⟩, (hclear rest hrest).mpr hhead⟩
  · rintro ⟨⟨rest, hrest⟩, hhead⟩
    exact ⟨rest, hrest.symm, (hclear rest hrest.symm).mp hhead⟩

/-- The parent that is loaded is the parent, if that is clear. -/
theorem nextPom_eq_parent {path : Str} (hpath : IsPlace path) :
  c.nextPom path = (c.parent path).filter c.isClear
  := by
  unfold nextPom parent
  cases c.parsePom path with
  | none => rfl
  | some pom =>
    rw [Option.bind_some, Option.bind_some]
    unfold loadParent
    cases pom.parent with
    | none => rfl
    | some relativePath =>
      have hplace := resolveParentPath_isPlace (c := c) hpath relativePath
      have hne : c.resolveParentPath path relativePath ≠ [] := by
        intro hnil
        have habs := hplace.1
        rw [hnil] at habs
        cases habs
      have hwithin := isWithinWorkspace_iff (c := c) hplace
      rw [Option.bind_some]
      dsimp only
      generalize c.resolveParentPath path relativePath = parentPath at *
      cases hpom : c.parsePom parentPath with
      | none => simp
      | some pom' =>
        by_cases hinside : c.Inside parentPath
        · have hcode : c.isWithinWorkspace parentPath = c.isClear parentPath := by
            rw [Bool.eq_iff_iff, hwithin, and_iff_right hinside]
          cases hdir : c.isDir parentPath <;> cases hclear : c.isClear parentPath
            <;> simp [Option.filter, hne, hinside, hcode, hclear]
        · have hout : c.isWithinWorkspace parentPath = false := by
            rw [← Bool.not_eq_true, hwithin]
            exact fun h => hinside h.1
          simp [hinside, hout]

theorem exists_walk_nextPom (path : Str) :
  ∃ trail stop, Chase.Walk c.nextPom [] path trail stop
  := by
  apply Chase.exists_walk (insert path (c.poms.map Prod.fst).toFinset) _
    (Finset.mem_insert_self _ _)
  intro k k' hnext
  obtain ⟨-, pom, hpom⟩ := nextPom_eq_some hnext
  apply Finset.mem_insert_of_mem
  rw [List.mem_toFinset]
  exact List.mem_map_of_mem (mem_of_get hpom)

end Checkout

/-- The properties of a file count before those of its parent. -/
theorem get_mergeProps (base override : Props) (name : Str) :
  Dictionary.get (mergeProps base override) name
    = (Dictionary.get override name).or (Dictionary.get base name)
  := by
  induction override with
  | nil => rfl
  | cons entry override ih =>
    have hcons : mergeProps base (entry :: override)
        = set (mergeProps base override) entry.1 entry.2 := rfl
    rw [hcons, get_set, ih, Dictionary.get]
    by_cases hname : name = entry.1
    · rw [if_pos hname, if_pos hname.symm]
      rfl
    · rw [if_neg hname, if_neg (Ne.symm hname)]

/-- The map has the properties of the walk over the parents, the nearest first. -/
theorem buildPropertyMap_of_walk
    {c : Checkout} {visited : List Str} {path : Str} {trail : List Str}
    {stop : Option Str} (h : Chase.Walk c.nextPom visited path trail stop)
    (hpath : Checkout.IsPlace path) {pom : Pom} (hpom : c.parsePom path = some pom) :
  ∃ props, Settles (fun fuel => buildPropertyMap c fuel visited path pom) props ∧
    ∀ name, Dictionary.get props name = trail.findSome? fun q =>
      (c.parsePom q).bind (Pom.lastPiece · name)
  := by
  induction h generalizing pom with
  | seen h =>
    refine ⟨[], ?_, fun name => rfl⟩
    apply Settles.succ
    apply Settles.of_forall
    intro fuel
    simp only [buildPropertyMap, hpath.2, h, if_true]
  | @last visited path h hnext =>
    have hload : c.loadParent path pom = none := by
      simpa [Checkout.nextPom, hpom] using hnext
    refine ⟨mergeProps [] (parseProperties pom.properties), ?_, fun name => ?_⟩
    · apply Settles.succ
      apply Settles.of_forall
      intro fuel
      simp only [buildPropertyMap, hpath.2, h, if_false, hload]
    · rw [get_mergeProps, get_nil, Option.or_none, get_parseProperties]
      simp [hpom]
  | @step visited path path' trail stop h hnext rest ih =>
    have hload : ∃ pom', c.loadParent path pom = some (path', pom') := by
      rw [Checkout.nextPom, hpom, Option.bind_some] at hnext
      obtain ⟨⟨path'', pom'⟩, hload, rfl⟩ := Option.map_eq_some_iff.mp hnext
      exact ⟨pom', hload⟩
    obtain ⟨pom', hload⟩ := hload
    obtain ⟨⟨relativePath, hnamed⟩, hpom'⟩ := Checkout.loadParent_eq_some hload
    have hpath' : Checkout.IsPlace path' := by
      rw [hnamed]
      exact Checkout.resolveParentPath_isPlace hpath relativePath
    obtain ⟨props, hsettles, hget⟩ := ih hpath' hpom'
    refine ⟨mergeProps (mergeProps [] props) (parseProperties pom.properties), ?_, fun name => ?_⟩
    · apply Settles.succ
      simp only [buildPropertyMap, hpath.2, h, if_false, hload]
      exact hsettles.map _
    · rw [get_mergeProps, get_mergeProps, get_nil, Option.or_none, hget,
        List.findSome?_cons, hpom, Option.bind_some, get_parseProperties]
      cases pom.lastPiece name with
      | none | some => rfl

section Nearest

variable {c : Checkout} {path : Str}

/-- Where a file of the way has a text there is a nearest one. -/
theorem exists_nearestFile (name : Str) {n : Nat} {q : Str}
    (hfollow : Chase.follow c.parent n path = some q)
    (htext : (c.parsePom q).bind (Pom.text · name) ≠ none) :
  ∃ m q' value, m ≤ n ∧ c.NearestFile path name m q' value
  := by
  classical
  have hexists : ∃ m q', Chase.follow c.parent m path = some q'
      ∧ (c.parsePom q').bind (Pom.text · name) ≠ none := ⟨n, q, hfollow, htext⟩
  obtain ⟨q', hq', htext'⟩ := Nat.find_spec hexists
  obtain ⟨value, hvalue⟩ := Option.ne_none_iff_exists'.mp htext'
  refine ⟨Nat.find hexists, q', value, Nat.find_min' hexists ⟨q, hfollow, htext⟩, hq', hvalue, ?_⟩
  intro m hm q'' hq''
  by_contra hne
  exact Nat.find_min hexists hm ⟨q'', hq'', hne⟩

theorem text_of_piece {q name piece : Str}
    (h : (c.parsePom q).bind (Pom.lastPiece · name) = some piece) :
  (c.parsePom q).bind (Pom.text · name) ≠ none
  := by
  obtain ⟨pom, hpom, hpiece⟩ := Option.bind_eq_some_iff.mp h
  rw [hpom]
  exact (text_of_lastPiece hpiece).1

theorem piece_of_text {q name : Str} (h : (c.parsePom q).bind (Pom.text · name) = none) :
  (c.parsePom q).bind (Pom.lastPiece · name) = none
  := by
  by_contra hne
  obtain ⟨piece, hpiece⟩ := Option.ne_none_iff_exists'.mp hne
  exact text_of_piece hpiece h

/-- The values that are found along the project files that are loaded are those of the nearest
definitions, exactly if all of these are read. -/
theorem reads_iff (hpath : Checkout.IsPlace path) :
  (∀ name value, (∃ n q, Chase.follow c.nextPom n path = some q ∧
      (c.parsePom q).bind (Pom.lastPiece · name) = some value ∧
      ∀ m < n, ∀ q', Chase.follow c.nextPom m path = some q' →
        (c.parsePom q').bind (Pom.lastPiece · name) = none) ↔ c.Nearest path name value)
    ↔ c.Reads path
  := by
  have hloaded : ∀ {n q}, Chase.follow c.nextPom n path = some q ↔
      Chase.follow c.parent n path = some q ∧
        ∀ m < n, ∀ q', Chase.follow c.parent (m + 1) path = some q' → c.isClear q' = true :=
    Chase.follow_filter (fun _ hk => Checkout.nextPom_eq_parent hk)
      (fun _ _ hk hnext => Checkout.parent_isPlace hk hnext) hpath
  constructor
  · intro h name n q value hnearest
    obtain ⟨n', q', hq', hpiece, hfirst⟩ := (h name value).mpr ⟨n, q, hnearest⟩
    obtain ⟨hfollow, htext, hbefore⟩ := hnearest
    have hle : n ≤ n' := by
      by_contra hlt
      exact text_of_piece hpiece (hbefore n' (by omega) q' (hloaded.mp hq').1)
    obtain ⟨q'', hq''⟩ := Chase.follow_of_le hq' hle
    obtain rfl : q'' = q := Option.some.inj ((hloaded.mp hq'').1.symm.trans hfollow)
    refine ⟨(hloaded.mp hq'').2, ?_⟩
    rcases Nat.eq_or_lt_of_le hle with rfl | hlt
    · rw [Option.some.inj (hq'.symm.trans hq'')] at hpiece
      exact hpiece
    -- A property without a piece of text is empty, or stands behind one that is lost itself.
    · exfalso
      have hnone := hfirst n hlt q'' hq''
      obtain ⟨pom, hpom, htext⟩ := Option.bind_eq_some_iff.mp htext
      rw [hpom, Option.bind_some] at hnone
      by_cases hroot : pom.text rootName = none
      · obtain ⟨pom', -, hpiece⟩ := Option.bind_eq_some_iff.mp hpiece
        rw [text_of_lastPiece_eq_none hroot hnone htext] at hpiece
        exact lastPiece_ne_nil hpiece
      · obtain ⟨m, p, lost, -, hlost⟩ :=
          exists_nearestFile rootName hfollow (by rwa [hpom])
        obtain ⟨_, _, _, hpiece, -⟩ := (h rootName lost).mpr ⟨m, p, hlost⟩
        obtain ⟨pom', -, hpiece⟩ := Option.bind_eq_some_iff.mp hpiece
        exact (text_of_lastPiece hpiece).2 rfl
  · intro h name value
    constructor
    · rintro ⟨n, q, hq, hpiece, hfirst⟩
      have hfollow := (hloaded.mp hq).1
      obtain ⟨m, q', value', hle, hnearest⟩ :=
        exists_nearestFile name hfollow (text_of_piece hpiece)
      obtain ⟨hclear, hpiece'⟩ := h name m q' value' hnearest
      have hq' : Chase.follow c.nextPom m path = some q' := hloaded.mpr ⟨hnearest.1, hclear⟩
      rcases Nat.eq_or_lt_of_le hle with rfl | hlt
      · obtain rfl : q = q' := Option.some.inj (hq.symm.trans hq')
        rw [hpiece, Option.some.injEq] at hpiece'
        exact ⟨m, q, hpiece' ▸ hnearest⟩
      · rw [hfirst m hlt q' hq'] at hpiece'
        cases hpiece'
    · rintro ⟨n, q, hnearest⟩
      obtain ⟨hclear, hpiece⟩ := h name n q value hnearest
      refine ⟨n, q, hloaded.mpr ⟨hnearest.1, hclear⟩, hpiece, fun m hm q' hq' => ?_⟩
      exact piece_of_text (hnearest.2.2 m hm q' (hloaded.mp hq').1)

end Nearest

/-- The properties of a project file and its parents are always found. Each has the value of the
nearest definition in the workspace, exactly if all of these are read. A value is always followed:
to its final value, or to a failure exactly where a name has no value or names refer to each other
in a circle. -/
theorem maven_properties_resolve (c : Checkout) (props : Props) :
  (∀ (path : Str) (pom : Pom), Checkout.IsPlace path → c.parsePom path = some pom →
    ∃ props, Settles (fun fuel => buildPropertyMap c fuel [] path pom) props ∧
      ((∀ name value, Dictionary.get props name = some value ↔ c.Nearest path name value)
        ↔ c.Reads path)) ∧
  (∀ value : Str, ∃ r, Settles (fun fuel => resolveValue props fuel value) r ∧
    (∀ final, r = .ok final ↔ Resolves props value final) ∧
    ((∃ name, r = .error (.unresolved name)) ↔ LeadsNowhere props value) ∧
    ((∃ name, r = .error (.circular name)) ↔ Circles props value))
  := by
  constructor
  · intro path pom hpath hpom
    obtain ⟨trail, stop, hwalk⟩ := Checkout.exists_walk_nextPom (c := c) path
    obtain ⟨props, hsettles, hget⟩ := buildPropertyMap_of_walk hwalk hpath hpom
    refine ⟨props, hsettles, ?_⟩
    simp only [hget, hwalk.findSome?_eq_some_iff]
    exact reads_iff hpath
  · exact resolveValue_settles props

/-! #### Project files -/

namespace Sample

def property (name : Char) (pieces : List Piece) : Item :=
  .property ⟨⟨[], [name], List.cons_ne_nil _ _⟩, pieces⟩

/-- A property that is called as the element around the list, up to a prefix. -/
def rootProperty (pieces : List Piece) : Item :=
  .property ⟨⟨['x'], rootName, by decide⟩, pieces⟩

/-- Two project files that are the parents of each other. -/
def circle : Checkout where
  workspace := "/w".toList
  isAbs := by decide
  isDir := fun path => path = "/w".toList || path = "/w/lib".toList
  poms := [("/w/pom.xml".toList, ⟨some "lib".toList,
      [property 'a' [.text "1".toList, .comment "c".toList]]⟩),
    ("/w/lib/pom.xml".toList, ⟨some [], [property 'b' [.text " 2\n".toList]]⟩)]

/-- A project file with a value in two pieces, with an empty one, with a property that is called as
the element around the list, and with a parent in a directory whose name begins with two dots. -/
def dots : Checkout where
  workspace := "/w".toList
  isAbs := by decide
  isDir := fun path => path = "/w".toList || path = "/w/..lib".toList
  poms := [("/w/pom.xml".toList, ⟨some "..lib".toList,
      [property 'a' [.text "1".toList, .comment "c".toList, .text "7".toList],
        property 'e' [], rootProperty [.text "x".toList], property 'b' [.text "2".toList]]⟩),
    ("/w/..lib/pom.xml".toList, ⟨none, [property 'c' [.text "3".toList]]⟩)]

def path : Str := "/w/pom.xml".toList

/-- In the circle every property is read. -/
theorem circle_reads :
  circle.Reads path
  := by
  have hon : ∀ n q, Chase.follow circle.parent n path = some q → q ∈ circle.poms.map Prod.fst := by
    intro n
    induction n with
    | zero =>
      rintro q ⟨⟩
      decide
    | succ n ih =>
      intro q hq
      rw [Chase.follow_add] at hq
      obtain ⟨q', hq', hnext⟩ := Option.bind_eq_some_iff.mp hq
      have hq' := ih q' hq'
      simp only [circle, List.map_cons, List.map_nil, List.mem_cons, List.not_mem_nil,
        or_false] at hq'
      rcases hq' with rfl | rfl
      · rw [show Chase.follow circle.parent 1 _ = some "/w/lib/pom.xml".toList by decide +kernel]
          at hnext
        cases hnext
        decide
      · rw [show Chase.follow circle.parent 1 _ = some "/w/pom.xml".toList by decide +kernel]
          at hnext
        cases hnext
        decide
  rintro name n q value ⟨hfollow, htext, -⟩
  constructor
  · intro m _ q' hq'
    exact (by decide : ∀ q ∈ circle.poms.map Prod.fst, circle.isClear q = true) q' (hon _ q' hq')
  · have hq := hon n q hfollow
    simp only [circle, List.map_cons, List.map_nil, List.mem_cons, List.not_mem_nil, or_false] at hq
    -- each file has one property
    rcases hq with rfl | rfl
    · by_cases hname : name = ['a']
      · rw [hname] at htext ⊢
        exact (by decide +kernel : _ = _).trans htext
      · rw [show (circle.parsePom "/w/pom.xml".toList).bind (Pom.text · name) = none from
          Option.map_eq_none_iff.mpr (List.find?_eq_none.mpr fun d hd => ?_)] at htext
        · cases htext
        · obtain rfl := List.mem_singleton.mp hd
          exact fun h => hname (of_decide_eq_true h).symm
    · by_cases hname : name = ['b']
      · rw [hname] at htext ⊢
        exact (by decide +kernel : _ = _).trans htext
      · rw [show (circle.parsePom "/w/lib/pom.xml".toList).bind (Pom.text · name) = none from
          Option.map_eq_none_iff.mpr (List.find?_eq_none.mpr fun d hd => ?_)] at htext
        · cases htext
        · obtain rfl := List.mem_singleton.mp hd
          exact fun h => hname (of_decide_eq_true h).symm

end Sample

theorem maven_properties_resolve_sample :
  (∃ props, Settles (fun fuel => buildPropertyMap Sample.circle fuel [] Sample.path
      ⟨some "lib".toList, [Sample.property 'a' [.text "1".toList, .comment "c".toList]]⟩) props ∧
    ∀ name value, Dictionary.get props name = some value ↔
      Sample.circle.Nearest Sample.path name value) ∧
  ∃ r, Settles (fun fuel => resolveValue [] fuel "17".toList) r ∧
    (∀ final, r = .ok final ↔ Resolves [] "17".toList final) ∧
    ((∃ name, r = .error (.unresolved name)) ↔ LeadsNowhere [] "17".toList) ∧
    ((∃ name, r = .error (.circular name)) ↔ Circles [] "17".toList)
  := by
  obtain ⟨props, hsettles, hget⟩ := (maven_properties_resolve Sample.circle []).1 Sample.path
    ⟨some "lib".toList, [Sample.property 'a' [.text "1".toList, .comment "c".toList]]⟩
    ⟨by decide, by decide⟩ rfl
  exact ⟨⟨props, hsettles, hget.mpr Sample.circle_reads⟩,
    (maven_properties_resolve Sample.circle []).2 "17".toList⟩

/-- Of a value in two pieces only the last is kept, and an empty value is not. Behind a property
that is called as the element around the list, no property is read. A parent in the workspace is not
loaded where a name begins with two dots. -/
theorem maven_properties_lost :
  Settles (fun fuel => buildPropertyMap Sample.dots fuel [] Sample.path
      ⟨some "..lib".toList,
        [Sample.property 'a' [.text "1".toList, .comment "c".toList, .text "7".toList],
          Sample.property 'e' [], Sample.rootProperty [.text "x".toList],
          Sample.property 'b' [.text "2".toList]]⟩)
    [("a".toList, "7".toList)] ∧
  Sample.dots.Nearest Sample.path "a".toList "17".toList ∧
  Sample.dots.Nearest Sample.path "e".toList [] ∧
  Sample.dots.Nearest Sample.path "b".toList "2".toList ∧
  Sample.dots.Nearest Sample.path "c".toList "3".toList
  := by
  refine ⟨⟨1, fun fuel hfuel => ?_⟩, ?_, ?_, ?_, ?_⟩
  · obtain ⟨fuel, rfl⟩ : ∃ k, fuel = k + 1 := ⟨fuel - 1, by omega⟩
    have hload : Sample.dots.loadParent Sample.path ⟨some "..lib".toList,
        [Sample.property 'a' [.text "1".toList, .comment "c".toList, .text "7".toList],
          Sample.property 'e' [], Sample.rootProperty [.text "x".toList],
          Sample.property 'b' [.text "2".toList]]⟩ = none := by decide +kernel
    simp only [buildPropertyMap, hload, List.not_mem_nil, if_false]
    decide +kernel
  · exact ⟨0, Sample.path, rfl, by decide +kernel, fun m hm => absurd hm (Nat.not_lt_zero m)⟩
  · exact ⟨0, Sample.path, rfl, by decide +kernel, fun m hm => absurd hm (Nat.not_lt_zero m)⟩
  · exact ⟨0, Sample.path, rfl, by decide +kernel, fun m hm => absurd hm (Nat.not_lt_zero m)⟩
  · refine ⟨1, "/w/..lib/pom.xml".toList, by decide +kernel, by decide +kernel, ?_⟩
    intro m hm q hq
    obtain rfl : m = 0 := by omega
    cases hq
    decide +kernel

end Maven

end Ploy
