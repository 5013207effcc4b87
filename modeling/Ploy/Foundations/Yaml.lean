import Ploy.Foundations.Dictionary
import Ploy.Foundations.JsonText

/-!
# YAML documents

A file is read into a node. A node that has an anchor is also kept on its own, and the aliases of it
refer to it by its number, so that a node may refer to one that it is part of. When a node is
written, an alias is written by the name of its anchor, and when it is read again it refers to the
last anchor of that name before it.
-/

namespace Yaml

open JsonText (Value)

/-- A node. One that has no anchor has the empty one. -/
inductive Node where
  | scalar (anchor tag value : Str)
  | sequence (anchor : Str) (items : List Node)
  | mapping (anchor : Str) (entries : List (Node × Node))
  /-- An alias of the node with a number. -/
  | reference (name : Str) (target : Nat)
  /-- An alias that holds a node of its own. -/
  | copy (name : Str) (target : Node)

/-- A file as it is read: its root, and its nodes with an anchor in their order. -/
structure File where
  root : Node
  anchored : List Node

namespace Node

/-- The node that an alias holds. -/
def deref : Node → Node
  | .copy _ target => target
  | node => node

/-- A change made to the node that an alias holds. -/
def onTarget (f : Node → Node) : Node → Node
  | .copy name target => .copy name (f target)
  | node => f node

/-- The text of a node: that of a scalar, or the name of an alias. -/
def value : Node → Str
  | .scalar _ _ value => value
  | .reference name _ => name
  | .copy name _ => name
  | _ => []

def isScalar : Node → Bool
  | .scalar .. => true
  | _ => false

end Node

/-- What is done to the key and then to the value of an entry. -/
def onEntry {m : Type → Type} [Monad m] {β : Type} (f : Node → m β) (entry : Node × Node) :
    m (β × β) := do
  let key ← f entry.1
  let value ← f entry.2
  return (key, value)

/-! ### Copying -/

/-- A node and the nodes its aliases refer to, copied. There is no copy when the steps do not
suffice, as when a node refers to one that it is part of. -/
def cloneNode (anchored : List Node) : Nat → Node → Option Node
  | 0, _ => none
  | _ + 1, .scalar anchor tag value => some (.scalar anchor tag value)
  | fuel + 1, .sequence anchor items =>
    (items.mapM (cloneNode anchored fuel)).map (.sequence anchor)
  | fuel + 1, .mapping anchor entries =>
    (entries.mapM (onEntry (cloneNode anchored fuel))).map (.mapping anchor)
  | fuel + 1, .reference name target =>
    match anchored[target]? with
    | some node => (cloneNode anchored fuel node).map (.copy name)
    | none => some (.reference name target)
  | fuel + 1, .copy name target => (cloneNode anchored fuel target).map (.copy name)

/-! ### Reading what was written -/

/-- The anchors met so far: their names, the last first, and the values of those that are
complete. -/
structure Anchors where
  names : List (Str × Nat)
  values : List (Option Value)

namespace Anchors

def empty : Anchors := ⟨[], []⟩

/-- An anchor whose node begins. -/
def enter (a : Anchors) (name : Str) : Anchors :=
  if name = [] then a else ⟨(name, a.values.length) :: a.names, a.values ++ [none]⟩

/-- The node that began when there were `n` anchors is complete. -/
def leave (a : Anchors) (name : Str) (n : Nat) (v : Value) : Anchors :=
  if name = [] then a else ⟨a.names, a.values.set n (some v)⟩

end Anchors

/-- Why a written node cannot be read. -/
inductive DecodeError where
  | unknownAnchor (name : Str)
  | containsItself (name : Str)
  | duplicateKey (key : Str)
  | scalar (tag value : Str)
  deriving DecidableEq, Repr

/-- The value of the last anchor of a name. -/
def lookupAnchor (a : Anchors) (name : Str) : Except DecodeError Value :=
  match Dictionary.get a.names name with
  | none => .error (.unknownAnchor name)
  | some n =>
    match a.values[n]? with
    | some (some v) => .ok v
    | _ => .error (.containsItself name)

mutual

/-- The value of a written node, where `scalar` says what a tagged text stands for. -/
def decode (scalar : Str → Str → Option Value) :
    Node → Anchors → Except DecodeError (Value × Anchors)
  | .scalar anchor tag value, a =>
    match scalar tag value with
    | some v => .ok (v, (a.enter anchor).leave anchor a.values.length v)
    | none => .error (.scalar tag value)
  | .sequence anchor items, a => do
      let (l, a') ← decodeItems scalar items (a.enter anchor)
      return (.array l, a'.leave anchor a.values.length (.array l))
  | .mapping anchor entries, a => do
      let (d, a') ← decodeEntries scalar entries [] (a.enter anchor)
      return (.object d, a'.leave anchor a.values.length (.object d))
  | .reference name _, a => (lookupAnchor a name).map fun v => (v, a)
  | .copy name _, a => (lookupAnchor a name).map fun v => (v, a)

def decodeItems (scalar : Str → Str → Option Value) :
    List Node → Anchors → Except DecodeError (List Value × Anchors)
  | [], a => .ok ([], a)
  | node :: rest, a => do
      let (v, a) ← decode scalar node a
      let (l, a) ← decodeItems scalar rest a
      return (v :: l, a)

/-- The entries of a mapping. Its keys are strings. -/
def decodeEntries (scalar : Str → Str → Option Value) :
    List (Node × Node) → List (Str × Value) → Anchors →
      Except DecodeError (List (Str × Value) × Anchors)
  | [], d, a => .ok (d, a)
  | (key, node) :: rest, d, a => do
      if (Dictionary.get d key.value).isSome then .error (.duplicateKey key.value)
      let (v, a) ← decode scalar node a
      decodeEntries scalar rest (Dictionary.set d key.value v) a

end

end Yaml
