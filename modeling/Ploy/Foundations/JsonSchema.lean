import Ploy.Foundations.Dictionary
import Ploy.Foundations.JsonText

/-!
# Schemas

A schema says which values are well formed. It is a test, put together from tests of the parts of a
value. An object may have members that its schema does not mention.
-/

namespace JsonSchema

open JsonText (Value)

abbrev Schema := Value → Bool

def string : Schema
  | .string _ => true
  | _ => false

def number : Schema
  | .number _ => true
  | _ => false

def boolean : Schema
  | .bool _ => true
  | _ => false

/-- An array of well-formed elements. -/
def arrayOf (item : Schema) : Schema
  | .array l => l.all item
  | _ => false

/-- An object all of whose members are well formed. -/
def mapOf (item : Schema) : Schema
  | .object l => l.all fun m => item m.2
  | _ => false

/-- An object whose members are well formed where the schema mentions them. -/
def object (properties : List (Str × Schema)) : Schema
  | .object l => properties.all fun p => (Dictionary.get l p.1).all p.2
  | _ => false

/-- An object that has a member. -/
def has (key : Str) : Schema
  | .object l => (Dictionary.get l key).isSome
  | _ => false

/-- One or the other of two schemas that no value meets both of. -/
def either (a b : Schema) : Schema :=
  fun v => a v || b v

def both (a b : Schema) : Schema :=
  fun v => a v && b v

theorem object_congr
    {properties : List (Str × Schema)} {l l' : List (Str × Value)}
    (h : ∀ p ∈ properties, (Dictionary.get l p.1).all p.2 = (Dictionary.get l' p.1).all p.2) :
  object properties (.object l) = object properties (.object l')
  := by
  rw [object, object, Bool.eq_iff_iff, List.all_eq_true, List.all_eq_true]
  constructor
  · intro hall p hp
    rw [← h p hp]
    exact hall p hp
  · intro hall p hp
    rw [h p hp]
    exact hall p hp

end JsonSchema
