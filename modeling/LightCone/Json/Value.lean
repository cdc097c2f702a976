import LightCone.Binary64.Basic

/-!
Values of JSON documents, read as far as the text goes.

A document that breaks off or goes wrong at some place still has a value up to there: the
broken part is `malformed`, and each array and object around it is not `closed`. So whoever
takes a value apart in the order of the text meets a fault of meaning before a later fault of
form, and the other way round.
-/
namespace LightCone.Json

/-- A number: a whole one of 64 bits without a sign, a negative whole one of 64 bits with it,
    any other one as binary64, or one past its range. -/
inductive Number where
  | natural (n : Nat)
  | negative (n : Nat)
  | real (x : Binary64)
  | tooLarge
  deriving DecidableEq

/-- A value, or what there is of it. -/
inductive Value where
  | null
  | bool (b : Bool)
  | number (n : Number)
  /-- A text; none if an escape in it names half a character. -/
  | string (text : Option String)
  | array (items : List Value) (closed : Bool)
  | object (fields : List (Option String × Value)) (closed : Bool)
  | malformed
  deriving Inhabited

namespace Value

def text (s : String) : Value := string (some s)

/-- Whether nothing in the value is malformed, as far as it is read at all. -/
def isClosed : Value → Bool
  | array _ closed => closed
  | object _ closed => closed
  | malformed => false
  | _ => true

mutual

/-- The number of arrays and objects that stand in one another. -/
def depth : Value → Nat
  | array items _ => 1 + depthOfItems items
  | object fields _ => 1 + depthOfFields fields
  | _ => 0

def depthOfItems : List Value → Nat
  | [] => 0
  | v :: rest => max (depth v) (depthOfItems rest)

def depthOfFields : List (Option String × Value) → Nat
  | [] => 0
  | (_, v) :: rest => max (depth v) (depthOfFields rest)

end

mutual

/-- Whether every part has a value of its own: all is closed, every text is whole, and every
    number is in range. -/
def isWhole : Value → Bool
  | number n => n ≠ .tooLarge
  | string text => text.isSome
  | array items closed => closed && itemsWhole items
  | object fields closed => closed && fieldsWhole fields
  | malformed => false
  | _ => true

def itemsWhole : List Value → Bool
  | [] => true
  | v :: rest => isWhole v && itemsWhole rest

def fieldsWhole : List (Option String × Value) → Bool
  | [] => true
  | (key, v) :: rest => key.isSome && isWhole v && fieldsWhole rest

end

end Value
end LightCone.Json
