import LightCone.Json.Value
import LightCone.Position

/-!
Taking JSON values apart.

A record is an object with its fields by name, or an array with its fields in order. This file

1. names the faults of a document that have a text of their own (`DocumentFault`);
2. describes records by their fields (`Shape`), and takes a value apart as one
   (`Shape.decode`): fields are met in the order of the text, so the first fault there wins,
   and missing fields are named after the last field, in the order of the shape;
3. takes apart words of a list, numbers, texts and lists.
-/
namespace LightCone.Json

/-- What keeps a document from being read as a type. -/
inductive DocumentFault where
  | missingField (name : String)
  | duplicateField (name : String)
  | unknownVariant (given : String) (known : List String)
  | position (fault : PositionFault)
  /-- Anything else: a text that is no document, or a part of another type. -/
  | other
  deriving DecidableEq

/-- A name between the quotes of fault texts. -/
def ticked (name : String) : String := "`" ++ name ++ "`"

/-- The text of a fault, if it has one. -/
def DocumentFault.message : DocumentFault → Option String
  | missingField name => some ("missing field " ++ ticked name)
  | duplicateField name => some ("duplicate field " ++ ticked name)
  | unknownVariant given known =>
    some ("unknown variant " ++ ticked given ++ ", expected one of " ++
      ", ".intercalate (known.map ticked))
  | position fault => some ("Invalid position: " ++ fault.message)
  | other => none

abbrev Decoder (α : Type) := Value → Except DocumentFault α

/-! ## Single values -/

def decodeNat (limit : Nat) : Decoder Nat
  | .number (.natural n) => if n < limit then .ok n else .error .other
  | _ => .error .other

def decodeReal : Decoder Binary64
  | .number (.natural n) => .ok (.ofNat n)
  | .number (.negative n) => .ok (-(.ofNat n))
  | .number (.real x) => .ok x
  | _ => .error .other

def decodeText : Decoder String
  | .string (some s) => .ok s
  | _ => .error .other

def decodeBool : Decoder Bool
  | .bool b => .ok b
  | _ => .error .other

def decodeOption {α : Type} (decode : Decoder α) : Decoder (Option α)
  | .null => .ok none
  | v => (decode v).map some

def decodeItems {α : Type} (decode : Decoder α) : List Value → Except DocumentFault (List α)
  | [] => .ok []
  | v :: rest => do
    let a ← decode v
    let as ← decodeItems decode rest
    .ok (a :: as)

def decodeList {α : Type} (decode : Decoder α) : Decoder (List α)
  | .array items closed => do
    let as ← decodeItems decode items
    if closed then .ok as else .error .other
  | _ => .error .other

/-- The element of a list that a word names. -/
def decodeWord {α : Type} (all : List α) (name : α → String) (word : String) : Except DocumentFault α :=
  match all.find? fun a => name a = word with
  | some a => .ok a
  | none => .error (.unknownVariant word (all.map name))

/-- One of a list of words, by itself or as the name of a field that holds null. -/
def decodeChoice {α : Type} (all : List α) (name : α → String) : Decoder α
  | .string (some word) => decodeWord all name word
  | .object ((some word, v) :: rest) closed => do
    let a ← decodeWord all name word
    match v, rest, closed with
    | .null, [], true => .ok a
    | _, _, _ => .error .other
  | _ => .error .other

/-! ## Records -/

/-- A record: the names of its fields, each with a test of its value, and how the values of
    the fields make the record. -/
structure Shape (α : Type) where
  tests : List (String × Decoder Unit)
  /-- Makes the record from the value of each field, given the fault of a missing one. -/
  build : (String → Option Value) → (String → DocumentFault) → Except DocumentFault α

namespace Shape

variable {α β : Type}

instance : Functor Shape where
  map f s := ⟨s.tests, fun values missing => (s.build values missing).map f⟩

instance : Applicative Shape where
  pure a := ⟨[], fun _ _ => .ok a⟩
  seq sf sa :=
    let a := sa ()
    ⟨sf.tests ++ a.tests, fun values missing => do
      let f ← sf.build values missing
      let x ← a.build values missing
      .ok (f x)⟩

/-- A field that has a default or not. -/
def fieldOr (name : String) (decode : Decoder α) (default : Option α) : Shape α where
  tests := [(name, fun v => (decode v).map fun _ => ())]
  build values missing :=
    match values name, default with
    | some v, _ => decode v
    | none, some a => .ok a
    | none, none => .error (missing name)

def field (name : String) (decode : Decoder α) : Shape α := fieldOr name decode none

/-- A field that is none where it is null or missing. In an array it must be there. -/
def optional (name : String) (decode : Decoder α) : Shape (Option α) where
  tests := [(name, fun v => (decodeOption decode v).map fun _ => ())]
  build values missing :=
    match values name with
    | some v => decodeOption decode v
    | none => if missing name = .missingField name then .ok none else .error (missing name)

/-- Meets the fields of an object in order: known ones once and with a value of their type,
    others with any value. -/
def meet (tests : List (String × Decoder Unit)) (strict : Bool) :
    List String → List (Option String × Value) → Except DocumentFault Unit
  | _, [] => .ok ()
  | _, (none, _) :: _ => .error .other
  | seen, (some name, v) :: rest =>
    match tests.find? fun t => t.1 = name with
    | some (_, test) =>
      if name ∈ seen then .error (.duplicateField name)
      else do
        test v
        meet tests strict (name :: seen) rest
    | none => if strict || !v.isClosed then .error .other else meet tests strict seen rest

def valueOf (fields : List (Option String × Value)) (name : String) : Option Value :=
  (fields.find? fun f => f.1 = some name).map Prod.snd

/-- Takes an object or an array apart; `strict` refuses fields that the shape does not name. -/
def decodeWith (strict : Bool) (s : Shape α) : Decoder α
  | .object fields closed => do
    meet s.tests strict [] fields
    if closed then s.build (valueOf fields) .missingField else .error .other
  | .array items closed => do
    let names := s.tests.map Prod.fst
    let a ← s.build (valueOf ((names.map some).zip items)) fun _ => .other
    if closed && items.length ≤ names.length then .ok a else .error .other
  | _ => .error .other

def decode (s : Shape α) : Decoder α := s.decodeWith false

end Shape
end LightCone.Json
