import MixedInteger.Json.Token

/-!
# JSON documents

`Json.parse?` accepts exactly one value with nothing but white space around it. Members of an object
are kept in order and may repeat; what that means is left to the reader of the object.

* `Json.parse?`: the value of a document;
* `Json.record?`: the fields of an object, or of an array of fields in order;
* `Json.field?`: a field that may be missing but not repeated;
* `Json.isBuffered`: limits on values whose type is not known while they are read.
-/

namespace MixedInteger

inductive Json where
  | null
  | bool (value : Bool)
  | number (value : Json.Number)
  | string (value : Json.Content)
  | array (items : List Json)
  | object (members : List (Json.Content × Json))

namespace Json

/-- An array or object that is not closed yet, its finished parts in reverse order. -/
inductive Frame where
  | array (items : List Json)
  | object (members : List (Content × Json)) (key : Content)

/-- What the next token may be. -/
inductive Expected where
  /-- A value. -/
  | value
  /-- A value, or the end of an array without items. -/
  | firstItem
  /-- A key of an object with the given members. -/
  | key (members : List (Content × Json))
  /-- A key, or the end of an object without members. -/
  | firstKey
  | colon (members : List (Content × Json)) (key : Content)
  /-- What may follow a finished value: a comma, the end of the frame around it, or of the text. -/
  | after (value : Json)

/-- A token that is a value by itself. -/
def scalar? : Token → Option Json
  | .null => some .null
  | .bool b => some (.bool b)
  | .number n => some (.number n)
  | .string s => some (.string s)
  | _ => none

/-- A token at the beginning of a value. -/
def beginValue? (stack : List Frame) : Token → Option (Expected × List Frame)
  | .openBracket => some (.firstItem, .array [] :: stack)
  | .openBrace => some (.firstKey, stack)
  | t => (scalar? t).map fun v => (.after v, stack)

/-- One token moves the reader on, or is refused. -/
def advance? (stack : List Frame) : Expected → Token → Option (Expected × List Frame)
  | .value, t => beginValue? stack t
  | .firstItem, .closeBracket => some (.after (.array []), stack.tail)
  | .firstItem, t => beginValue? stack t
  | .firstKey, .closeBrace => some (.after (.object []), stack)
  | .firstKey, .string k => some (.colon [] k, stack)
  | .key ms, .string k => some (.colon ms k, stack)
  | .colon ms k, .colon => some (.value, .object ms k :: stack)
  | .after v, t =>
    match stack, t with
    | .array items :: stack, .comma => some (.value, .array (v :: items) :: stack)
    | .array items :: stack, .closeBracket => some (.after (.array (v :: items).reverse), stack)
    | .object ms k :: stack, .comma => some (.key ((k, v) :: ms), stack)
    | .object ms k :: stack, .closeBrace => some (.after (.object ((k, v) :: ms).reverse), stack)
    | _, _ => none
  | _, _ => none

/-- Reads tokens to the end, where exactly one value must be finished. -/
def read? : (expected : Expected) → (stack : List Frame) → List Token → Option Json
  | .after v, [], [] => some v
  | _, _, [] => none
  | expected, stack, t :: ts =>
    match advance? stack expected t with
    | some (expected', stack') => read? expected' stack' ts
    | none => none

def parse? (document : String) : Option Json := do read? .value [] (← tokenize? document)

/-- The members of an object whose keys are all text. -/
def members? (ms : List (Content × Json)) : Option (List (String × Json)) :=
  ms.mapM fun (k, v) => k.map fun k => (k, v)

/-- The fields of a record, written as an object or as an array in the order of `names`. Fields at
the end of the array may be missing, but there may be no more than `names`. -/
def record? (names : List String) : Json → Option (List (String × Json))
  | .object ms => members? ms
  | .array items => if items.length ≤ names.length then some (names.zip items) else none
  | _ => none

/-- The value of a field, or none if the field is missing; a repeated field is refused. -/
def single? (fields : List (String × Json)) (name : String) : Option (Option Json) :=
  match fields.filter fun f => f.1 = name with
  | [] => some none
  | [f] => some (some f.2)
  | _ => none

/-- A field that takes a default if it is missing. -/
def field? {β : Type} (fields : List (String × Json)) (name : String) (default : β)
    (read : Json → Option β) : Option β := do
  match ← single? fields name with
  | none => some default
  | some v => read v

/-- A field that must be there. -/
def required? {β : Type} (fields : List (String × Json)) (name : String)
    (read : Json → Option β) : Option β := do read (← (← single? fields name))

def asBool? : Json → Option Bool
  | .bool b => some b
  | _ => none

def asFloat? : Json → Option Float
  | .number n => n.toFloat?
  | _ => none

def asWord? : Json → Option Nat
  | .number n => n.toWord?
  | _ => none

/-- Null, or a value. -/
def orNull? {β : Type} (read : Json → Option β) : Json → Option (Option β)
  | .null => some none
  | v => (read v).map some

/-- The name of a variant without data: a string, or an object that maps the name to null. -/
def asVariant? : Json → Option String
  | .string s => s
  | .object [(k, .null)] => k
  | _ => none

mutual

/-- How deeply arrays and objects are nested. -/
def depth : Json → Nat
  | .array items => 1 + depthItems items
  | .object ms => 1 + depthMembers ms
  | _ => 0

def depthItems : List Json → Nat
  | [] => 0
  | v :: vs => max v.depth (depthItems vs)

def depthMembers : List (Content × Json) → Nat
  | [] => 0
  | (_, v) :: ms => max v.depth (depthMembers ms)

end

mutual

/-- Every string is text and every number has a value. -/
def isDefinite : Json → Bool
  | .string s => s.isSome
  | .number n => n.toWord?.isSome || n.toFloat?.isSome
  | .array items => isDefiniteItems items
  | .object ms => isDefiniteMembers ms
  | .null | .bool _ => true

def isDefiniteItems : List Json → Bool
  | [] => true
  | v :: vs => v.isDefinite && isDefiniteItems vs

def isDefiniteMembers : List (Content × Json) → Bool
  | [] => true
  | (k, v) :: ms => k.isSome && v.isDefinite && isDefiniteMembers ms

end

/-- The deepest nesting of a document whose values are kept before their type is known. -/
def nestingLimit : Nat := 127

/-- A member of an object that is kept before its type is known. -/
def isBuffered (v : Json) : Bool := v.isDefinite && decide (1 + v.depth ≤ nestingLimit)

/-! ## Writing -/

/-- A string without characters that need an escape. -/
def plainString (s : String) : String := "\"" ++ s ++ "\""

/-- An object from its keys and the texts of its values. -/
def objectText (fields : List (String × String)) : String :=
  "\x7b" ++ String.intercalate "," (fields.map fun f => plainString f.1 ++ ":" ++ f.2) ++ "\x7d"

end Json

end MixedInteger
