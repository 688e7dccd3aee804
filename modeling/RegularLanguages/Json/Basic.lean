/-!
# JSON values

Values as they are written: objects keep all their fields in order, repeated ones too, and numbers
keep their digits.
-/

namespace RegularLanguages

inductive Json where
  | null
  | bool (b : Bool)
  /-- A number, by its digits. -/
  | number (digits : String)
  | string (s : String)
  | array (items : List Json)
  | object (fields : List (String × Json))
  /-- A string, or an object with a field name, of which an escape names half a surrogate pair
  only. -/
  | garbled
deriving Inhabited

namespace Json

/-- The value of a field: `none` if it is repeated, and `some none` if it is missing. -/
def uniqueField (fields : List (String × Json)) (name : String) : Option (Option Json) :=
  match fields.filter fun f => decide (f.1 = name) with
  | [] => some none
  | [f] => some (some f.2)
  | _ => none

/--
The fields of a record with known names, in the order of the names. An object may leave fields out
and may have other fields, but must not repeat a known one. An array lists the fields in order and
may stop early.
-/
def record? (names : List String) : Json → Option (List (Option Json))
  | object fields => names.mapM (uniqueField fields)
  | array items =>
    if items.length ≤ names.length then
      some (items.map some ++ List.replicate (names.length - items.length) none)
    else none
  | _ => none

def array? : Json → Option (List Json)
  | array items => some items
  | _ => none

def object? : Json → Option (List (String × Json))
  | object fields => some fields
  | _ => none

def string? : Json → Option String
  | string s => some s
  | _ => none

end Json

end RegularLanguages
