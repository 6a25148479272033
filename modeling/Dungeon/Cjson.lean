import Mathlib.Data.Int.Notation
import Mathlib.Data.List.Find

/-!
# JSON trees (`cJSON.c`)

A parsed document, as far as the program looks at it, and how it looks things up.

- `Json`: a tree. A number is kept as `valueint`, which is all the program reads of one.
- `cjsonGetObjectItem`: the first member of a name, whatever the case of its letters.
-/

namespace Dungeon

/-- `cJSON`, by its `type`. -/
inductive Json where
  | false
  | true
  | null
  | number (valueint : ℤ)
  | string (valuestring : String)
  | array (items : List Json)
  | object (members : List (String × Json))

/-- `cJSON_strcasecmp` gives zero. -/
def sameName (s₁ s₂ : String) : Bool := s₁.toList.map Char.toLower = s₂.toList.map Char.toLower

/-- `cJSON_GetObjectItem`. The items of an array have no names, and other values no items. -/
def cjsonGetObjectItem (object : Json) (name : String) : Option Json :=
  match object with
  | .object members => (members.find? fun m => sameName m.1 name).map Prod.snd
  | .false | .true | .null | .number _ | .string _ | .array _ => none

end Dungeon
