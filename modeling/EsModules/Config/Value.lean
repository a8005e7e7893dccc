/-!
# Settings as data

A layer of the configuration is a dictionary.  Dictionaries are kept in the order of their keys,
so that one with given entries has one form.
-/

namespace EsModules
namespace Config

/-- One more than the greatest signed integer of 64 bits. -/
def signedLimit : Nat := 0x8000000000000000

/-- One more than the greatest unsigned integer of 64 bits. -/
def unsignedLimit : Nat := 0x10000000000000000

/-- A value as it is written in a file or in the environment. -/
inductive Value where
  /-- No value. -/
  | unit
  | bool (value : Bool)
  /-- An integer that was read as a signed one. -/
  | signed (value : Int)
  /-- An integer that was read as an unsigned one. -/
  | unsigned (value : Nat)
  /-- A number with a fraction or an exponent, in plain decimal digits. -/
  | float (digits : String)
  /-- A single character. -/
  | char (value : Char)
  | string (value : String)
  | list (items : List Value)
  | dict (fields : List (String × Value))
  deriving Inhabited

/-- The entries of a dictionary. -/
abbrev Fields : Type :=
  List (String × Value)

namespace Fields

/-- The value of a key. -/
def get? (fields : Fields) (key : String) : Option Value :=
  (fields.find? (·.1 == key)).map (·.2)

/-- Sets the value of a key and keeps the keys in order. -/
def set : Fields → String → Value → Fields
  | [], key, value => [(key, value)]
  | (k, v) :: rest, key, value =>
      if key < k then (key, value) :: (k, v) :: rest
      else if key == k then (key, value) :: rest
      else (k, v) :: set rest key value

/-- The dictionary with the given entries; of two for one key the later one counts. -/
def ofList (entries : List (String × Value)) : Fields :=
  entries.foldl (fun fields (key, value) => fields.set key value) []

end Fields

mutual

/-- Lays a value over another.  Dictionaries are merged key by key, and anything else replaces
what lies below it. -/
def Value.over : Value → Value → Value
  | .dict upper, .dict lower => .dict (Fields.over upper lower)
  | upper, _ => upper

/-- Lays the entries of a dictionary over those of another. -/
def Fields.over : List (String × Value) → Fields → Fields
  | [], lower => lower
  | (key, value) :: rest, lower =>
      let merged := match lower.get? key with
        | some below => value.over below
        | none => value
      Fields.over rest (lower.set key merged)

end

end Config
end EsModules
