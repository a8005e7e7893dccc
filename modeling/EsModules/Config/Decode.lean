import EsModules.Config.Value

/-!
# Typed settings

Turns values into settings of known types, or says at which place a value has the wrong type.
-/

namespace EsModules
namespace Config

/-- Why a value is not what its place needs. -/
inductive TypeFault where
  | wrongType (found expected : String)
  | outOfRange (found expected : String)
  | unknownVariant (found : String) (known : List String)
  deriving DecidableEq, Repr, Inhabited

/-- A value that is not what its place needs. -/
structure FieldFault where
  /-- The keys and indices that lead to the value. -/
  path : List String
  fault : TypeFault
  deriving DecidableEq, Repr, Inhabited

/-- A text between grave accents. -/
def accented (text : String) : String :=
  "\x60" ++ text ++ "\x60"

/-- A choice between words. -/
def alternatives : List String → String
  | [] => "none"
  | [a] => accented a
  | [a, b] => accented a ++ " or " ++ accented b
  | known => "one of " ++ String.intercalate ", " (known.map accented)

/-- The text that tells the user what is wrong. -/
def TypeFault.message : TypeFault → String
  | wrongType found expected => s!"invalid type: found {found}, expected {expected}"
  | outOfRange found expected => s!"invalid value {found}, expected {expected}"
  | unknownVariant found known =>
      "unknown variant: found " ++ accented found ++ ", expected " ++ accented (alternatives known)

/-- A character that is shown by its code. -/
def isHidden (c : Char) : Bool :=
  c < ' ' || (c.toNat ≥ 0x7f && c.toNat ≤ 0xa0) || c.toNat == 0xad
    || (0x200b ≤ c.toNat && c.toNat ≤ 0x200f) || (0x2028 ≤ c.toNat && c.toNat ≤ 0x202f)
    || c.toNat == 0xfeff

/-- A character of a text as it is shown to the user. -/
def shownChar (c : Char) : List Char :=
  match c with
  | '"' => ['\\', '"']
  | '\\' => ['\\', '\\']
  | '\n' => ['\\', 'n']
  | '\r' => ['\\', 'r']
  | '\t' => ['\\', 't']
  | '\x00' => ['\\', '0']
  | _ =>
      if isHidden c then '\\' :: 'u' :: '\x7b' :: Nat.toDigits 16 c.toNat ++ ['\x7d'] else [c]

/-- A text as it is shown to the user. -/
def shownText (text : String) : String :=
  "\"" ++ String.ofList (text.toList.flatMap shownChar) ++ "\""

/-- What a value is. -/
def Value.describe : Value → String
  | unit => "unit"
  | bool value => if value then "bool true" else "bool false"
  | signed value => "signed int " ++ accented (toString value)
  | unsigned value => "unsigned int " ++ accented (toString value)
  | float digits => "float " ++ accented digits
  | char value => "string " ++ shownText (String.singleton value)
  | string value => "string " ++ shownText value
  | list _ => "sequence"
  | dict _ => "map"

/-- Reads a setting from a value. -/
abbrev Decoder (α : Type) : Type :=
  Value → Except FieldFault α

namespace Decoder

/-- A fault of the value itself. -/
def fail {α : Type} (fault : TypeFault) : Except FieldFault α :=
  .error ⟨[], fault⟩

/-- The value is of the wrong type. -/
def mismatch {α : Type} (value : Value) (expected : String) : Except FieldFault α :=
  fail (.wrongType value.describe expected)

/-- Puts a key in front of the place of a fault. -/
def within {α : Type} (key : String) (result : Except FieldFault α) : Except FieldFault α :=
  result.mapError fun e => { e with path := key :: e.path }

/-- A text, which is called `expected` in faults. -/
def textAs (expected : String) : Decoder String
  | .string text => .ok text
  | .char c => .ok (String.singleton c)
  | v => mismatch v expected

/-- A string. -/
def text : Decoder String :=
  textAs "a string"

/-- A path. -/
def path : Decoder String :=
  textAs "path string"

/-- A boolean. -/
def boolean : Decoder Bool
  | .bool b => .ok b
  | v => mismatch v "a boolean"

/-- A number of at most 8 bits. -/
def byte : Decoder Nat
  | .signed n =>
      if 0 ≤ n && n < 256 then .ok n.toNat
      else fail (.outOfRange (Value.describe (.signed n)) "u8")
  | .unsigned n =>
      if n < 256 then .ok n else fail (.outOfRange (Value.describe (.unsigned n)) "u8")
  | v => mismatch v "u8"

/-- A setting that may be absent. -/
def optional {α : Type} (decode : Decoder α) : Decoder (Option α)
  | .unit => .ok none
  | v => some <$> decode v

/-- The items of a list. -/
def items {α : Type} (decode : Decoder α) : (index : Nat) → List Value → Except FieldFault (List α)
  | _, [] => .ok []
  | index, v :: rest => do
      let first ← within (toString index) (decode v)
      return first :: (← items decode (index + 1) rest)

/-- A list. -/
def list {α : Type} (decode : Decoder α) : Decoder (List α)
  | .list values => items decode 0 values
  | v => mismatch v "a sequence"

/-- No value. -/
def nothing : Decoder Unit
  | .unit => .ok ()
  | v => mismatch v "unit"

/-- One of several words that each stand for a setting.  A word with a setting of its own inside
is the first key of a dictionary. -/
def variant {α : Type} (typeName : String) (known : List (String × Option α × Decoder α)) :
    Decoder α
  | .string word =>
      match known.find? (·.1 == word) with
      | some (_, some a, _) => .ok a
      | some (_, none, _) => fail (.wrongType "unit variant" "newtype variant")
      | none => fail (.unknownVariant word (known.map (·.1)))
  | .dict [] => fail (.wrongType "map" "enum")
  | .dict ((word, v) :: _) =>
      within word <| match known.find? (·.1 == word) with
        | some (_, _, decode) => decode v
        | none => fail (.unknownVariant word (known.map (·.1)))
  | v => mismatch v s!"enum {typeName}"

/-- One of several words. -/
def word {α : Type} (typeName : String) (name : α → String) (all : List α) : Decoder α :=
  variant typeName (all.map fun a => (name a, some a, fun v => (fun _ => a) <$> nothing v))

end Decoder

/-- The setting with a key, or its default. -/
def Fields.decode {α : Type} (fields : Fields) (key : String) (default : α) (decode : Decoder α) :
    Except FieldFault α :=
  match fields.get? key with
  | some v => Decoder.within key (decode v)
  | none => .ok default

end Config
end EsModules
