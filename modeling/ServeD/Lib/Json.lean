import Mathlib.Data.BitVec
import Mathlib.Data.List.Basic

/-! # JSON values

The values of json4s, without floating point numbers: how fields are found in them, and how
integers, texts and truth values are extracted. -/

namespace ServeD.Lib.Json

inductive JValue where
  | nothing
  | null
  | string (s : String)
  | int (i : ℤ)
  | bool (b : Bool)
  | object (fields : List (String × JValue))
  | array (items : List JValue)

namespace JValue

mutual

/-- The values of a field. In an array, those of all its elements. -/
def directByName (name : String) : JValue → List JValue
  | .object fields => (fields.filter fun f => f.1 = name).map Prod.snd
  | .array items => directByNames name items
  | _ => []

def directByNames (name : String) : List JValue → List JValue
  | [] => []
  | v :: vs => directByName name v ++ directByNames name vs

end

/-- `json \ name`. -/
def field (json : JValue) (name : String) : JValue :=
  match directByName name json with
  | [] => .nothing
  | [v] => v
  | vs => .array vs

/-- `json.children`. -/
def children : JValue → List JValue
  | .object fields => fields.map Prod.snd
  | .array items => items
  | _ => []

/-- `extract[Int]` and `extract[Long]`, where `w` is the number of bits. -/
def extractInt (w : ℕ) : JValue → Option (BitVec w)
  | .int i => some (BitVec.ofInt w i)
  | _ => none

/-- `extract[String]`, for what is not `null`. -/
def extractString : JValue → Option String
  | .string s => some s
  | .int i => some (toString i)
  | _ => none

/-- `extract[Boolean]`. -/
def extractBoolean : JValue → Option Bool
  | .bool b => some b
  | _ => none

end JValue

/-- A library that writes values as texts and reads them back. -/
structure Codec (Text : Type) where
  compact : JValue → Text
  parse : Text → Option JValue
  parse_compact : ∀ v, parse (compact v) = some v

/-- Values that are their own texts. -/
def Codec.identity : Codec JValue := ⟨id, some, fun _ => rfl⟩

end ServeD.Lib.Json
