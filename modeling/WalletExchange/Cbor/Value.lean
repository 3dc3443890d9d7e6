/-!
# CBOR values

The data model of RFC 8949.  A negative integer is kept as the number `n` in `-1 - n`, and a
floating-point number as the 64 bits of its double precision form, so that every value has one
written form.
-/

namespace WalletExchange.Cbor

/-- A CBOR value. -/
inductive Value where
  | unsigned (n : UInt64)
  /-- The integer `-1 - n`. -/
  | negative (n : UInt64)
  | bytes (data : List UInt8)
  | text (data : String)
  | array (items : List Value)
  | map (entries : List (Value × Value))
  | tag (number : UInt64) (content : Value)
  | bool (b : Bool)
  | null
  /-- A floating-point number of double precision. -/
  | float (bits : UInt64)

/-- The names of the kinds of values. -/
def Value.kind : Value → String
  | unsigned _ | negative _ => "integer"
  | bytes _ => "bytes"
  | text _ => "text"
  | array _ => "array"
  | map _ => "map"
  | tag _ _ => "tag"
  | bool _ => "bool"
  | null => "null"
  | float _ => "float"

/-- A map with unsigned keys, in the order of its entries. -/
def Value.ofFields (entries : List (UInt64 × Value)) : Value :=
  .map (entries.map fun (k, v) => (.unsigned k, v))

end WalletExchange.Cbor
