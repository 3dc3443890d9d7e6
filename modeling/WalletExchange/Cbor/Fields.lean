import WalletExchange.Cbor.Read
import WalletExchange.Cbor.Write

/-!
# Taking CBOR values apart

Readers of the parts of a value, each with the error that says what it misses.  A structure is a map
with unsigned keys; `find?` and `require` look a key up, and of two entries with one key the first
counts.
-/

namespace WalletExchange.Cbor

/-- What a reader expects to find. -/
inductive Expected where
  | map
  | unsignedInteger
  | boolean
  | byteString
  | array
  | taggedKey
  | taggedScriptFunction
  deriving DecidableEq, Repr

/-- The name of what is expected. -/
def Expected.name : Expected → String
  | map => "map"
  | unsignedInteger => "unsigned integer"
  | boolean => "boolean"
  | byteString => "byte string"
  | array => "array"
  | taggedKey => "tagged key"
  | taggedScriptFunction => "tagged script function"

/-- Why bytes or a text hold no value at all. -/
inductive Malformed where
  /-- The bytes are no encoding. -/
  | encoding
  /-- Bytes are left over. -/
  | trailing (count : Nat)
  /-- A text does not begin as it should. -/
  | missingScheme (scheme : String)
  deriving DecidableEq, Repr

/-- The text of the error. -/
def Malformed.message : Malformed → String
  | encoding => "not well-formed"
  | trailing count => s!"{count} trailing bytes"
  | missingScheme scheme => s!"UR must start with `{scheme}`"

/-- Why a value cannot be taken apart. -/
inductive DecodeError where
  | malformed (cause : Malformed)
  | wrongTag (expected found : UInt64)
  | untagged (expected : UInt64)
  | unknownTag (found : UInt64)
  | unexpectedType (expected : Expected)
  | missingField (key : UInt64)
  | invalidValue (reason : String)
  deriving DecidableEq, Repr

/-- The text of the error. -/
def DecodeError.message : DecodeError → String
  | malformed cause => s!"malformed CBOR data: {cause.message}"
  | wrongTag expected found =>
    s!"expected CBOR tag {expected.toNat}, found tag {found.toNat}"
  | untagged expected => s!"expected CBOR tag {expected.toNat}, found untagged value"
  | unknownTag found => s!"CBOR tag {found.toNat} is not known in this context"
  | unexpectedType expected => s!"expected CBOR {expected.name}"
  | missingField key => s!"required CBOR map key {key.toNat} is absent"
  | invalidValue reason => s!"invalid value: {reason}"

/-- Read a value that takes up all of the bytes. -/
def Value.decode? (bytes : Bytes) : Except DecodeError Value :=
  match readValue depthLimit bytes with
  | some (value, []) => .ok value
  | some (_, rest@(_ :: _)) => .error (.malformed (.trailing rest.length))
  | none => .error (.malformed .encoding)

namespace Value

/-- The number of the tag of a tagged value. -/
def tagNumber? : Value → Option UInt64
  | tag number _ => some number
  | _ => none

/-- The content under an expected tag. -/
def untag (expected : UInt64) : Value → Except DecodeError Value
  | tag number content =>
    if number = expected then .ok content else .error (.wrongTag expected number)
  | _ => .error (.untagged expected)

def asUInt64 : Value → Except DecodeError UInt64
  | unsigned n => .ok n
  | _ => .error (.unexpectedType .unsignedInteger)

def asUInt32 (v : Value) : Except DecodeError UInt32 := do
  let n ← v.asUInt64
  if n.toNat < UInt32.size then .ok n.toUInt32
  else .error (.invalidValue "integer does not fit into 32 bits")

def asBool : Value → Except DecodeError Bool
  | bool b => .ok b
  | _ => .error (.unexpectedType .boolean)

def asBytes : Value → Except DecodeError Bytes
  | bytes data => .ok data
  | _ => .error (.unexpectedType .byteString)

def asArray : Value → Except DecodeError (List Value)
  | array items => .ok items
  | _ => .error (.unexpectedType .array)

/-- The value is a given unsigned integer. -/
def isKey (key : UInt64) : Value → Bool
  | unsigned n => n == key
  | _ => false

end Value

/-- The entries of a map. -/
abbrev Fields := List (Value × Value)

/-- The entries of a value that is a map. -/
def Value.asFields : Value → Except DecodeError Fields
  | map entries => .ok entries
  | _ => .error (.unexpectedType .map)

namespace Fields

/-- The value of the first entry with a key. -/
def find? (fields : Fields) (key : UInt64) : Option Value :=
  (List.find? (fun entry => entry.1.isKey key) fields).map Prod.snd

/-- The value of an entry that has to be there. -/
def require (fields : Fields) (key : UInt64) : Except DecodeError Value :=
  match fields.find? key with
  | some value => .ok value
  | none => .error (.missingField key)

/-- The value of an entry that may be absent, decoded. -/
def optional {α : Type} (fields : Fields) (key : UInt64) (decode : Value → Except DecodeError α) :
    Except DecodeError (Option α) :=
  match fields.find? key with
  | some value => (decode value).map some
  | none => .ok none

/-- The value of an entry, decoded, or a default if it is absent. -/
def getOr {α : Type} (fields : Fields) (key : UInt64) (decode : Value → Except DecodeError α)
    (default : α) : Except DecodeError α :=
  (fields.optional key decode).map fun found => found.getD default

end Fields

end WalletExchange.Cbor
