/-!
# Structured records

Values of names, numbers, lists and named fields, as which data is kept in files.  A structure is a
value with named fields, or the list of its fields in order.  A choice without content is the name
of the alternative, or a single field of that name with nothing in it; a choice with content is a
single field.
-/

namespace WalletExchange.Record

/-- A structured value. -/
inductive Value where
  | null
  | bool (b : Bool)
  | int (n : Int)
  /-- A number that is not written as an integer. -/
  | fraction
  | text (s : String)
  | list (items : List Value)
  | fields (entries : List (String × Value))

namespace Value

def ofUInt32 (n : UInt32) : Value := .int n.toNat

def asUInt32? : Value → Option UInt32
  | int n => if 0 ≤ n ∧ n < UInt32.size then some (UInt32.ofNat n.toNat) else none
  | _ => none

def asUInt8? : Value → Option UInt8
  | int n => if 0 ≤ n ∧ n < UInt8.size then some (UInt8.ofNat n.toNat) else none
  | _ => none

def asBool? : Value → Option Bool
  | bool b => some b
  | _ => none

def asText? : Value → Option String
  | text s => some s
  | _ => none

def asList? : Value → Option (List Value)
  | list items => some items
  | _ => none

/-- The fields of a structure with given names: each is absent, or has a value.  Other fields do not
count. -/
def structure? (names : List String) : Value → Option (List (Option Value))
  | fields entries => some (names.map fun name => entries.lookup name)
  | list items => if items.length = names.length then some (items.map some) else none
  | _ => none

/-- The name of the chosen alternative, and its content if there is any. -/
def choice? : Value → Option (String × Option Value)
  | text name => some (name, none)
  | fields [(name, content)] => some (name, some content)
  | _ => none

/-- The name of an alternative without content. -/
def plainChoice? (v : Value) : Option String :=
  match v.choice? with
  | some (name, none) | some (name, some .null) => some name
  | _ => none

/-- The one of some alternatives without content that is chosen. -/
def oneOf? {α : Type} (names : List (String × α)) (v : Value) : Option α :=
  v.plainChoice?.bind fun name => names.lookup name

end Value

end WalletExchange.Record
