import WalletExchange.Bytes
import WalletExchange.Cbor.Float
import WalletExchange.Cbor.Value

/-!
# Reading CBOR

Every well-formed encoding is read, not only the one that is written: heads of any width, strings in
segments, arrays and maps that end with a stop.  At most `depthLimit` arrays, maps and tags may be
nested.  A big integer of at most sixteen bytes that fits an integer head reads as that integer.
-/

namespace WalletExchange.Cbor

/-- What the first bytes of a value say. -/
inductive Head where
  | unsigned (n : Nat)
  | negative (n : Nat)
  /-- A length is absent if the item ends with a stop. -/
  | bytes (length : Option Nat)
  | text (length : Option Nat)
  | array (length : Option Nat)
  | map (length : Option Nat)
  | tag (number : Nat)
  | simple (n : Nat)
  | float (bits : UInt64)
  | stop

/-- The first `n` elements and the rest, if there are as many. -/
def takeExactly {α : Type} : (n : Nat) → List α → Option (List α × List α)
  | 0, rest => some ([], rest)
  | _ + 1, [] => none
  | n + 1, x :: rest => (takeExactly n rest).map fun (taken, rest) => (x :: taken, rest)

/-- A number of `width` bytes. -/
def readNumber (width : Nat) (bytes : Bytes) : Option (Nat × Bytes) :=
  (takeExactly width bytes).map fun (taken, rest) => (Bytes.toNat taken, rest)

/-- The head that a major type and a number make. -/
def headOfNumber (major n : Nat) : Head :=
  match major with
  | 0 => .unsigned n
  | 1 => .negative n
  | 2 => .bytes (some n)
  | 3 => .text (some n)
  | 4 => .array (some n)
  | 5 => .map (some n)
  | 6 => .tag n
  | _ => .simple n

/-- The head of an item that ends with a stop. -/
def headOfIndefinite? : (major : Nat) → Option Head
  | 2 => some (.bytes none)
  | 3 => some (.text none)
  | 4 => some (.array none)
  | 5 => some (.map none)
  | 7 => some .stop
  | _ => none

/-- Read a head. -/
def readHead : Bytes → Option (Head × Bytes)
  | [] => none
  | first :: rest =>
    let major := first.toNat / 32
    let low := first.toNat % 32
    if low < 24 then some (headOfNumber major low, rest)
    else if low = 24 then (readNumber 1 rest).map fun (n, rest) => (headOfNumber major n, rest)
    else if low = 25 then
      (readNumber 2 rest).map fun (n, rest) =>
        (if major = 7 then .float (Float.half.widen n) else headOfNumber major n, rest)
    else if low = 26 then
      (readNumber 4 rest).map fun (n, rest) =>
        (if major = 7 then .float (Float.single.widen n) else headOfNumber major n, rest)
    else if low = 27 then
      (readNumber 8 rest).map fun (n, rest) =>
        (if major = 7 then .float (UInt64.ofNat n) else headOfNumber major n, rest)
    else if low = 31 then (headOfIndefinite? major).map fun head => (head, rest)
    else none

/-- The text that bytes in UTF-8 spell. -/
def decodeText? (bytes : Bytes) : Option String := String.fromUTF8? ⟨bytes.toArray⟩

/-- Read the segments of a string up to the stop that ends it; `segmentLength?` tells the length of
a segment from its head.  A segment may itself be one of open length, and `depth` such are not ended
yet. -/
def readSegments {α : Type} (segmentLength? : Head → Option (Option Nat))
    (decode? : Bytes → Option α) : (fuel depth : Nat) → Bytes → Option (List α × Bytes)
  | 0, _, _ => none
  | fuel + 1, depth, bytes => do
    let (head, rest) ← readHead bytes
    match head with
    | .stop =>
      if depth = 0 then return ([], rest)
      else readSegments segmentLength? decode? fuel (depth - 1) rest
    | head =>
      match ← segmentLength? head with
      | none => readSegments segmentLength? decode? fuel (depth + 1) rest
      | some n =>
        let (taken, rest) ← takeExactly n rest
        let segment ← decode? taken
        let (segments, rest) ← readSegments segmentLength? decode? fuel depth rest
        return (segment :: segments, rest)

/-- The length of a segment of bytes. -/
def Head.bytesLength? : Head → Option (Option Nat)
  | .bytes length => some length
  | _ => none

/-- The length of a segment of text. -/
def Head.textLength? : Head → Option (Option Nat)
  | .text length => some length
  | _ => none

/-- Read the content of a byte string. -/
def readBytes (length : Option Nat) (bytes : Bytes) : Option (Bytes × Bytes) :=
  match length with
  | some n => takeExactly n bytes
  | none =>
    (readSegments Head.bytesLength? some bytes.length 0 bytes).map fun (segments, rest) =>
      (segments.flatten, rest)

/-- Read the content of a text. -/
def readText (length : Option Nat) (bytes : Bytes) : Option (String × Bytes) :=
  match length with
  | some n => do
    let (taken, rest) ← takeExactly n bytes
    let text ← decodeText? taken
    return (text, rest)
  | none =>
    (readSegments Head.textLength? decodeText? bytes.length 0 bytes).map fun (segments, rest) =>
      (String.join segments, rest)

/-- Read `n` items. -/
def readMany {α : Type} (item : Bytes → Option (α × Bytes)) :
    (n : Nat) → Bytes → Option (List α × Bytes)
  | 0, bytes => some ([], bytes)
  | n + 1, bytes => do
    let (x, rest) ← item bytes
    let (xs, rest) ← readMany item n rest
    return (x :: xs, rest)

/-- Read items up to a stop. -/
def readUntilStop {α : Type} (item : Bytes → Option (α × Bytes)) :
    (fuel : Nat) → Bytes → Option (List α × Bytes)
  | 0, _ => none
  | fuel + 1, bytes =>
    if bytes.head? = some 0xff then some ([], bytes.tail)
    else do
      let (x, rest) ← item bytes
      let (xs, rest) ← readUntilStop item fuel rest
      return (x :: xs, rest)

/-- Read as many items as a length says. -/
def readItems {α : Type} (item : Bytes → Option (α × Bytes)) (length : Option Nat)
    (bytes : Bytes) : Option (List α × Bytes) :=
  match length with
  | some n => readMany item n bytes
  | none => readUntilStop item bytes.length bytes

/-- Read a key and its value. -/
def readEntry (item : Bytes → Option (Value × Bytes)) (bytes : Bytes) :
    Option ((Value × Value) × Bytes) := do
  let (key, rest) ← item bytes
  let (value, rest) ← item rest
  return ((key, value), rest)

/-- The value of a big integer: an integer if it fits a head, and else its tag with the bytes that
do not begin with zero.  A negative one has at most 127 bits. -/
def bigInteger? (isNegative : Bool) (data : Bytes) : Option Value :=
  let n := Bytes.toNat data
  if n < UInt64.size then
    some (if isNegative then .negative (UInt64.ofNat n) else .unsigned (UInt64.ofNat n))
  else if isNegative && 1 <<< 127 ≤ n then none
  else some (.tag (if isNegative then 3 else 2) (.bytes (data.dropWhile (· == 0))))

/-- Read a big integer of at most sixteen bytes after its tag, if that is what follows. -/
def readBigInteger (number : Nat) (bytes : Bytes) : Option (Option Value × Bytes) :=
  if number = 2 ∨ number = 3 then
    match readHead bytes with
    | some (.bytes (some n), rest) =>
      if n ≤ 16 then do
        let (data, rest) ← takeExactly n rest
        let value ← bigInteger? (number = 3) data
        return (some value, rest)
      else some (none, bytes)
    | _ => some (none, bytes)
  else some (none, bytes)

/-- Read a value whose parts are read by `part`; where nesting ends there is no such reader. -/
def readWith (part : Option (Bytes → Option (Value × Bytes))) (bytes : Bytes) :
    Option (Value × Bytes) := do
  let (head, rest) ← readHead bytes
  match head with
  | .unsigned n => return (.unsigned (UInt64.ofNat n), rest)
  | .negative n => return (.negative (UInt64.ofNat n), rest)
  | .bytes length =>
    let (data, rest) ← readBytes length rest
    return (.bytes data, rest)
  | .text length =>
    let (data, rest) ← readText length rest
    return (.text data, rest)
  | .array length =>
    let (items, rest) ← readItems (← part) length rest
    return (.array items, rest)
  | .map length =>
    let (entries, rest) ← readItems (readEntry (← part)) length rest
    return (.map entries, rest)
  | .tag number =>
    match ← readBigInteger number rest with
    | (some value, rest) => return (value, rest)
    | (none, rest) =>
      let (content, rest) ← (← part) rest
      return (.tag (UInt64.ofNat number) content, rest)
  | .simple 20 => return (.bool false, rest)
  | .simple 21 => return (.bool true, rest)
  | .simple 22 | .simple 23 => return (.null, rest)
  | .float bits => return (.float bits, rest)
  | .simple _ | .stop => none

/-- Read a value with at most `depth` levels of arrays, maps and tags. -/
def readValue : (depth : Nat) → Bytes → Option (Value × Bytes)
  | 0 => readWith none
  | depth + 1 => readWith (some (readValue depth))

/-- How deep arrays, maps and tags may be nested. -/
def depthLimit : Nat := 256

end WalletExchange.Cbor
