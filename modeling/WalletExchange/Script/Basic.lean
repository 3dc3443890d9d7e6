import WalletExchange.Key.Plain

/-!
# Scripts

A script is a byte string of instructions: operations, and pushes of data whose length is in the
instruction itself or in the one, two or four bytes that follow it.  `Script.instructions?` takes a
script apart, and the standard outputs are put together from instructions.
-/

namespace WalletExchange

/-- A script in its serialized form. -/
structure Script where
  bytes : Bytes
  deriving DecidableEq, Repr

/-- One instruction of a script. -/
inductive Instruction where
  | push (data : Bytes)
  | op (code : UInt8)
  deriving DecidableEq, Repr

namespace Script

/-- The first `n` bytes as data, if the script has as many. -/
def takePush? (n : Nat) (rest : Bytes) : Option (Instruction × Bytes) :=
  if n ≤ rest.length then some (.push (rest.take n), rest.drop n) else none

/-- A push whose length takes `width` bytes, the least significant first. -/
def takeLongPush? (width : Nat) (rest : Bytes) : Option (Instruction × Bytes) :=
  if width ≤ rest.length then
    takePush? (Bytes.toNat (rest.take width).reverse) (rest.drop width)
  else none

/-- The first instruction of a script. -/
def next? : Bytes → Option (Instruction × Bytes)
  | [] => none
  | code :: rest =>
    if code ≤ 0x4b then takePush? code.toNat rest
    else if code = 0x4c then takeLongPush? 1 rest
    else if code = 0x4d then takeLongPush? 2 rest
    else if code = 0x4e then takeLongPush? 4 rest
    else some (.op code, rest)

theorem takePush?_length {n : Nat} {rest after : Bytes} {i : Instruction}
    (h : takePush? n rest = some (i, after)) : after.length ≤ rest.length := by
  unfold takePush? at h
  split at h <;> simp_all
  obtain ⟨-, rfl⟩ := h
  simp

theorem takeLongPush?_length {width : Nat} {rest after : Bytes} {i : Instruction}
    (h : takeLongPush? width rest = some (i, after)) : after.length ≤ rest.length := by
  unfold takeLongPush? at h
  split at h
  · have := takePush?_length h
    simp only [List.length_drop] at this
    omega
  · cases h

/-- An instruction takes at least a byte. -/
theorem next?_length {bytes after : Bytes} {i : Instruction} (h : next? bytes = some (i, after)) :
    after.length < bytes.length := by
  cases bytes with
  | nil => cases h
  | cons code rest =>
    simp only [next?] at h
    simp only [List.length_cons]
    split at h
    · have := takePush?_length h; omega
    · split at h
      · have := takeLongPush?_length h; omega
      · split at h
        · have := takeLongPush?_length h; omega
        · split at h
          · have := takeLongPush?_length h; omega
          · cases h; omega

/-- The instructions of a script, unless a push runs past its end. -/
def readInstructions? (bytes : Bytes) : Option (List Instruction) :=
  match bytes with
  | [] => some []
  | first :: rest =>
    match h : next? (first :: rest) with
    | none => none
    | some (i, after) =>
      have := next?_length h
      (readInstructions? after).map (i :: ·)
termination_by bytes.length
decreasing_by exact this

/-- The instructions of a script, unless a push runs past its end. -/
def instructions? (s : Script) : Option (List Instruction) := readInstructions? s.bytes

/-- No push runs past the end of the script. -/
def isWellFormed (s : Script) : Bool := s.instructions?.isSome

/-- The length of data in front of it; keys and hashes are shorter than 76 bytes. -/
def pushBytes (data : Bytes) : Bytes := UInt8.ofNat data.length :: data

/-- The bytes of a number, the least significant first; the highest bit of the last one is the
sign. -/
def numberBytes (n : Int) : Bytes :=
  let magnitude := ((Base58.digits 256 8 n.natAbs).map UInt8.ofNat)
  match magnitude.getLast? with
  | none => []
  | some top =>
    let sign : UInt8 := if n < 0 then 0x80 else 0
    if top &&& 0x80 = 0 then magnitude.dropLast ++ [top ||| sign] else magnitude ++ [sign]

/-- Push a number: small ones have an operation of their own. -/
def pushInt (n : Int) : Bytes :=
  if n = -1 ∨ (1 ≤ n ∧ n ≤ 16) then [UInt8.ofNat (n + 0x50).toNat]
  else if n = 0 then [0x00]
  else pushBytes (numberBytes n)

/-- Pay to a key. -/
def payToKey (k : PublicKey) : Script := ⟨pushBytes k.toBytes ++ [0xac]⟩

/-- Pay to the digest of a key. -/
def payToKeyHash (hash : Block 20) : Script :=
  ⟨[0x76, 0xa9] ++ pushBytes hash.bytes ++ [0x88, 0xac]⟩

/-- Pay to the digest of a script. -/
def payToScriptHash (hash : Block 20) : Script := ⟨0xa9 :: pushBytes hash.bytes ++ [0x87]⟩

/-- Pay to a witness program. -/
def payToWitness (version : Nat) (program : Bytes) : Script :=
  ⟨pushInt version ++ pushBytes program⟩

/-- Ask for signatures by `threshold` of the keys. -/
def multisig (threshold : Int) (keys : List PublicKey) : Script :=
  ⟨pushInt threshold ++ keys.flatMap (fun k => pushBytes k.toBytes) ++ pushInt keys.length ++
    [0xae]⟩

/-- The digest that stands for the script in another one. -/
def hash (s : Script) : Block 20 := hash160 s.bytes

/-- The digest that stands for the script in a witness program. -/
def witnessHash (s : Script) : Block 32 := Sha2.sha256 s.bytes

end Script

end WalletExchange
