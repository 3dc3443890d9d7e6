import WalletExchange.Cbor.Fields
import WalletExchange.Cbor.Tags

/-!
# What a key is for

The asset and the network of a key, an address or a request.  `BitcoinNetwork` tells the test
networks apart, as texts of addresses do; `Network` does not, as no encoding does.
-/

namespace WalletExchange

open Cbor (Value DecodeError Fields)

/-- A network of the currency. -/
inductive BitcoinNetwork where
  | bitcoin
  | testnet
  | signet
  | regtest
  deriving DecidableEq, Repr

/-- The name of the network. -/
def BitcoinNetwork.name : BitcoinNetwork → String
  | bitcoin => "bitcoin"
  | testnet => "testnet"
  | signet => "signet"
  | regtest => "regtest"

/-- The main network or any of the test networks. -/
inductive Network where
  | mainnet
  | testnet
  deriving DecidableEq, Ord, Repr

namespace Network

/-- The name of the network. -/
def name : Network → String
  | mainnet => "mainnet"
  | testnet => "testnet"

/-- The main network, or one test network for all. -/
def toBitcoin : Network → BitcoinNetwork
  | mainnet => .bitcoin
  | testnet => .testnet

/-- Forget which test network it is. -/
def ofBitcoin : BitcoinNetwork → Network
  | .bitcoin => mainnet
  | .testnet | .signet | .regtest => testnet

/-- The number that stands for the network. -/
def toUInt64 : Network → UInt64
  | mainnet => 0
  | testnet => 1

/-- The network that a number stands for. -/
def ofUInt64? (n : UInt64) : Except DecodeError Network :=
  if n = 0 then .ok mainnet
  else if n = 1 then .ok testnet
  else .error (.invalidValue s!"unknown network {n.toNat}")

end Network

/-- A currency. -/
inductive Asset where
  | btc
  | eth
  deriving DecidableEq, Ord, Repr

namespace Asset

/-- The name of the asset. -/
def name : Asset → String
  | btc => "btc"
  | eth => "eth"

/-- The registered coin type. -/
def coinType : Asset → UInt32
  | btc => 0
  | eth => 60

/-- The asset of a registered coin type. -/
def ofUInt64? (n : UInt64) : Except DecodeError Asset :=
  if n = 0 then .ok btc
  else if n = 60 then .ok eth
  else .error (.invalidValue s!"unknown coin type {n.toNat}")

end Asset

/-- The asset and the network that something is for. -/
structure UseInfo where
  asset : Asset
  network : Network
  deriving DecidableEq, Repr

namespace UseInfo

/-- Bitcoin on the main network, which is meant where nothing is said. -/
def standard : UseInfo := ⟨.btc, .mainnet⟩

/-- Bitcoin on a network. -/
def ofNetwork (network : Network) : UseInfo := ⟨.btc, network⟩

/-- The asset and the network with a slash between them. -/
def name (u : UseInfo) : String := u.asset.name ++ "/" ++ u.network.name

/-- The coin type in derivation paths: 1 on test networks, else the registered one. -/
def coinType (u : UseInfo) : UInt32 :=
  match u.network with
  | .testnet => 1
  | .mainnet => u.asset.coinType

/-- The map of what is not standard. -/
def toCborContent (u : UseInfo) : Value :=
  .ofFields ((if u.asset = .btc then [] else [(1, .unsigned u.asset.coinType.toUInt64)]) ++
    if u.network = .mainnet then [] else [(2, .unsigned u.network.toUInt64)])

/-- The tagged value. -/
def toCbor (u : UseInfo) : Value := .tag Cbor.Tag.coinInfo u.toCborContent

/-- Read the map; what is absent is standard. -/
def ofCborContent? (v : Value) : Except DecodeError UseInfo := do
  let fields ← v.asFields
  let asset ← fields.getOr 1 (fun v => do Asset.ofUInt64? (← v.asUInt64)) .btc
  let network ← fields.getOr 2 (fun v => do Network.ofUInt64? (← v.asUInt64)) .mainnet
  return ⟨asset, network⟩

/-- Read the tagged value. -/
def ofCbor? (v : Value) : Except DecodeError UseInfo := do
  ofCborContent? (← v.untag Cbor.Tag.coinInfo)

/-- The entry for use information, which is there only if it is not standard. -/
def field (key : UInt64) (u : UseInfo) : List (UInt64 × Value) :=
  if u = standard then [] else [(key, u.toCbor)]

/-- Read the entry for use information. -/
def ofField? (fields : Fields) (key : UInt64) : Except DecodeError UseInfo :=
  fields.getOr key ofCbor? standard

end UseInfo

end WalletExchange
