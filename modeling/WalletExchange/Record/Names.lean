import WalletExchange.Descriptor.Node
import WalletExchange.Key.Resolve
import WalletExchange.Record.Value

/-!
# Choices as records

Records of the types that are choices without content: networks, assets, keywords, kinds of script
functions, and forms of a combination.
-/

namespace WalletExchange

open Record (Value)

namespace Network

/-- The name of the network in records. -/
def recordName : Network → String
  | mainnet => "Mainnet"
  | testnet => "Testnet"

def toRecord (n : Network) : Value := .text n.recordName

def ofRecord? (v : Value) : Option Network :=
  v.oneOf? ([mainnet, testnet].map fun n => (n.recordName, n))

end Network

namespace Asset

/-- The name of the asset in records. -/
def recordName : Asset → String
  | btc => "Btc"
  | eth => "Eth"

def toRecord (a : Asset) : Value := .text a.recordName

def ofRecord? (v : Value) : Option Asset := v.oneOf? ([btc, eth].map fun a => (a.recordName, a))

end Asset

namespace UseInfo

def toRecord (u : UseInfo) : Value :=
  .fields [("asset", u.asset.toRecord), ("network", u.network.toRecord)]

def ofRecord? (v : Value) : Option UseInfo := do
  match ← v.structure? ["asset", "network"] with
  | [some asset, some network] => return ⟨← Asset.ofRecord? asset, ← Network.ofRecord? network⟩
  | _ => none

end UseInfo

namespace Keyword

def toRecord (k : Keyword) : Value := .text k.name

def ofRecord? (v : Value) : Option Keyword := v.oneOf? (all.map fun k => (k.name, k))

end Keyword

namespace NodeKind

def toRecord (k : NodeKind) : Value := .text k.name

def ofRecord? (v : Value) : Option NodeKind := v.oneOf? (priority.map fun k => (k.name, k))

end NodeKind

namespace ComboOutput

/-- The name of the form in records. -/
def recordName : ComboOutput → String
  | pk => "pk"
  | pkh => "pkh"
  | wpkh => "wpkh"
  | shWpkh => "shWpkh"

def toRecord (c : ComboOutput) : Value := .text c.recordName

def ofRecord? (v : Value) : Option ComboOutput :=
  v.oneOf? ([pk, pkh, wpkh, shWpkh].map fun c => (c.recordName, c))

end ComboOutput

end WalletExchange
