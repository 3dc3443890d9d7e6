import WalletExchange.Account.Request
import WalletExchange.Record.Names
import WalletExchange.Record.Path

/-!
# Requests as records

In the record of a request the path is its text, so a path that is not valid below a key cannot be
read back.
-/

namespace WalletExchange

open Record (Value)

namespace KeyType

def toRecord (t : KeyType) : Value := .text t.name

def ofRecord? (v : Value) : Option KeyType :=
  v.oneOf? ([privateKey, publicKey].map fun t => (t.name, t))

end KeyType

namespace KeyRequest

def toRecord (r : KeyRequest) : Value :=
  .fields
    [("keyType", r.keyType.toRecord), ("path", .text (toString r.path)),
      ("useInfo", r.useInfo.toRecord), ("isDerivable", .bool r.isDerivable)]

def ofRecord? (v : Value) : Option KeyRequest := do
  match ← v.structure? ["keyType", "path", "useInfo", "isDerivable"] with
  | [some keyType, some path, some useInfo, some isDerivable] =>
    return {
      keyType := ← KeyType.ofRecord? keyType
      path := ← (Path.ofString (← path.asText?)).toOption
      useInfo := ← UseInfo.ofRecord? useInfo
      isDerivable := ← isDerivable.asBool? }
  | _ => none

end KeyRequest

end WalletExchange
